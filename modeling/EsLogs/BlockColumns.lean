import EsLogs.BlockResult

/-!
What the fields of a block hold. A lookup by name may set up the list of columns and may add an empty
column, but no later lookup sees a difference, so each field has one content and, in a block whose values
can be decoded, one text for each row.
-/

namespace EsLogs

open NumberText ColumnValues List

variable (br : BlockResult)

/-- The texts of a column, as `new_values_for_column` decodes them. -/
def ColumnContent.values (c : Float64Codec) (br : BlockResult) : ColumnContent → Outcome (List Bytes)
  | .const value => .ok (List.replicate br.rowsLen value)
  | .time => .ok (br.timestampsBuf.map marshalTimestampRfc3339NanoString)
  | .encoded valueType dictValues valuesEncoded => valuesEncoded.mapM (decodeValue c valueType dictValues)

namespace BlockResult

variable {c : Float64Codec}

variable {br : BlockResult}

theorem columnGetValues_eq {r : ColRef} {column : BlockResultColumn}
    (h : br.col r = .ok column) : br.columnGetValues c r = column.content.values c br := by
  rw [columnGetValues, h, except_ok_bind]
  cases column.content <;> rfl

/-- What a lookup of a field finds: the content of its column, or one empty value for all rows. -/
def contentOf (br : BlockResult) (columnName : Bytes) : ColumnContent :=
  let br := br.ensureCs
  match br.cs.find? fun ci => br.csBuf[ci]?.map (·.name) = some (getCanonicalColumnName columnName) with
  | some ci => (br.csBuf[ci]?.map (·.content)).getD (.const [])
  | none => .const []

def valuesOf (c : Float64Codec) (br : BlockResult) (columnName : Bytes) : List Bytes :=
  match (br.contentOf columnName).values c br with
  | .ok values => values
  | .error _ => []

/-- A block whose columns have one text for each row, of a length that fits in memory, and whose empty
columns are empty. -/
structure Valid (c : Float64Codec) (br : BlockResult) : Prop where
  values_ok : ∀ column ∈ br.csBuf, ∃ values, column.content.values c br = .ok values ∧
    values.length = br.rowsLen ∧ ∀ v ∈ values, v.length < 2 ^ 64
  empty_const : ∀ column ∈ br.csEmpty, column.content = .const []

@[simp]
theorem rowsLen_ensureCs : br.ensureCs.rowsLen = br.rowsLen := by
  unfold ensureCs
  split_ifs <;> rfl

@[simp]
theorem csBuf_ensureCs : br.ensureCs.csBuf = br.csBuf := by
  unfold ensureCs
  split_ifs <;> rfl

@[simp]
theorem csEmpty_ensureCs : br.ensureCs.csEmpty = br.csEmpty := by
  unfold ensureCs
  split_ifs <;> rfl

@[simp]
theorem timestampsBuf_ensureCs : br.ensureCs.timestampsBuf = br.timestampsBuf := by
  unfold ensureCs
  split_ifs <;> rfl

theorem ensureCs_of_initialized (h : br.csInitialized = true) : br.ensureCs = br :=
  if_pos h

theorem csInitialized_ensureCs : br.ensureCs.csInitialized = true := by
  unfold ensureCs
  split_ifs with h
  · exact h
  · rfl

/-- What a lookup may change. -/
theorem getColumnByName_fst (columnName : Bytes) : (br.getColumnByName columnName).1 = br.ensureCs ∨
      (br.getColumnByName columnName).1 = { br.ensureCs with
        csEmpty := br.csEmpty ++ [⟨getCanonicalColumnName columnName, .const []⟩] } := by
  unfold getColumnByName
  dsimp only
  split
  · exact .inl rfl
  · unfold getEmptyColumnByName
    split
    · exact .inl rfl
    · right
      rw [csEmpty_ensureCs]

@[simp]
theorem rowsLen_getColumnByName (columnName : Bytes) : (br.getColumnByName columnName).1.rowsLen = br.rowsLen := by
  rcases br.getColumnByName_fst columnName with h | h <;> rw [h] <;> simp

theorem values_getColumnByName (columnName : Bytes) (content : ColumnContent) :
    content.values c (br.getColumnByName columnName).1 = content.values c br := by
  have htimes : (br.getColumnByName columnName).1.timestampsBuf = br.timestampsBuf := by
    rcases br.getColumnByName_fst columnName with h | h <;> rw [h] <;> simp
  cases content with
  | const value => simp only [ColumnContent.values, rowsLen_getColumnByName]
  | time => simp only [ColumnContent.values, htimes]
  | encoded vt d vs => rfl

theorem contentOf_getColumnByName (columnName other : Bytes) :
    (br.getColumnByName columnName).1.contentOf other = br.contentOf other := by
  have hens : br.ensureCs.ensureCs = br.ensureCs := ensureCs_of_initialized br.csInitialized_ensureCs
  rcases br.getColumnByName_fst columnName with h | h
  · rw [h, contentOf, hens]
    rfl
  · have hinit : (br.getColumnByName columnName).1.csInitialized = true := by
      rw [h]
      exact br.csInitialized_ensureCs
    rw [contentOf, ensureCs_of_initialized hinit, h]
    rfl

theorem valuesOf_getColumnByName (columnName other : Bytes) :
    (br.getColumnByName columnName).1.valuesOf c other = br.valuesOf c other := by
  rw [valuesOf, valuesOf, contentOf_getColumnByName, values_getColumnByName]

section

variable (h : br.Valid c) (columnName : Bytes)
include h columnName

theorem Valid.getColumnByName :
    (br.getColumnByName columnName).1.Valid c where
  values_ok := by
    intro column hcolumn
    rw [values_getColumnByName, rowsLen_getColumnByName]
    apply h.values_ok
    rcases br.getColumnByName_fst columnName with heq | heq <;> simpa [heq] using hcolumn
  empty_const := by
    intro column hcolumn
    rcases br.getColumnByName_fst columnName with heq | heq
    · rw [heq, csEmpty_ensureCs] at hcolumn
      exact h.empty_const column hcolumn
    · rw [heq, mem_append, mem_singleton] at hcolumn
      rcases hcolumn with hcolumn | rfl
      · exact h.empty_const column hcolumn
      · rfl

/-- The reference a lookup returns stands for the content of the field. -/
theorem Valid.col_getColumnByName :
    ∃ column, (br.getColumnByName columnName).1.col (br.getColumnByName columnName).2 = .ok column ∧
      column.content = br.contentOf columnName := by
  unfold BlockResult.getColumnByName contentOf
  dsimp only
  cases hfind : br.ensureCs.cs.find? fun ci =>
      br.ensureCs.csBuf[ci]?.map (·.name) = some (getCanonicalColumnName columnName) with
  | some ci =>
    have hname := find?_some hfind
    cases hci : br.csBuf[ci]? with
    | none => simp [hci] at hname
    | some column => exact ⟨column, by simp [col, hci], by simp [hci]⟩
  | none =>
    dsimp only
    unfold getEmptyColumnByName
    rw [csEmpty_ensureCs]
    cases hidx : br.csEmpty.findIdx? fun c => c.name = getCanonicalColumnName columnName with
    | some i =>
      obtain ⟨hi, -⟩ := findIdx?_eq_some_iff_getElem.1 hidx
      exact ⟨br.csEmpty[i], by simp [col, hi], h.empty_const _ (getElem_mem hi)⟩
    | none => exact ⟨_, by simp [col]; rfl, rfl⟩

/-- The content of a field has one text for each row. -/
theorem Valid.values_contentOf :
    ∃ values, (br.contentOf columnName).values c br = .ok values ∧ values.length = br.rowsLen ∧
      ∀ v ∈ values, v.length < 2 ^ 64 := by
  have hempty : ∃ values, (ColumnContent.const []).values c br = .ok values ∧ values.length = br.rowsLen ∧
      ∀ v ∈ values, v.length < 2 ^ 64 := by
    refine ⟨_, rfl, length_replicate, ?_⟩
    intro v hv
    rw [eq_of_mem_replicate hv]
    decide
  unfold contentOf
  dsimp only
  split
  · rename_i ci _
    cases hci : br.ensureCs.csBuf[ci]? with
    | none => exact hempty
    | some column =>
      apply h.values_ok
      rw [← csBuf_ensureCs]
      exact mem_of_getElem? hci
  · exact hempty

theorem Valid.values_eq :
    (br.contentOf columnName).values c br = .ok (br.valuesOf c columnName) := by
  obtain ⟨values, hvalues, -⟩ := h.values_contentOf columnName
  rw [valuesOf, hvalues]

theorem Valid.length_valuesOf :
    (br.valuesOf c columnName).length = br.rowsLen := by
  obtain ⟨values, hvalues, hlen, -⟩ := h.values_contentOf columnName
  rw [valuesOf, hvalues]
  exact hlen

end

theorem Valid.length_lt (h : br.Valid c) {columnName v : Bytes}
    (hv : v ∈ br.valuesOf c columnName) : v.length < 2 ^ 64 := by
  obtain ⟨values, hvalues, -, hshort⟩ := h.values_contentOf columnName
  rw [valuesOf, hvalues] at hv
  exact hshort v hv

/-- A lookup of a field and its texts, in one step. -/
theorem Valid.columnGetValues (h : br.Valid c) (columnName : Bytes) :
    (br.getColumnByName columnName).1.columnGetValues c (br.getColumnByName columnName).2 =
      .ok (br.valuesOf c columnName) := by
  obtain ⟨column, hcol, hcontent⟩ := h.col_getColumnByName columnName
  rw [columnGetValues_eq hcol, hcontent, values_getColumnByName, h.values_eq]

end BlockResult

end EsLogs
