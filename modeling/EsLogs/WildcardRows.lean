import EsLogs.FilterSemantics

/-!
Filters on a field-name pattern (`filter_generic.rs`) and single rows. The block evaluators try the pattern on the
columns of the whole block, `match_row` tries it on the fields of the row. A column in which the row has no field makes
a difference exactly if the filter accepts the empty value and no field of the row.
-/

namespace EsLogs

variable {κ F : Type}

def getFieldValueByName (fields : List Field) (name : Bytes) : Bytes :=
  match fields with
  | [] => []
  | f :: fields => if f.name = name then f.value else getFieldValueByName fields name

theorem getFieldValueByName_of_notMem {fields : List Field} {name : Bytes} (h : name ∉ fields.map (·.name)) :
    getFieldValueByName fields name = [] := by
  induction fields with
  | nil => rfl
  | cons f fields ih =>
    rw [List.map_cons, List.mem_cons, not_or] at h
    rw [getFieldValueByName, if_neg (Ne.symm h.1), ih h.2]

section

variable [FieldFilter F κ] (g : FilterGeneric F) (accepts : Bytes → Bool)

/-- The filter behind the pattern is about the value of its field, in rows. -/
def FilterGeneric.AboutValues : Prop := ∀ fields name,
  FieldFilter.matchRowByField g.f fields name = accepts (getFieldValueByName fields name)

/-- A searched block with these rows, on which the filter behind the pattern is about the value of its field. Names
that are hidden are not fields of the rows. -/
structure SearchedBlock.HasRows (b : SearchedBlock κ) (rows : List (List Field)) : Prop where
  columns : ∀ fields ∈ rows, ∀ f ∈ fields, f.name ∈ b.columns
  exact : ∀ name, Selects b.rows (BlockSearch.Searches b)
    (fun i => accepts (getFieldValueByName (rows.getD i []) name) = true)
    (FieldFilter.applyToBlockSearchByField g.f name)

/-- The same for a block of results. -/
structure BlockResult.HasRows (br : BlockResult) (columns : List Bytes) (rows : List (List Field)) : Prop where
  names : br.columnNames = .ok columns
  columns : ∀ fields ∈ rows, ∀ f ∈ fields, f.name ∈ columns
  exact : ∀ name, Selects br.rowsLen br.SameRows
    (fun i => accepts (getFieldValueByName (rows.getD i []) name) = true)
    (FieldFilter.applyToBlockResultByField g.f name)

variable {g accepts} in
theorem FilterGeneric.holds_wildcard_iff (hg : g.isWildcard = true) {rows : List (List Field)}
    {fields : List Field} {i : Nat} (hi : rows[i]? = some fields) (columns : List Bytes) :
    g.Holds (fun _ name i => accepts (getFieldValueByName (rows.getD i []) name) = true) columns i ↔
      ∃ name ∈ columns, g.wildcard <+: name ∧ accepts (getFieldValueByName fields name) = true := by
  unfold FilterGeneric.Holds
  beta_reduce
  rw [if_pos hg, List.getD_eq_getElem?_getD, hi]
  rfl

/-- A block that contains a row which is still in question, and how the filter is applied to it. -/
inductive Evaluation (fields : List Field) : Type
  | search (b : SearchedBlock κ) (rows : List (List Field)) (h : b.HasRows g accepts rows) (bs : BlockSearch κ)
      (hbs : bs.Searches b) (bm : Bitmap) (hbm : bm.bitsLen = b.rows) (i : Nat) (hi : rows[i]? = some fields)
      (hset : bm.isSetBit i = true)
  | result (br : BlockResult) (columns : List Bytes) (rows : List (List Field))
      (h : br.HasRows g accepts columns rows) (br' : BlockResult) (hbr : br.SameRows br') (bm : Bitmap)
      (hbm : bm.bitsLen = br.rowsLen) (i : Nat) (hi : rows[i]? = some fields) (hset : bm.isSetBit i = true)

namespace Evaluation

variable {g accepts} {fields : List Field}

def columns : Evaluation g accepts fields → List Bytes
  | search b .. => b.columns
  | result _ columns .. => columns

def keeps : Evaluation g accepts fields → Outcome Bool
  | search _ _ _ bs _ bm _ i .. => (g.applyToBlockSearch bs bm).map (·.2.isSetBit i)
  | result _ _ _ _ br _ bm _ i .. => (g.applyToBlockResult br bm).map (·.2.isSetBit i)

theorem mem_columns (e : Evaluation g accepts fields) {f : Field} (hf : f ∈ fields) : f.name ∈ e.columns := by
  cases e with
  | search b rows h bs hbs bm hbm i hi hset | result br columns rows h br' hbr bm hbm i hi hset =>
    exact h.columns fields (List.mem_of_getElem? hi) f hf

/-- Both evaluators keep the row if the filter accepts its value in one of the columns. -/
theorem keeps_spec (hg : g.isWildcard = true) (e : Evaluation g accepts fields) :
    ∃ kept, e.keeps = .ok kept ∧ (kept = true ↔ ∃ name ∈ e.columns, g.wildcard <+: name ∧
      accepts (getFieldValueByName fields name) = true) := by
  cases e with
  | search b rows h bs hbs bm hbm i hi hset =>
    have hselects : Selects b.rows (BlockSearch.Searches b) (fun i => g.Holds (fun _ name i =>
        accepts (getFieldValueByName (rows.getD i []) name) = true) b.columns i) g.applyToBlockSearch :=
      FilterGeneric.applyToBlockSearch_selects h.exact
    obtain ⟨bs', bm', happly, -, -, hbits⟩ := hselects bs bm hbs hbm
    refine ⟨bm'.isSetBit i, by rw [keeps, happly]; rfl, ?_⟩
    rw [hbits i, and_iff_right hset]
    exact FilterGeneric.holds_wildcard_iff hg hi _
  | result br columns rows h br' hbr bm hbm i hi hset =>
    have hselects : Selects br.rowsLen br.SameRows (fun i => g.Holds (fun _ name i =>
        accepts (getFieldValueByName (rows.getD i []) name) = true) columns i) g.applyToBlockResult :=
      FilterGeneric.applyToBlockResult_selects h.names h.exact
    obtain ⟨br'', bm', happly, -, -, hbits⟩ := hselects br' bm hbr hbm
    refine ⟨bm'.isSetBit i, by rw [keeps, happly]; rfl, ?_⟩
    rw [hbits i, and_iff_right hset]
    exact FilterGeneric.holds_wildcard_iff hg hi _

end Evaluation

/-- A field of the row that the pattern covers has a value that the filter accepts. -/
def FilterGeneric.AcceptsField (fields : List Field) : Prop :=
  ∃ f ∈ fields, g.wildcard <+: f.name ∧ accepts (getFieldValueByName fields f.name) = true

/-- The row has a field in each of these columns that the pattern covers. -/
def FilterGeneric.Fills (fields : List Field) (columns : List Bytes) : Prop :=
  ∀ name ∈ columns, g.wildcard <+: name → name ∈ fields.map (·.name)

variable {g accepts} {fields : List Field}

theorem FilterGeneric.matchRow_iff (hrow : g.AboutValues accepts) (hg : g.isWildcard = true) :
    g.matchRow fields = true ↔ g.AcceptsField accepts fields := by
  rw [matchRow, hg, Bool.not_true, if_neg (by decide), List.any_eq_true]
  simp only [Bool.and_eq_true, List.isPrefixOf_iff_prefix, hrow fields, AcceptsField]

/-- A column without a field of the row is accepted if the empty value is. -/
theorem Evaluation.accepted_iff (e : Evaluation g accepts fields) :
    (∃ name ∈ e.columns, g.wildcard <+: name ∧ accepts (getFieldValueByName fields name) = true) ↔
      g.AcceptsField accepts fields ∨ accepts [] = true ∧ ¬g.Fills fields e.columns := by
  constructor
  · rintro ⟨name, hname, hprefix, haccepts⟩
    by_cases hmem : name ∈ fields.map (·.name)
    · obtain ⟨f, hf, rfl⟩ := List.mem_map.1 hmem
      exact .inl ⟨f, hf, hprefix, haccepts⟩
    · rw [getFieldValueByName_of_notMem hmem] at haccepts
      exact .inr ⟨haccepts, fun hfills => hmem (hfills name hname hprefix)⟩
  · rintro (⟨f, hf, hprefix, haccepts⟩ | ⟨hempty, hfills⟩)
    · exact ⟨f.name, e.mem_columns hf, hprefix, haccepts⟩
    · unfold FilterGeneric.Fills at hfills
      push Not at hfills
      obtain ⟨name, hname, hprefix, hmem⟩ := hfills
      exact ⟨name, hname, hprefix, by rwa [getFieldValueByName_of_notMem hmem]⟩

/-- Two blocks that contain a row, searched or of results, agree about it with each other and with `match_row`, exactly
if the filter does not accept the empty value, or accepts a field of the row, or the row has a field in every column
of the two blocks that the pattern covers. The filter behind the pattern is about the value of its field, in rows and
in these two blocks. -/
theorem wildcard_judges_row_iff (hrow : g.AboutValues accepts) (hg : g.isWildcard = true)
    (e₁ e₂ : Evaluation g accepts fields) :
    ∃ kept₁ kept₂, e₁.keeps = .ok kept₁ ∧ e₂.keeps = .ok kept₂ ∧
      (kept₁ = kept₂ ∧ kept₁ = g.matchRow fields ↔ (accepts [] = true →
        g.AcceptsField accepts fields ∨ g.Fills fields e₁.columns ∧ g.Fills fields e₂.columns)) := by
  obtain ⟨kept₁, hkeeps₁, hkept₁⟩ := e₁.keeps_spec hg
  obtain ⟨kept₂, hkeeps₂, hkept₂⟩ := e₂.keeps_spec hg
  refine ⟨kept₁, kept₂, hkeeps₁, hkeeps₂, ?_⟩
  have hmatch : g.matchRow fields = true ↔ _ := FilterGeneric.matchRow_iff hrow hg
  rw [e₁.accepted_iff] at hkept₁
  rw [e₂.accepted_iff] at hkept₂
  rw [@Bool.eq_iff_iff kept₁ kept₂, @Bool.eq_iff_iff kept₁ (g.matchRow fields), hkept₁, hkept₂, hmatch]
  tauto

end

/-! ### Blocks of listed rows -/

/-- A filter on the values of a field, over blocks whose rows are listed. -/
structure ValueIn where
  values : List Bytes

instance : FieldFilter ValueIn (List (List Field)) where
  matchRowByField f fields name := f.values.contains (getFieldValueByName fields name)
  applyToBlockSearchByField f name bs bm :=
    .ok (bs, bm.forEachSetBit fun i => f.values.contains (getFieldValueByName (bs.caches.getD i []) name))
  applyToBlockResultByField f name br bm := do
    let (br, r) := br.getColumnByName name
    let c ← br.col r
    match c.content with
    | .const v => return (br, bm.forEachSetBit fun _ => f.values.contains v)
    | _ => return (br, bm.resetBits)

/-- A block of rows with the given columns. -/
def listedBlock (columns : List Bytes) (rows : List (List Field)) : SearchedBlock (List (List Field)) :=
  ⟨rows.length, ⟨⟨[], []⟩, ⟨[], []⟩⟩, ⟨[], columns.map fun name => ⟨name, []⟩⟩, (· = rows)⟩

/-- A search of the block before anything is read. -/
def listedSearch (columns : List Bytes) (rows : List (List Field)) : BlockSearch (List (List Field)) :=
  ⟨⟨⟨[], []⟩, ⟨[], []⟩⟩, .ok (listedBlock columns rows).columnsHeader, none, rows⟩

theorem searches_listedSearch (columns : List Bytes) (rows : List (List Field)) :
    (listedSearch columns rows).Searches (listedBlock columns rows) :=
  ⟨rfl, rfl, (fun _ h => nomatch h), rfl⟩

theorem hasRows_listedBlock (g : FilterGeneric ValueIn) (columns : List Bytes) (rows : List (List Field))
    (h : ∀ fields ∈ rows, ∀ f ∈ fields, f.name ∈ (listedBlock columns rows).columns) :
    (listedBlock columns rows).HasRows g g.f.values.contains rows := by
  refine ⟨h, ?_⟩
  intro name bs bm hbs hbm
  refine ⟨bs, _, rfl, hbs, hbm, ?_⟩
  intro i
  have hrows : bs.caches = rows := hbs.caches
  rw [Bitmap.isSetBit_forEachSetBit, Bool.and_eq_true, hrows]

/-- A row, and a block in which another row has a field of its own. -/
def fooRow : List Field := [⟨ascii "foo", ascii "1"⟩]

@[inherit_doc fooRow]
def mixedRows : List (List Field) := [fooRow, [⟨ascii "fa", ascii "2"⟩]]

/-- The row alone in a block. -/
def aloneEvaluation (g : FilterGeneric ValueIn) : Evaluation g g.f.values.contains fooRow :=
  .search _ _ (hasRows_listedBlock g [ascii "foo"] [fooRow] (by decide)) _ (searches_listedSearch _ _)
    (Bitmap.init 1).setBits rfl 0 rfl (by decide)

/-- The row in the block with the other one. -/
def mixedEvaluation (g : FilterGeneric ValueIn) : Evaluation g g.f.values.contains fooRow :=
  .search _ _ (hasRows_listedBlock g [ascii "foo", ascii "fa"] mixedRows (by decide)) _ (searches_listedSearch _ _)
    (Bitmap.init 2).setBits rfl 0 rfl (by decide)

/-- With a filter on the value of `foo`, the row is kept in both blocks and by itself. -/
theorem wildcard_judges_row_mixed :
    let g : FilterGeneric ValueIn := .new (ascii "f*") ⟨[ascii "1"]⟩
    ∃ kept₁ kept₂, (aloneEvaluation g).keeps = .ok kept₁ ∧ (mixedEvaluation g).keeps = .ok kept₂ ∧
      kept₁ = kept₂ ∧ kept₁ = g.matchRow fooRow := by
  intro g
  obtain ⟨kept₁, kept₂, h₁, h₂, h⟩ :=
    wildcard_judges_row_iff (by intro fields name; rfl) (by decide) (aloneEvaluation g) (mixedEvaluation g)
  exact ⟨kept₁, kept₂, h₁, h₂, h.2 fun hempty => absurd hempty (by decide)⟩

/-- The empty value is accepted: a row without the field `fa` is kept because of a neighbour that has it. -/
theorem emptyValue_depends_on_neighbour :
    ((FilterGeneric.new (ascii "f*") (⟨[[]]⟩ : ValueIn)).applyToBlockSearch
        (listedSearch [ascii "foo"] [fooRow]) (Bitmap.init 1).setBits).map (·.2.isSetBit 0) = .ok false ∧
      ((FilterGeneric.new (ascii "f*") (⟨[[]]⟩ : ValueIn)).applyToBlockSearch
        (listedSearch [ascii "foo", ascii "fa"] mixedRows) (Bitmap.init 2).setBits).map (·.2.isSetBit 0) =
          .ok true ∧
      (FilterGeneric.new (ascii "f*") (⟨[[]]⟩ : ValueIn)).matchRow fooRow = false := by
  refine ⟨?_, ?_, ?_⟩
  · decide +kernel
  · decide +kernel
  · decide +kernel

end EsLogs
