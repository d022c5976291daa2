import EsLogs.ColumnHeaderRoundTrip

/-!
The columns header of a block is read back: the column headers and the constant columns from the
columns header itself, and their names by the identifiers in the columns header index.
-/

namespace EsLogs

open Encoding ColumnValues Unmarshal List

/-- The identifiers are those of the names that the generator has seen. -/
def ColumnNameIDGenerator.Agrees (g : ColumnNameIDGenerator) (idOf : Bytes → Nat) : Prop :=
  ∀ id name, g.columnNames[id]? = some name → idOf name = id

/-- The references to items that are written one after the other from an offset on. -/
def refsOf {α : Type} (name enc : α → Bytes) (idOf : Bytes → Nat) :
    List α → Nat → List ColumnHeaderRef
  | [], _ => []
  | a :: as, offset =>
    ⟨.ofNat (idOf (name a)), .ofNat offset⟩ :: refsOf name enc idOf as (offset + (enc a).length)

/-- What a reader that looks for one column gets at its reference: the item there, with the name of the identifier. -/
def DecodesAt {α β : Type} (p : Unmarshal β) (setName : β → Bytes → α) (columnNames : List Bytes) (data : Bytes)
    (r : ColumnHeaderRef) (a : α) : Prop :=
  ∃ item tail name, p (data.drop r.offset.toNat) = .ok (item, tail) ∧
    columnNames[r.columnNameId.toNat]? = some name ∧ setName item name = a

section MarshalWithRefs

variable {α : Type} (name : α → Bytes) (marshal : α → Outcome Bytes) (enc : α → Bytes)

@[simp]
theorem length_refsOf (idOf : Bytes → Nat) (as : List α) (offset : Nat) :
    (refsOf name enc idOf as offset).length = as.length := by
  induction as generalizing offset with
  | nil => rfl
  | cons a as ih => rw [refsOf, length_cons, length_cons, ih]

/-- Items that can be written are written, and their names get identifiers. -/
theorem marshalWithRefs_spec {as : List α} (h : ∀ a ∈ as, marshal a = .ok (enc a)) (dst : Bytes)
    {g : ColumnNameIDGenerator} (hg : g.columnNames.Nodup) :
    ∃ refs g', marshalWithRefs name marshal as dst g = .ok (dst ++ as.flatMap enc, refs, g') ∧
      g.Extends g' ∧ g'.columnNames.Nodup ∧ (∀ a ∈ as, name a ∈ g'.columnNames) ∧
      (∀ n ∈ g'.columnNames, n ∈ g.columnNames ∨ n ∈ as.map name) ∧
      ∀ idOf, g'.Agrees idOf → refs = refsOf name enc idOf as dst.length := by
  induction as generalizing dst g with
  | nil =>
    refine ⟨[], g, ?_, .refl g, hg, fun _ ha => ?_, fun _ hn => .inl hn, fun _ _ => rfl⟩
    · rw [flatMap_nil, append_nil]
      rfl
    · cases ha
  | cons a as ih =>
    obtain ⟨hext, hnodup, hid, hfrom⟩ := ColumnNameIDGenerator.getColumnNameId_spec hg (name a)
    obtain ⟨refs, g', hrun, hext', hnodup', hnames, hfrom', hrefs⟩ :=
      ih (fun b hb => h b (mem_cons_of_mem _ hb)) (dst ++ enc a) hnodup
    refine ⟨⟨.ofNat (g.getColumnNameId (name a)).1, .ofNat dst.length⟩ :: refs, g', ?_,
      hext.trans hext', hnodup', fun b hb => ?_, fun n hn => ?_, fun idOf hidOf => ?_⟩
    · simp only [marshalWithRefs, h a mem_cons_self, except_ok_bind, hrun]
      rw [flatMap_cons, append_assoc]
      rfl
    · cases hb with
      | head => exact hext'.mem (mem_of_getElem? hid)
      | tail _ hb => exact hnames b hb
    · rw [map_cons, mem_cons]
      rcases hfrom' n hn with hn | hn
      · exact (hfrom n hn).imp_right .inl
      · exact .inr (.inr hn)
    · rw [refsOf, hidOf _ _ (hext'.getElem? hid), hrefs idOf hidOf, length_append]

/-- The names are put back where they were. -/
theorem setNames_refsOf {β : Type} (what : String) (setName : β → Bytes → β) (strip : α → β)
    {idOf : Bytes → Nat} {columnNames : List Bytes} {as : List α}
    (h : ∀ a ∈ as, columnNames[idOf (name a)]? = some (name a) ∧ idOf (name a) < 2 ^ 64)
    (offset : Nat) :
    setNames what setName columnNames (refsOf name enc idOf as offset) (as.map strip) =
      .ok (as.map fun a => setName (strip a) (name a)) := by
  induction as generalizing offset with
  | nil => rfl
  | cons a as ih =>
    obtain ⟨hname, hlt⟩ := h a mem_cons_self
    have hid : (UInt64.ofNat (idOf (name a))).toNat = idOf (name a) := by
      rw [UInt64.toNat_ofNat', Nat.mod_eq_of_lt hlt]
    rw [refsOf, map_cons, setNames, hid, hname,
      ih (fun b hb => h b (mem_cons_of_mem _ hb))]
    rfl

/-- Each item is read alone at the offset of its reference, and its name has the identifier. -/
theorem refsOf_decode {β : Type} (p : Unmarshal β) (setName : β → Bytes → α) (strip : α → β) {idOf : Bytes → Nat}
    {columnNames : List Bytes} {as : List α} (hread : ∀ a ∈ as, Reads p (strip a) (enc a))
    (hname : ∀ a ∈ as, columnNames[idOf (name a)]? = some (name a) ∧ idOf (name a) < 2 ^ 64)
    {data : Bytes} (hlen : data.length < 2 ^ 64) (before after : Bytes)
    (hdata : data = before ++ as.flatMap enc ++ after) :
    Forall₂ (DecodesAt p setName columnNames data) (refsOf name enc idOf as before.length)
      (as.map fun a => setName (strip a) (name a)) := by
  induction as generalizing before with
  | nil => exact .nil
  | cons a as ih =>
    rw [forall_mem_cons] at hread hname
    have hoffset : (UInt64.ofNat before.length).toNat = before.length := by
      rw [UInt64.toNat_ofNat', Nat.mod_eq_of_lt]
      rw [hdata, length_append, length_append] at hlen
      omega
    have hid : (UInt64.ofNat (idOf (name a))).toNat = idOf (name a) := by
      rw [UInt64.toNat_ofNat', Nat.mod_eq_of_lt hname.1.2]
    rw [flatMap_cons] at hdata
    rw [refsOf, ← length_append]
    refine .cons ⟨strip a, as.flatMap enc ++ after, name a, ?_, ?_, rfl⟩
      (ih hread.2 hname.2 (before ++ enc a) (by rw [hdata]; simp only [append_assoc]))
    · rw [hoffset, hdata, append_assoc, drop_left, append_assoc]
      exact hread.1 _
    · rw [hid]
      exact hname.1.1

end MarshalWithRefs

theorem reads_columnHeadersRefs {refs : List ColumnHeaderRef} (h : refs.length < 2 ^ 64) :
    Reads unmarshalColumnHeadersRefs refs (marshalColumnHeadersRefs refs) := by
  refine (reads_varUint64 h _).bind (Reads.times (fun i r _ => ?_) 0)
  exact (reads_u64 r.columnNameId _).bind (reads_u64 r.offset _).return

namespace ColumnsHeader

/-- A columns header that the file format can hold. -/
structure Canonical (csh : ColumnsHeader) : Prop where
  headers : ∀ ch ∈ csh.columnHeaders, ch.Canonical
  values_le : ∀ cc ∈ csh.constColumns, cc.value.length ≤ maxConstColumnValueSize
  count_le : csh.columnHeaders.length + csh.constColumns.length ≤ maxColumnsPerBlock

def encoding (csh : ColumnsHeader) : Bytes :=
  marshalVarUint64 csh.columnHeaders.length ++ csh.columnHeaders.flatMap ColumnHeader.encoding ++
    marshalVarUint64 csh.constColumns.length ++ csh.constColumns.flatMap fun cc => cc.marshal false

/-- The columns header index of a columns header. -/
def index (idOf : Bytes → Nat) (csh : ColumnsHeader) : ColumnsHeaderIndex :=
  let start := (marshalVarUint64 csh.columnHeaders.length).length
  let constStart := (marshalVarUint64 csh.columnHeaders.length ++
    csh.columnHeaders.flatMap ColumnHeader.encoding ++
    marshalVarUint64 csh.constColumns.length).length
  ⟨refsOf ColumnHeader.name ColumnHeader.encoding idOf csh.columnHeaders start,
    refsOf Field.name (fun cc => cc.marshal false) idOf csh.constColumns constStart⟩

/-- What is read back without the columns header index. -/
def stored (csh : ColumnsHeader) : ColumnsHeader :=
  ⟨csh.columnHeaders.map ColumnHeader.stored, csh.constColumns.map fun cc => ⟨[], cc.value⟩⟩

/-- The columns header without the places of the Bloom filters that dictionary columns do not have. -/
def restored (csh : ColumnsHeader) : ColumnsHeader :=
  ⟨csh.columnHeaders.map fun ch => { ch.stored with name := ch.name }, csh.constColumns⟩

variable {csh : ColumnsHeader}

theorem Canonical.marshal_spec (h : csh.Canonical) {g : ColumnNameIDGenerator}
    (hg : g.columnNames.Nodup) :
    ∃ cshIndex g', csh.marshal g = .ok (csh.encoding, cshIndex, g') ∧ g.Extends g' ∧
      g'.columnNames.Nodup ∧
      (∀ ch ∈ csh.columnHeaders, ch.name ∈ g'.columnNames) ∧
      (∀ cc ∈ csh.constColumns, cc.name ∈ g'.columnNames) ∧
      (∀ n ∈ g'.columnNames, n ∈ g.columnNames ∨ n ∈ csh.columnHeaders.map ColumnHeader.name ∨
        n ∈ csh.constColumns.map Field.name) ∧
      ∀ idOf, g'.Agrees idOf → cshIndex = csh.index idOf := by
  obtain ⟨refs, g₁, hrun, hext, hnodup, hnames, hfrom, hrefs⟩ :=
    marshalWithRefs_spec ColumnHeader.name ColumnHeader.marshal ColumnHeader.encoding
      (fun ch hch => ((h.headers ch hch).restored (Nat.le_refl 1)).marshal_eq)
      (marshalVarUint64 csh.columnHeaders.length) hg
  obtain ⟨refs', g₂, hrun', hext', hnodup', hnames', hfrom', hrefs'⟩ :=
    marshalWithRefs_spec Field.name (fun cc => .ok (cc.marshal false)) (fun cc => cc.marshal false)
      (fun cc (_ : cc ∈ csh.constColumns) => rfl) (marshalVarUint64 csh.columnHeaders.length ++
        csh.columnHeaders.flatMap ColumnHeader.encoding ++
        marshalVarUint64 csh.constColumns.length) hnodup
  refine ⟨⟨refs, refs'⟩, g₂, ?_, hext.trans hext', hnodup', fun ch hch => hext'.mem (hnames ch hch),
    hnames', fun n hn => ?_, fun idOf hidOf => ?_⟩
  · simp only [marshal, hrun, except_ok_bind, hrun']
    rfl
  · rcases hfrom' n hn with hn | hn
    · exact (hfrom n hn).imp_right .inl
    · exact .inr (.inr hn)
  · rw [index, hrefs idOf fun id name hname => hidOf id name (hext'.getElem? hname), hrefs' idOf hidOf]

theorem Canonical.count_lt (h : csh.Canonical) :
    csh.columnHeaders.length < 2 ^ 64 ∧ csh.constColumns.length < 2 ^ 64 := by
  have := h.count_le
  rw [show maxColumnsPerBlock = 2000 from rfl] at this
  omega

theorem Canonical.reads_constColumn (h : csh.Canonical) {partFormatVersion : Nat} (hv : partFormatVersion ≥ 1)
    {cc : Field} (hcc : cc ∈ csh.constColumns) :
    Reads (Field.unmarshalInplace (partFormatVersion < 1)) ⟨[], cc.value⟩ (cc.marshal false) := by
  rw [Field.unmarshalInplace, decide_eq_false (by omega)]
  refine (reads_pure []).skip ?_
  have hlen : cc.value.length < 2 ^ 64 := (h.values_le cc hcc).trans_lt (by decide)
  exact (reads_bytes hlen _).return

theorem Canonical.unmarshal_encoding (h : csh.Canonical) {partFormatVersion : Nat}
    (hv : partFormatVersion ≥ 1) :
    unmarshalInplace partFormatVersion csh.encoding = .ok csh.stored := by
  have hle := h.count_le
  have hmax : maxColumnsPerBlock = 2000 := rfl
  rw [encoding, append_assoc, append_assoc]
  refine Reads.complete ?_ _
  refine (reads_varUint64 h.count_lt.1 _).bind ?_
  refine (reads_ensure (by omega) _).skip ?_
  refine (Reads.times_map (fun i ch hch =>
    (((h.headers ch hch).restored hv).reads).mapErr _) 0).bind ?_
  refine (reads_ensure (by omega) _).skip ?_
  refine (reads_varUint64 h.count_lt.2 _).bind ?_
  refine (reads_ensure (by omega) _).skip ?_
  refine (Reads.times_map (fun i cc hcc => (h.reads_constColumn hv hcc).mapErr _) 0).finish ?_
  refine (reads_ensure ?_ _).skip (reads_pure _)
  rw [length_map]
  omega

theorem setColumnNames_stored {idOf : Bytes → Nat}
    {columnNames : List Bytes}
    (hheaders : ∀ ch ∈ csh.columnHeaders,
      columnNames[idOf ch.name]? = some ch.name ∧ idOf ch.name < 2 ^ 64)
    (hconsts : ∀ cc ∈ csh.constColumns,
      columnNames[idOf cc.name]? = some cc.name ∧ idOf cc.name < 2 ^ 64) :
    csh.stored.setColumnNames (csh.index idOf) columnNames = .ok csh.restored := by
  have hlen : ¬(csh.index idOf).columnHeadersRefs.length ≠ csh.stored.columnHeaders.length := by
    simp [index, stored]
  have hlen' : ¬(csh.index idOf).constColumnsRefs.length ≠ csh.stored.constColumns.length := by
    simp [index, stored]
  have hset := setNames_refsOf ColumnHeader.name ColumnHeader.encoding "columnHeadersRef"
    (fun ch name => { ch with name := name }) ColumnHeader.stored hheaders
    (marshalVarUint64 csh.columnHeaders.length).length
  have hset' := setNames_refsOf Field.name (fun cc => cc.marshal false) "constColumnsRefs"
    (fun (cc : Field) name => { cc with name := name }) (fun cc => ⟨[], cc.value⟩) hconsts
    (marshalVarUint64 csh.columnHeaders.length ++
      csh.columnHeaders.flatMap ColumnHeader.encoding ++
      marshalVarUint64 csh.constColumns.length).length
  rw [setColumnNames, if_neg hlen]
  show (setNames _ _ columnNames (refsOf ..) (csh.columnHeaders.map _) >>= _) = _
  rw [hset, except_ok_bind, if_neg hlen']
  show (setNames _ _ columnNames (refsOf ..) (csh.constColumns.map _) >>= _) = _
  rw [hset', except_ok_bind]
  show Except.ok (ColumnsHeader.mk _ (csh.constColumns.map id)) = _
  rw [map_id]
  rfl

theorem Canonical.length_encoding (h : csh.Canonical) :
    csh.encoding.length ≤ maxColumnsHeaderSize := by
  have h1 := length_marshalVarUint64 h.count_lt.1
  have h2 := length_marshalVarUint64 h.count_lt.2
  have hheaders := length_flatMap_le fun ch hch =>
    ((h.headers ch hch).restored (Nat.le_refl 1)).length_le
  have hconsts : (csh.constColumns.flatMap fun cc => cc.marshal false).length ≤
      400 * csh.constColumns.length := by
    refine length_flatMap_le fun cc hcc => ?_
    have hvalue := h.values_le cc hcc
    rw [show maxConstColumnValueSize = 256 from rfl] at hvalue
    have hlen := length_marshalVarUint64 (hvalue.trans_lt (by decide : 256 < 2 ^ 64))
    simp only [Field.marshal, marshalBytes, Bool.false_eq_true, if_false, nil_append,
      length_append]
    omega
  have hle := h.count_le
  rw [show maxColumnsPerBlock = 2000 from rfl] at hle
  rw [encoding, show maxColumnsHeaderSize = 8388608 from rfl]
  simp only [length_append]
  omega

theorem Canonical.unmarshal_index (h : csh.Canonical) (idOf : Bytes → Nat) :
    ColumnsHeaderIndex.unmarshalInplace (csh.index idOf).marshal = .ok (csh.index idOf) := by
  have h1 : (csh.index idOf).columnHeadersRefs.length = csh.columnHeaders.length := length_refsOf ..
  have h2 : (csh.index idOf).constColumnsRefs.length = csh.constColumns.length := length_refsOf ..
  refine Reads.complete ?_ _
  refine ((reads_columnHeadersRefs (h1.trans_lt h.count_lt.1)).mapErr _).bind ?_
  exact ((reads_columnHeadersRefs (h2.trans_lt h.count_lt.2)).mapErr _).return

/-- The columns header comes back with its index, up to the places of the Bloom filters that dictionary columns do not
have, and each column of it can be read alone. -/
theorem columns_read_lazily (h : csh.Canonical) {g : ColumnNameIDGenerator} (hg : g.columnNames.Nodup)
    (hids : g.columnNames.length + csh.columnHeaders.length + csh.constColumns.length ≤ 2 ^ 64)
    {partFormatVersion : Nat} (hv : partFormatVersion ≥ 1) :
    ∃ data cshIndex g', csh.marshal g = .ok (data, cshIndex, g') ∧
      ColumnsHeaderIndex.unmarshalInplace cshIndex.marshal = .ok cshIndex ∧
      (unmarshalInplace partFormatVersion data >>= (·.setColumnNames cshIndex g'.columnNames)) = .ok csh.restored ∧
      Forall₂ (DecodesAt (ColumnHeader.unmarshalInplace partFormatVersion) (fun ch name => { ch with name := name })
        g'.columnNames data) cshIndex.columnHeadersRefs csh.restored.columnHeaders ∧
      Forall₂ (DecodesAt (Field.unmarshalInplace (partFormatVersion < 1)) (fun cc name => { cc with name := name })
        g'.columnNames data) cshIndex.constColumnsRefs csh.restored.constColumns := by
  obtain ⟨cshIndex, g', hmarshal, -, hnodup, hheaders, hconsts, hfrom, hindex⟩ := h.marshal_spec hg
  have hcount : g'.columnNames.length ≤ 2 ^ 64 := by
    have hsub : g'.columnNames ⊆ g.columnNames ++
        (csh.columnHeaders.map ColumnHeader.name ++ csh.constColumns.map Field.name) := by
      intro n hn
      rw [mem_append, mem_append]
      exact hfrom n hn
    have hle := (subperm_of_subset hnodup hsub).length_le
    rw [length_append, length_append, length_map, length_map] at hle
    omega
  -- a name has its position for an identifier
  have hname : ∀ n ∈ g'.columnNames,
      g'.columnNames[g'.columnNames.idxOf n]? = some n ∧ g'.columnNames.idxOf n < 2 ^ 64 := by
    intro n hn
    exact ⟨List.getElem?_idxOf hn, (idxOf_lt_length_of_mem hn).trans_le hcount⟩
  have hagrees : g'.Agrees g'.columnNames.idxOf := by
    intro id n hn
    obtain ⟨hlt, rfl⟩ := List.getElem?_eq_some_iff.1 hn
    exact hnodup.idxOf_getElem id hlt
  obtain rfl := hindex _ hagrees
  have hlen : csh.encoding.length < 2 ^ 64 := h.length_encoding.trans_lt (by decide)
  refine ⟨_, _, g', hmarshal, h.unmarshal_index _, ?_, ?_, ?_⟩
  · rw [h.unmarshal_encoding hv]
    show csh.stored.setColumnNames _ _ = _
    exact setColumnNames_stored (fun ch hch => hname _ (hheaders ch hch)) (fun cc hcc => hname _ (hconsts cc hcc))
  · refine refsOf_decode _ _ _ _ ColumnHeader.stored (fun ch hch => ((h.headers ch hch).restored hv).reads)
      (fun ch hch => hname _ (hheaders ch hch)) hlen _
      (marshalVarUint64 csh.constColumns.length ++ csh.constColumns.flatMap fun cc => cc.marshal false) ?_
    rw [encoding, append_assoc _ (marshalVarUint64 csh.constColumns.length)]
  · have hback : (csh.constColumns.map fun cc => ({ (⟨[], cc.value⟩ : Field) with name := cc.name })) =
        csh.restored.constColumns := map_id' _
    rw [← hback]
    refine refsOf_decode Field.name _ _ (fun (cc : Field) name => { cc with name := name }) (fun cc => ⟨[], cc.value⟩)
      (fun cc hcc => h.reads_constColumn hv hcc) (fun cc hcc => hname _ (hconsts cc hcc)) hlen _ [] ?_
    rw [encoding, append_nil]

/-- A column of numbers, a dictionary column as the writer leaves it, and a value that all rows share. -/
def sampleColumns : ColumnsHeader where
  columnHeaders :=
    [⟨ascii "n", .uint8, 3, 9, ⟨[]⟩, 0, 12, 0, 8⟩, ⟨ascii "level", .dict, 0, 0, ⟨[ascii "info"]⟩, 12, 5, 8, 0⟩]
  constColumns := [⟨ascii "app", ascii "x"⟩]

theorem columns_read_lazily_sample : ∃ data cshIndex g',
    sampleColumns.marshal ⟨[ascii "app"]⟩ = .ok (data, cshIndex, g') ∧
    (unmarshalInplace 3 data >>= (·.setColumnNames cshIndex g'.columnNames)) = .ok sampleColumns.restored := by
  have hcanonical : sampleColumns.Canonical := by
    refine ⟨?_, by decide, by decide⟩
    intro ch hch
    rcases hch with _ | ⟨_, _ | ⟨_, ⟨⟩⟩⟩ <;> constructor <;> decide
  obtain ⟨data, cshIndex, g', hmarshal, -, hback, -⟩ := columns_read_lazily hcanonical
    (g := ⟨[ascii "app"]⟩) (by decide) (by decide) (Nat.le_add_left 1 2)
  exact ⟨data, cshIndex, g', hmarshal, hback⟩

/-- The place of the bloom filter of a dictionary column is not stored. -/
theorem dict_place_is_lost :
    let csh : ColumnsHeader := ⟨[⟨[97], .dict, 0, 0, ⟨[]⟩, 0, 0, 1, 0⟩], []⟩
    ∃ data cshIndex g' csh', csh.marshal ⟨[]⟩ = .ok (data, cshIndex, g') ∧
      (unmarshalInplace 3 data >>= (·.setColumnNames cshIndex g'.columnNames)) = .ok csh' ∧ csh' ≠ csh :=
  ⟨[1, 2, 0, 0, 0, 0], ⟨[⟨0, 1⟩], []⟩, ⟨[[97]]⟩, ⟨[⟨[97], .dict, 0, 0, ⟨[]⟩, 0, 0, 0, 0⟩], []⟩, by decide +kernel,
    by decide +kernel, by decide⟩

end ColumnsHeader

end EsLogs
