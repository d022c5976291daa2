import EsLogs.Block

/-!
A block built from rows holds exactly these rows. Spelled out in full, the columns and constant
columns of the block are the table of the rows: one column for each field name, with the value of
every row under that name, empty where the row lacks the field.
-/

namespace EsLogs

open List

/-- A row as the storage keeps them: no name twice, no empty value. -/
structure Row.Valid (r : Row) : Prop where
  names_nodup : (r.fields.map Field.name).Nodup
  value_ne_nil : ∀ f ∈ r.fields, f.value ≠ []

/-- A block whose columns fit together. -/
structure Block.Valid (b : Block) : Prop where
  sorted : b.timestamps.Pairwise (· ≤ ·)
  values_length : ∀ c ∈ b.columns, c.values.length = b.timestamps.length
  names_nodup : (b.columns.map Column.name ++ b.constColumns.map Field.name).Nodup
  const_ne_nil : ∀ f ∈ b.constColumns, f.value ≠ []

/-- The same rows, up to the order of the fields within a row. -/
def SameRows : List Row → List Row → Prop :=
  List.Forall₂ fun r s => r.timestamp = s.timestamp ∧ r.fields.Perm s.fields

def rowNames (rows : List Row) : Finset Bytes :=
  (rows.flatMap fun r => r.fields.map Field.name).toFinset

/-- The block builder takes every row: it counts the fields of a row on top of the names it has seen,
whether they are new or not. -/
def ColumnsFit (rows : List Row) : Prop :=
  ∀ r ∈ rows, (rowNames rows).card + r.fields.length ≤ maxColumnsPerBlock

variable {b : Block} {names : List Bytes} {rows : List Row} {fields : List Field} {r : Row} {n : Bytes}

theorem mem_rowNames :
    n ∈ rowNames rows ↔ ∃ r ∈ rows, n ∈ r.fields.map Field.name := by
  simp [rowNames]

/-! ### The cells of the table -/

theorem foldl_cell_of_notMem {name : Bytes} (acc : Bytes)
    (h : name ∉ fields.map Field.name) :
    fields.foldl (fun value f => if f.name = name then f.value else value) acc = acc := by
  induction fields generalizing acc with
  | nil => rfl
  | cons f fields ih =>
    rw [map_cons, mem_cons, not_or] at h
    rw [foldl_cons, if_neg (Ne.symm h.1), ih acc h.2]

theorem foldl_cell_of_mem {f : Field} (acc : Bytes)
    (hnodup : (fields.map Field.name).Nodup) (h : f ∈ fields) :
    fields.foldl (fun value g => if g.name = f.name then g.value else value) acc = f.value := by
  induction fields generalizing acc with
  | nil => cases h
  | cons g fields ih =>
    rw [map_cons, nodup_cons] at hnodup
    rw [foldl_cons]
    rcases mem_cons.1 h with rfl | h
    · rw [if_pos rfl, foldl_cell_of_notMem _ hnodup.1]
    · exact ih _ hnodup.2 h

theorem Row.cellValue_of_mem (hr : r.Valid) {f : Field} (h : f ∈ r.fields) :
    r.cellValue f.name = f.value := foldl_cell_of_mem [] hr.names_nodup h

theorem Row.cellValue_of_notMem (h : n ∉ r.fields.map Field.name) :
    r.cellValue n = [] := foldl_cell_of_notMem [] h

/-- The non-empty cells of a row are its fields. -/
theorem Row.mem_fields_iff (hr : r.Valid) (f : Field) :
    f ∈ r.fields ↔ r.cellValue f.name = f.value ∧ f.value ≠ [] := by
  refine ⟨fun h => ⟨cellValue_of_mem hr h, hr.value_ne_nil f h⟩, fun ⟨hv, hne⟩ => ?_⟩
  by_cases hmem : f.name ∈ r.fields.map Field.name
  · obtain ⟨g, hg, hname⟩ := mem_map.1 hmem
    have hgv := cellValue_of_mem hr hg
    rw [hname, hv] at hgv
    have : f = g := by
      cases f
      cases g
      simp_all
    exact this ▸ hg
  · rw [cellValue_of_notMem hmem] at hv
    exact absurd hv.symm hne

/-- In a row whose names are known, the cell under a name is found at the index of the name. -/
theorem Row.valueAt_eq_cellValue (hnames : r.fields.map Field.name = names)
    (hnodup : names.Nodup) {i : Nat} (hi : names[i]? = some n) :
    r.valueAt i = r.cellValue n := by
  subst hnames
  rw [getElem?_map] at hi
  obtain ⟨f, hf, rfl⟩ := Option.map_eq_some_iff.1 hi
  rw [Row.valueAt, hf]
  exact (foldl_cell_of_mem [] hnodup (mem_of_getElem? hf)).symm

/-! ### Constant columns -/

/-- A constant column of a block with `n` rows, spelled out. -/
def Field.spread (n : Nat) (f : Field) : Column := ⟨f.name, List.replicate n f.value⟩

/-- All columns of a block, the constant ones spelled out. -/
def Block.spread (b : Block) : List Column :=
  b.columns ++ b.constColumns.map (Field.spread b.timestamps.length)

theorem eq_replicate_of_canStore {values : List Bytes} (h : canStoreInConstColumn values = true) :
    values = replicate values.length (values.headD []) := by
  cases values with
  | nil => rfl
  | cons v vs =>
    simp only [canStoreInConstColumn, Bool.and_eq_true, all_eq_true, decide_eq_true_eq] at h
    rw [headD_cons, eq_replicate_iff]
    refine ⟨rfl, fun w hw => ?_⟩
    cases mem_cons.1 hw with
    | inl he => exact he
    | inr hm => exact (h.2 w hm).symm

theorem column_eq_spread {c : Column} (h : canStoreInConstColumn c.values = true) :
    c = Field.spread c.values.length ⟨c.name, c.values.headD []⟩ := by
  obtain ⟨n, vs⟩ := c
  simp only [Field.spread, Column.mk.injEq, true_and]
  exact eq_replicate_of_canStore h

/-- Removing an item by putting the last one in its place. -/
theorem perm_cons_set_dropLast {α : Type} {l : List α} {i : Nat} {a last : α}
    (ha : l[i]? = some a) (hlast : l.getLast? = some last) :
    l.Perm (a :: (l.set i last).dropLast) := by
  obtain ⟨init, rfl⟩ : ∃ init, l = init ++ [last] := List.getLast?_eq_some_iff.1 hlast
  have hi := (List.getElem?_eq_some_iff.1 ha).1
  rw [length_append, length_singleton] at hi
  by_cases hlt : i < init.length
  · rw [List.getElem?_append_left hlt] at ha
    rw [set_append_left _ _ hlt, dropLast_concat]
    obtain ⟨_, rfl⟩ := List.getElem?_eq_some_iff.1 ha
    calc init ++ [last] ~ last :: init := perm_append_singleton last init
      _ ~ last :: init[i] :: init.eraseIdx i := (getElem_cons_eraseIdx_perm hlt).symm.cons last
      _ ~ init[i] :: last :: init.eraseIdx i := .swap _ _ _
      _ ~ init[i] :: init.set i last := (set_perm_cons_eraseIdx hlt last).symm.cons _
  · have hieq : i = init.length := by omega
    subst hieq
    have hal : a = last := by simpa using ha.symm
    subst hal
    rw [set_append_right _ _ le_rfl, Nat.sub_self, set_cons_zero, dropLast_concat]
    exact perm_append_singleton a init

theorem detectConstColumns_spread (n i : Nat) (cs : List Column) (ccs : List Field)
    (hlen : ∀ c ∈ cs, c.values.length = n) :
    ((detectConstColumns i cs ccs).1 ++ (detectConstColumns i cs ccs).2.map (Field.spread n)).Perm
      (cs ++ ccs.map (Field.spread n)) := by
  induction i generalizing cs ccs with
  | zero => exact List.Perm.refl _
  | succ i ih =>
    rw [detectConstColumns]
    cases hc : cs[i]? with
    | none => exact List.Perm.refl _
    | some c =>
      cases hlast : cs.getLast? with
      | none => exact List.Perm.refl _
      | some last =>
        by_cases hconst : canStoreInConstColumn c.values = true
        · simp only [hconst, if_true]
          have hperm := perm_cons_set_dropLast hc hlast
          have hlen' : ∀ d ∈ (cs.set i last).dropLast, d.values.length = n := fun d hd =>
            hlen d (hperm.mem_iff.2 (mem_cons_of_mem _ hd))
          have hcn := hlen c (mem_of_getElem? hc)
          have hspread := column_eq_spread hconst
          rw [hcn] at hspread
          refine (ih _ _ hlen').trans ?_
          rw [map_append, map_singleton, ← hspread, ← append_assoc]
          refine (perm_append_singleton c _).trans ?_
          rw [← cons_append]
          exact hperm.symm.append_right _
        · simp only [hconst, Bool.false_eq_true, if_false]
          exact ih cs ccs hlen

/-! ### The table of the rows -/

theorem initColumns_length {c : Column}
    (h : c ∈ initColumns names rows) : c.values.length = rows.length := by
  obtain ⟨n, _, rfl⟩ := mem_map.1 h
  exact length_map _

/-- The fast path: the columns are the table with the names of the first row. -/
theorem initFromSameFields_spread (hr : r ∈ rows.head?)
    (hnodup : (r.fields.map Field.name).Nodup)
    (hsame : ∀ s ∈ rows, s.fields.map Field.name = r.fields.map Field.name) :
    (initFromSameFields rows r.fields).spread.Perm
      (initColumns (r.fields.map Field.name) rows) := by
  -- the column of the field at an index
  let column : Field × Nat → Column := fun p => ⟨p.1.name, rows.map (·.valueAt p.2)⟩
  let isConst : Field × Nat → Bool := fun p => canStoreInConstColumn (rows.map (·.valueAt p.2))
  have hconst : ∀ p ∈ r.fields.zipIdx.filter isConst,
      Field.spread rows.length p.1 = column p := by
    rintro ⟨f, i⟩ hp
    obtain ⟨hmem, hc⟩ := mem_filter.1 hp
    have hfi : r.fields[i]? = some f := mem_zipIdx_iff_getElem?.1 hmem
    have heq := eq_replicate_of_canStore hc
    obtain ⟨rest, rfl⟩ : ∃ rest, rows = r :: rest := by
      cases rows with
      | nil => cases hr
      | cons s rest => exact ⟨rest, by simpa using hr⟩
    simp only [map_cons, headD_cons, length_cons, length_map] at heq
    have hv : r.valueAt i = f.value := by rw [Row.valueAt, hfi]; rfl
    show Column.mk f.name _ = Column.mk f.name _
    rw [map_cons, heq, hv, length_cons]
  have hspread : (initFromSameFields rows r.fields).spread =
      (r.fields.zipIdx.filter fun p => !isConst p).map column ++
        (r.fields.zipIdx.filter isConst).map column := by
    rw [Block.spread]
    congr 1
    rw [initFromSameFields, map_map, length_map]
    exact map_congr_left hconst
  have htable : r.fields.zipIdx.map column = initColumns (r.fields.map Field.name) rows := by
    rw [initColumns, map_map]
    refine ext_getElem? fun i => ?_
    rw [getElem?_map, getElem?_map, getElem?_zipIdx]
    cases hf : r.fields[i]? with
    | none => rfl
    | some f =>
      have hname : (r.fields.map Field.name)[i]? = some f.name := by rw [getElem?_map, hf]; rfl
      simp only [Option.map_some, Option.some.injEq, column, Function.comp_apply,
        Column.mk.injEq, true_and, Nat.zero_add]
      exact map_congr_left fun s hs => Row.valueAt_eq_cellValue (hsame s hs) hnodup hname
  rw [hspread, ← htable, ← map_append]
  refine List.Perm.map column ?_
  calc _ ~ r.fields.zipIdx.filter isConst ++ r.fields.zipIdx.filter fun p => !isConst p :=
        perm_append_comm
    _ ~ r.fields.zipIdx := filter_append_perm _ _

/-- The slow path: the columns are the table with the collected names. -/
theorem slowPath_spread (k : Nat) :
    (Block.mk (rows.map Row.timestamp) (detectConstColumns k (initColumns names rows) []).1
      (detectConstColumns k (initColumns names rows) []).2).spread.Perm (initColumns names rows) := by
  have h := detectConstColumns_spread rows.length k (initColumns names rows) []
    fun c hc => initColumns_length hc
  rw [map_nil, append_nil] at h
  rw [Block.spread, length_map]
  exact h

/-! ### Collecting the names -/

theorem mem_foldl_addColumnName :
    n ∈ fields.foldl addColumnName names ↔ n ∈ names ∨ n ∈ fields.map Field.name := by
  induction fields generalizing names with
  | nil => simp
  | cons f fields ih =>
    rw [foldl_cons, ih, map_cons, mem_cons, addColumnName]
    by_cases h : f.name ∈ names
    · rw [if_pos h]
      refine ⟨fun hn => hn.imp_right .inr, fun hn => ?_⟩
      rcases hn with hn | rfl | hn
      exacts [.inl hn, .inl h, .inr hn]
    · rw [if_neg h, mem_append, mem_singleton, or_assoc]

theorem nodup_foldl_addColumnName (fields : List Field) (h : names.Nodup) :
    (fields.foldl addColumnName names).Nodup := by
  induction fields generalizing names with
  | nil => exact h
  | cons f fields ih =>
    refine ih ?_
    rw [addColumnName]
    split_ifs with hmem
    · exact h
    · exact nodup_append'.2 ⟨h, nodup_singleton _, disjoint_singleton.2 hmem⟩

theorem length_foldl_addColumnName_le (names : List Bytes) (fields : List Field) :
    (fields.foldl addColumnName names).length ≤ names.length + fields.length := by
  induction fields generalizing names with
  | nil => exact le_rfl
  | cons f fields ih =>
    have hle := ih (addColumnName names f)
    have hadd : (addColumnName names f).length ≤ names.length + 1 := by
      rw [addColumnName]
      split_ifs
      · exact Nat.le_succ _
      · rw [length_append, length_singleton]
    rw [foldl_cons, length_cons]
    omega

/-- The names are those of the rows that are processed, and stay within the limit. -/
theorem columnIdxs_spec (names : List Bytes) (rows : List Row) (hnodup : names.Nodup)
    (hlen : names.length ≤ maxColumnsPerBlock) :
    (columnIdxs names rows).1.Nodup ∧ (columnIdxs names rows).1.length ≤ maxColumnsPerBlock ∧
      ∀ n, n ∈ (columnIdxs names rows).1 ↔
        n ∈ names ∨ n ∈ rowNames (rows.take (columnIdxs names rows).2) := by
  induction rows generalizing names with
  | nil => exact ⟨hnodup, hlen, fun n => by simp [columnIdxs, rowNames]⟩
  | cons r rows ih =>
    rw [columnIdxs]
    split_ifs with hgt
    · exact ⟨hnodup, hlen, fun n => by simp [rowNames]⟩
    · have hle := length_foldl_addColumnName_le names r.fields
      obtain ⟨hnd, hmax, hmem⟩ := ih (r.fields.foldl addColumnName names)
        (nodup_foldl_addColumnName _ hnodup) (by omega)
      refine ⟨hnd, hmax, fun n => (hmem n).trans ?_⟩
      rw [mem_foldl_addColumnName, or_assoc, take_succ_cons]
      simp only [mem_rowNames, mem_cons, exists_eq_or_imp]

/-- The test of the limit: no row has too many fields on top of the names of the rows before it. -/
def WithinLimit (rows : List Row) : Prop :=
  ∀ i r, rows[i]? = some r → (rowNames (rows.take i)).card + r.fields.length ≤ maxColumnsPerBlock

theorem length_le_columnIdxs_snd_iff (hnodup : names.Nodup) (rows : List Row) :
    rows.length ≤ (columnIdxs names rows).2 ↔ ∀ i r, rows[i]? = some r →
      (names.toFinset ∪ rowNames (rows.take i)).card + r.fields.length ≤ maxColumnsPerBlock := by
  induction rows generalizing names with
  | nil => simp [columnIdxs]
  | cons r rows ih =>
    have hfirst : (names.toFinset ∪ rowNames ((r :: rows).take 0)).card = names.length := by
      rw [take_zero, show rowNames [] = ∅ from rfl, Finset.union_empty,
        toFinset_card_of_nodup hnodup]
    rw [columnIdxs]
    split_ifs with hgt
    · refine iff_of_false (by simp) fun h => ?_
      have hle := h 0 r rfl
      omega
    · have hseen : ∀ i, (r.fields.foldl addColumnName names).toFinset ∪ rowNames (rows.take i) =
          names.toFinset ∪ rowNames ((r :: rows).take (i + 1)) := by
        intro i
        ext n
        simp only [Finset.mem_union, mem_toFinset, mem_foldl_addColumnName, or_assoc, mem_rowNames,
          take_succ_cons, mem_cons, exists_eq_or_imp]
      have hnext := ih (nodup_foldl_addColumnName r.fields hnodup)
      simp only [hseen] at hnext
      refine Nat.succ_le_succ_iff.trans (hnext.trans ⟨fun h i s hi => ?_, fun h i s hi => h (i + 1) s hi⟩)
      cases i with
      | zero =>
        cases hi
        omega
      | succ i => exact h i s hi

theorem areSame_spec (h : areSameFieldsInRows (r :: rows) = true)
    (hr : r.Valid) :
    (r.fields.map Field.name).Nodup ∧
      ∀ s ∈ r :: rows, s.fields.map Field.name = r.fields.map Field.name := by
  refine ⟨hr.names_nodup, fun s hs => ?_⟩
  cases rows with
  | nil =>
    rw [mem_singleton] at hs
    rw [hs]
  | cons t rest =>
    simp only [areSameFieldsInRows, Bool.and_eq_true, decide_eq_true_eq, all_eq_true] at h
    cases mem_cons.1 hs with
    | inl he => rw [he]
    | inr hm => exact h.2 s hm

/-! ### The rows of a block -/

/-- A block that consists of the table of the rows. -/
structure Block.Tabulates (b : Block) (names : List Bytes) (rows : List Row) : Prop where
  timestamps_eq : b.timestamps = rows.map Row.timestamp
  spread_perm : b.spread.Perm (initColumns names rows)
  nodup : names.Nodup
  mem_iff : ∀ n, n ∈ names ↔ n ∈ rowNames rows

namespace Block.Tabulates

theorem length_eq (h : b.Tabulates names rows) : b.timestamps.length = rows.length := by
  rw [h.timestamps_eq, length_map]

theorem mem_spread_iff (h : b.Tabulates names rows) (c : Column) :
    c ∈ b.spread ↔ c.name ∈ names ∧ c.values = rows.map (·.cellValue c.name) := by
  rw [h.spread_perm.mem_iff, initColumns, mem_map]
  refine ⟨fun ⟨n, hn, hc⟩ => hc ▸ ⟨hn, rfl⟩, fun ⟨hn, hv⟩ => ⟨c.name, hn, ?_⟩⟩
  rw [← hv]

theorem valid (h : b.Tabulates names rows) (hvalid : ∀ r ∈ rows, r.Valid)
    (hsorted : SortedRows rows) : b.Valid := by
  refine ⟨?_, fun c hc => ?_, ?_, fun f hf hnil => ?_⟩
  · rw [h.timestamps_eq, pairwise_map]
    exact hsorted
  · rw [h.length_eq]
    exact initColumns_length (h.spread_perm.mem_iff.1 (mem_append_left _ hc))
  · have hperm := h.spread_perm.map Column.name
    have hnames : (initColumns names rows).map Column.name = names := by
      rw [initColumns, map_map]
      exact map_id _
    rw [hnames, Block.spread, map_append, map_map] at hperm
    exact hperm.nodup_iff.2 h.nodup
  · -- the name of a constant column comes from some row, where its value is not empty
    have hmem : Field.spread b.timestamps.length f ∈ b.spread :=
      mem_append_right _ (mem_map_of_mem hf)
    obtain ⟨hn, hv⟩ := (h.mem_spread_iff _).1 hmem
    obtain ⟨r, hr, hnr⟩ := mem_rowNames.1 ((h.mem_iff _).1 hn)
    obtain ⟨g, hg, hname⟩ := mem_map.1 hnr
    have hcell : r.cellValue f.name ∈ replicate b.timestamps.length f.value := by
      show _ ∈ (Field.spread b.timestamps.length f).values
      rw [hv]
      exact mem_map_of_mem hr
    have hgv := Row.cellValue_of_mem (hvalid r hr) hg
    have hname' : g.name = f.name := hname
    rw [hname', eq_of_mem_replicate hcell, hnil] at hgv
    exact (hvalid r hr).value_ne_nil g hg hgv.symm

end Block.Tabulates

/-- The number of rows that the block builder takes. -/
def rowsProcessed (rows : List Row) : Nat :=
  if areSameFieldsInRows rows then rows.length else (columnIdxs [] rows).2

theorem initFromRows_timestamps (rows : List Row) :
    (initFromRows rows).timestamps = (rows.take (rowsProcessed rows)).map Row.timestamp := by
  cases rows with
  | nil => rfl
  | cons r rest =>
    rw [initFromRows, rowsProcessed]
    split_ifs with hsame
    · rw [take_length]
      rfl
    · dsimp only
      split_ifs with hempty
      · rw [isEmpty_iff.1 hempty]
        rfl
      · rfl

/-- What a block built from rows consists of. -/
theorem initFromRows_tabulates (hvalid : ∀ r ∈ rows, r.Valid) :
    ∃ names, (initFromRows rows).Tabulates names (rows.take (rowsProcessed rows)) := by
  cases rows with
  | nil => exact ⟨[], rfl, List.Perm.refl _, nodup_nil, fun n => by simp [rowNames]⟩
  | cons r rest =>
    rw [initFromRows, rowsProcessed]
    split_ifs with hsame
    · obtain ⟨hnodup, hall⟩ := areSame_spec hsame (hvalid r mem_cons_self)
      rw [take_length]
      refine ⟨r.fields.map Field.name, rfl, initFromSameFields_spread rfl hnodup hall, hnodup, fun n => ?_⟩
      rw [mem_rowNames]
      refine ⟨fun hn => ⟨r, mem_cons_self, hn⟩, fun ⟨s, hs, hn⟩ => ?_⟩
      rwa [hall s hs] at hn
    · obtain ⟨hnodup, -, hmem⟩ := columnIdxs_spec [] (r :: rest) nodup_nil (Nat.zero_le _)
      dsimp only
      split_ifs with hempty
      · rw [isEmpty_iff.1 hempty]
        exact ⟨[], rfl, List.Perm.refl _, nodup_nil, fun n => by simp [rowNames]⟩
      · refine ⟨_, rfl, slowPath_spread _, hnodup, fun n => ?_⟩
        rw [hmem n, or_iff_right (not_mem_nil)]

/-- Only the fast path can have too many columns. -/
theorem initFromRows_count_le_iff (rows : List Row) :
    (initFromRows rows).columns.length + (initFromRows rows).constColumns.length ≤ maxColumnsPerBlock ↔
      (areSameFieldsInRows rows = true → ∀ r ∈ rows.head?, r.fields.length ≤ maxColumnsPerBlock) := by
  cases rows with
  | nil => simp [initFromRows]
  | cons r rest =>
    rw [initFromRows]
    split_ifs with hsame
    · have hlen : (initFromSameFields (r :: rest) r.fields).columns.length +
          (initFromSameFields (r :: rest) r.fields).constColumns.length = r.fields.length := by
        rw [initFromSameFields, length_map, length_map, Nat.add_comm]
        exact (length_eq_length_filter_add _).symm.trans length_zipIdx
      rw [hlen]
      simp [hsame]
    · obtain ⟨-, hmax, -⟩ := columnIdxs_spec [] (r :: rest) nodup_nil (Nat.zero_le _)
      refine iff_of_true ?_ fun h => absurd h hsame
      dsimp only
      split_ifs
      · exact Nat.zero_le _
      · have hlen := (detectConstColumns_spread _ (columnIdxs [] (r :: rest)).1.length
          (initColumns (columnIdxs [] (r :: rest)).1 ((r :: rest).take (columnIdxs [] (r :: rest)).2)) []
          fun c hc => initColumns_length hc).length_eq
        rw [length_append, length_map, map_nil, append_nil, initColumns,
          length_map] at hlen
        exact hlen.trans_le hmax

/-- The fields of a row are the non-empty values in the columns. -/
theorem Block.mem_fieldsAt_iff (hb : b.Valid) {i : Nat} (hi : i < b.timestamps.length)
    (f : Field) :
    f ∈ b.fieldsAt i ↔ ∃ c ∈ b.spread, c.name = f.name ∧ c.values.getD i [] = f.value ∧ f.value ≠ [] := by
  simp only [Block.fieldsAt, Block.spread, mem_append, mem_filterMap, mem_map]
  constructor
  · intro h
    cases h with
    | inl h =>
      exact ⟨Field.spread b.timestamps.length f, .inr ⟨f, h, rfl⟩, rfl, getD_replicate f.value hi,
        hb.const_ne_nil f h⟩
    | inr h =>
      obtain ⟨c, hc, hf⟩ := h
      split at hf
      · cases hf
      · rename_i hne
        cases hf
        exact ⟨c, .inl hc, rfl, rfl, hne⟩
  · rintro ⟨c, hc, hname, hvalue, hne⟩
    cases hc with
    | inl hc =>
      refine .inr ⟨c, hc, ?_⟩
      rw [hvalue, if_neg hne, hname]
    | inr hc =>
      obtain ⟨g, hg, rfl⟩ := hc
      have hgv : g.value = f.value := (getD_replicate g.value hi).symm.trans hvalue
      have : f = g := by
        cases f
        cases g
        simp_all [Field.spread]
      exact .inl (this ▸ hg)

theorem Block.fieldsAt_names_sublist (b : Block) (i : Nat) :
    ((b.fieldsAt i).map Field.name).Sublist
      (b.constColumns.map Field.name ++ b.columns.map Column.name) := by
  rw [Block.fieldsAt, map_append]
  refine List.Sublist.append (List.Sublist.refl _) ?_
  induction b.columns with
  | nil => exact List.Sublist.refl _
  | cons c cs ih =>
    by_cases h : c.values.getD i [] = []
    · simp only [filterMap_cons, h, if_true, map_cons]
      exact ih.cons _
    · simp only [filterMap_cons, h, if_false, map_cons]
      exact ih.cons_cons _

theorem Block.fieldsAt_names_nodup (hb : b.Valid) (i : Nat) :
    ((b.fieldsAt i).map Field.name).Nodup :=
  (perm_append_comm.nodup_iff.1 hb.names_nodup).sublist (b.fieldsAt_names_sublist i)

/-- The rows read from a valid block are valid. -/
theorem Block.appendRowsTo_valid (hb : b.Valid) : ∀ r ∈ b.appendRowsTo, r.Valid := by
  intro r hr
  obtain ⟨⟨t, i⟩, hti, rfl⟩ := mem_map.1 hr
  have hi : i < b.timestamps.length :=
    (List.getElem?_eq_some_iff.1 (mem_zipIdx_iff_getElem?.1 hti)).1
  refine ⟨b.fieldsAt_names_nodup hb i, fun f hf => ?_⟩
  obtain ⟨_, _, _, _, hne⟩ := (Block.mem_fieldsAt_iff hb hi f).1 hf
  exact hne

theorem Block.appendRowsTo_timestamps (b : Block) :
    b.appendRowsTo.map Row.timestamp = b.timestamps := by
  rw [Block.appendRowsTo, map_map]
  exact zipIdx_map_fst 0 b.timestamps

theorem Block.appendRowsTo_sorted (hb : b.Valid) : SortedRows b.appendRowsTo := by
  have h := hb.sorted
  rw [← b.appendRowsTo_timestamps, pairwise_map] at h
  exact h

/-- A block that consists of the table of valid rows holds these rows. -/
theorem Block.Tabulates.sameRows
    (h : b.Tabulates names rows) (hb : b.Valid) (hvalid : ∀ r ∈ rows, r.Valid) :
    SameRows b.appendRowsTo rows := by
  refine List.forall₂_iff_get.2 ⟨?_, fun i h1 h2 => ?_⟩
  · rw [Block.appendRowsTo, length_map, length_zipIdx, h.length_eq]
  · have hi : i < b.timestamps.length := by rw [h.length_eq]; exact h2
    have hr := hvalid rows[i] (getElem_mem h2)
    have hrow : b.appendRowsTo.get ⟨i, h1⟩ = ⟨b.timestamps[i], b.fieldsAt i⟩ := by
      simp [Block.appendRowsTo]
    rw [hrow]
    refine ⟨by simp [h.timestamps_eq], ?_⟩
    have hnodup : (b.fieldsAt i).Nodup := (b.fieldsAt_names_nodup hb i).of_map _
    have hnodup' : rows[i].fields.Nodup := hr.names_nodup.of_map _
    refine (perm_ext_iff_of_nodup hnodup hnodup').2 fun f => ?_
    have hcell : ∀ n, (rows.map (·.cellValue n)).getD i [] = rows[i].cellValue n := fun n => by
      rw [getD_eq_getElem?_getD, getElem?_map, getElem?_eq_getElem h2]
      rfl
    rw [Block.mem_fieldsAt_iff hb hi, Row.mem_fields_iff hr]
    refine ⟨fun ⟨c, hc, hname, hv, hne⟩ => ?_, fun ⟨hv, hne⟩ => ?_⟩
    · obtain ⟨-, hvalues⟩ := (h.mem_spread_iff c).1 hc
      rw [hvalues, hcell, hname] at hv
      exact ⟨hv, hne⟩
    · have hmem : f ∈ rows[i].fields := (Row.mem_fields_iff hr f).2 ⟨hv, hne⟩
      have hn : f.name ∈ names := (h.mem_iff _).2
        (mem_rowNames.2 ⟨rows[i], getElem_mem h2, mem_map_of_mem hmem⟩)
      refine ⟨⟨f.name, rows.map (·.cellValue f.name)⟩, (h.mem_spread_iff _).2 ⟨hn, rfl⟩, rfl, ?_, hne⟩
      rw [hcell, hv]

/-! ### Sizes -/

theorem map_range_getD (values : List Bytes) (g : Bytes → Nat) :
    ((range values.length).map fun i => g (values.getD i [])) = values.map g := by
  refine ext_getElem (by simp) fun i h1 h2 => ?_
  have hi : i < values.length := by simpa using h1
  simp [getElem?_eq_getElem hi]

/-- Summing a table by rows or by columns. -/
theorem sum_rows_eq_sum_columns (g : Bytes → Bytes → Nat) (n : Nat) (cs : List Column)
    (hlen : ∀ c ∈ cs, c.values.length = n) :
    ((range n).map fun i => (cs.map fun c => g c.name (c.values.getD i [])).sum).sum =
      (cs.map fun c => (c.values.map (g c.name)).sum).sum := by
  induction cs with
  | nil => simp
  | cons c cs ih =>
    have hc := hlen c mem_cons_self
    simp only [map_cons, sum_cons]
    rw [sum_map_add, ih fun d hd => hlen d (mem_cons_of_mem _ hd), ← map_range_getD, hc]

/-- The fields of a row have the size of its cells. -/
theorem Block.fieldsAt_size (b : Block) (i : Nat) :
    ((b.fieldsAt i).map Field.estimatedLen).sum =
      (b.constColumns.map Field.estimatedLen).sum +
        (b.columns.map fun c => (Field.mk c.name (c.values.getD i [])).estimatedLen).sum := by
  rw [Block.fieldsAt, map_append, sum_append]
  congr 1
  induction b.columns with
  | nil => rfl
  | cons c cs ih =>
    by_cases h : c.values.getD i [] = []
    · have hzero : (Field.mk c.name (c.values.getD i [])).estimatedLen = 0 := by
        rw [Field.estimatedLen, if_pos h]
      simp only [filterMap_cons, h, if_true, map_cons, sum_cons]
      rw [ih, ← h, hzero, Nat.zero_add]
    · simp only [filterMap_cons, h, if_false, map_cons, sum_cons]
      rw [ih]

/-- The size of a block is the size of its rows. -/
theorem Block.uncompressedSizeBytes_eq (hb : b.Valid) :
    b.uncompressedSizeBytes = uncompressedRowsSizeBytes b.appendRowsTo := by
  have hrows : uncompressedRowsSizeBytes b.appendRowsTo =
      ((range b.timestamps.length).map fun i => estimatedJsonRowLen (b.fieldsAt i)).sum := by
    have hidx := zipIdx_map_snd 0 b.timestamps
    rw [uncompressedRowsSizeBytes, Block.appendRowsTo, map_map, range_eq_range', ← hidx,
      map_map]
    rfl
  have hconst : ∀ f ∈ b.constColumns,
      estimatedJsonFieldLen (getCanonicalColumnName f.name) f.value * b.timestamps.length =
        b.timestamps.length * f.estimatedLen := fun f hf => by
    rw [Field.estimatedLen, if_neg (hb.const_ne_nil f hf), Nat.mul_comm]
  rw [hrows]
  simp only [estimatedJsonRowLen, Block.fieldsAt_size]
  rw [sum_map_add, sum_map_add,
    sum_rows_eq_sum_columns (fun n v => (Field.mk n v).estimatedLen) _ _ hb.values_length,
    Block.uncompressedSizeBytes, map_congr_left hconst, sum_map_mul_left]
  simp only [map_const', sum_replicate, length_range, smul_eq_mul]
  split_ifs with h0
  · have hempty : ∀ c ∈ b.columns,
        (c.values.map fun v => (Field.mk c.name v).estimatedLen).sum = 0 := fun c hc => by
      rw [length_eq_zero_iff.1 ((hb.values_length c hc).trans h0)]
      rfl
    rw [map_congr_left hempty, h0]
    simp
  · ring

theorem SameRows.map_timestamp {rows' : List Row} (h : SameRows rows rows') :
    rows.map Row.timestamp = rows'.map Row.timestamp := by
  induction h with
  | nil => rfl
  | cons hr _ ih => rw [map_cons, map_cons, hr.1, ih]

theorem SameRows.size_eq {rows rows' : List Row} (h : SameRows rows rows') :
    uncompressedRowsSizeBytes rows = uncompressedRowsSizeBytes rows' := by
  induction h with
  | nil => rfl
  | cons hr _ ih =>
    simp only [uncompressedRowsSizeBytes, map_cons, sum_cons, estimatedJsonRowLen] at ih ⊢
    rw [ih, (hr.2.map Field.estimatedLen).sum_eq]

/-! ### Building a block -/

theorem assertTimestampsSorted_iff (ts : List Int) :
    assertTimestampsSorted ts = .ok () ↔ ts.Pairwise (· ≤ ·) := by
  rw [← isChain_iff_pairwise]
  induction ts with
  | nil => exact iff_of_true rfl .nil
  | cons a ts ih =>
    cases ts with
    | nil => exact iff_of_true rfl (.singleton a)
    | cons b ts =>
      rw [assertTimestampsSorted, isChain_cons_cons, ← ih]
      split_ifs with hgt
      · exact iff_of_false nofun fun h => absurd h.1 (not_le.2 hgt)
      · exact (and_iff_right (not_lt.1 hgt)).symm

def Block.byName (b : Block) : Block :=
  { b with
    columns := b.columns.insertionSort (·.name ≤ ·.name)
    constColumns := b.constColumns.insertionSort (·.name ≤ ·.name) }

theorem Block.Tabulates.byName (h : b.Tabulates names rows) : b.byName.Tabulates names rows :=
  { h with
    spread_perm := ((perm_insertionSort _ _).append ((perm_insertionSort _ _).map _)).trans
      h.spread_perm }

/-- When a block is built, and which one it is. -/
theorem mustInitFromRows_eq_ok_iff :
    mustInitFromRows rows = .ok b ↔ SortedRows rows ∧
      (areSameFieldsInRows rows = true → ∀ r ∈ rows.head?, r.fields.length ≤ maxColumnsPerBlock) ∧
      b = (initFromRows rows).byName := by
  rw [← initFromRows_count_le_iff, SortedRows, ← pairwise_map (f := Row.timestamp),
    ← assertTimestampsSorted_iff, mustInitFromRows, except_bind_eq_ok_iff, Block.sortColumnsByName]
  split_ifs with hgt
  · exact iff_of_false (fun ⟨_, _, h⟩ => nomatch h) fun h => absurd h.2.1 (not_le.2 hgt)
  · refine ⟨fun ⟨_, hsorted, h⟩ => ⟨hsorted, not_lt.1 hgt, (Except.ok.inj h).symm⟩, fun h => ⟨(), h.1, ?_⟩⟩
    rw [h.2.2]
    rfl

/-- A block that is built holds the rows that are taken, with the size they have. -/
theorem mustInitFromRows_holds (hvalid : ∀ r ∈ rows, r.Valid) (h : mustInitFromRows rows = .ok b) :
    b.Valid ∧ SameRows b.appendRowsTo (rows.take (rowsProcessed rows)) := by
  obtain ⟨hsorted, -, rfl⟩ := mustInitFromRows_eq_ok_iff.1 h
  obtain ⟨names, htab⟩ := initFromRows_tabulates hvalid
  have hkept : ∀ r ∈ rows.take (rowsProcessed rows), r.Valid := fun r hr => hvalid r (mem_of_mem_take hr)
  have hb := htab.byName.valid hkept (hsorted.sublist (take_sublist _ _))
  exact ⟨hb, htab.byName.sameRows hb hkept⟩

theorem ColumnsFit.withinLimit (h : ColumnsFit rows) : WithinLimit rows := by
  intro i r hi
  have hsub : rowNames (rows.take i) ⊆ rowNames rows := by
    intro n hn
    obtain ⟨s, hs, hns⟩ := mem_rowNames.1 hn
    exact mem_rowNames.2 ⟨s, mem_of_mem_take hs, hns⟩
  exact (Nat.add_le_add_right (Finset.card_le_card hsub) _).trans (h r (mem_of_getElem? hi))

theorem length_le_rowsProcessed_iff (rows : List Row) :
    rows.length ≤ rowsProcessed rows ↔ areSameFieldsInRows rows = true ∨ WithinLimit rows := by
  have hlimit := length_le_columnIdxs_snd_iff nodup_nil rows
  simp only [toFinset_nil, Finset.empty_union] at hlimit
  rw [rowsProcessed]
  split_ifs with hsame
  · exact iff_of_true le_rfl (.inl hsame)
  · rw [hlimit, or_iff_right hsame]
    rfl

/-- Rows that fit into a block come back from it, with the size they had. -/
theorem mustInitFromRows_spec (hvalid : ∀ r ∈ rows, r.Valid)
    (hsorted : SortedRows rows) (hfit : ColumnsFit rows) :
    ∃ b, mustInitFromRows rows = .ok b ∧ b.Valid ∧ SameRows b.appendRowsTo rows ∧
      b.timestamps = rows.map Row.timestamp := by
  have hcount : ∀ r ∈ rows.head?, r.fields.length ≤ maxColumnsPerBlock := fun r hr =>
    (Nat.le_add_left _ _).trans (hfit r (mem_of_mem_head? hr))
  have hinit := mustInitFromRows_eq_ok_iff.2 ⟨hsorted, fun _ => hcount, rfl⟩
  obtain ⟨hb, hsame⟩ := mustInitFromRows_holds hvalid hinit
  rw [take_of_length_le ((length_le_rowsProcessed_iff rows).2 (.inr hfit.withinLimit))] at hsame
  exact ⟨_, hinit, hb, hsame, (Block.appendRowsTo_timestamps _).symm.trans hsame.map_timestamp⟩

end EsLogs
