import EsLogs.BlockRows

/-!
Which rows a block takes. The limit on the columns is tested before a row is taken, and every field of
the row counts, also one whose name has been seen: two rows with common names can pass the limit
together and still leave the second one out.
-/

namespace EsLogs

open List

variable {rows : List Row} {b : Block}

/-- The rows are in order and pass the test of their path. -/
def TakesEveryRow (rows : List Row) : Prop :=
  SortedRows rows ∧
    if areSameFieldsInRows rows then ∀ r ∈ rows.head?, r.fields.length ≤ maxColumnsPerBlock
    else WithinLimit rows

theorem takesEveryRow_iff :
    TakesEveryRow rows ↔ (∃ b, mustInitFromRows rows = .ok b) ∧ rows.length ≤ rowsProcessed rows := by
  rw [length_le_rowsProcessed_iff, TakesEveryRow]
  simp only [mustInitFromRows_eq_ok_iff, exists_and_left, exists_eq, and_true]
  split_ifs with hsame
  · simp [hsame]
  · simp [hsame]

theorem timestamps_eq_iff (h : mustInitFromRows rows = .ok b) :
    b.timestamps = rows.map Row.timestamp ↔ rows.length ≤ rowsProcessed rows := by
  obtain ⟨-, -, rfl⟩ := mustInitFromRows_eq_ok_iff.1 h
  have hts : (initFromRows rows).byName.timestamps = _ := initFromRows_timestamps rows
  rw [hts]
  refine ⟨fun heq => ?_, fun hle => by rw [take_of_length_le hle]⟩
  have hlen := congrArg length heq
  rw [length_map, length_map, length_take] at hlen
  omega

/-- Which rows come back from their block. -/
theorem rows_come_back_iff (hvalid : ∀ r ∈ rows, r.Valid) :
    (∃ b, mustInitFromRows rows = .ok b ∧ SameRows b.appendRowsTo rows) ↔ TakesEveryRow rows := by
  rw [takesEveryRow_iff]
  constructor
  · rintro ⟨b, hb, hsame⟩
    refine ⟨⟨b, hb⟩, (timestamps_eq_iff hb).1 ?_⟩
    exact (Block.appendRowsTo_timestamps b).symm.trans hsame.map_timestamp
  · rintro ⟨⟨b, hb⟩, hle⟩
    have hsame := (mustInitFromRows_holds hvalid hb).2
    rw [take_of_length_le hle] at hsame
    exact ⟨b, hb, hsame⟩

/-- Two rows with different names, on the slow path. -/
theorem rows_come_back_two :
    ∃ b, mustInitFromRows [⟨1, [⟨[97], [49]⟩]⟩, ⟨2, [⟨[98], [50]⟩, ⟨[97], [51]⟩]⟩] = .ok b ∧
      SameRows b.appendRowsTo [⟨1, [⟨[97], [49]⟩]⟩, ⟨2, [⟨[98], [50]⟩, ⟨[97], [51]⟩]⟩] := by
  refine (rows_come_back_iff ?_).2 (takesEveryRow_iff.2 ⟨⟨_, rfl⟩, by decide⟩)
  simp only [forall_mem_cons]
  exact ⟨⟨by decide, by decide⟩, ⟨by decide, by decide⟩, by simp⟩

/-- When every row is kept. -/
theorem block_keeps_rows_iff (rows : List Row) :
    (∃ b, mustInitFromRows rows = .ok b ∧ b.timestamps = rows.map Row.timestamp) ↔
      TakesEveryRow rows := by
  rw [takesEveryRow_iff, ← exists_and_right]
  exact exists_congr fun b => and_congr_right timestamps_eq_iff

/-! ### Rows that are left out below the limit -/

def wideNames (k : Nat) : List Bytes := (List.range k).map (beBytes 2)

def wideRow (t : Int) (k : Nat) : Row := ⟨t, (wideNames k).map (⟨·, [0]⟩)⟩

/-- The second row has only names of the first. -/
def wideRows : List Row := [wideRow 0 1001, wideRow 1 1000]

theorem wideNames_nodup {k : Nat} (hk : k ≤ 256 ^ 2) : (wideNames k).Nodup :=
  nodup_range.map_on fun _ hm _ hn =>
    beBytes_injOn ((mem_range.1 hm).trans_le hk) ((mem_range.1 hn).trans_le hk)

theorem wideRow_names (t : Int) (k : Nat) : (wideRow t k).fields.map Field.name = wideNames k := by
  rw [wideRow, map_map]
  exact map_id _

theorem wideNames_length (k : Nat) : (wideNames k).length = k := by
  rw [wideNames, length_map, length_range]

theorem wideRow_valid (t : Int) {k : Nat} (hk : k ≤ 256 ^ 2) : (wideRow t k).Valid where
  names_nodup := (wideRow_names t k).symm ▸ wideNames_nodup hk
  value_ne_nil f hf := by
    obtain ⟨n, -, rfl⟩ := mem_map.1 hf
    exact cons_ne_nil _ _

theorem rowNames_wideRow (t : Int) (k : Nat) : rowNames [wideRow t k] = (wideNames k).toFinset := by
  rw [rowNames, flatMap_singleton, wideRow_names]

theorem rowNames_wideRows_card : (rowNames wideRows).card ≤ maxColumnsPerBlock := by
  have hsub : rowNames wideRows ⊆ (wideNames 1001).toFinset := by
    intro n hn
    simp only [mem_rowNames, wideRows, exists_mem_cons_iff, wideRow_names] at hn
    simp only [wideNames, mem_toFinset, mem_map, mem_range] at hn ⊢
    obtain h | ⟨i, hi, h⟩ | ⟨_, h, _⟩ := hn
    · exact h
    · exact ⟨i, hi.trans (by norm_num), h⟩
    · cases h
  refine (Finset.card_le_card hsub).trans ((toFinset_card_le _).trans ?_)
  rw [wideNames_length]
  decide

theorem wideRows_not_taken : ¬ TakesEveryRow wideRows := by
  intro h
  have hdiff : areSameFieldsInRows wideRows = false := by
    by_contra hsame
    simp only [wideRows, areSameFieldsInRows, wideRow_names, all_cons, Bool.not_eq_false,
      Bool.and_eq_true, decide_eq_true_eq] at hsame
    have hlen := congrArg length hsame.2.1
    rw [wideNames_length, wideNames_length] at hlen
    omega
  rw [TakesEveryRow, hdiff, if_neg Bool.false_ne_true] at h
  have hsecond := h.2 1 (wideRow 1 1000) rfl
  have hcard : (rowNames [wideRow 0 1001]).card = 1001 := by
    rw [rowNames_wideRow, toFinset_card_of_nodup (wideNames_nodup (by norm_num)), wideNames_length]
  have hlen : (wideRow 1 1000).fields.length = 1000 := by
    rw [← length_map Field.name, wideRow_names, wideNames_length]
  rw [show wideRows.take 1 = [wideRow 0 1001] from rfl, hcard, hlen] at hsecond
  exact absurd hsecond (by decide)

theorem wideRows_valid : ∀ r ∈ wideRows, r.Valid := by
  simp only [wideRows, forall_mem_cons]
  exact ⟨wideRow_valid _ (by norm_num), wideRow_valid _ (by norm_num), by simp⟩

theorem wideRows_sorted : SortedRows wideRows := by
  simp [SortedRows, wideRows, wideRow]

theorem wide_rows_are_lost : (∀ r ∈ wideRows, r.Valid) ∧ SortedRows wideRows ∧
    (rowNames wideRows).card ≤ maxColumnsPerBlock ∧
    ¬ ∃ b, mustInitFromRows wideRows = .ok b ∧ SameRows b.appendRowsTo wideRows := by
  refine ⟨wideRows_valid, wideRows_sorted, rowNames_wideRows_card, ?_⟩
  rintro ⟨b, hb, hsame⟩
  refine wideRows_not_taken (takesEveryRow_iff.2 ⟨⟨b, hb⟩, (timestamps_eq_iff hb).1 ?_⟩)
  exact (Block.appendRowsTo_timestamps b).symm.trans hsame.map_timestamp

/-- The second row is ignored, though the two have 1001 names. -/
theorem wide_rows_are_ignored : SortedRows wideRows ∧ (rowNames wideRows).card ≤ maxColumnsPerBlock ∧
    ¬ ∃ b, mustInitFromRows wideRows = .ok b ∧ b.timestamps = wideRows.map Row.timestamp := by
  refine ⟨wideRows_sorted, rowNames_wideRows_card, ?_⟩
  rintro ⟨b, hb, hts⟩
  exact wideRows_not_taken (takesEveryRow_iff.2 ⟨⟨b, hb⟩, (timestamps_eq_iff hb).1 hts⟩)

/-! ### The size of the rows -/

/-- A block is built from rows in order, and its size is that of the rows it takes. -/
theorem block_size_is_rows_size (hvalid : ∀ r ∈ rows, r.Valid) :
    (SortedRows rows → (∀ r ∈ rows, r.fields.length ≤ maxColumnsPerBlock) →
      ∃ b, mustInitFromRows rows = .ok b) ∧
    ∀ b, mustInitFromRows rows = .ok b →
      b.uncompressedSizeBytes = uncompressedRowsSizeBytes (rows.take b.timestamps.length) := by
  refine ⟨fun hsorted hlen => ?_, fun b hb => ?_⟩
  · exact ⟨_, mustInitFromRows_eq_ok_iff.2 ⟨hsorted, fun _ r hr => hlen r (mem_of_mem_head? hr), rfl⟩⟩
  · obtain ⟨hbv, hsame⟩ := mustInitFromRows_holds hvalid hb
    have hts := (Block.appendRowsTo_timestamps b).symm.trans hsame.map_timestamp
    rw [Block.uncompressedSizeBytes_eq hbv, hsame.size_eq, hts, length_map, length_take,
      ← take_take, take_length]

theorem block_size_is_rows_size_two :
    ∃ b, mustInitFromRows [⟨1, [⟨[97], [49]⟩]⟩, ⟨2, [⟨[98], [50]⟩]⟩] = .ok b ∧
      b.uncompressedSizeBytes =
        uncompressedRowsSizeBytes ([⟨1, [⟨[97], [49]⟩]⟩, ⟨2, [⟨[98], [50]⟩]⟩].take 2) := by
  refine ⟨_, rfl, (block_size_is_rows_size ?_).2 _ rfl⟩
  simp only [forall_mem_cons]
  exact ⟨⟨by decide, by decide⟩, ⟨by decide, by decide⟩, by simp⟩

end EsLogs
