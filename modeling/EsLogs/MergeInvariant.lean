import EsLogs.BlockPacking
import EsLogs.BlockStreamMerger

/-!
What holds between two blocks of a merge. Every row is accounted for: what has been written, what is
pending and what is left in the readers make up the rows of the input, up to rows without fields, which
may be left out.
-/

namespace EsLogs

open List

variable {input : List Row} {rows : List Row} {env : MergeEnv} {bd : BlockData}

/-! ### Comparing lists of rows -/

/-- A row as what it says: its timestamp and its fields, in any order. -/
def Row.entry (r : Row) : Int × Multiset Field := (r.timestamp, ↑r.fields)

def entries (rows : List Row) : Multiset (Int × Multiset Field) := ↑(rows.map Row.entry)

def withFields (rows : List Row) : List Row := rows.filter fun r => !r.fields.isEmpty

/-- The first list holds every row with fields of the second exactly as often, and nothing that the
second does not hold. -/
structure KeepsRows (out inp : List Row) : Prop where
  with_fields : entries (withFields out) = entries (withFields inp)
  le : entries out ≤ entries inp

namespace KeepsRows

variable {a b c d : List Row}

theorem refl (a : List Row) : KeepsRows a a := ⟨rfl, le_rfl⟩

theorem trans (h : KeepsRows a b) (h' : KeepsRows b c) : KeepsRows a c :=
  ⟨h.with_fields.trans h'.with_fields, h.le.trans h'.le⟩

theorem append (h : KeepsRows a b) (h' : KeepsRows c d) : KeepsRows (a ++ c) (b ++ d) := by
  have hentries : ∀ x y : List Row, entries (x ++ y) = entries x + entries y := fun x y => by
    simp [entries]
  have hfields : ∀ x y : List Row, withFields (x ++ y) = withFields x ++ withFields y := filter_append
  refine ⟨?_, ?_⟩
  · rw [hfields, hfields, hentries, hentries, h.with_fields, h'.with_fields]
  · rw [hentries, hentries]
    exact add_le_add h.le h'.le

theorem of_perm (h : a ~ b) : KeepsRows a b :=
  ⟨Multiset.coe_eq_coe.2 ((h.filter _).map _), (Multiset.coe_eq_coe.2 (h.map _)).le⟩

theorem of_sameRows (h : SameRows a b) : KeepsRows a b := by
  have hentries : a.map Row.entry = b.map Row.entry ∧
      (withFields a).map Row.entry = (withFields b).map Row.entry := by
    induction h with
    | nil => exact ⟨rfl, rfl⟩
    | @cons r s _ _ hr _ ih =>
      have hentry : r.entry = s.entry := by
        rw [Row.entry, Row.entry, hr.1, Multiset.coe_eq_coe.2 hr.2]
      have hempty : r.fields.isEmpty = s.fields.isEmpty := by
        rw [Bool.eq_iff_iff, List.isEmpty_iff_length_eq_zero, List.isEmpty_iff_length_eq_zero,
          hr.2.length_eq]
      refine ⟨by rw [map_cons, map_cons, hentry, ih.1], ?_⟩
      simp only [withFields, filter_cons, hempty] at ih ⊢
      split_ifs
      · rw [map_cons, map_cons, hentry, ih.2]
      · exact ih.2
  refine ⟨?_, ?_⟩
  · rw [entries, entries, hentries.2]
  · rw [entries, entries, hentries.1]

/-- Rows without fields may be left out. -/
theorem nil_of_fieldless (h : hasNonEmptyRows a = false) : KeepsRows [] a := by
  have hnil : withFields a = [] := by
    rw [withFields, filter_eq_nil_iff]
    exact any_eq_false.1 h
  refine ⟨?_, Multiset.zero_le _⟩
  rw [hnil]
  rfl

end KeepsRows

/-! ### The rows of a stream -/

/-- The rows that the blocks of one stream hold, as read by `f`. -/
def streamRows (f : BlockData → List Row) (sid : StreamID) (bds : List BlockData) : List Row :=
  (bds.filter (·.streamId = sid)).flatMap f

theorem streamRows_cons (f : BlockData → List Row) (sid : StreamID) (bd : BlockData)
    (bds : List BlockData) :
    streamRows f sid (bd :: bds) =
      (if bd.streamId = sid then f bd else []) ++ streamRows f sid bds := by
  by_cases h : bd.streamId = sid <;> simp [streamRows, h]

theorem streamRows_concat (f : BlockData → List Row) (sid : StreamID) (bd : BlockData)
    (bds : List BlockData) :
    streamRows f sid (bds ++ [bd]) =
      streamRows f sid bds ++ if bd.streamId = sid then f bd else [] := by
  by_cases h : bd.streamId = sid <;> simp [streamRows, h]

/-- Whether the rows of a block have to be looked at by the drop filter. -/
def BlockData.needsDrop (env : MergeEnv) (bd : BlockData) : Bool :=
  BlockStreamMerger.needDropRows env bd.streamId bd.timestampsData.minTimestamp
    bd.timestampsData.maxTimestamp

/-- The rows of a block that the drop filter leaves. -/
def keptRows (env : MergeEnv) (bd : BlockData) : List Row :=
  match env.dropFilter with
  | none => env.codec.rows bd
  | some df =>
    if bd.needsDrop env then
      df.skipRowsByDropFilter (df.streamString bd.streamId) bd.streamId.marshalString
        (env.codec.rows bd)
    else env.codec.rows bd

/-- The fields of the row are among those of the given rows, whose names with its own fields stay within the limit on
columns. -/
def Row.FitsIn (input : List Row) (r : Row) : Prop :=
  (∀ f ∈ r.fields, ∃ s ∈ input, f ∈ s.fields) ∧ (rowNames input).card + r.fields.length ≤ maxColumnsPerBlock

/-- A row that can be written to a block of its stream. -/
structure Row.Storable (input : List Row) (r : Row) : Prop where
  valid : r.Valid
  fits : r.FitsIn input
  in_i64 : InI64 r.timestamp

/-- A block of the input. -/
structure BlockData.Mergeable (env : MergeEnv) (input : StreamID → List Row) (bd : BlockData) :
    Prop where
  well_formed : bd.WellFormed env.codec
  fits : ∀ r ∈ env.codec.rows bd, r.FitsIn (input bd.streamId)
  droppable : ∀ df, env.dropFilter = some df → bd.needsDrop env = true →
    bd.streamId ≠ default ∧ Utf8.isValid (df.streamString bd.streamId) = true ∧
      bd.uncompressedSizeBytes < 2 * maxUncompressedBlockSize

theorem columnsFit_of_storable (h : ∀ r ∈ rows, r.Storable input) : ColumnsFit rows := by
  intro r hr
  have hsub : rowNames rows ⊆ rowNames input := by
    intro n hn
    obtain ⟨s, hs, hns⟩ := mem_rowNames.1 hn
    obtain ⟨f, hf, rfl⟩ := mem_map.1 hns
    obtain ⟨t, ht, hft⟩ := (h s hs).fits.1 f hf
    exact mem_rowNames.2 ⟨t, ht, mem_map_of_mem hft⟩
  have hcard := Finset.card_le_card hsub
  have := (h r hr).fits.2
  omega

/-! ### What the drop filter leaves -/

/-- An empty row in the place of a dropped one. -/
theorem Row.Storable.tombstone {r : Row} (h : r.Storable input) : (Row.mk r.timestamp []).Storable input := by
  exact ⟨⟨nodup_nil, nofun⟩, ⟨nofun, (Nat.le_add_right _ _).trans h.fits.2⟩, h.in_i64⟩

variable {df : DropFilter} {stream streamId : Bytes}

theorem skipRows_storable (h : ∀ r ∈ rows, r.Storable input) :
    ∀ r ∈ df.skipRowsByDropFilter stream streamId rows, r.Storable input := by
  cases rows with
  | nil => exact h
  | cons r rows =>
    obtain ⟨hr, hrows⟩ := forall_mem_cons.1 h
    refine forall_mem_cons.2 ⟨?_, fun s hs => hrows s (mem_of_mem_filter hs)⟩
    split_ifs
    · exact hr.tombstone
    · exact hr

theorem skipRows_sorted (h : SortedRows rows) : SortedRows (df.skipRowsByDropFilter stream streamId rows) := by
  cases rows with
  | nil => exact h
  | cons r rows =>
    obtain ⟨hr, hrows⟩ := pairwise_cons.1 h
    refine pairwise_cons.2 ⟨fun s hs => ?_, hrows.sublist filter_sublist⟩
    have hle := hr s (mem_of_mem_filter hs)
    split_ifs <;> exact hle

theorem skipRows_size_le (rows : List Row) :
    uncompressedRowsSizeBytes (df.skipRowsByDropFilter stream streamId rows) ≤
      uncompressedRowsSizeBytes rows := by
  cases rows with
  | nil => exact le_rfl
  | cons r rows =>
    simp only [DropFilter.skipRowsByDropFilter, uncompressedRowsSizeBytes, map_cons,
      sum_cons]
    refine Nat.add_le_add ?_ ?_
    · split_ifs
      · exact Nat.le_add_right _ _
      · exact le_rfl
    · exact (filter_sublist.map _).sum_le_sum fun _ _ => Nat.zero_le _

theorem skipRows_head (df : DropFilter) (stream streamId : Bytes) (r : Row) (rows : List Row) :
    ∃ s rest, df.skipRowsByDropFilter stream streamId (r :: rows) = s :: rest ∧
      s.timestamp = r.timestamp := by
  refine ⟨_, _, rfl, ?_⟩
  split_ifs <;> rfl

theorem BlockData.WellFormed.storable {input : StreamID → List Row} (h : bd.WellFormed env.codec)
    (hfits : ∀ r ∈ env.codec.rows bd, r.FitsIn (input bd.streamId)) :
    ∀ r ∈ env.codec.rows bd, r.Storable (input bd.streamId) := by
  intro r hr
  obtain ⟨b, hb⟩ := h
  refine ⟨b.appendRowsTo_valid hb.valid r (hb.rows_eq ▸ hr), hfits r hr, hb.in_i64 _ ?_⟩
  rw [← b.appendRowsTo_timestamps, ← hb.rows_eq]
  exact mem_map_of_mem hr

/-- The rows that are left of a block of the input. -/
structure KeptSpec (input : List Row) (bd : BlockData) (rows : List Row) : Prop where
  storable : ∀ r ∈ rows, r.Storable input
  sorted : SortedRows rows
  size_le : uncompressedRowsSizeBytes rows ≤ bd.uncompressedSizeBytes
  head : ∃ r rest, rows = r :: rest ∧ r.timestamp = bd.timestampsData.minTimestamp

theorem BlockData.Mergeable.kept {input : StreamID → List Row}
    (h : bd.Mergeable env input) : KeptSpec (input bd.streamId) bd (keptRows env bd) := by
  obtain ⟨b, hb⟩ := h.well_formed
  have hall : KeptSpec (input bd.streamId) bd (env.codec.rows bd) :=
    ⟨h.well_formed.storable h.fits, hb.rows_eq ▸ b.appendRowsTo_sorted hb.valid,
      hb.size_rows.ge, hb.head_timestamp⟩
  unfold keptRows
  cases hdf : env.dropFilter with
  | none => exact hall
  | some df =>
    by_cases hdrop : bd.needsDrop env = true
    · simp only [hdrop, if_true]
      refine ⟨skipRows_storable hall.storable, skipRows_sorted hall.sorted,
        (skipRows_size_le _).trans hall.size_le, ?_⟩
      obtain ⟨r, rest, hrows, hts⟩ := hall.head
      obtain ⟨s, rest', hs, hst⟩ := skipRows_head df (df.streamString bd.streamId)
        bd.streamId.marshalString r rest
      rw [hrows]
      exact ⟨s, rest', hs, hst.trans hts⟩
    · simp only [hdrop, Bool.false_eq_true, if_false]
      exact hall

theorem keptRows_eq_rows (h : bd.needsDrop env = false) : keptRows env bd = env.codec.rows bd := by
  unfold keptRows
  cases env.dropFilter with
  | none => rfl
  | some df => simp only [h, Bool.false_eq_true, if_false]

/-! ### The invariant -/

/-- The pending rows, in the form in which the merger holds them. -/
inductive Holds (env : MergeEnv) (m : BlockStreamMerger) : List Row → Prop
  | nothing (hbd : m.bd = BlockData.empty) (hrows : m.rows = [])
      (hsize : m.uncompressedRowsSizeBytes = 0) : Holds env m []
  | packed (hbd : m.bd.WellFormed env.codec) (hsid : m.bd.streamId = m.streamId)
      (hkeep : m.bd.needsDrop env = false) (hrows : m.rows = [])
      (hsize : m.uncompressedRowsSizeBytes = 0) : Holds env m (env.codec.rows m.bd)
  | unpacked (hbd : m.bd = BlockData.empty) (hrows : m.rows ≠ [])
      (hsize : m.uncompressedRowsSizeBytes = uncompressedRowsSizeBytes m.rows)
      (hlt : uncompressedRowsSizeBytes m.rows < 2 * maxUncompressedBlockSize) : Holds env m m.rows

/-- The texts that the drop filter sees belong to the current stream. -/
def TextsOk (env : MergeEnv) (m : BlockStreamMerger) : Prop :=
  ∀ df, env.dropFilter = some df →
    BlockStreamMerger.needDropRows env m.streamId (-2 ^ 63) (2 ^ 63 - 1) = true →
      m.streamId ≠ default →
        m.streamBuf = df.streamString m.streamId ∧ m.streamIdBuf = m.streamId.marshalString

/-- The merger between two blocks: `rest` is what the readers still hold, `p` the pending rows, and
`total` the rows of each stream that the input holds. -/
structure Merged (env : MergeEnv) (input : StreamID → List Row) (total : StreamID → List Row)
    (rest : List BlockData) (m : BlockStreamMerger) (p : List Row) : Prop where
  holds : Holds env m p
  texts : TextsOk env m
  storable : ∀ r ∈ p, r.Storable (input m.streamId)
  sorted : SortedRows p
  rest_ok : ∀ bd ∈ rest, bd.Mergeable env input
  rest_sorted : rest.Pairwise BlockData.Precedes
  rest_sid : ∀ bd ∈ rest, m.streamId ≤ bd.streamId
  rest_min : ∀ bd ∈ rest, bd.streamId = m.streamId → ∀ r ∈ p.head?,
    r.timestamp ≤ bd.timestampsData.minTimestamp
  ordered : m.bsw.Ordered
  written : ∀ bd ∈ m.bsw.blocks, bd.WellFormed env.codec
  last_sid : m.bsw.sidLast ≤ m.streamId
  last_min : m.bsw.sidLast = m.streamId → ∀ r ∈ p.head?, m.bsw.minTimestampLast ≤ r.timestamp
  last_rest : ∀ bd ∈ rest, bd.streamId = m.bsw.sidLast →
    m.bsw.minTimestampLast ≤ bd.timestampsData.minTimestamp
  keeps : ∀ sid, KeepsRows
    (streamRows env.codec.rows sid m.bsw.blocks ++ ((if m.streamId = sid then p else []) ++
      streamRows (keptRows env) sid rest)) (total sid)

end EsLogs
