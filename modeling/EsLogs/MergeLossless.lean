import EsLogs.MergeRun

/-!
The merge of parts without a drop filter keeps every row that has fields, and no row becomes two. Rows
without fields, which stand for nothing in the data model, may get lost. A plain codec shows that the
assumptions on codecs can be met.
-/

namespace EsLogs

open List

variable {rows : List Row} {r : Row}

/-- The blocks of a part, as its reader yields them: the reader starts from the zero stream id and the
timestamp zero, and does not go back from there. -/
structure WellFormedStream (codec : BlockCodec) (bds : List BlockData) : Prop where
  well_formed : ∀ bd ∈ bds, bd.WellFormed codec
  sorted : bds.Pairwise BlockData.Precedes
  first : ∀ bd ∈ bds, bd.streamId = default → 0 ≤ bd.timestampsData.minTimestamp

theorem mergeable_of_wellFormed {codec : BlockCodec} (paths : String)
    {bsrs : List (List BlockData)} (hwf : ∀ r ∈ bsrs, WellFormedStream codec r)
    (hfit : ∀ sid, ColumnsFit (streamRows codec.rows sid bsrs.flatten)) :
    ∀ bd ∈ bsrs.flatten, bd.Mergeable ⟨codec, paths, none⟩ fun sid => streamRows codec.rows sid bsrs.flatten := by
  intro bd hbd
  obtain ⟨bds, hbds, hmem⟩ := mem_flatten.1 hbd
  have hstream : ∀ r ∈ codec.rows bd, r ∈ streamRows codec.rows bd.streamId bsrs.flatten :=
    fun r hr => mem_flatMap.2 ⟨bd, mem_filter.2 ⟨hbd, by simp⟩, hr⟩
  refine ⟨(hwf bds hbds).well_formed bd hmem, fun r hr => ⟨fun f hf => ⟨r, hstream r hr, hf⟩, ?_⟩, fun df hdf => ?_⟩
  · exact hfit bd.streamId r (hstream r hr)
  · cases hdf

/-- For every set of well-formed block streams whose rows fit into blocks and whose columns the codec restores, the
merge succeeds. The output holds, for every stream, exactly the rows with fields of the input; its blocks are ordered by
stream id and, within a stream, by their smallest timestamps, and so are the rows of each block. -/
theorem mustMergeBlockStreams_keeps_rows (codec : BlockCodec) (paths : String) (bsrs : List (List BlockData))
    (hcodec : ∀ sid, codec.Lossless (streamRows codec.rows sid bsrs.flatten))
    (hwf : ∀ bds ∈ bsrs, WellFormedStream codec bds)
    (hfit : ∀ sid, ColumnsFit (streamRows codec.rows sid bsrs.flatten)) :
    ∃ blocks, mustMergeBlockStreams ⟨codec, paths, none⟩ bsrs = .ok blocks ∧
      (∀ sid, entries (withFields (streamRows codec.rows sid blocks)) =
        entries (withFields (streamRows codec.rows sid bsrs.flatten))) ∧
      (∀ sid, entries (streamRows codec.rows sid blocks) ≤
        entries (streamRows codec.rows sid bsrs.flatten)) ∧
      blocks.Pairwise (fun a b => a.streamId ≤ b.streamId) ∧
      (∀ bd ∈ blocks, SortedRows (codec.rows bd)) ∧
      blocks.Pairwise (fun a b => a.streamId = b.streamId →
        a.timestampsData.minTimestamp ≤ b.timestampsData.minTimestamp) := by
  have hfirst : ∀ bd ∈ bsrs.flatten, bd.streamId = default →
      0 ≤ bd.timestampsData.minTimestamp := fun bd hbd => by
    obtain ⟨bds, hbds, hmem⟩ := mem_flatten.1 hbd
    exact (hwf bds hbds).first bd hmem
  obtain ⟨blocks, hrun, hkeeps, hordered, hblocks⟩ := mustMergeBlockStreams_spec
    ⟨codec, paths, none⟩ hcodec (mergeable_of_wellFormed paths hwf hfit)
    (fun bds hbds => (hwf bds hbds).sorted) hfirst
  refine ⟨blocks, hrun, fun sid => (hkeeps sid).with_fields, fun sid => (hkeeps sid).le,
    hordered.imp fun h => h.1, fun bd hbd => ?_, hordered.imp fun h => h.2⟩
  obtain ⟨b, hb⟩ := hblocks bd hbd
  have hrows : codec.rows bd = b.appendRowsTo := hb.rows_eq
  rw [hrows]
  exact b.appendRowsTo_sorted hb.valid

/-! ### A plain codec -/

/-- A byte string with a mark before each byte and after the last one. -/
def writeMarked (v : Bytes) : Bytes := v.flatMap (fun b => [1, b]) ++ [0]

def readMarked : Bytes → Bytes × Bytes
  | mark :: b :: rest =>
    if mark = 1 then
      let (v, tail) := readMarked rest
      (b :: v, tail)
    else ([], b :: rest)
  | _ => ([], [])

def readAllMarked : Nat → Bytes → List Bytes
  | 0, _ => []
  | n + 1, src =>
    let (v, tail) := readMarked src
    v :: readAllMarked n tail

/-- Timestamps with eight bytes each, values with marks, no bloom filters. -/
def plainCodec : BlockCodec where
  marshalTimestamps ts := (ts.flatMap Encoding.marshalInt64, 0)
  unmarshalTimestamps data _ _ n :=
    .ok ((List.range n).map fun i => Encoding.unmarshalInt64 (data.drop (8 * i)))
  encodeValues vs := ⟨[], .string, 0, 0, ⟨[]⟩, vs.flatMap writeMarked, []⟩
  unmarshalStrings data n := .ok (readAllMarked n data)
  decodeValues raw _ _ := .ok raw

theorem readMarked_writeMarked (v tail : Bytes) : readMarked (writeMarked v ++ tail) = (v, tail) := by
  induction v with
  | nil => cases tail <;> rfl
  | cons b v ih =>
    have hcons : writeMarked (b :: v) ++ tail = 1 :: b :: (writeMarked v ++ tail) := rfl
    rw [hcons, readMarked, if_pos rfl, ih]

theorem readAllMarked_write (vs : List Bytes) :
    readAllMarked vs.length (vs.flatMap writeMarked) = vs := by
  induction vs with
  | nil => rfl
  | cons v vs ih =>
    rw [flatMap_cons, length_cons, readAllMarked, readMarked_writeMarked]
    simp only [ih]

theorem readTimestamps (ts : List Int) (h : ∀ t ∈ ts, InI64 t) :
    ((List.range ts.length).map fun i =>
      Encoding.unmarshalInt64 ((ts.flatMap Encoding.marshalInt64).drop (8 * i))) = ts := by
  induction ts with
  | nil => rfl
  | cons t ts ih =>
    obtain ⟨hlo, hhi⟩ := h t mem_cons_self
    rw [length_cons, range_succ_eq_map, map_cons, map_map, Nat.mul_zero,
      drop_zero, flatMap_cons, Encoding.unmarshalInt64_marshal hlo hhi]
    congr 1
    nth_rewrite 3 [← ih fun s hs => h s (mem_cons_of_mem _ hs)]
    refine map_congr_left fun i _ => ?_
    show Encoding.unmarshalInt64 (List.drop (8 * (i + 1)) _) = _
    rw [show 8 * (i + 1) = (Encoding.marshalInt64 t).length + 8 * i by
      rw [Encoding.length_marshalInt64]; omega, drop_length_add_append]

theorem length_flatMap_marshalInt64 (ts : List Int) :
    (ts.flatMap Encoding.marshalInt64).length = 8 * ts.length := by
  simp [length_flatMap, Nat.mul_comm]

theorem length_flatMap_writeMarked (vs : List Bytes) :
    (vs.flatMap writeMarked).length = 2 * (vs.map List.length).sum + vs.length := by
  have hone : ∀ v : Bytes, (writeMarked v).length = 2 * v.length + 1 := fun v => by
    simp [writeMarked, length_flatMap, Nat.mul_comm]
  induction vs with
  | nil => rfl
  | cons v vs ih =>
    rw [flatMap_cons, length_append, ih, hone, map_cons, sum_cons,
      length_cons]
    omega

theorem plainCodec_lossless (input : List Row) : plainCodec.Lossless input where
  timestamps := fun ts _ _ h => congrArg Except.ok (readTimestamps ts h)
  values := fun _ vs _ => ⟨vs, congrArg Except.ok (readAllMarked_write vs), rfl⟩
  timestamps_size := fun ts h => by
    show (ts.flatMap Encoding.marshalInt64).length ≤ _
    rw [length_flatMap_marshalInt64]
    rw [show estimatedJsonRowBase = 48 from rfl,
      show maxUncompressedBlockSize = 2097152 from rfl] at h
    rw [show maxTimestampsBlockSize = 8388608 from rfl]
    omega
  values_size := fun vs h => by
    refine ⟨?_, Nat.zero_le _⟩
    show (vs.flatMap writeMarked).length ≤ _
    rw [length_flatMap_writeMarked]
    rw [show estimatedJsonRowBase = 48 from rfl,
      show maxUncompressedBlockSize = 2097152 from rfl] at h
    rw [show maxValuesBlockSize = 8388608 from rfl]
    omega

/-! ### Small parts -/

def sampleStream : StreamID := ⟨⟨1, 0⟩, ⟨0, 7⟩⟩

def rowBlock (r : Row) : BlockData := plainCodec.pack sampleStream ⟨[r.timestamp], [], r.fields⟩

/-- A row that a block of its own can hold. -/
def Row.Small (r : Row) : Prop :=
  r.Valid ∧ InI64 r.timestamp ∧
    (Block.mk [r.timestamp] [] r.fields).uncompressedSizeBytes < 2 * maxUncompressedBlockSize

theorem rowBlock_packs (h : r.Small) : (rowBlock r).Packs plainCodec ⟨[r.timestamp], [], r.fields⟩ := by
  have hvalid : (Block.mk [r.timestamp] [] r.fields).Valid := by
    refine ⟨pairwise_singleton _ _, fun c hc => ?_, h.1.names_nodup, h.1.value_ne_nil⟩
    cases hc
  refine ((plainCodec_lossless []).pack_spec hvalid nofun (cons_ne_nil _ _) (fun t ht => ?_) h.2.2
    sampleStream).2
  rw [mem_singleton.1 ht]
  exact h.2.1

theorem rowBlock_rows (h : r.Small) : plainCodec.rows (rowBlock r) = [r] := by
  rw [(rowBlock_packs h).rows_eq, Block.appendRowsTo]
  simp [Block.fieldsAt]

theorem rowBlock_wellFormedStream (h : r.Small) : WellFormedStream plainCodec [rowBlock r] := by
  refine ⟨fun bd hbd => ?_, pairwise_singleton _ _, fun bd hbd hzero => ?_⟩
  · rw [mem_singleton.1 hbd]
    exact ⟨_, rowBlock_packs h⟩
  · rw [mem_singleton.1 hbd] at hzero
    exact absurd hzero (show sampleStream ≠ default by decide)

theorem wellFormedStream_rowBlocks (h : ∀ r ∈ rows, r.Small) :
    ∀ bds ∈ rows.map fun r => [rowBlock r], WellFormedStream plainCodec bds :=
  forall_mem_map.2 fun r hr => rowBlock_wellFormedStream (h r hr)

/-- The rows of parts that hold one small row each. -/
theorem streamRows_rowBlocks (h : ∀ r ∈ rows, r.Small) (sid : StreamID) :
    streamRows plainCodec.rows sid (rows.map fun r => [rowBlock r]).flatten =
      if sid = sampleStream then rows else [] := by
  induction rows with
  | nil => simp [streamRows]
  | cons r rows ih =>
    rw [map_cons, flatten_cons, singleton_append, streamRows_cons,
      rowBlock_rows (h r mem_cons_self), ih fun s hs => h s (mem_cons_of_mem _ hs)]
    show (if sampleStream = sid then [r] else []) ++ _ = _
    by_cases hsid : sid = sampleStream
    · simp [hsid]
    · simp [hsid, Ne.symm hsid]

theorem columnsFit_rowBlocks (h : ∀ r ∈ rows, r.Small) (hfit : ColumnsFit rows) (sid : StreamID) :
    ColumnsFit (streamRows plainCodec.rows sid (rows.map fun r => [rowBlock r]).flatten) := by
  rw [streamRows_rowBlocks h]
  split_ifs
  · exact hfit
  · intro r hr
    cases hr

def sampleRows : List Row :=
  [⟨1, [⟨ascii "level", ascii "info"⟩]⟩, ⟨2, [⟨ascii "level", ascii "warn"⟩]⟩]

theorem sampleRows_small : ∀ r ∈ sampleRows, r.Small := by
  intro r hr
  simp only [sampleRows, mem_cons, not_mem_nil, or_false] at hr
  rcases hr with rfl | rfl <;> exact ⟨⟨by decide, by decide⟩, by decide, by decide⟩

/-- Merging two parts with one row each. -/
theorem mustMergeBlockStreams_keeps_sampleRows :
    ∃ blocks, mustMergeBlockStreams ⟨plainCodec, "", none⟩
        (sampleRows.map fun r => [rowBlock r]) = .ok blocks ∧
      (∀ sid, entries (withFields (streamRows plainCodec.rows sid blocks)) =
        entries (withFields (streamRows plainCodec.rows sid
          (sampleRows.map fun r => [rowBlock r]).flatten))) ∧
      (∀ sid, entries (streamRows plainCodec.rows sid blocks) ≤
        entries (streamRows plainCodec.rows sid
          (sampleRows.map fun r => [rowBlock r]).flatten)) ∧
      blocks.Pairwise (fun a b => a.streamId ≤ b.streamId) ∧
      (∀ bd ∈ blocks, SortedRows (plainCodec.rows bd)) ∧
      blocks.Pairwise (fun a b => a.streamId = b.streamId →
        a.timestampsData.minTimestamp ≤ b.timestampsData.minTimestamp) := by
  exact mustMergeBlockStreams_keeps_rows plainCodec "" _ (fun _ => plainCodec_lossless _)
    (wellFormedStream_rowBlocks sampleRows_small)
    (columnsFit_rowBlocks sampleRows_small (by unfold ColumnsFit; decide))

/-! ### Rows without fields -/

/-- Two rows such as deletions leave behind. -/
def fieldlessRows : List Row := [⟨1, []⟩, ⟨2, []⟩]

theorem fieldlessRows_small : ∀ r ∈ fieldlessRows, r.Small := by
  intro r hr
  simp only [fieldlessRows, mem_cons, not_mem_nil, or_false] at hr
  rcases hr with rfl | rfl <;> exact ⟨⟨by decide, by decide⟩, by decide, by decide⟩

/-- Two parts with one field-less row each are merged into nothing: these two rows are lost. -/
theorem mustMergeBlockStreams_loses_fieldless :
    (∀ input, plainCodec.Lossless input) ∧
      (∀ bds ∈ fieldlessRows.map fun r => [rowBlock r], WellFormedStream plainCodec bds) ∧
      (∀ sid, ColumnsFit (streamRows plainCodec.rows sid
        (fieldlessRows.map fun r => [rowBlock r]).flatten)) ∧
      ¬∃ blocks, mustMergeBlockStreams ⟨plainCodec, "", none⟩
          (fieldlessRows.map fun r => [rowBlock r]) = .ok blocks ∧
        ∀ sid, entries (streamRows plainCodec.rows sid blocks) =
          entries (streamRows plainCodec.rows sid
            (fieldlessRows.map fun r => [rowBlock r]).flatten) := by
  refine ⟨plainCodec_lossless, wellFormedStream_rowBlocks fieldlessRows_small,
    columnsFit_rowBlocks fieldlessRows_small (by unfold ColumnsFit; decide),
    fun ⟨blocks, hrun, hsame⟩ => ?_⟩
  have hnothing : mustMergeBlockStreams ⟨plainCodec, "", none⟩
      (fieldlessRows.map fun r => [rowBlock r]) = .ok [] := rfl
  cases hnothing.symm.trans hrun
  have hcard := congrArg Multiset.card (hsame sampleStream)
  rw [streamRows_rowBlocks fieldlessRows_small, if_pos rfl] at hcard
  cases hcard

end EsLogs
