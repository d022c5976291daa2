import EsLogs.BlockData

/-!
What packing a block keeps. With a codec that restores its columns a written block is unpacked to the block it was made
from; the writer accepts blocks that come in the order of their stream ids and, within a stream, of
their smallest timestamps.
-/

namespace EsLogs

open List

def InI64 (t : Int) : Prop := -2 ^ 63 ≤ t ∧ t < 2 ^ 63

instance (t : Int) : Decidable (InI64 t) := inferInstanceAs (Decidable (_ ∧ _))

/-- Values of a column that rows make up: those that the rows have under its name, and empty ones. -/
def ColumnOf (input : List Row) (name : Bytes) (vs : List Bytes) : Prop :=
  ∀ v ∈ vs, v = [] ∨ ∃ r ∈ input, ⟨name, v⟩ ∈ r.fields

/-- The codec restores the timestamps and the columns of the rows of a stream, and blocks of less than four megabytes
of JSON stay within the limits of the file format. Not every list of values has to be restored: the encoder of
`values_encoder.rs` stores some texts as numbers that are written in another way. -/
structure BlockCodec.Lossless (codec : BlockCodec) (input : List Row) : Prop where
  timestamps : ∀ ts : List Int, ts ≠ [] → ts.Pairwise (· ≤ ·) → (∀ t ∈ ts, InI64 t) →
    codec.unmarshalTimestamps (codec.marshalTimestamps ts).1 (codec.marshalTimestamps ts).2
      (ts.headD 0) ts.length = .ok ts
  values : ∀ name vs, ColumnOf input name vs → ∃ raw,
    codec.unmarshalStrings (codec.encodeValues vs).valuesData vs.length = .ok raw ∧
      codec.decodeValues raw (codec.encodeValues vs).valueType (codec.encodeValues vs).valuesDict =
        .ok vs
  timestamps_size : ∀ ts : List Int,
    estimatedJsonRowBase * ts.length < 2 * maxUncompressedBlockSize →
      (codec.marshalTimestamps ts).1.length ≤ maxTimestampsBlockSize
  values_size : ∀ vs : List Bytes,
    estimatedJsonRowBase * vs.length + (vs.map List.length).sum < 2 * maxUncompressedBlockSize →
      (codec.encodeValues vs).valuesData.length ≤ maxValuesBlockSize ∧
        (codec.encodeValues vs).bloomFilterData.length ≤ maxBloomFilterBlockSize

/-- The packed block holds the rows of the block, and the writer takes it. -/
structure BlockData.Packs (codec : BlockCodec) (bd : BlockData) (b : Block) : Prop where
  unpack : codec.initFromBlockData bd = .ok b
  valid : b.Valid
  ne_nil : b.timestamps ≠ []
  in_i64 : ∀ t ∈ b.timestamps, InI64 t
  rowsCount_eq : bd.rowsCount = b.timestamps.length
  min_eq : bd.timestampsData.minTimestamp = b.timestamps.headD 0
  max_eq : bd.timestampsData.maxTimestamp = b.timestamps.getLastD 0
  size_eq : bd.uncompressedSizeBytes = b.uncompressedSizeBytes
  written : bd.mustWriteTo = .ok bd

/-- A block as parts hold them. -/
def BlockData.WellFormed (codec : BlockCodec) (bd : BlockData) : Prop := ∃ b, bd.Packs codec b

def BlockCodec.rows (codec : BlockCodec) (bd : BlockData) : List Row :=
  match codec.unmarshalRows bd with
  | .ok rows => rows
  | .error _ => []

variable {codec : BlockCodec} {b : Block} {bd : BlockData} {input : List Row}

theorem BlockData.Packs.unmarshalRows_eq
    (h : bd.Packs codec b) : codec.unmarshalRows bd = .ok b.appendRowsTo := by
  rw [BlockCodec.unmarshalRows, h.unpack]
  rfl

theorem BlockData.Packs.rows_eq
    (h : bd.Packs codec b) : codec.rows bd = b.appendRowsTo := by
  rw [BlockCodec.rows, h.unmarshalRows_eq]

theorem BlockData.Packs.size_rows
    (h : bd.Packs codec b) :
    bd.uncompressedSizeBytes = uncompressedRowsSizeBytes (codec.rows bd) := by
  rw [h.size_eq, h.rows_eq, Block.uncompressedSizeBytes_eq h.valid]

theorem BlockData.Packs.rowsCount_pos (h : bd.Packs codec b) : 0 < bd.rowsCount := by
  rw [h.rowsCount_eq]
  exact length_pos_of_ne_nil h.ne_nil

/-- The first row of a packed block has its smallest timestamp. -/
theorem BlockData.Packs.head_timestamp
    (h : bd.Packs codec b) :
    ∃ r rest, codec.rows bd = r :: rest ∧ r.timestamp = bd.timestampsData.minTimestamp := by
  have hts := b.appendRowsTo_timestamps
  rw [h.rows_eq, h.min_eq]
  cases hrows : b.appendRowsTo with
  | nil =>
    rw [hrows] at hts
    exact absurd hts.symm h.ne_nil
  | cons r rest =>
    rw [hrows, map_cons] at hts
    exact ⟨r, rest, rfl, by rw [← hts]; rfl⟩

/-! ### Writing a block -/

theorem checkSize_eq_ok {what bound : String} {size limit : Nat} (h : size ≤ limit) :
    checkSize what size limit bound = .ok () := by
  rw [checkSize, if_neg (not_lt.2 h)]
  rfl

theorem assertColumnsLen_eq_ok {n : Nat} {cs : List Column}
    (h : ∀ c ∈ cs, c.values.length = n) : assertColumnsLen n cs = .ok () := by
  induction cs with
  | nil => rfl
  | cons c cs ih =>
    rw [assertColumnsLen, if_neg (not_not.2 (h c mem_cons_self))]
    exact ih fun d hd => h d (mem_cons_of_mem _ hd)

theorem Block.Valid.assertValid_eq_ok (hb : b.Valid) : b.assertValid = .ok () := by
  rw [Block.assertValid, (assertTimestampsSorted_iff _).2 hb.sorted]
  exact assertColumnsLen_eq_ok hb.values_length

theorem Block.columnOf (hb : b.Valid) {c : Column} (hc : c ∈ b.columns) :
    ColumnOf b.appendRowsTo c.name c.values := by
  intro v hv
  obtain ⟨i, hi, rfl⟩ := mem_iff_getElem.1 hv
  by_cases hempty : c.values[i] = []
  · exact .inl hempty
  have hrow : i < b.timestamps.length := hb.values_length c hc ▸ hi
  refine .inr ⟨⟨b.timestamps[i], b.fieldsAt i⟩, ?_, mem_append_right _ (mem_filterMap.2 ⟨c, hc, ?_⟩)⟩
  · exact mem_map.2 ⟨(b.timestamps[i], i), mem_zipIdx_iff_getElem?.2 (getElem?_eq_getElem hrow), rfl⟩
  · rw [getD_eq_getElem _ _ hi, if_neg hempty]

theorem ColumnOf.of_sameRows {rows rows' : List Row} (h : SameRows rows rows') {name : Bytes} {vs : List Bytes}
    (hvs : ColumnOf rows name vs) : ColumnOf rows' name vs := by
  intro v hv
  refine (hvs v hv).imp_right ?_
  rintro ⟨r, hr, hf⟩
  obtain ⟨i, hi, rfl⟩ := mem_iff_getElem.1 hr
  have hsame := h.get hi (h.length_eq ▸ hi)
  exact ⟨_, get_mem _ _, hsame.2.mem_iff.1 hf⟩

/-- Unpacking the columns that the codec packed. -/
theorem BlockCodec.Lossless.readColumns (hcodec : codec.Lossless input) {n : Nat} (cs : List Column) (k : Nat)
    (hlen : ∀ c ∈ cs, c.values.length = n) (hcols : ∀ c ∈ cs, ColumnOf input c.name c.values) :
    ((cs.map fun c => { codec.encodeValues c.values with name := c.name }).zipIdx k).mapM
      (fun p => codec.readColumn n p.1 p.2) = Except.ok (ε := String) cs := by
  induction cs generalizing k with
  | nil => rfl
  | cons c cs ih =>
    obtain ⟨raw, hraw, hdec⟩ := hcodec.values c.name c.values (hcols c mem_cons_self)
    rw [hlen c mem_cons_self] at hraw
    have hread : codec.readColumn n { codec.encodeValues c.values with name := c.name } k =
        .ok c := by
      simp only [BlockCodec.readColumn, hraw, Except.mapError, except_ok_bind, hdec]
      rfl
    rw [map_cons, zipIdx_cons, mapM_cons, hread, except_ok_bind,
      ih (k + 1) (fun d hd => hlen d (mem_cons_of_mem _ hd)) fun d hd => hcols d (mem_cons_of_mem _ hd)]
    rfl

/-- The rows and the values of a column are within the size of the block. -/
theorem Block.Valid.column_size_le (hb : b.Valid) {c : Column} (hc : c ∈ b.columns) :
    estimatedJsonRowBase * b.timestamps.length + (c.values.map List.length).sum ≤
      b.uncompressedSizeBytes := by
  have hvalue : ∀ v : Bytes, v.length ≤ (Field.mk c.name v).estimatedLen := fun v => by
    rw [Field.estimatedLen]
    split_ifs with h
    · have hv : v = [] := h
      simp [hv]
    · exact Nat.le_add_left _ _
  have hcol : (c.values.map List.length).sum ≤
      (c.values.map fun v => (Field.mk c.name v).estimatedLen).sum :=
    sum_le_sum fun v _ => hvalue v
  have hmem : (c.values.map fun v => (Field.mk c.name v).estimatedLen).sum ≤
      (b.columns.map fun c => (c.values.map fun v => (Field.mk c.name v).estimatedLen).sum).sum :=
    single_le_sum (fun _ _ => Nat.zero_le _) _ (mem_map_of_mem hc)
  rw [Block.uncompressedSizeBytes]
  split_ifs with h0
  · have hnil := length_eq_zero_iff.1 ((hb.values_length c hc).trans h0)
    simp [h0, hnil]
  · omega

theorem Block.Valid.rows_size_le (hne : b.timestamps ≠ []) :
    estimatedJsonRowBase * b.timestamps.length ≤ b.uncompressedSizeBytes := by
  rw [Block.uncompressedSizeBytes, if_neg fun h => hne (length_eq_zero_iff.1 h)]
  omega

/-- A block of less than four megabytes of JSON is written and read back. -/
theorem BlockCodec.Lossless.pack_spec (hcodec : codec.Lossless input)
    (hb : b.Valid) (hinput : ∀ c ∈ b.columns, ColumnOf input c.name c.values) (hne : b.timestamps ≠ [])
    (hi64 : ∀ t ∈ b.timestamps, InI64 t)
    (hsize : b.uncompressedSizeBytes < 2 * maxUncompressedBlockSize) (sid : StreamID) :
    codec.mustWriteTo sid b = .ok (codec.pack sid b) ∧ (codec.pack sid b).Packs codec b := by
  have hrows := (Block.Valid.rows_size_le hne).trans_lt hsize
  have htsize : (codec.pack sid b).timestampsData.data.length ≤ maxTimestampsBlockSize :=
    hcodec.timestamps_size b.timestamps hrows
  have hcols : ∀ cd ∈ (codec.pack sid b).columnsData, cd.mustWriteTo = .ok () := by
    intro cd hcd
    obtain ⟨c, hc, rfl⟩ := mem_map.1 hcd
    have hsum := (hb.column_size_le hc).trans_lt hsize
    rw [← hb.values_length c hc] at hsum
    obtain ⟨hv, hbf⟩ := hcodec.values_size c.values hsum
    rw [ColumnData.mustWriteTo, checkSize_eq_ok hv, except_ok_bind]
    exact checkSize_eq_ok hbf
  have hforM := forM_eq_ok hcols
  refine ⟨?_, ⟨?_, hb, hne, hi64, rfl, rfl, rfl, rfl, ?_⟩⟩
  · simp only [BlockCodec.mustWriteTo, hb.assertValid_eq_ok, except_ok_bind]
    rw [checkSize_eq_ok htsize, except_ok_bind, hforM]
    rfl
  · have hcount : ¬(codec.pack sid b).rowsCount > maxRowsPerBlock := by
      show ¬b.timestamps.length > maxRowsPerBlock
      rw [show estimatedJsonRowBase = 48 from rfl,
        show maxUncompressedBlockSize = 2097152 from rfl] at hrows
      rw [show maxRowsPerBlock = 8388608 from rfl]
      omega
    have hts := hcodec.timestamps b.timestamps hne hb.sorted hi64
    have hread := hcodec.readColumns b.columns 0 hb.values_length hinput
    simp only [BlockCodec.initFromBlockData, hcount, if_false]
    simp only [BlockCodec.pack, hts, Except.mapError, except_ok_bind, hread]
    rfl
  · rw [BlockData.mustWriteTo, checkSize_eq_ok htsize, except_ok_bind, hforM]
    rfl

/-! ### The order of the written blocks -/

/-- Blocks in the order in which a part holds them. -/
def BlockData.Precedes (a b : BlockData) : Prop :=
  a.streamId ≤ b.streamId ∧
    (a.streamId = b.streamId → a.timestampsData.minTimestamp ≤ b.timestampsData.minTimestamp)

/-- The written blocks are in order, and none comes after what the writer remembers as the last. -/
structure BlockStreamWriter.Ordered (bsw : BlockStreamWriter) : Prop where
  sorted : bsw.blocks.Pairwise BlockData.Precedes
  sid_le : ∀ bd ∈ bsw.blocks, bd.streamId ≤ bsw.sidLast
  min_le : ∀ bd ∈ bsw.blocks, bd.streamId = bsw.sidLast →
    bd.timestampsData.minTimestamp ≤ bsw.minTimestampLast

theorem BlockStreamWriter.init_ordered : BlockStreamWriter.init.Ordered :=
  ⟨List.Pairwise.nil, nofun, nofun⟩

/-- A block that does not precede the last one is appended. -/
theorem BlockStreamWriter.Ordered.mustWriteBlockInternal {bsw : BlockStreamWriter}
    (h : bsw.Ordered) (bd : BlockData) (hsid : bsw.sidLast ≤ bd.streamId)
    (hmin : bsw.sidLast = bd.streamId → bsw.minTimestampLast ≤ bd.timestampsData.minTimestamp) :
    bsw.mustWriteBlockInternal bd.streamId (.ok bd) =
        .ok ⟨bd.streamId, bd.timestampsData.minTimestamp, bsw.blocks ++ [bd]⟩ ∧
      (BlockStreamWriter.mk bd.streamId bd.timestampsData.minTimestamp
        (bsw.blocks ++ [bd])).Ordered := by
  refine ⟨?_, ⟨pairwise_append.2 ⟨h.sorted, pairwise_singleton _ _, fun a ha b hb => ?_⟩,
    forall_mem_append.2 ⟨fun a ha => (h.sid_le a ha).trans hsid, forall_mem_singleton.2 le_rfl⟩,
    forall_mem_append.2 ⟨fun a ha hsame => ?_, forall_mem_singleton.2 fun _ => le_rfl⟩⟩⟩
  · have hless : bd.streamId.less bsw.sidLast = false := by
      rw [StreamID.less_eq_decide]
      exact decide_eq_false (not_lt.2 hsid)
    have hlast : ¬(bd.streamId = bsw.sidLast ∧
        bd.timestampsData.minTimestamp < bsw.minTimestampLast) := fun ⟨he, hlt⟩ =>
      absurd (hmin he.symm) (not_le.2 hlt)
    simp only [BlockStreamWriter.mustWriteBlockInternal, hless, Bool.false_eq_true, if_false,
      except_ok_bind, hlast]
    rfl
  · rw [mem_singleton] at hb
    subst hb
    refine ⟨(h.sid_le a ha).trans hsid, fun hab => ?_⟩
    have hlast : a.streamId = bsw.sidLast := le_antisymm (h.sid_le a ha) (hab ▸ hsid)
    exact (h.min_le a ha hlast).trans (hmin (hlast ▸ hab))
  · have hlast : a.streamId = bsw.sidLast := by
      refine le_antisymm (h.sid_le a ha) ?_
      rw [show a.streamId = bd.streamId from hsame]
      exact hsid
    exact (h.min_le a ha hlast).trans (hmin (hlast ▸ hsame))

end EsLogs
