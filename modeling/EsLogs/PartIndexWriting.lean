import EsLogs.PartSearchExact

/-!
The index that the writer of a part leaves. Block headers are collected until they make up an index
block; its header has the stream id of the first of them and covers the times of all of them. The part
that is opened from the files has these index blocks, in the order in which the blocks were written.
-/

namespace EsLogs.Part

open Encoding List

variable {bh : BlockHeader} {zstd : Zstd}

/-! ### What the writing of a block leaves alone -/

/-- Two sets of writers with the same index and metaindex. -/
def StreamWriters.SameIndex (sw sw' : StreamWriters) : Prop :=
  sw'.indexWriter = sw.indexWriter ∧ sw'.metaindexWriter = sw.metaindexWriter

theorem StreamWriters.SameIndex.trans {sw sw' sw'' : StreamWriters} (h : sw.SameIndex sw')
    (h' : sw'.SameIndex sw'') : sw.SameIndex sw'' :=
  ⟨h'.1.trans h.1, h'.2.trans h.2⟩

variable {sw sw' : StreamWriters}

theorem sameIndex_getBloomValuesWriter {name : Bytes} {slot : BloomValuesSlot}
    (h : sw.getBloomValuesWriterForColumnName name = .ok (slot, sw')) : sw.SameIndex sw' := by
  rw [StreamWriters.getBloomValuesWriterForColumnName] at h
  split at h
  · cases h
    exact ⟨rfl, rfl⟩
  · simp only at h
    split at h
    · cases h
      exact ⟨rfl, rfl⟩
    · split_ifs at h
      · rw [StreamWriters.createBloomValuesWriter] at h
        split_ifs at h
        · cases h
        · cases h
          exact ⟨rfl, rfl⟩
      · cases h
        exact ⟨rfl, rfl⟩

theorem sameIndex_mustWriteColumnTo {cd : ColumnData} {ch : ColumnHeader}
    (h : mustWriteColumnTo cd sw = .ok (ch, sw')) : sw.SameIndex sw' := by
  rw [mustWriteColumnTo] at h
  obtain ⟨⟨slot, sw1⟩, h1, h⟩ := except_bind_eq_ok_iff.1 h
  obtain ⟨-, -, h⟩ := except_bind_eq_ok_iff.1 h
  obtain ⟨-, -, h⟩ := except_bind_eq_ok_iff.1 h
  cases h
  refine (sameIndex_getBloomValuesWriter h1).trans ?_
  cases slot <;> exact ⟨rfl, rfl⟩

theorem sameIndex_mustWriteColumnsTo {cds : List ColumnData}
    {chs : List ColumnHeader} (h : mustWriteColumnsTo cds sw = .ok (chs, sw')) : sw.SameIndex sw' := by
  induction cds generalizing sw chs with
  | nil =>
    cases h
    exact ⟨rfl, rfl⟩
  | cons cd cds ih =>
    rw [mustWriteColumnsTo] at h
    obtain ⟨⟨ch, sw1⟩, h1, h⟩ := except_bind_eq_ok_iff.1 h
    obtain ⟨⟨chs', sw2⟩, h2, h⟩ := except_bind_eq_ok_iff.1 h
    cases h
    exact (sameIndex_mustWriteColumnTo h1).trans (ih h2)

/-- A block header with the stream id and the times of a block. -/
structure Describes (bd : BlockData) (bh : BlockHeader) : Prop where
  streamId_eq : bh.streamId = bd.streamId
  minTimestamp_eq : bh.timestampsHeader.minTimestamp = bd.timestampsData.minTimestamp
  maxTimestamp_eq : bh.timestampsHeader.maxTimestamp = bd.timestampsData.maxTimestamp

/-- A block whose number of rows and times are within the limits of the file format. -/
structure WithinLimits (bd : BlockData) : Prop where
  rows_le : bd.rowsCount ≤ maxRowsPerBlock
  min_in : InI64 bd.timestampsData.minTimestamp
  max_in : InI64 bd.timestampsData.maxTimestamp

theorem mustWriteTimestampsTo_spec {td : TimestampsData} {th : TimestampsHeader}
    (h : mustWriteTimestampsTo td sw = .ok (th, sw')) :
    sw.SameIndex sw' ∧ th.minTimestamp = td.minTimestamp ∧ th.maxTimestamp = td.maxTimestamp := by
  rw [mustWriteTimestampsTo] at h
  obtain ⟨-, -, hend⟩ := except_bind_eq_ok_iff.1 h
  cases hend
  exact ⟨⟨rfl, rfl⟩, rfl, rfl⟩

theorem mustWriteColumnsHeader_spec {csh : ColumnsHeader} {bh bh' : BlockHeader}
    (h : mustWriteColumnsHeader csh bh sw = .ok (bh', sw')) :
    sw.SameIndex sw' ∧ bh'.columnsHeaderSize.toNat ≤ maxColumnsHeaderSize ∧
      bh'.streamId = bh.streamId ∧ bh'.rowsCount = bh.rowsCount ∧
      bh'.timestampsHeader = bh.timestampsHeader := by
  rw [mustWriteColumnsHeader] at h
  obtain ⟨⟨data, cshIndex, g⟩, -, hindex⟩ := except_bind_eq_ok_iff.1 h
  obtain ⟨-, -, hdata⟩ := except_bind_eq_ok_iff.1 hindex
  obtain ⟨_, hsize, hend⟩ := except_bind_eq_ok_iff.1 hdata
  cases hend
  refine ⟨⟨rfl, rfl⟩, ?_, rfl, rfl, rfl⟩
  unfold checkSize at hsize
  split_ifs at hsize with hle
  exact (Nat.mod_le _ _).trans (not_lt.1 hle)

theorem mustWriteBlockDataTo_spec {bd : BlockData} (hbd : WithinLimits bd)
    (h : mustWriteBlockDataTo bd sw = .ok (bh, sw')) :
    sw.SameIndex sw' ∧ Describes bd bh ∧ bh.Valid := by
  rw [mustWriteBlockDataTo] at h
  obtain ⟨⟨th, sw1⟩, htimestamps, hrest⟩ := except_bind_eq_ok_iff.1 h
  obtain ⟨⟨chs, sw2⟩, hcolumns, hheader⟩ := except_bind_eq_ok_iff.1 hrest
  obtain ⟨hsame, hmin, hmax⟩ := mustWriteTimestampsTo_spec htimestamps
  obtain ⟨hsame', hsize, hsid, hrows, hth⟩ := mustWriteColumnsHeader_spec hheader
  refine ⟨(hsame.trans (sameIndex_mustWriteColumnsTo hcolumns)).trans hsame',
    ⟨hsid, by rw [hth, hmin], by rw [hth, hmax]⟩, ?_, hsize, ?_, ?_⟩
  · rw [hrows]
    exact (Nat.mod_le _ _).trans hbd.rows_le
  · rw [hth, hmin]
    exact hbd.min_in
  · rw [hth, hmax]
    exact hbd.max_in

/-! ### The index while the part is written -/

/-- An index block stands in the index file where its header says. -/
def IndexBlock.StandsIn (zstd : Zstd) (ib : IndexBlock) (file : Bytes) : Prop :=
  ∃ before after, file = before ++ zstd.compress (ib.blocks.flatMap BlockHeader.marshal) ++ after ∧
    ib.header.indexBlockOffset = .ofNat before.length ∧
    ib.header.indexBlockSize =
      .ofNat (zstd.compress (ib.blocks.flatMap BlockHeader.marshal)).length

theorem IndexBlock.StandsIn.append {ib : IndexBlock} {file : Bytes}
    (h : ib.StandsIn zstd file) (data : Bytes) : ib.StandsIn zstd (file ++ data) := by
  obtain ⟨before, after, hfile, hoffset, hsize⟩ := h
  refine ⟨before, after ++ data, ?_, hoffset, hsize⟩
  rw [hfile, append_assoc, append_assoc]

/-- An index block within the limits of the file format. -/
structure IndexBlock.Fits (ib : IndexBlock) : Prop where
  min_in : InI64 ib.header.minTimestamp
  max_in : InI64 ib.header.maxTimestamp
  size_le : (ib.blocks.flatMap BlockHeader.marshal).length ≤ maxUncompressedIndexBlockSize + 117

/-- The index blocks that are written, and the headers of the blocks of the next one. -/
structure BlockStreamWriter.Indexes (zstd : Zstd) (bsw : BlockStreamWriter) (index : List IndexBlock)
    (cur : List BlockHeader) : Prop where
  metaindexWriter_eq : bsw.streamWriters.metaindexWriter = .init
  bytesWritten_eq : bsw.streamWriters.indexWriter.bytesWritten =
    .ofNat bsw.streamWriters.indexWriter.data.length
  metaindexData_eq : bsw.metaindexData = (index.map IndexBlock.header).flatMap IndexBlockHeader.marshal
  stands : ∀ ib ∈ index, ib.StandsIn zstd bsw.streamWriters.indexWriter.data
  fits : ∀ ib ∈ index, ib.Fits
  indexBlockData_eq : bsw.indexBlockData = cur.flatMap BlockHeader.marshal
  size_le : (cur.flatMap BlockHeader.marshal).length ≤ maxUncompressedIndexBlockSize + 117
  hasWrittenBlocks_iff : bsw.hasWrittenBlocks = true ↔ cur ≠ []
  sidFirst_eq : ∀ bh ∈ cur.head?, bsw.sidFirst = bh.streamId
  within : ∀ bh ∈ cur, bsw.minTimestamp ≤ bh.timestampsHeader.minTimestamp ∧
    bh.timestampsHeader.maxTimestamp ≤ bsw.maxTimestamp
  times_in : InI64 bsw.minTimestamp ∧ InI64 bsw.maxTimestamp
  valid : ∀ bh ∈ indexedBlocks index ++ cur, bh.Valid
  sorted : (indexedBlocks index ++ cur).Pairwise BlockHeader.Precedes
  last : ∀ bh ∈ (indexedBlocks index ++ cur).getLast?, bsw.sidLast = bh.streamId ∧
    bsw.minTimestampLast = bh.timestampsHeader.minTimestamp

theorem indexes_mustInit (zstd : Zstd) (kind : PartKind) :
    (BlockStreamWriter.mustInit kind).Indexes zstd [] [] := by
  constructor <;> simp [BlockStreamWriter.mustInit, StreamWriters.init, WriterWithStats.init,
    indexedBlocks, InI64]

/-- The index block of the collected block headers. -/
def BlockStreamWriter.Indexes.block {zstd : Zstd} {bsw : BlockStreamWriter} {index : List IndexBlock}
    {first : BlockHeader} {others : List BlockHeader} (h : bsw.Indexes zstd index (first :: others)) :
    IndexBlock where
  header := ⟨bsw.sidFirst, bsw.minTimestamp, bsw.maxTimestamp,
    bsw.streamWriters.indexWriter.bytesWritten, .ofNat (zstd.compress bsw.indexBlockData).length⟩
  first := first
  others := others
  streamId_eq := h.sidFirst_eq first rfl
  within := h.within

theorem indexedBlocks_append_singleton (index : List IndexBlock) (ib : IndexBlock) :
    indexedBlocks (index ++ [ib]) = indexedBlocks index ++ ib.blocks := by
  rw [indexedBlocks, flatMap_append, flatMap_singleton]
  rfl

/-- After a flush the collected block headers are in an index block. -/
theorem BlockStreamWriter.Indexes.mustFlushIndexBlock {bsw : BlockStreamWriter}
    {index : List IndexBlock} {cur : List BlockHeader} (h : bsw.Indexes zstd index cur) :
    ∃ index', BlockStreamWriter.Indexes zstd
        { bsw.mustFlushIndexBlock zstd bsw.indexBlockData with indexBlockData := [] } index' [] ∧
      indexedBlocks index' = indexedBlocks index ++ cur := by
  rcases cur with _ | ⟨first, others⟩
  · refine ⟨index, ?_, (append_nil _).symm⟩
    have hdata : bsw.indexBlockData = [] := h.indexBlockData_eq
    rw [BlockStreamWriter.mustFlushIndexBlock]
    simp only [hdata, ne_eq, not_true, if_false]
    exact { h with
      indexBlockData_eq := rfl
      hasWrittenBlocks_iff := by simp
      sidFirst_eq := by simp
      within := by simp
      times_in := by simp [InI64] }
  · have hdata : bsw.indexBlockData ≠ [] := by
      rw [h.indexBlockData_eq, flatMap_cons]
      apply append_ne_nil_of_left_ne_nil
      exact ne_nil_of_length_pos (by have := first.length_marshal; omega)
    refine ⟨index ++ [h.block], ?_, indexedBlocks_append_singleton index h.block⟩
    rw [BlockStreamWriter.mustFlushIndexBlock]
    simp only [ne_eq, hdata, not_false_eq_true, if_true]
    have hstands : h.block.StandsIn zstd
        (bsw.streamWriters.indexWriter.mustWrite (zstd.compress bsw.indexBlockData)).data := by
      refine ⟨bsw.streamWriters.indexWriter.data, [], ?_, h.bytesWritten_eq, ?_⟩
      · rw [append_nil, WriterWithStats.mustWrite, h.indexBlockData_eq]
        rfl
      · show UInt64.ofNat (zstd.compress bsw.indexBlockData).length = _
        rw [h.indexBlockData_eq]
        rfl
    have hblocks : indexedBlocks (index ++ [h.block]) ++ [] = indexedBlocks index ++ first :: others := by
      rw [indexedBlocks_append_singleton, append_nil]
      rfl
    exact { h with
      bytesWritten_eq := by
        rw [WriterWithStats.mustWrite, h.bytesWritten_eq, ← UInt64.ofNat_add, length_append]
      metaindexData_eq := by
        rw [map_append, flatMap_append, ← h.metaindexData_eq, map_singleton, flatMap_singleton]
        rfl
      stands := forall_mem_append.2
        ⟨fun ib hib => (h.stands ib hib).append _, forall_mem_singleton.2 hstands⟩
      fits := forall_mem_append.2
        ⟨h.fits, forall_mem_singleton.2 ⟨h.times_in.1, h.times_in.2, h.size_le⟩⟩
      indexBlockData_eq := rfl
      size_le := Nat.zero_le _
      hasWrittenBlocks_iff := by simp
      sidFirst_eq := by simp
      within := by simp
      times_in := by simp [InI64]
      valid := by rw [hblocks]; exact h.valid
      sorted := by rw [hblocks]; exact h.sorted
      last := by rw [hblocks]; exact h.last }

theorem BlockStreamWriter.Indexes.of_sameIndex {bsw : BlockStreamWriter}
    {index : List IndexBlock} {cur : List BlockHeader} (h : bsw.Indexes zstd index cur)
    {sw : StreamWriters} (hsw : bsw.streamWriters.SameIndex sw) :
    BlockStreamWriter.Indexes zstd { bsw with streamWriters := sw } index cur :=
  { h with
    metaindexWriter_eq := hsw.2.trans h.metaindexWriter_eq
    bytesWritten_eq := by rw [hsw.1]; exact h.bytesWritten_eq
    stands := by rw [hsw.1]; exact h.stands }

theorem precedes_trans {a b c : BlockHeader} (hab : a.Precedes b) (hbc : b.Precedes c) :
    a.Precedes c := by
  refine ⟨hab.1.trans hbc.1, ?_⟩
  intro hac
  have hba : a.streamId = b.streamId := le_antisymm hab.1 (hac ▸ hbc.1)
  exact (hab.2 hba).trans (hbc.2 (hba.symm.trans hac))

/-- A block that comes after the last one comes after all of them. -/
theorem precedes_of_getLast {bhs : List BlockHeader}
    (h : bhs.Pairwise BlockHeader.Precedes) (hlast : ∀ b ∈ bhs.getLast?, b.Precedes bh) :
    ∀ b ∈ bhs, b.Precedes bh := by
  intro b hb
  rcases eq_nil_or_concat bhs with rfl | ⟨init, l, rfl⟩
  · cases hb
  · rw [concat_eq_append] at h hlast hb
    have hl : l.Precedes bh := hlast l (by simp)
    rcases mem_append.1 hb with hb | hb
    · exact precedes_trans ((pairwise_append.1 h).2.2 b hb l mem_cons_self) hl
    · rw [mem_singleton.1 hb]
      exact hl

namespace BlockStreamWriter

variable {zstd : Zstd} {bsw : BlockStreamWriter} {index : List IndexBlock} {cur : List BlockHeader}

/-- A block that the writer accepts comes after the ones it has. -/
theorem Indexes.precedes (h : bsw.Indexes zstd index cur) (hless : bh.streamId.less bsw.sidLast = false)
    (htime : ¬(bh.streamId = bsw.sidLast ∧ bh.timestampsHeader.minTimestamp < bsw.minTimestampLast)) :
    ∀ b ∈ indexedBlocks index ++ cur, b.Precedes bh := by
  apply precedes_of_getLast h.sorted
  intro b hb
  obtain ⟨hsid, hmin⟩ := h.last b hb
  rw [StreamID.less_eq_decide, decide_eq_false_iff_not, not_lt, hsid] at hless
  refine ⟨hless, ?_⟩
  intro heq
  rw [hsid, hmin] at htime
  by_contra hlt
  exact htime ⟨heq.symm, not_le.1 hlt⟩

section

variable (h : bsw.Indexes zstd index cur)
  (hroom : (cur.flatMap BlockHeader.marshal).length ≤ maxUncompressedIndexBlockSize)
include h hroom

theorem Indexes.collect (hvalid : bh.Valid) (hprec : ∀ b ∈ indexedBlocks index ++ cur, b.Precedes bh) :
    (bsw.collect bh.streamId bh).Indexes zstd index (cur ++ [bh]) := by
  have hdata : (cur ++ [bh]).flatMap BlockHeader.marshal =
      cur.flatMap BlockHeader.marshal ++ bh.marshal := by
    rw [flatMap_append, flatMap_singleton]
  have hfirst : ¬bsw.hasWrittenBlocks ↔ cur = [] := by
    rw [h.hasWrittenBlocks_iff, not_not]
  refine { h with
    indexBlockData_eq := ?_
    size_le := ?_
    hasWrittenBlocks_iff := by simp [BlockStreamWriter.collect]
    sidFirst_eq := fun b hb => ?_
    within := fun b hb => ?_
    times_in := ?_
    valid := ?_
    sorted := ?_
    last := ?_ }
  · rw [hdata, ← h.indexBlockData_eq]
    rfl
  · have := bh.length_marshal
    rw [hdata, length_append]
    omega
  · show (if ¬bsw.hasWrittenBlocks then bh.streamId else bsw.sidFirst) = b.streamId
    rcases cur with _ | ⟨first, others⟩
    · rw [if_pos (hfirst.2 rfl), ← Option.some.inj hb]
    · rw [if_neg (fun hnot => cons_ne_nil _ _ (hfirst.1 hnot))]
      exact h.sidFirst_eq b hb
  · show (if _ then _ else _) ≤ _ ∧ _ ≤ (if _ then _ else _)
    rcases mem_append.1 hb with hb | hb
    · obtain ⟨hmin, hmax⟩ := h.within b hb
      have hnot : ¬¬bsw.hasWrittenBlocks := fun hnot => ne_nil_of_mem hb (hfirst.1 hnot)
      simp only [eq_false hnot, false_or]
      constructor <;> split_ifs <;> omega
    · rw [mem_singleton.1 hb]
      constructor <;> split_ifs <;> omega
  · show InI64 (if _ then _ else _) ∧ InI64 (if _ then _ else _)
    constructor
    · split_ifs
      exacts [hvalid.min_in, h.times_in.1]
    · split_ifs
      exacts [hvalid.max_in, h.times_in.2]
  · rw [← append_assoc]
    exact forall_mem_append.2 ⟨h.valid, forall_mem_singleton.2 hvalid⟩
  · rw [← append_assoc]
    refine pairwise_append.2 ⟨h.sorted, pairwise_singleton _ _, ?_⟩
    intro b hb b' hb'
    rw [mem_singleton.1 hb']
    exact hprec b hb
  · rw [← append_assoc, List.getLast?_concat]
    rintro b ⟨⟩
    exact ⟨rfl, rfl⟩

/-- A block header is taken into account. -/
theorem Indexes.addBlockHeader (hvalid : bh.Valid) (hprec : ∀ b ∈ indexedBlocks index ++ cur, b.Precedes bh) :
    ∃ index' cur', (bsw.addBlockHeader zstd bh.streamId bh).Indexes zstd index' cur' ∧
      (cur'.flatMap BlockHeader.marshal).length ≤ maxUncompressedIndexBlockSize ∧
      indexedBlocks index' ++ cur' = indexedBlocks index ++ cur ++ [bh] := by
  have hcollect := h.collect hroom hvalid hprec
  unfold BlockStreamWriter.addBlockHeader
  dsimp only
  split_ifs with hfull
  · obtain ⟨index', hindex', hblocks⟩ := hcollect.mustFlushIndexBlock
    refine ⟨index', [], hindex', Nat.zero_le _, ?_⟩
    rw [hblocks, append_nil, append_assoc]
  · refine ⟨index, cur ++ [bh], hcollect, ?_, (append_assoc _ _ _).symm⟩
    rw [← hcollect.indexBlockData_eq]
    exact not_lt.1 hfull

/-- One block of a run. -/
theorem Indexes.mustWriteBlockData
    {bd : BlockData} (hbd : WithinLimits bd) {bsw' : BlockStreamWriter}
    (hrun : bsw.mustWriteBlockData zstd bd = .ok bsw') :
    ∃ index' cur' new, bsw'.Indexes zstd index' cur' ∧
      (cur'.flatMap BlockHeader.marshal).length ≤ maxUncompressedIndexBlockSize ∧
      indexedBlocks index' ++ cur' = indexedBlocks index ++ cur ++ new ∧
      List.Forall₂ Describes ([bd].filter fun bd => bd.rowsCount ≠ 0) new := by
  rw [BlockStreamWriter.mustWriteBlockData] at hrun
  split_ifs at hrun with hrows
  · cases hrun
    refine ⟨index, cur, [], h, hroom, (append_nil _).symm, ?_⟩
    simp [hrows]
  · rw [mustWriteBlockInternal] at hrun
    split_ifs at hrun with hless
    obtain ⟨⟨bh, sw⟩, hwrite, hadd⟩ := except_bind_eq_ok_iff.1 hrun
    simp only at hadd
    split_ifs at hadd with htime
    cases hadd
    obtain ⟨hsame, hdescribes, hvalid⟩ := mustWriteBlockDataTo_spec hbd hwrite
    rw [← hdescribes.streamId_eq] at hless htime ⊢
    have hprec := h.precedes (Bool.eq_false_iff.2 hless) htime
    obtain ⟨index', cur', hindex', hroom', hblocks⟩ :=
      (h.of_sameIndex hsame).addBlockHeader hroom hvalid hprec
    refine ⟨index', cur', [bh], hindex', hroom', hblocks, ?_⟩
    rw [filter_cons_of_pos (by simpa using hrows)]
    exact .cons hdescribes .nil

/-- A run over blocks. -/
theorem Indexes.run {bds : List BlockData}
    (hbds : ∀ bd ∈ bds, WithinLimits bd) {bsw' : BlockStreamWriter}
    (hrun : bds.foldlM (BlockStreamWriter.mustWriteBlockData zstd) bsw = .ok bsw') :
    ∃ index' cur' new, bsw'.Indexes zstd index' cur' ∧
      indexedBlocks index' ++ cur' = indexedBlocks index ++ cur ++ new ∧
      List.Forall₂ Describes (bds.filter fun bd => bd.rowsCount ≠ 0) new := by
  induction bds generalizing bsw index cur with
  | nil =>
    cases hrun
    exact ⟨index, cur, [], h, (append_nil _).symm, .nil⟩
  | cons bd bds ih =>
    rw [foldlM_cons] at hrun
    obtain ⟨bsw1, hstep, hrest⟩ := except_bind_eq_ok_iff.1 hrun
    obtain ⟨index1, cur1, new1, h1, hroom1, hblocks1, hdesc1⟩ :=
      h.mustWriteBlockData hroom (hbds bd mem_cons_self) hstep
    obtain ⟨index2, cur2, new2, h2, hblocks2, hdesc2⟩ :=
      ih h1 hroom1 (fun b hb => hbds b (mem_cons_of_mem _ hb)) hrest
    refine ⟨index2, cur2, new1 ++ new2, h2, ?_, ?_⟩
    · rw [hblocks2, hblocks1, append_assoc]
    · rw [← singleton_append, filter_append]
      exact rel_append hdesc1 hdesc2

end

end BlockStreamWriter

/-! ### The part that is opened -/

theorem mustReadAt_append (path : String) (before data after : Bytes) :
    mustReadAt path (before ++ data ++ after) data.length before.length = .ok data := by
  rw [mustReadAt]
  split_ifs with hzero hle
  · rw [eq_nil_of_length_eq_zero hzero]
  · rw [append_assoc, drop_left, take_left]
  · simp only [length_append] at hle
    omega

theorem mustParse_ok {α : Type} {what : String} {r : Except String α} {a : α} (h : r = .ok a) :
    mustParse what r = .ok a := by
  rw [h]
  rfl

/-- The block headers of an index block are read back. -/
theorem IndexBlock.StandsIn.mustReadBlockHeaders (hz : zstd.Lossless) {p : OpenPart}
    (hversion : p.formatVersion ≥ 1) (hsize : p.indexFile.length < 2 ^ 64) {ib : IndexBlock}
    (hstands : ib.StandsIn zstd p.indexFile) (hfits : ib.Fits) (hvalid : ∀ bh ∈ ib.blocks, bh.Valid)
    (hsorted : ib.blocks.Pairwise BlockHeader.Precedes) : p.mustReadBlockHeaders zstd ib.header = .ok ib.blocks := by
  obtain ⟨before, after, hfile, hoffset, hlength⟩ := hstands
  have hcompressed := hz.length_compress_le (ib.blocks.flatMap BlockHeader.marshal)
  have hfits := hfits.size_le
  simp only [maxUncompressedIndexBlockSize] at hfits
  have hlen := congrArg List.length hfile
  simp only [length_append] at hlen
  have hoffset' : ib.header.indexBlockOffset.toNat = before.length := by
    rw [hoffset]
    exact UInt64.toNat_ofNat_of_lt (show _ < 2 ^ 64 by omega)
  have hlength' : ib.header.indexBlockSize.toNat =
      (zstd.compress (ib.blocks.flatMap BlockHeader.marshal)).length := by
    rw [hlength]
    exact UInt64.toNat_ofNat_of_lt (show _ < 2 ^ 64 by omega)
  rw [OpenPart.mustReadBlockHeaders]
  simp only [hlength', hoffset']
  rw [panicIf, if_neg (by simp only [maxIndexBlockSize]; omega), except_ok_bind, hfile,
    mustReadAt_append, except_ok_bind, mustParse_ok (hz.decompress_compress _), except_ok_bind]
  exact mustParse_ok (unmarshalBlockHeaders_marshal hvalid hsorted hversion)

/-- The index of a part that the writer has written is opened with the blocks that have rows, in the order in
which they were written. -/
theorem exists_holds_of_writePart {env : PartEnv} (hz : env.zstd.Lossless) {kind : PartKind}
    {bds : List BlockData} (hbds : ∀ bd ∈ bds, WithinLimits bd) {part : PartFiles}
    (hrun : writePart env kind bds = .ok part) (hsize : part.index.length < 2 ^ 64) (path : String) :
    ∃ p index, mustOpenIndex env path part = .ok p ∧ p.Holds env.zstd index ∧
      List.Forall₂ Describes (bds.filter fun bd => bd.rowsCount ≠ 0) (indexedBlocks index) := by
  rw [writePart] at hrun
  obtain ⟨bsw, hfold, hend⟩ := except_bind_eq_ok_iff.1 hrun
  cases hend
  obtain ⟨index0, cur, new, h0, hblocks, hdesc⟩ :=
    (indexes_mustInit env.zstd kind).run (Nat.zero_le _) hbds hfold
  obtain ⟨index, h, hindex⟩ := h0.mustFlushIndexBlock
  have hsorted := h.sorted
  have hvalid := h.valid
  rw [append_nil] at hsorted hvalid
  have hwriter : (bsw.mustFlushIndexBlock env.zstd bsw.indexBlockData).streamWriters.metaindexWriter =
      .init := h.metaindexWriter_eq
  have hdata : (bsw.mustFlushIndexBlock env.zstd bsw.indexBlockData).metaindexData =
      (index.map IndexBlock.header).flatMap IndexBlockHeader.marshal := h.metaindexData_eq
  have hmeta : (bsw.finalize env).metaindex = env.zstd.compress
      ((index.map IndexBlock.header).flatMap IndexBlockHeader.marshal) := by
    rw [← hdata]
    show (WriterWithStats.mustWrite _ _).data = _
    rw [hwriter]
    rfl
  have hheaders : unmarshalIndexBlockHeaders
      ((index.map IndexBlock.header).flatMap IndexBlockHeader.marshal) =
        .ok (index.map IndexBlock.header) := by
    apply unmarshalIndexBlockHeaders_marshal
    · intro ih hih
      obtain ⟨ib, hib, rfl⟩ := mem_map.1 hih
      exact ⟨(h.fits ib hib).min_in, (h.fits ib hib).max_in⟩
    · exact @pairwise_headers StreamID _ (fun sid => sid) _ (fun _ _ hab => hab)
        (hsorted.imp fun hab => hab.1)
  refine ⟨⟨(bsw.finalize env).ph.formatVersion, index.map IndexBlock.header, path ++ "/index.bin",
    (bsw.finalize env).index⟩, index, ?_, ⟨rfl, ?_, hsorted⟩, ?_⟩
  · rw [mustOpenIndex, mustReadIndexBlockHeaders, hmeta]
    simp only [ReaderWithStats.init, ReaderWithStats.readAll]
    rw [mustParse_ok (hz.decompress_compress _), except_ok_bind, mustParse_ok hheaders, except_ok_bind]
    rfl
  · intro ib hib
    have hmem : ∀ bh ∈ ib.blocks, bh ∈ indexedBlocks index := fun bh hbh =>
      mem_flatMap.2 ⟨ib, hib, hbh⟩
    apply IndexBlock.StandsIn.mustReadBlockHeaders hz (show 3 ≥ 1 by decide) hsize (h.stands ib hib)
      (h.fits ib hib) fun bh hbh => hvalid bh (hmem bh hbh)
    obtain ⟨front, back, rfl⟩ := append_of_mem hib
    rw [indexedBlocks, flatMap_append, flatMap_cons] at hsorted
    exact (pairwise_append.1 (pairwise_append.1 hsorted).2.1).1
  · rw [hindex, hblocks]
    exact hdesc

/-- A query looks for blocks of this stream with these times. -/
def wants (pso : PartitionSearchOptions) (sid : StreamID) (min max : Int) : Bool :=
  min ≤ pso.maxTimestamp && pso.minTimestamp ≤ max &&
    if pso.tenantIds ≠ [] then sid.tenantId ∈ pso.tenantIds else sid ∈ pso.streamIds

/-- A search in a part that the writer has written has exactly the written blocks that the query looks for, in the
order in which they were written. -/
theorem search_of_writePart {env : PartEnv} (hz : env.zstd.Lossless) {kind : PartKind}
    {bds : List BlockData} (hbds : ∀ bd ∈ bds, WithinLimits bd) {part : PartFiles}
    (hrun : writePart env kind bds = .ok part) (hsize : part.index.length < 2 ^ 64) (path : String)
    (pso : PartitionSearchOptions) (htenants : pso.tenantIds.Pairwise (· ≤ ·))
    (hstreams : pso.streamIds.Pairwise (· ≤ ·)) :
    ∃ p found, mustOpenIndex env path part = .ok p ∧ schedulePartSearch env.zstd p pso = .ok found ∧
      List.Forall₂ Describes ((bds.filter fun bd => bd.rowsCount ≠ 0).filter fun bd =>
        wants pso bd.streamId bd.timestampsData.minTimestamp bd.timestampsData.maxTimestamp) found := by
  obtain ⟨p, index, hopen, hholds, hdesc⟩ := exists_holds_of_writePart hz hbds hrun hsize path
  have hfound : schedulePartSearch env.zstd p pso = .ok ((indexedBlocks index).filter fun bh =>
      wants pso bh.streamId bh.timestampsHeader.minTimestamp bh.timestampsHeader.maxTimestamp) := by
    rw [schedulePartSearch]
    split_ifs with hne
    · exact schedule_holds hholds (fun _ _ => StreamID.tenantId_le) pso htenants fun bh => by
        simp [wants, hne, inTimeRange, disjointTimes, and_comm]
    · exact schedule_holds hholds (fun _ _ hab => hab) pso hstreams fun bh => by
        simp [wants, hne, inTimeRange, disjointTimes, and_comm]
  refine ⟨p, _, hopen, hfound, rel_filter (fun bd bh h => ?_) hdesc⟩
  dsimp only
  rw [h.streamId_eq, h.minTimestamp_eq, h.maxTimestamp_eq]

/-- One of two blocks is in the time range. -/
theorem search_of_writePart_two :
    let block (t : Int) : BlockData := ⟨⟨⟨1, 0⟩, ⟨0, 7⟩⟩, 1, 1, ⟨[], 0, t, t⟩, [], []⟩
    let env : PartEnv := ⟨⟨fun src => src, .ok⟩, id⟩
    ∃ part p found, writePart env .inmemory [block 5, block 9] = .ok part ∧ mustOpenIndex env "part" part = .ok p ∧
      schedulePartSearch env.zstd p ⟨[⟨1, 0⟩], [], 6, 10⟩ = .ok found ∧ List.Forall₂ Describes [block 9] found := by
  intro block env
  obtain ⟨part, hrun, hsize⟩ : ∃ part, writePart env .inmemory [block 5, block 9] = .ok part ∧
      part.index.length < 2 ^ 64 := ⟨_, rfl, by decide +kernel⟩
  have hlossless : env.zstd.Lossless := ⟨fun _ => rfl, fun _ => (Nat.le_add_right _ _).trans (Nat.le_add_right _ _)⟩
  obtain ⟨p, found, h⟩ := search_of_writePart hlossless
    (forall_mem_cons.2 ⟨⟨by decide, by decide, by decide⟩, forall_mem_singleton.2 ⟨by decide, by decide, by decide⟩⟩)
    hrun hsize "part" ⟨[⟨1, 0⟩], [], 6, 10⟩ (by decide) (by decide)
  exact ⟨part, p, found, hrun, h⟩

end EsLogs.Part
