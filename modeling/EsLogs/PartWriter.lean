import EsLogs.BlockHeader

/-!
Writing a part (`block_stream_writer.rs`, `block_data.rs`). A block is spread over the files of the
part: its timestamps, the values and the bloom filter of each column in the shard of the column, its
columns header and columns header index. Its block header is collected in an index block, which goes to
the index file when it is big enough, covered by an index block header for the metaindex file.
-/

namespace EsLogs.Part

open Encoding

def bloomValuesMaxShardsCount : Nat := 128

def partFormatLatestVersion : Nat := 3

inductive PartKind where
  | inmemory
  | file
  deriving DecidableEq, Repr

/-- What the code takes from elsewhere: compression, and the order in which a hash map lists its entries. -/
structure PartEnv where
  zstd : Zstd
  listed : List (Nat × Nat) → List (Nat × Nat)

/-! ### Writers -/

/-- `WriterWithStats`: what a file holds so far. -/
structure WriterWithStats where
  data : Bytes
  bytesWritten : UInt64
  deriving DecidableEq, Repr

def WriterWithStats.init : WriterWithStats := ⟨[], 0⟩

def WriterWithStats.mustWrite (w : WriterWithStats) (data : Bytes) : WriterWithStats :=
  ⟨w.data ++ data, w.bytesWritten + .ofNat data.length⟩

structure BloomValuesWriter where
  bloom : WriterWithStats
  values : WriterWithStats
  deriving DecidableEq, Repr

def BloomValuesWriter.init : BloomValuesWriter := ⟨.init, .init⟩

def BloomValuesWriter.totalBytesWritten (w : BloomValuesWriter) : UInt64 :=
  w.bloom.bytesWritten + w.values.bytesWritten

/-- Where the values of a column are written: with those of the column without name, or in a shard. -/
inductive BloomValuesSlot where
  | message
  | shard (i : Nat)
  deriving DecidableEq, Repr

structure StreamWriters where
  columnNamesWriter : WriterWithStats
  columnIdxsWriter : WriterWithStats
  metaindexWriter : WriterWithStats
  indexWriter : WriterWithStats
  columnsHeaderIndexWriter : WriterWithStats
  columnsHeaderWriter : WriterWithStats
  timestampsWriter : WriterWithStats
  messageBloomValuesWriter : BloomValuesWriter
  bloomValuesShards : List BloomValuesWriter
  kind : PartKind
  maxShards : Nat
  columnNameIdGenerator : ColumnNameIDGenerator
  columnIdxs : List (Nat × Nat)
  nextColumnIdx : Nat
  deriving DecidableEq, Repr

/-- `StreamWriters::init`; a part in memory has one shard. -/
def StreamWriters.init (kind : PartKind) : StreamWriters where
  columnNamesWriter := .init
  columnIdxsWriter := .init
  metaindexWriter := .init
  indexWriter := .init
  columnsHeaderIndexWriter := .init
  columnsHeaderWriter := .init
  timestampsWriter := .init
  messageBloomValuesWriter := .init
  bloomValuesShards := []
  kind := kind
  maxShards := match kind with
    | .inmemory => 1
    | .file => bloomValuesMaxShardsCount
  columnNameIdGenerator := ⟨[]⟩
  columnIdxs := []
  nextColumnIdx := 0

namespace StreamWriters

def totalBytesWritten (sw : StreamWriters) : UInt64 :=
  sw.columnNamesWriter.bytesWritten + sw.columnIdxsWriter.bytesWritten +
    sw.metaindexWriter.bytesWritten + sw.indexWriter.bytesWritten +
    sw.columnsHeaderIndexWriter.bytesWritten + sw.columnsHeaderWriter.bytesWritten +
    sw.timestampsWriter.bytesWritten + sw.messageBloomValuesWriter.totalBytesWritten +
    (sw.bloomValuesShards.map BloomValuesWriter.totalBytesWritten).sum

/-- `BloomValuesWriterFactory::create`: the buffers of a part in memory are handed out once. -/
def createBloomValuesWriter (sw : StreamWriters) : Outcome StreamWriters :=
  if sw.kind = .inmemory ∧ sw.bloomValuesShards ≠ [] then
    .error (.panic "BUG: the in-memory bloomValues writer can be created only once")
  else .ok { sw with bloomValuesShards := sw.bloomValuesShards ++ [.init] }

/-- `StreamWriters::get_bloom_values_writer_for_column_name`; the message of the panic is without the
map. -/
def getBloomValuesWriterForColumnName (sw : StreamWriters) (name : Bytes) :
    Outcome (BloomValuesSlot × StreamWriters) :=
  if name = [] then .ok (.message, sw)
  else
    let (columnId, g) := sw.columnNameIdGenerator.getColumnNameId name
    let sw := { sw with columnNameIdGenerator := g }
    match sw.columnIdxs.lookup columnId with
    | some shardIdx => .ok (.shard shardIdx, sw)
    | none =>
      let shardIdx := sw.nextColumnIdx % sw.maxShards
      let sw := { sw with
        nextColumnIdx := sw.nextColumnIdx + 1
        columnIdxs := sw.columnIdxs ++ [(columnId, shardIdx)] }
      if shardIdx > sw.bloomValuesShards.length then
        .error (.panic ("BUG: shardIdx must equal " ++ toString sw.bloomValuesShards.length ++
          "; got " ++ toString shardIdx ++ "; maxShards=" ++ toString sw.maxShards))
      else if shardIdx ≥ sw.bloomValuesShards.length then
        sw.createBloomValuesWriter.map fun sw => (.shard shardIdx, sw)
      else .ok (.shard shardIdx, sw)

def bloomValuesWriter (sw : StreamWriters) : BloomValuesSlot → BloomValuesWriter
  | .message => sw.messageBloomValuesWriter
  | .shard i => sw.bloomValuesShards.getD i .init

def setBloomValuesWriter (sw : StreamWriters) (slot : BloomValuesSlot) (w : BloomValuesWriter) :
    StreamWriters :=
  match slot with
  | .message => { sw with messageBloomValuesWriter := w }
  | .shard i => { sw with bloomValuesShards := sw.bloomValuesShards.set i w }

end StreamWriters

/-! ### Writing a block -/

def mustWriteTimestampsTo (td : TimestampsData) (sw : StreamWriters) :
    Outcome (TimestampsHeader × StreamWriters) := do
  checkSize "BUG: too big timestampsHeader.blockSize" td.data.length maxTimestampsBlockSize
  return (⟨sw.timestampsWriter.bytesWritten, .ofNat td.data.length, td.minTimestamp, td.maxTimestamp,
      td.marshalType⟩,
    { sw with timestampsWriter := sw.timestampsWriter.mustWrite td.data })

def mustWriteColumnTo (cd : ColumnData) (sw : StreamWriters) :
    Outcome (ColumnHeader × StreamWriters) := do
  let (slot, sw) ← sw.getBloomValuesWriterForColumnName cd.name
  let w := sw.bloomValuesWriter slot
  checkSize "BUG: too big valuesSize" cd.valuesData.length maxValuesBlockSize
  checkSize "BUG: too big bloomFilterSize" cd.bloomFilterData.length maxBloomFilterBlockSize
  return ({
      name := cd.name
      valueType := cd.valueType
      minValue := .ofNat cd.minValue
      maxValue := .ofNat cd.maxValue
      valuesDict := cd.valuesDict
      valuesOffset := w.values.bytesWritten
      valuesSize := .ofNat cd.valuesData.length
      bloomFilterOffset := w.bloom.bytesWritten
      bloomFilterSize := .ofNat cd.bloomFilterData.length },
    sw.setBloomValuesWriter slot
      ⟨w.bloom.mustWrite cd.bloomFilterData, w.values.mustWrite cd.valuesData⟩)

def mustWriteColumnsTo : List ColumnData → StreamWriters → Outcome (List ColumnHeader × StreamWriters)
  | [], sw => .ok ([], sw)
  | cd :: cds, sw => do
    let (ch, sw) ← mustWriteColumnTo cd sw
    let (chs, sw) ← mustWriteColumnsTo cds sw
    return (ch :: chs, sw)

def mustWriteColumnsHeader (csh : ColumnsHeader) (bh : BlockHeader) (sw : StreamWriters) :
    Outcome (BlockHeader × StreamWriters) := do
  let (data, cshIndex, g) ← csh.marshal sw.columnNameIdGenerator
  let indexData := cshIndex.marshal
  checkSize "BUG: too big columnsHeaderIndexSize" indexData.length maxColumnsHeaderIndexSize
  checkSize "BUG: too big columnsHeaderSize" data.length maxColumnsHeaderSize
  return ({ bh with
      columnsHeaderIndexOffset := sw.columnsHeaderIndexWriter.bytesWritten
      columnsHeaderIndexSize := .ofNat indexData.length
      columnsHeaderOffset := sw.columnsHeaderWriter.bytesWritten
      columnsHeaderSize := .ofNat data.length },
    { sw with
      columnNameIdGenerator := g
      columnsHeaderIndexWriter := sw.columnsHeaderIndexWriter.mustWrite indexData
      columnsHeaderWriter := sw.columnsHeaderWriter.mustWrite data })

/-- `BlockData::must_write_to`. -/
def mustWriteBlockDataTo (bd : BlockData) (sw : StreamWriters) : Outcome (BlockHeader × StreamWriters) := do
  let (th, sw) ← mustWriteTimestampsTo bd.timestampsData sw
  let (chs, sw) ← mustWriteColumnsTo bd.columnsData sw
  mustWriteColumnsHeader ⟨chs, bd.constColumns⟩
    ⟨bd.streamId, .ofNat bd.uncompressedSizeBytes, .ofNat bd.rowsCount, th, 0, 0, 0, 0⟩ sw

/-! ### The writer of a part -/

structure BlockStreamWriter where
  streamWriters : StreamWriters
  sidLast : StreamID
  sidFirst : StreamID
  minTimestampLast : Int
  minTimestamp : Int
  maxTimestamp : Int
  hasWrittenBlocks : Bool
  globalUncompressedSizeBytes : UInt64
  globalRowsCount : UInt64
  globalBlocksCount : UInt64
  globalMinTimestamp : Int
  globalMaxTimestamp : Int
  indexBlockData : Bytes
  metaindexData : Bytes
  deriving DecidableEq, Repr

namespace BlockStreamWriter

def mustInit (kind : PartKind) : BlockStreamWriter where
  streamWriters := .init kind
  sidLast := default
  sidFirst := default
  minTimestampLast := 0
  minTimestamp := 0
  maxTimestamp := 0
  hasWrittenBlocks := false
  globalUncompressedSizeBytes := 0
  globalRowsCount := 0
  globalBlocksCount := 0
  globalMinTimestamp := 0
  globalMaxTimestamp := 0
  indexBlockData := []
  metaindexData := []

/-- `must_flush_index_block` with `IndexBlockHeader::must_write_index_block`. -/
def mustFlushIndexBlock (zstd : Zstd) (bsw : BlockStreamWriter) (data : Bytes) :
    BlockStreamWriter :=
  let sw := bsw.streamWriters
  let compressed := zstd.compress data
  let ih : IndexBlockHeader := ⟨bsw.sidFirst, bsw.minTimestamp, bsw.maxTimestamp,
    sw.indexWriter.bytesWritten, .ofNat compressed.length⟩
  let bsw := if data ≠ [] then
      { bsw with
        streamWriters := { sw with indexWriter := sw.indexWriter.mustWrite compressed }
        metaindexData := bsw.metaindexData ++ ih.marshal }
    else bsw
  { bsw with hasWrittenBlocks := false, minTimestamp := 0, maxTimestamp := 0, sidFirst := default }

/-- What `must_write_block_internal` takes over from the header of the block that it has written. -/
def collect (bsw : BlockStreamWriter) (sid : StreamID) (bh : BlockHeader) : BlockStreamWriter :=
  let th := bh.timestampsHeader
  let isFirst := bsw.globalRowsCount = 0
  let isFirstInIndexBlock := ¬bsw.hasWrittenBlocks
  { bsw with
    sidFirst := if isFirstInIndexBlock then sid else bsw.sidFirst
    hasWrittenBlocks := true
    sidLast := sid
    globalMinTimestamp := if isFirst ∨ th.minTimestamp < bsw.globalMinTimestamp then
      th.minTimestamp else bsw.globalMinTimestamp
    globalMaxTimestamp := if isFirst ∨ th.maxTimestamp > bsw.globalMaxTimestamp then
      th.maxTimestamp else bsw.globalMaxTimestamp
    minTimestamp := if isFirstInIndexBlock ∨ th.minTimestamp < bsw.minTimestamp then
      th.minTimestamp else bsw.minTimestamp
    maxTimestamp := if isFirstInIndexBlock ∨ th.maxTimestamp > bsw.maxTimestamp then
      th.maxTimestamp else bsw.maxTimestamp
    minTimestampLast := th.minTimestamp
    globalUncompressedSizeBytes := bsw.globalUncompressedSizeBytes + bh.uncompressedSizeBytes
    globalRowsCount := bsw.globalRowsCount + bh.rowsCount
    globalBlocksCount := bsw.globalBlocksCount + 1
    indexBlockData := bsw.indexBlockData ++ bh.marshal }

/-- The index block is flushed when it is big enough. -/
def addBlockHeader (zstd : Zstd) (bsw : BlockStreamWriter) (sid : StreamID) (bh : BlockHeader) :
    BlockStreamWriter :=
  let bsw := bsw.collect sid bh
  if bsw.indexBlockData.length > maxUncompressedIndexBlockSize then
    { bsw.mustFlushIndexBlock zstd bsw.indexBlockData with indexBlockData := [] }
  else bsw

def mustWriteBlockInternal (zstd : Zstd) (bsw : BlockStreamWriter) (sid : StreamID)
    (write : StreamWriters → Outcome (BlockHeader × StreamWriters)) : Outcome BlockStreamWriter :=
  if sid.less bsw.sidLast then
    .error (.panic ("BUG: the sid=" ++ sid.display ++
      " cannot be smaller than the previously written sid=" ++ bsw.sidLast.display))
  else do
    let (bh, sw) ← write bsw.streamWriters
    if sid = bsw.sidLast ∧ bh.timestampsHeader.minTimestamp < bsw.minTimestampLast then
      .error (.panic ("BUG: the block for sid=" ++ sid.display ++
        " cannot contain timestamp smaller than " ++ toString bsw.minTimestampLast ++
        ", but it contains timestamp " ++ toString bh.timestampsHeader.minTimestamp))
    else .ok ({ bsw with streamWriters := sw }.addBlockHeader zstd sid bh)

def mustWriteBlockData (zstd : Zstd) (bsw : BlockStreamWriter) (bd : BlockData) :
    Outcome BlockStreamWriter :=
  if bd.rowsCount = 0 then .ok bsw
  else bsw.mustWriteBlockInternal zstd bd.streamId
    (mustWriteBlockDataTo bd)

end BlockStreamWriter

/-! ### The finished part -/

structure PartHeader where
  formatVersion : Nat
  compressedSizeBytes : UInt64
  uncompressedSizeBytes : UInt64
  rowsCount : UInt64
  blocksCount : UInt64
  minTimestamp : Int
  maxTimestamp : Int
  bloomValuesShardsCount : Nat
  deriving DecidableEq, Repr

structure BloomValuesFiles where
  bloom : Bytes
  values : Bytes
  deriving DecidableEq, Repr

structure PartFiles where
  ph : PartHeader
  columnNames : Bytes
  columnIdxs : Bytes
  metaindex : Bytes
  index : Bytes
  columnsHeaderIndex : Bytes
  columnsHeader : Bytes
  timestamps : Bytes
  messageBloomValues : BloomValuesFiles
  bloomValuesShards : List BloomValuesFiles
  deriving DecidableEq, Repr

def BloomValuesWriter.files (w : BloomValuesWriter) : BloomValuesFiles := ⟨w.bloom.data, w.values.data⟩

/-- The shards of a part: the one buffer of a part in memory is there even when it is not used. -/
def StreamWriters.shardFiles (sw : StreamWriters) : List BloomValuesFiles :=
  match sw.kind with
  | .inmemory => [(sw.bloomValuesWriter (.shard 0)).files]
  | .file => sw.bloomValuesShards.map BloomValuesWriter.files

def BlockStreamWriter.finalize (env : PartEnv) (bsw : BlockStreamWriter) : PartFiles :=
  let bsw := bsw.mustFlushIndexBlock env.zstd bsw.indexBlockData
  let sw := bsw.streamWriters
  let sw := { sw with
    columnNamesWriter := sw.columnNamesWriter.mustWrite
      (marshalColumnNames env.zstd sw.columnNameIdGenerator.columnNames)
    columnIdxsWriter := sw.columnIdxsWriter.mustWrite
      (marshalColumnIdxs (env.listed sw.columnIdxs))
    metaindexWriter := sw.metaindexWriter.mustWrite (env.zstd.compress bsw.metaindexData) }
  { ph := {
      formatVersion := partFormatLatestVersion
      compressedSizeBytes := sw.totalBytesWritten
      uncompressedSizeBytes := bsw.globalUncompressedSizeBytes
      rowsCount := bsw.globalRowsCount
      blocksCount := bsw.globalBlocksCount
      minTimestamp := bsw.globalMinTimestamp
      maxTimestamp := bsw.globalMaxTimestamp
      bloomValuesShardsCount := sw.bloomValuesShards.length }
    columnNames := sw.columnNamesWriter.data
    columnIdxs := sw.columnIdxsWriter.data
    metaindex := sw.metaindexWriter.data
    index := sw.indexWriter.data
    columnsHeaderIndex := sw.columnsHeaderIndexWriter.data
    columnsHeader := sw.columnsHeaderWriter.data
    timestamps := sw.timestampsWriter.data
    messageBloomValues := sw.messageBloomValuesWriter.files
    bloomValuesShards := sw.shardFiles }

/-- Writes blocks one after the other and finalizes the part. -/
def writePart (env : PartEnv) (kind : PartKind) (bds : List BlockData) : Outcome PartFiles := do
  let bsw ← bds.foldlM (BlockStreamWriter.mustWriteBlockData env.zstd) (.mustInit kind)
  return bsw.finalize env

end EsLogs.Part
