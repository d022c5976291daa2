import EsLogs.BlockRows
import EsLogs.StreamId
import EsLogs.ValuesEncoder

/-!
Packed blocks (`block_data.rs`) and the order in which blocks are written (`block_stream_writer.rs`).
How timestamps and column values are packed is left to a codec; what the merge of parts needs of it
is that unpacking restores what was packed and that blocks of moderate size stay within the limits of
the file format.
-/

namespace EsLogs

open ColumnValues (ValueType ValuesDict)

def maxUncompressedBlockSize : Nat := 2 * 1024 * 1024

def maxRowsPerBlock : Nat := 8 * 1024 * 1024

def maxTimestampsBlockSize : Nat := 8 * 1024 * 1024

def maxValuesBlockSize : Nat := 8 * 1024 * 1024

def maxBloomFilterBlockSize : Nat := 8 * 1024 * 1024

structure TimestampsData where
  data : Bytes
  marshalType : UInt8
  minTimestamp : Int
  maxTimestamp : Int
  deriving DecidableEq, Repr

structure ColumnData where
  name : Bytes
  valueType : ValueType
  minValue : Nat
  maxValue : Nat
  valuesDict : ValuesDict
  valuesData : Bytes
  bloomFilterData : Bytes
  deriving DecidableEq, Repr

structure BlockData where
  streamId : StreamID
  uncompressedSizeBytes : Nat
  rowsCount : Nat
  timestampsData : TimestampsData
  columnsData : List ColumnData
  constColumns : List Field
  deriving DecidableEq, Repr

def BlockData.empty : BlockData := ⟨default, 0, 0, ⟨[], 0, 0, 0⟩, [], []⟩

/-- The encoders of timestamps and column values. `encodeValues` stands for `ValuesEncoder::encode`,
`marshal_strings_block` and the bloom filter of the values, for a column whose name is filled in
later; reading back is `unmarshalStrings` followed by `decodeValues`. -/
structure BlockCodec where
  marshalTimestamps : List Int → Bytes × UInt8
  unmarshalTimestamps : Bytes → UInt8 → Int → Nat → Except String (List Int)
  encodeValues : List Bytes → ColumnData
  unmarshalStrings : Bytes → Nat → Except String (List Bytes)
  decodeValues : List Bytes → ValueType → ValuesDict → Except String (List Bytes)

/-! ### Unpacking -/

def BlockCodec.readColumn (codec : BlockCodec) (rowsCount : Nat) (cd : ColumnData) (i : Nat) :
    Except String Column := do
  let raw ← (codec.unmarshalStrings cd.valuesData rowsCount).mapError
    fun err => "cannot unmarshal column " ++ toString i ++ ": " ++ err
  let values ← (codec.decodeValues raw cd.valueType cd.valuesDict).mapError
    fun err => "cannot decode column values: " ++ err
  return ⟨cd.name, values⟩

def BlockCodec.initFromBlockData (codec : BlockCodec) (bd : BlockData) : Except String Block := do
  if bd.rowsCount > maxRowsPerBlock then
    throw ("too many entries found in the block: " ++ toString bd.rowsCount ++
      "; mustn't exceed " ++ toString maxRowsPerBlock)
  let td := bd.timestampsData
  let timestamps ← (codec.unmarshalTimestamps td.data td.marshalType td.minTimestamp
    bd.rowsCount).mapError fun err => "cannot unmarshal timestamps: " ++ err
  let columns ← bd.columnsData.zipIdx.mapM fun (cd, i) => codec.readColumn bd.rowsCount cd i
  return ⟨timestamps, columns, bd.constColumns⟩

/-- `BlockData::unmarshal_rows`, into an empty destination. -/
def BlockCodec.unmarshalRows (codec : BlockCodec) (bd : BlockData) : Except String (List Row) :=
  (codec.initFromBlockData bd).map Block.appendRowsTo

/-! ### Packing -/

/-- A size that must not exceed its limit; the message says so, or it is the one of
`must_write_timestamps_to`. -/
def checkSize (what : String) (size limit : Nat) (bound : String := "mustn't exceed") :
    Outcome Unit :=
  if size > limit then
    throw (.panic (what ++ ": " ++ toString size ++ " bytes; " ++ bound ++ " " ++ toString limit ++
      " bytes"))
  else pure ()

/-- The size checks of `ColumnData::must_write_to` and `Column::must_write_to`. -/
def ColumnData.mustWriteTo (cd : ColumnData) : Outcome Unit := do
  checkSize "BUG: too big valuesSize" cd.valuesData.length maxValuesBlockSize
  checkSize "BUG: too big bloomFilterSize" cd.bloomFilterData.length maxBloomFilterBlockSize

/-- The bytes of the columns header are not here, and neither are the two checks that
`must_write_columns_header` makes of their sizes. -/
def BlockData.mustWriteTo (bd : BlockData) : Outcome BlockData := do
  checkSize "BUG: too big timestampsHeader.blockSize" bd.timestampsData.data.length
    maxTimestampsBlockSize
  bd.columnsData.forM ColumnData.mustWriteTo
  return bd

def BlockCodec.pack (codec : BlockCodec) (sid : StreamID) (b : Block) : BlockData :=
  let (data, marshalType) := codec.marshalTimestamps b.timestamps
  { streamId := sid
    uncompressedSizeBytes := b.uncompressedSizeBytes
    rowsCount := b.timestamps.length
    timestampsData := ⟨data, marshalType, b.timestamps.headD 0, b.timestamps.getLastD 0⟩
    columnsData := b.columns.map fun c => { codec.encodeValues c.values with name := c.name }
    constColumns := b.constColumns }

def BlockCodec.mustWriteTo (codec : BlockCodec) (sid : StreamID) (b : Block) :
    Outcome BlockData := do
  b.assertValid
  let bd := codec.pack sid b
  checkSize "BUG: too big block with timestamps" bd.timestampsData.data.length
    maxTimestampsBlockSize "the maximum supported size is"
  bd.columnsData.forM ColumnData.mustWriteTo
  return bd

/-! ### The writer -/

/-- The writer as far as the order of blocks goes: the blocks written so far, and what
`must_write_block_internal` compares the next one with. -/
structure BlockStreamWriter where
  sidLast : StreamID
  minTimestampLast : Int
  blocks : List BlockData

def BlockStreamWriter.init : BlockStreamWriter := ⟨default, 0, []⟩

def BlockStreamWriter.mustWriteBlockInternal (bsw : BlockStreamWriter) (sid : StreamID)
    (write : Outcome BlockData) : Outcome BlockStreamWriter := do
  if sid.less bsw.sidLast then
    throw (.panic ("BUG: the sid=" ++ sid.display ++
      " cannot be smaller than the previously written sid=" ++ bsw.sidLast.display))
  let isSeenSid := sid = bsw.sidLast
  let bd ← write
  let minTimestamp := bd.timestampsData.minTimestamp
  if isSeenSid ∧ minTimestamp < bsw.minTimestampLast then
    throw (.panic ("BUG: the block for sid=" ++ sid.display ++
      " cannot contain timestamp smaller than " ++ toString bsw.minTimestampLast ++
      ", but it contains timestamp " ++ toString minTimestamp))
  return ⟨sid, minTimestamp, bsw.blocks ++ [bd]⟩

def BlockStreamWriter.mustWriteBlockData (bsw : BlockStreamWriter) (bd : BlockData) :
    Outcome BlockStreamWriter :=
  if bd.rowsCount = 0 then pure bsw else bsw.mustWriteBlockInternal bd.streamId bd.mustWriteTo

/-- `BlockStreamWriter::must_write_rows` with `must_write_block`. -/
def BlockStreamWriter.mustWriteRows (codec : BlockCodec) (bsw : BlockStreamWriter) (sid : StreamID)
    (rows : List Row) : Outcome BlockStreamWriter := do
  if rows.isEmpty then return bsw
  let b ← mustInitFromRows rows
  if b.timestamps.length = 0 then return bsw
  bsw.mustWriteBlockInternal sid (codec.mustWriteTo sid b)

end EsLogs
