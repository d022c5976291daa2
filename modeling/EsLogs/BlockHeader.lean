import EsLogs.BlockData
import EsLogs.ColumnNames

/-!
The headers by which a part is found its way in (`block_header.rs`, `block_stream_reader.rs`): a block
header in the index file says where the timestamps and the columns header of a block are, a columns
header says where the values and the bloom filter of each column are, and an index block header in the
metaindex file covers the block headers of one index block.
-/

namespace EsLogs

open Encoding ColumnValues

def maxColumnsHeaderSize : Nat := 8 * 1024 * 1024

def maxColumnsHeaderIndexSize : Nat := 8 * 1024 * 1024

def maxIndexBlockSize : Nat := 8 * 1024 * 1024

def maxUncompressedIndexBlockSize : Nat := 128 * 1024

/-! ### Block headers -/

structure TimestampsHeader where
  blockOffset : UInt64
  blockSize : UInt64
  minTimestamp : Int
  maxTimestamp : Int
  marshalType : UInt8
  deriving DecidableEq, Repr

def TimestampsHeader.marshal (th : TimestampsHeader) : Bytes :=
  marshalUint64 th.blockOffset.toNat ++ (marshalUint64 th.blockSize.toNat ++
    (marshalUint64 (asU64 th.minTimestamp) ++ (marshalUint64 (asU64 th.maxTimestamp) ++
      [th.marshalType])))

def TimestampsHeader.unmarshal : Unmarshal TimestampsHeader := do
  let src ← Unmarshal.take 33 fun n =>
    "cannot unmarshal timestampsHeader from " ++ toString n ++ " bytes; need at least 33 bytes"
  return {
    blockOffset := .ofNat (unmarshalUint64 src)
    blockSize := .ofNat (unmarshalUint64 (src.drop 8))
    minTimestamp := asI64 (unmarshalUint64 (src.drop 16))
    maxTimestamp := asI64 (unmarshalUint64 (src.drop 24))
    marshalType := src.getD 32 0 }

structure BlockHeader where
  streamId : StreamID
  uncompressedSizeBytes : UInt64
  rowsCount : UInt64
  timestampsHeader : TimestampsHeader
  columnsHeaderIndexOffset : UInt64
  columnsHeaderIndexSize : UInt64
  columnsHeaderOffset : UInt64
  columnsHeaderSize : UInt64
  deriving DecidableEq, Repr

def BlockHeader.marshal (bh : BlockHeader) : Bytes :=
  bh.streamId.marshal ++ (marshalVarUint64 bh.uncompressedSizeBytes.toNat ++
    (marshalVarUint64 bh.rowsCount.toNat ++ (bh.timestampsHeader.marshal ++
      (marshalVarUint64 bh.columnsHeaderIndexOffset.toNat ++
        (marshalVarUint64 bh.columnsHeaderIndexSize.toNat ++
          (marshalVarUint64 bh.columnsHeaderOffset.toNat ++
            marshalVarUint64 bh.columnsHeaderSize.toNat))))))

/-- The fields that parts of format version 0 do not have. -/
def unmarshalColumnsHeaderIndexRef (partFormatVersion : Nat) : Unmarshal (UInt64 × UInt64) :=
  if partFormatVersion ≥ 1 then do
    let offset ← readU64 "cannot unmarshal columnsHeaderIndexOffset"
    let size ← readU64 "cannot unmarshal columnsHeaderIndexSize"
    return (offset, size)
  else pure (0, 0)

def BlockHeader.unmarshal (partFormatVersion : Nat) : Unmarshal BlockHeader := do
  let streamId ← StreamID.unmarshal.mapErr fun err => "cannot unmarshal streamID: " ++ err
  let uncompressedSizeBytes ← readU64 "cannot unmarshal uncompressedSizeBytes"
  let rowsCount ← readU64 "cannot unmarshal rowsCount"
  Unmarshal.ensure (rowsCount.toNat ≤ maxRowsPerBlock)
    ("too big value for rowsCount: " ++ toString rowsCount ++ "; mustn't exceed " ++
      toString maxRowsPerBlock)
  let timestampsHeader ← TimestampsHeader.unmarshal.mapErr fun err =>
    "cannot unmarshal timestampsHeader: " ++ err
  let ref ← unmarshalColumnsHeaderIndexRef partFormatVersion
  let columnsHeaderOffset ← readU64 "cannot unmarshal columnsHeaderOffset"
  let columnsHeaderSize ← readU64 "cannot unmarshal columnsHeaderSize"
  Unmarshal.ensure (columnsHeaderSize.toNat ≤ maxColumnsHeaderSize)
    ("too big value for columnsHeaderSize: " ++ toString columnsHeaderSize ++
      "; mustn't exceed " ++ toString maxColumnsHeaderSize)
  return ⟨streamId, uncompressedSizeBytes, rowsCount, timestampsHeader, ref.1, ref.2,
    columnsHeaderOffset, columnsHeaderSize⟩

/-- `validate_block_headers`, from the header number `i` on. -/
def validateBlockHeaders : Nat → List BlockHeader → Except String Unit
  | i, prev :: curr :: bhs =>
    if curr.streamId.less prev.streamId then
      .error ("unexpected blockHeader with smaller streamID=" ++ curr.streamId.display ++
        " after bigger streamID=" ++ prev.streamId.display ++ " at position " ++ toString i)
    else if curr.streamId = prev.streamId ∧
        curr.timestampsHeader.minTimestamp < prev.timestampsHeader.minTimestamp then
      .error ("unexpected blockHeader with smaller timestamp=" ++
        toString curr.timestampsHeader.minTimestamp ++ " after bigger timestamp=" ++
        toString prev.timestampsHeader.minTimestamp ++ " at position " ++ toString i)
    else validateBlockHeaders (i + 1) (curr :: bhs)
  | _, _ => .ok ()

/-- `unmarshal_block_headers`, into an empty destination. -/
def unmarshalBlockHeaders (partFormatVersion : Nat) (src : Bytes) :
    Except String (List BlockHeader) := do
  let bhs ← Unmarshal.untilEmpty (fun _ => (BlockHeader.unmarshal partFormatVersion).mapErr fun err =>
    "cannot unmarshal blockHeader entries: " ++ err) src.length 0 src
  validateBlockHeaders 1 bhs
  return bhs

/-! ### Columns headers -/

structure ColumnHeader where
  name : Bytes
  valueType : ValueType
  minValue : UInt64
  maxValue : UInt64
  valuesDict : ValuesDict
  valuesOffset : UInt64
  valuesSize : UInt64
  bloomFilterOffset : UInt64
  bloomFilterSize : UInt64
  deriving DecidableEq, Repr

def valueTypeCode : ValueType → UInt8
  | .string => 1
  | .dict => 2
  | .uint8 => 3
  | .uint16 => 4
  | .uint32 => 5
  | .uint64 => 6
  | .float64 => 7
  | .ipv4 => 8
  | .timestampIso8601 => 9
  | .int64 => 10
  | .other code => code

def valueTypeOfCode (code : UInt8) : ValueType :=
  match code.toNat with
  | 1 => .string
  | 2 => .dict
  | 3 => .uint8
  | 4 => .uint16
  | 5 => .uint32
  | 6 => .uint64
  | 7 => .float64
  | 8 => .ipv4
  | 9 => .timestampIso8601
  | 10 => .int64
  | _ => .other code

def float64IsNaN (bits : UInt64) : Bool := bits.toNat % 2 ^ 63 > 0x7ff0000000000000

/-- The place of a float that is a number in the order of floats; both zeros have the same. -/
def float64Rank (bits : UInt64) : Int :=
  if bits.toNat < 2 ^ 63 then bits.toNat else -((bits.toNat : Int) - 2 ^ 63)

def float64Gt (a b : UInt64) : Bool :=
  !float64IsNaN a && !float64IsNaN b && decide (float64Rank b < float64Rank a)

def marshalValuesDict (d : ValuesDict) : Outcome Bytes :=
  if d.values.length > maxDictLen then
    .error (.panic ("BUG: valuesDict may contain max " ++ toString maxDictLen ++ " items; got " ++
      toString d.values.length ++ " items"))
  else .ok (UInt8.ofNat d.values.length :: d.values.flatMap marshalBytes)

def unmarshalValuesDict : Unmarshal ValuesDict := do
  let src ← Unmarshal.take 1 fun _ => "cannot umarshal dict len from 0 bytes; need at least 1 byte"
  let dictLen := (src.getD 0 0).toNat
  let values ← Unmarshal.times (fun i => readBytes ("cannot umarshal value " ++ toString i ++
    " out of " ++ toString dictLen ++ " from dict")) 0 dictLen
  return ⟨values⟩

/-- How the smallest and the largest value of a column are stored: the type's name in messages, the
number of bytes of one value, and its encoding. -/
structure MinMaxFormat where
  what : String
  width : Nat
  marshal : Nat → Bytes
  unmarshal : Bytes → Nat

def uint8MinMax : MinMaxFormat := ⟨"valueTypeUint8", 1, beBytes 1, fun src => beNat (src.take 1)⟩

def uint16MinMax : MinMaxFormat := ⟨"valueTypeUint16", 2, marshalUint16, unmarshalUint16⟩

def uint32MinMax : MinMaxFormat := ⟨"valueTypeUint32", 4, marshalUint32, unmarshalUint32⟩

def uint64MinMax : MinMaxFormat := ⟨"valueTypeUint64", 8, marshalUint64, unmarshalUint64⟩

def int64MinMax : MinMaxFormat :=
  ⟨"valueTypeInt64", 8, fun n => marshalInt64 (asI64 n), fun src => asU64 (unmarshalInt64 src)⟩

def float64MinMax : MinMaxFormat := ⟨"valueTypeFloat64", 8, marshalUint64, unmarshalUint64⟩

def ipv4MinMax : MinMaxFormat := ⟨"valueTypeIPv4", 4, marshalUint32, unmarshalUint32⟩

def timestampIso8601MinMax : MinMaxFormat :=
  ⟨"valueTypeTimestampISO8601", 8, marshalUint64, unmarshalUint64⟩

namespace ColumnHeader

def empty : ColumnHeader := ⟨[], .unknown, 0, 0, ⟨[]⟩, 0, 0, 0, 0⟩

/-- The panic with which `ColumnHeader::marshal` starts. -/
def wrongOrder (minValue maxValue what : String) : Failure :=
  .panic ("BUG: minValue=" ++ minValue ++ " must be smaller than maxValue=" ++ maxValue ++ " for " ++
    what)

/-- The check with which `ColumnHeader::marshal` starts; the message shows floats by their bits. -/
def checkMinMax (ch : ColumnHeader) : Outcome Unit :=
  let minValue := ch.minValue
  let maxValue := ch.maxValue
  let minSigned := asI64 minValue.toNat
  let maxSigned := asI64 maxValue.toNat
  match ch.valueType with
  | .int64 =>
    if minSigned > maxSigned then
      .error (wrongOrder (toString minSigned) (toString maxSigned) "valueTypeInt64")
    else .ok ()
  | .float64 =>
    if float64Gt minValue maxValue then
      .error (wrongOrder (toString minValue) (toString maxValue) "valueTypeFloat64")
    else .ok ()
  | .timestampIso8601 =>
    if minSigned > maxSigned then
      .error (wrongOrder (toString minSigned) (toString maxSigned) "valueTypeTimestampISO8601")
    else .ok ()
  | vt =>
    if minValue > maxValue then
      .error (wrongOrder (toString minValue) (toString maxValue)
        ("valueType=" ++ toString (valueTypeCode vt)))
    else .ok ()

def marshalValues (ch : ColumnHeader) : Bytes :=
  marshalVarUint64 ch.valuesOffset.toNat ++ marshalVarUint64 ch.valuesSize.toNat

def marshalBloomFilters (ch : ColumnHeader) : Bytes :=
  marshalVarUint64 ch.bloomFilterOffset.toNat ++ marshalVarUint64 ch.bloomFilterSize.toNat

def marshalValuesAndBloomFilters (ch : ColumnHeader) : Bytes :=
  ch.marshalValues ++ ch.marshalBloomFilters

/-- The branches of `ColumnHeader::marshal` that store the smallest and the largest value. -/
def marshalMinMax (ch : ColumnHeader) (f : MinMaxFormat) : Bytes :=
  f.marshal ch.minValue.toNat ++ f.marshal ch.maxValue.toNat ++ ch.marshalValuesAndBloomFilters

def marshal (ch : ColumnHeader) : Outcome Bytes := do
  ch.checkMinMax
  let fields ← match ch.valueType with
    | .string => .ok ch.marshalValuesAndBloomFilters
    | .dict => (marshalValuesDict ch.valuesDict).map (· ++ ch.marshalValues)
    | .uint8 => .ok (ch.marshalMinMax uint8MinMax)
    | .uint16 => .ok (ch.marshalMinMax uint16MinMax)
    | .uint32 => .ok (ch.marshalMinMax uint32MinMax)
    | .uint64 => .ok (ch.marshalMinMax uint64MinMax)
    | .int64 => .ok (ch.marshalMinMax int64MinMax)
    | .float64 => .ok (ch.marshalMinMax float64MinMax)
    | .ipv4 => .ok (ch.marshalMinMax ipv4MinMax)
    | .timestampIso8601 => .ok (ch.marshalMinMax timestampIso8601MinMax)
    | .other code => .error (.panic ("BUG: unknown valueType=" ++ toString code))
  return valueTypeCode ch.valueType :: fields

def unmarshalValues (ch : ColumnHeader) : Unmarshal ColumnHeader := do
  let offset ← readU64 "cannot unmarshal valuesOffset"
  let size ← readU64 "cannot unmarshal valuesSize"
  Unmarshal.ensure (size.toNat ≤ maxValuesBlockSize)
    ("too big valuesSize: " ++ toString size ++ " bytes; mustn't exceed " ++
      toString maxValuesBlockSize ++ " bytes")
  return { ch with valuesOffset := offset, valuesSize := size }

def unmarshalBloomFilters (ch : ColumnHeader) : Unmarshal ColumnHeader := do
  let offset ← readU64 "cannot unmarshal bloomFilterOffset"
  let size ← readU64 "cannot unmarshal bloomFilterSize"
  Unmarshal.ensure (size.toNat ≤ maxBloomFilterBlockSize)
    ("too big bloomFilterSize: " ++ toString size ++ " bytes; mustn't exceed " ++
      toString maxBloomFilterBlockSize ++ " bytes")
  return { ch with bloomFilterOffset := offset, bloomFilterSize := size }

/-- `ColumnHeader::unmarshal_values_and_bloom_filters`, with the caller's context of an error. -/
def unmarshalValuesAndBloomFilters (ch : ColumnHeader) (what : String) : Unmarshal ColumnHeader :=
  Unmarshal.mapErr (fun err => "cannot unmarshal values and bloom filters at " ++ what ++
      " for column " ++ toString ch.name ++ ": " ++ err) do
    let ch ← ch.unmarshalValues.mapErr fun err => "cannot unmarshal values: " ++ err
    ch.unmarshalBloomFilters.mapErr fun err => "cannot unmarshal bloom filters: " ++ err

/-- The branches of `ColumnHeader::unmarshal_inplace` for the types with a smallest and a largest
value. -/
def unmarshalMinMax (ch : ColumnHeader) (f : MinMaxFormat) : Unmarshal ColumnHeader := do
  let src ← Unmarshal.take (f.width + f.width) fun n =>
    "cannot unmarshal min/max values at " ++ f.what ++ " from " ++ toString n ++
      " bytes for column " ++ toString ch.name ++ "; need at least " ++
      toString (f.width + f.width) ++ " bytes"
  { ch with
    minValue := .ofNat (f.unmarshal src)
    maxValue := .ofNat (f.unmarshal (src.drop f.width)) }.unmarshalValuesAndBloomFilters f.what

def unmarshalDict (ch : ColumnHeader) : Unmarshal ColumnHeader := do
  let dict ← unmarshalValuesDict.mapErr fun err =>
    "cannot unmarshal dict at valueTypeDict for column " ++ toString ch.name ++ ": " ++ err
  { ch with valuesDict := dict }.unmarshalValues.mapErr fun err =>
    "cannot unmarshal values at valueTypeDict for column " ++ toString ch.name ++ ": " ++ err

def unmarshalByType (ch : ColumnHeader) : Unmarshal ColumnHeader :=
  match ch.valueType with
  | .string => ch.unmarshalValuesAndBloomFilters "valueTypeString"
  | .dict => ch.unmarshalDict
  | .uint8 => ch.unmarshalMinMax uint8MinMax
  | .uint16 => ch.unmarshalMinMax uint16MinMax
  | .uint32 => ch.unmarshalMinMax uint32MinMax
  | .uint64 => ch.unmarshalMinMax uint64MinMax
  | .int64 => ch.unmarshalMinMax int64MinMax
  | .float64 => ch.unmarshalMinMax float64MinMax
  | .ipv4 => ch.unmarshalMinMax ipv4MinMax
  | .timestampIso8601 => ch.unmarshalMinMax timestampIso8601MinMax
  | .other code => Unmarshal.fail ("unexpected valueType=" ++ toString code ++ " for column " ++
      toString ch.name)

def unmarshalInplace (partFormatVersion : Nat) : Unmarshal ColumnHeader := do
  let name ← if partFormatVersion < 1 then readBytes "cannot unmarshal column name" else pure []
  let src ← Unmarshal.take 1 fun _ =>
    "cannot unmarshal valueType from 0 bytes for column " ++ toString name ++
      "; need at least 1 byte"
  { empty with name := name, valueType := valueTypeOfCode (src.getD 0 0) }.unmarshalByType

end ColumnHeader

/-! ### References to column headers -/

structure ColumnHeaderRef where
  columnNameId : UInt64
  offset : UInt64
  deriving DecidableEq, Repr

structure ColumnsHeaderIndex where
  columnHeadersRefs : List ColumnHeaderRef
  constColumnsRefs : List ColumnHeaderRef
  deriving DecidableEq, Repr

def marshalColumnHeadersRefs (refs : List ColumnHeaderRef) : Bytes :=
  marshalVarUint64 refs.length ++ refs.flatMap fun r =>
    marshalVarUint64 r.columnNameId.toNat ++ marshalVarUint64 r.offset.toNat

/-- `unmarshal_column_headers_refs_inplace`, into an empty destination. -/
def unmarshalColumnHeadersRefs : Unmarshal (List ColumnHeaderRef) := do
  let n ← readVarUint64 "cannot unmarshal the number of columnHeaderRef items"
  Unmarshal.times (fun i => do
    let columnNameId ← readU64 ("cannot unmarshal column name ID number " ++ toString i ++
      " out of " ++ toString n)
    let offset ← readU64 ("cannot unmarshal offset number " ++ toString i ++ " out of " ++ toString n)
    return ⟨columnNameId, offset⟩) 0 n

def ColumnsHeaderIndex.marshal (cshIndex : ColumnsHeaderIndex) : Bytes :=
  marshalColumnHeadersRefs cshIndex.columnHeadersRefs ++
    marshalColumnHeadersRefs cshIndex.constColumnsRefs

def ColumnsHeaderIndex.unmarshalInplace : Bytes → Except String ColumnsHeaderIndex :=
  Unmarshal.complete (do
    let columnHeadersRefs ← unmarshalColumnHeadersRefs.mapErr fun err =>
      "cannot unmarshal columnHeadersRefs: " ++ err
    let constColumnsRefs ← unmarshalColumnHeadersRefs.mapErr fun err =>
      "cannot unmarshal constColumnsRefs: " ++ err
    return ⟨columnHeadersRefs, constColumnsRefs⟩) fun n =>
      "unexpected non-empty tail left after unmarshaling columnsHeaderIndex; len(tail)=" ++
        toString n

structure ColumnsHeader where
  columnHeaders : List ColumnHeader
  constColumns : List Field
  deriving DecidableEq, Repr

def Field.marshal (f : Field) (marshalFieldName : Bool) : Bytes :=
  (if marshalFieldName then marshalBytes f.name else []) ++ marshalBytes f.value

def Field.unmarshalInplace (unmarshalFieldName : Bool) : Unmarshal Field := do
  let name ← if unmarshalFieldName then readBytes "cannot unmarshal field name" else pure []
  let value ← readBytes "cannot unmarshal field value"
  return ⟨name, value⟩

/-- The two loops of `ColumnsHeader::marshal`: each item is appended to `dst`, and referenced by the
identifier of its name and its offset. -/
def marshalWithRefs {α : Type} (name : α → Bytes) (marshal : α → Outcome Bytes) :
    List α → Bytes → ColumnNameIDGenerator →
      Outcome (Bytes × List ColumnHeaderRef × ColumnNameIDGenerator)
  | [], dst, g => .ok (dst, [], g)
  | a :: as, dst, g => do
    let (columnNameId, g) := g.getColumnNameId (name a)
    let offset := dst.length
    let data ← marshal a
    let (dst, refs, g) ← marshalWithRefs name marshal as (dst ++ data) g
    return (dst, ⟨.ofNat columnNameId, .ofNat offset⟩ :: refs, g)

/-- `ColumnsHeader::marshal`, into an empty destination. -/
def ColumnsHeader.marshal (csh : ColumnsHeader) (g : ColumnNameIDGenerator) :
    Outcome (Bytes × ColumnsHeaderIndex × ColumnNameIDGenerator) := do
  let dst := marshalVarUint64 csh.columnHeaders.length
  let (dst, columnHeadersRefs, g) ←
    marshalWithRefs ColumnHeader.name ColumnHeader.marshal csh.columnHeaders dst g
  let dst := dst ++ marshalVarUint64 csh.constColumns.length
  let (dst, constColumnsRefs, g) ←
    marshalWithRefs Field.name (fun cc => .ok (cc.marshal false)) csh.constColumns dst g
  return (dst, ⟨columnHeadersRefs, constColumnsRefs⟩, g)

/-- `ColumnsHeader::unmarshal_inplace`; the names in its messages are shown as bytes. -/
def ColumnsHeader.unmarshalInplace (partFormatVersion : Nat) : Bytes → Except String ColumnsHeader :=
  Unmarshal.complete (do
    let chsLen ← readVarUint64 "cannot unmarshal columnHeaders len"
    Unmarshal.ensure (chsLen ≤ 1000000) ("too big number of columnHeaders: " ++ toString chsLen)
    let columnHeaders ← Unmarshal.times (fun i =>
      (ColumnHeader.unmarshalInplace partFormatVersion).mapErr fun err =>
        "cannot unmarshal columnHeader " ++ toString i ++ " out of " ++ toString chsLen ++
          " columnHeaders: " ++ err) 0 chsLen
    Unmarshal.ensure (chsLen ≤ maxColumnsPerBlock) ("too many column headers: " ++ toString chsLen ++
      "; it mustn't exceed " ++ toString maxColumnsPerBlock ++ "; columns: " ++
      toString (columnHeaders.map ColumnHeader.name))
    let ccsLen ← readVarUint64 "cannot unmarshal constColumns len"
    Unmarshal.ensure (ccsLen ≤ 1000000) ("too big number of constColumns: " ++ toString ccsLen)
    let constColumns ← Unmarshal.times (fun i =>
      (Field.unmarshalInplace (partFormatVersion < 1)).mapErr fun err =>
        "cannot unmarshal constColumn " ++ toString i ++ " out of " ++ toString ccsLen ++
          " columns: " ++ err) 0 ccsLen
    Unmarshal.ensure (ccsLen + columnHeaders.length ≤ maxColumnsPerBlock) ("too many columns: " ++
      toString (ccsLen + columnHeaders.length) ++ "; mustn't exceed " ++
      toString maxColumnsPerBlock ++ "; columns: " ++
      toString (columnHeaders.map ColumnHeader.name ++ constColumns.map Field.name))
    return ⟨columnHeaders, constColumns⟩) fun n =>
      "unexpected non-empty tail left after unmarshaling columnsHeader: len(tail)=" ++ toString n

def setNames {α : Type} (what : String) (setName : α → Bytes → α) (columnNames : List Bytes) :
    List ColumnHeaderRef → List α → Except String (List α)
  | r :: refs, a :: as =>
    match columnNames[r.columnNameId.toNat]? with
    | none => .error ("unexpected columnNameID=" ++ toString r.columnNameId ++ " in " ++ what ++
        "; len(columnNames)=" ++ toString columnNames.length ++ "; columnNames=" ++
        toString columnNames)
    | some name => do
      let as ← setNames what setName columnNames refs as
      return setName a name :: as
  | _, _ => .ok []

def ColumnsHeader.setColumnNames (csh : ColumnsHeader) (cshIndex : ColumnsHeaderIndex)
    (columnNames : List Bytes) : Except String ColumnsHeader :=
  if cshIndex.columnHeadersRefs.length ≠ csh.columnHeaders.length then
    .error ("unexpected number of column headers; got " ++
      toString cshIndex.columnHeadersRefs.length ++ "; want " ++ toString csh.columnHeaders.length)
  else do
    let columnHeaders ← setNames "columnHeadersRef" (fun ch name => { ch with name := name })
      columnNames cshIndex.columnHeadersRefs csh.columnHeaders
    if cshIndex.constColumnsRefs.length ≠ csh.constColumns.length then
      .error ("unexpected number of const columns; got " ++
        toString cshIndex.constColumnsRefs.length ++ "; want " ++ toString csh.constColumns.length)
    else do
      let constColumns ← setNames "constColumnsRefs" (fun cc name => { cc with name := name })
        columnNames cshIndex.constColumnsRefs csh.constColumns
      return ⟨columnHeaders, constColumns⟩

/-! ### Index block headers -/

structure IndexBlockHeader where
  streamId : StreamID
  minTimestamp : Int
  maxTimestamp : Int
  indexBlockOffset : UInt64
  indexBlockSize : UInt64
  deriving DecidableEq, Repr

def IndexBlockHeader.marshal (ih : IndexBlockHeader) : Bytes :=
  ih.streamId.marshal ++ (marshalUint64 (asU64 ih.minTimestamp) ++
    (marshalUint64 (asU64 ih.maxTimestamp) ++ (marshalUint64 ih.indexBlockOffset.toNat ++
      marshalUint64 ih.indexBlockSize.toNat)))

def IndexBlockHeader.unmarshal : Unmarshal IndexBlockHeader := do
  let streamId ← StreamID.unmarshal.mapErr fun err => "cannot unmarshal streamID: " ++ err
  let src ← Unmarshal.take 32 fun n =>
    "cannot unmarshal indexBlockHeader from " ++ toString n ++ " bytes; need at least 32 bytes"
  return {
    streamId := streamId
    minTimestamp := asI64 (unmarshalUint64 src)
    maxTimestamp := asI64 (unmarshalUint64 (src.drop 8))
    indexBlockOffset := .ofNat (unmarshalUint64 (src.drop 16))
    indexBlockSize := .ofNat (unmarshalUint64 (src.drop 24)) }

def validateIndexBlockHeaders : List IndexBlockHeader → Except String Unit
  | prev :: curr :: ihs =>
    if curr.streamId.less prev.streamId then
      .error ("unexpected indexBlockHeader with smaller streamID=" ++ curr.streamId.display ++
        " after bigger streamID=" ++ prev.streamId.display)
    else validateIndexBlockHeaders (curr :: ihs)
  | _ => .ok ()

/-- `unmarshal_index_block_headers`, into an empty destination. -/
def unmarshalIndexBlockHeaders (src : Bytes) : Except String (List IndexBlockHeader) := do
  let ihs ← Unmarshal.untilEmpty (fun i => IndexBlockHeader.unmarshal.mapErr fun err =>
    "cannot unmarshal indexBlockHeader " ++ toString i ++ ": " ++ err) src.length 0 src
  validateIndexBlockHeaders ihs
  return ihs

end EsLogs
