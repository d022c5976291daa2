import EsLogs.BlockData
import EsLogs.Iso8601Text
import EsLogs.KWayMerge
import EsLogs.Utf8

/-!
The merge of block streams (`block_stream_merger.rs`) with the drop filter of deletions
(`rows.rs`, `block_search.rs`). The merger holds the pending data of the current stream either as one
packed block or as unpacked rows, and decides for each next block whether to pass it on, to flush the
pending data first, or to merge the two.
-/

namespace EsLogs

open NumberText CivilDate

/-! ### The drop filter -/

/-- A drop filter: the search options of a deletion, the fields its row filter reads, and the
`_stream` text the index holds for a stream. -/
structure DropFilter where
  tenantIds : List TenantID
  streamIds : List StreamID
  minTimestamp : Int
  maxTimestamp : Int
  matchRow : List Field → Bool
  neededFields : Bytes → Bool
  streamString : StreamID → Bytes

def DropFilter.matchStreamId (df : DropFilter) (sid : StreamID) : Bool :=
  if ¬df.tenantIds.isEmpty then df.tenantIds.contains sid.tenantId else df.streamIds.contains sid

def DropFilter.matchTimeRange (df : DropFilter) (minTimestamp maxTimestamp : Int) : Bool :=
  minTimestamp ≤ df.maxTimestamp && maxTimestamp ≥ df.minTimestamp

/-- `add_field_if_needed`, for one field. -/
def DropFilter.fieldIfNeeded (df : DropFilter) (name value : Bytes) : List Field :=
  let name := getCanonicalColumnName name
  if df.neededFields name then [⟨name, value⟩] else []

/-- The fields that `skip_rows_by_drop_filter` shows to the row filter. -/
def DropFilter.tmpFields (df : DropFilter) (stream streamId : Bytes) (r : Row) : List Field :=
  df.fieldIfNeeded (ascii "_stream") stream ++ df.fieldIfNeeded (ascii "_stream_id") streamId ++
    (if df.neededFields (ascii "_time") then
      [⟨ascii "_time", marshalTimestampRfc3339NanoString r.timestamp⟩]
    else []) ++
    r.fields.flatMap fun f => df.fieldIfNeeded f.name f.value

/-- A row is dropped when it is in the time range and the row filter matches it. -/
def DropFilter.dropsRow (df : DropFilter) (stream streamId : Bytes) (r : Row) : Bool :=
  !(r.timestamp < df.minTimestamp || r.timestamp > df.maxTimestamp) &&
    df.matchRow (df.tmpFields stream streamId r)

/-- `Rows::skip_rows_by_drop_filter`, over the rows from `offset` on: the first row leaves an empty row
behind, which keeps the smallest timestamp. -/
def DropFilter.skipRowsByDropFilter (df : DropFilter) (stream streamId : Bytes) :
    List Row → List Row
  | [] => []
  | r :: rows =>
    (if df.dropsRow stream streamId r then ⟨r.timestamp, []⟩ else r) ::
      rows.filter fun s => !df.dropsRow stream streamId s

/-! ### The merger -/

structure BlockStreamMerger where
  streamId : StreamID
  streamBuf : Bytes
  streamIdBuf : Bytes
  bd : BlockData
  rows : List Row
  uncompressedRowsSizeBytes : Nat
  bsw : BlockStreamWriter

def BlockStreamMerger.init : BlockStreamMerger :=
  ⟨default, [], [], BlockData.empty, [], 0, BlockStreamWriter.init⟩

/-- `heap_less`, on the current blocks of two readers. -/
def BlockData.less (a b : BlockData) : Bool :=
  if a.streamId ≠ b.streamId then a.streamId.less b.streamId
  else a.timestampsData.minTimestamp < b.timestampsData.minTimestamp

/-- What a merge is done with: the codec, the paths of the readers, and the drop filter. -/
structure MergeEnv where
  codec : BlockCodec
  readersPaths : String
  dropFilter : Option DropFilter

namespace BlockStreamMerger

variable (env : MergeEnv)

def resetRows (m : BlockStreamMerger) : BlockStreamMerger :=
  { m with bd := BlockData.empty, rows := [], uncompressedRowsSizeBytes := 0 }

/-- The source also panics when its arena `a` or `rows_tmp` is not empty. Neither is a field here: the arena
holds the bytes of `rows`, and `rows_tmp` is local to the merge of two sets of rows. -/
def assertNoRows (m : BlockStreamMerger) : Outcome Unit := do
  if m.bd.rowsCount > 0 then
    throw (.panic ("BUG: bsm.bd must be empty; got " ++ toString m.bd.rowsCount ++ " rows"))
  if ¬m.rows.isEmpty then
    throw (.panic ("BUG: bsm.rows must be empty; got " ++ toString m.rows.length ++ " rows"))
  if m.uncompressedRowsSizeBytes ≠ 0 then
    throw (.panic ("BUG: bsm.uncompressedRowsSizeBytes must be 0; got " ++
      toString m.uncompressedRowsSizeBytes))

def needDropRows (sid : StreamID) (minTimestamp maxTimestamp : Int) : Bool :=
  match env.dropFilter with
  | none => false
  | some df => df.matchStreamId sid && df.matchTimeRange minTimestamp maxTimestamp

def setStreamId (m : BlockStreamMerger) (sid : StreamID) : BlockStreamMerger :=
  let m := { m with streamId := sid }
  match env.dropFilter with
  | none => m
  | some df =>
    if needDropRows env sid (-2 ^ 63) (2 ^ 63 - 1) then
      { m with streamBuf := df.streamString sid, streamIdBuf := sid.marshalString }
    else m

def mustFlushRows (m : BlockStreamMerger) : Outcome BlockStreamMerger := do
  let bsw ←
    if m.rows.isEmpty then m.bsw.mustWriteBlockData m.bd
    else if hasNonEmptyRows m.rows then m.bsw.mustWriteRows env.codec m.streamId m.rows
    else pure m.bsw
  return { m.resetRows with bsw := bsw }

/-- `BlockStreamMerger::must_unmarshal_rows`: appends the rows of `bd` to the pending ones. -/
def mustUnmarshalRows (m : BlockStreamMerger) (bd : BlockData) : Outcome BlockStreamMerger := do
  let rows ← match env.codec.unmarshalRows bd with
    | .ok rows => pure rows
    | .error err =>
      throw (.panic ("FATAL: cannot merge " ++ env.readersPaths ++
        ": cannot unmarshal log entries from blockData: " ++ err))
  let td := bd.timestampsData
  let rows ← match env.dropFilter with
    | none => pure rows
    | some df =>
      if needDropRows env bd.streamId td.minTimestamp td.maxTimestamp then
        if ¬Utf8.isValid m.streamBuf then
          throw (.panic "BUG: _stream value must be valid UTF-8")
        else if ¬Utf8.isValid m.streamIdBuf then
          throw (.panic "BUG: _stream_id value must be valid UTF-8")
        else pure (df.skipRowsByDropFilter m.streamBuf m.streamIdBuf rows)
      else pure rows
  return { m with
    rows := m.rows ++ rows
    uncompressedRowsSizeBytes :=
      m.uncompressedRowsSizeBytes + EsLogs.uncompressedRowsSizeBytes rows }

/-- The first part of `must_merge_rows`: a pending packed block is unpacked. -/
def unpackPending (m : BlockStreamMerger) : Outcome BlockStreamMerger :=
  if m.bd.rowsCount > 0 then do
    let m ← mustUnmarshalRows env m m.bd
    pure { m with bd := BlockData.empty }
  else pure m

def mustMergeRows (m : BlockStreamMerger) (bd : BlockData) : Outcome BlockStreamMerger := do
  let m ← unpackPending env m
  let rowsLen := m.rows.length
  let m ← mustUnmarshalRows env m bd
  let m := { m with rows := mergeRows (m.rows.take rowsLen) (m.rows.drop rowsLen) }
  if m.uncompressedRowsSizeBytes ≥ maxUncompressedBlockSize then mustFlushRows env m else pure m

def mustWriteBlockData (m : BlockStreamMerger) (bd : BlockData) : Outcome BlockStreamMerger := do
  assertNoRows m
  let td := bd.timestampsData
  if needDropRows env bd.streamId td.minTimestamp td.maxTimestamp then mustMergeRows env m bd
  else if bd.uncompressedSizeBytes ≥ maxUncompressedBlockSize then do
    let bsw ← m.bsw.mustWriteBlockData bd
    pure { m with bsw := bsw }
  else pure { m with bd := bd }

/-- The last check of `check_next_block`, against the pending block or the pending rows. -/
def checkMinTimestamp (nextMinTimestamp minTimestamp : Int) (what : String) : Outcome Unit :=
  if nextMinTimestamp < minTimestamp then
    throw (.panic ("FATAL: cannot merge " ++ env.readersPaths ++
      ": the next block's minTimestamp=" ++ toString nextMinTimestamp ++
      " is smaller than the minTimestamp=" ++ toString minTimestamp ++ what))
  else pure ()

def checkNextBlock (m : BlockStreamMerger) (bd : BlockData) : Outcome Unit :=
  if ¬m.rows.isEmpty ∧ m.bd.rowsCount > 0 then
    throw (.panic ("BUG: bsm.bd must be empty when bsm.rows isn't empty! got " ++
      toString m.bd.rowsCount ++ " log entries in bsm.bd"))
  else if bd.streamId.less m.streamId then
    throw (.panic ("FATAL: cannot merge " ++ env.readersPaths ++ ": the streamID=" ++
      bd.streamId.display ++ " for the next block is smaller than the streamID=" ++
      m.streamId.display ++ " for the current block"))
  else if bd.streamId ≠ m.streamId then pure ()
  else if bd.rowsCount = 0 then pure ()
  else
    let nextMinTimestamp := bd.timestampsData.minTimestamp
    match m.rows with
    | [] =>
      if m.bd.rowsCount = 0 then pure ()
      else
        checkMinTimestamp env nextMinTimestamp m.bd.timestampsData.minTimestamp
          " for the current block"
    | r :: _ =>
      checkMinTimestamp env nextMinTimestamp r.timestamp " for log entries for the current block"

def mustWriteBlock (m : BlockStreamMerger) (bd : BlockData) : Outcome BlockStreamMerger := do
  checkNextBlock env m bd
  if bd.streamId ≠ m.streamId then do
    let m ← mustFlushRows env m
    mustWriteBlockData env (setStreamId env m bd.streamId) bd
  else if m.uncompressedRowsSizeBytes = 0 ∧ m.bd.rowsCount = 0 ∧
      bd.uncompressedSizeBytes ≥ maxUncompressedBlockSize then
    mustWriteBlockData env m bd
  else if m.uncompressedRowsSizeBytes + m.bd.uncompressedSizeBytes + bd.uncompressedSizeBytes ≥
      2 * maxUncompressedBlockSize then do
    let m ← mustFlushRows env m
    mustWriteBlockData env m bd
  else mustMergeRows env m bd

end BlockStreamMerger

/-- The main loop of `must_merge_block_streams`, not stopped from outside, and the final flush: the
blocks written. A reader is the list of the blocks it yields. -/
def mustMergeBlockStreams (env : MergeEnv) (bsrs : List (List BlockData)) :
    Outcome (List BlockData) := do
  let m ← KWayMerge.mergeLoop BlockData.less (BlockStreamMerger.mustWriteBlock env)
    bsrs.flatten.length bsrs (KWayMerge.startHeap BlockData.less bsrs) BlockStreamMerger.init
  let m ← BlockStreamMerger.mustFlushRows env m
  return m.bsw.blocks

end EsLogs
