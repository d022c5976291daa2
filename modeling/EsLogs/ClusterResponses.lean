import EsLogs.Decoding
import EsLogs.NumberText
import EsLogs.Utf8
import EsLogs.VarUint

/-!
The decoders of what a storage node sends to the frontend of a cluster: data blocks, lists of values with
their hits followed by query stats, and exported states of the `count_uniq` and `values` functions. Every
allocation whose size comes from the received bytes is a request here; the texts of errors are not.
-/

namespace EsLogs.ClusterResponses

open Decoding Encoding NumberText

/-! Sizes in memory of the elements of the collections, on 64-bit machines. -/

def sizeOfVec : Nat := 24

/-- A name and a vector of values. -/
def sizeOfBlockColumn : Nat := 48

/-- A value and a `u64`. -/
def sizeOfValueWithHits : Nat := 32

def sizeOfU64 : Nat := 8

/-- Four hash sets. -/
def sizeOfStatsCountUniqSet : Nat := 192

/-- `SIZE_OF_STRING`, the size of a string that the accounting of the state uses. -/
def stateSizeOfString : Int := 16

def stateSizeOfSet : Int := 32

section Readers

variable (limit : Nat)

/-- How the decoders use `unmarshal_var_uint64`; the message may tell the number of bytes left. -/
def readVarUint64 (msg : Nat → String) : Decoder Nat := do
  let (u, n) ← look unmarshalVarUint64
  if n ≤ 0 then
    let len ← look List.length
    fail (msg len)
  else
    advance n.toNat
    return u

/-- How the decoders use `unmarshal_bytes`, with a copy of the bytes. -/
def readBytes (msg : Nat → String) : Decoder Bytes := do
  let (v, n) ← look unmarshalBytes
  match v with
  | some v =>
    if 0 < n then
      alloc limit v.length
      advance n.toNat
      return v
    else
      let len ← look List.length
      fail (msg len)
  | none =>
    let len ← look List.length
    fail (msg len)

/-- The same where the size is looked at first, and the bytes are unwrapped after it. -/
def readBytesUnwrap (msg : String) : Decoder Bytes := do
  let (v, n) ← look unmarshalBytes
  if n ≤ 0 then fail msg
  else
    match v with
    | none => crash "called `Option::unwrap()` on a `None` value"
    | some v =>
      alloc limit v.length
      advance n.toNat
      return v

def takeUint64 : Decoder Nat := do
  let len ← look List.length
  if len < 8 then crash "range end index 8 out of range for slice"
  else
    let u ← look unmarshalUint64
    advance 8
    return u

end Readers

/-! ## Data blocks -/

structure BlockColumn where
  name : Bytes
  values : List Bytes
  deriving DecidableEq

structure DataBlock where
  columns : List BlockColumn
  deriving DecidableEq

def DataBlock.rowsCount (db : DataBlock) : Nat :=
  match db.columns with
  | [] => 0
  | c :: _ => c.values.length

def DataBlock.getColumnByName (db : DataBlock) (name : Bytes) : Option BlockColumn :=
  db.columns.find? fun c => c.name = name

section DataBlock

-- the name of a column as `{:?}` shows it after `String::from_utf8_lossy`
variable (limit : Nat) (debugName : Bytes → String)

/-- The values of a column, after the capacity for them. -/
def unmarshalValues (rowsCount i : Nat) (name : Bytes) (valuesType : UInt8) : Decoder (List Bytes) :=
  if valuesType = 0 then do
    let v ← readBytes limit fun len =>
      s!"cannot unmarshal const value for column #{i} with name {debugName name} from len(src)={len}"
    times (fun _ => do
      alloc limit v.length
      return v) 0 rowsCount
  else if valuesType = 1 then
    times (fun j => readBytes limit fun len =>
      s!"cannot unmarshal value #{j} out of {rowsCount} values for column #{i} with name {debugName name} from len(src)={len}")
      0 rowsCount
  else fail s!"unexpected valuesType={valuesType}"

def unmarshalColumn (rowsCount i : Nat) : Decoder BlockColumn := do
  let name ← readBytes limit fun len => s!"cannot unmarshal column name from len(src)={len}"
  let first ← look List.head?
  match first with
  | none => fail s!"missing value type for column {debugName name}"
  | some valuesType =>
    advance 1
    alloc limit (rowsCount * sizeOfVec)
    let values ← unmarshalValues limit debugName rowsCount i name valuesType
    return ⟨name, values⟩

/-- `DataBlock::unmarshal_inplace`; the callers go on after the bytes it has consumed. -/
def unmarshalDataBlock : Decoder DataBlock := do
  let rowsCount ← readVarUint64 fun len => s!"cannot unmarshal the number of rows from len(src)={len}"
  let columnsLen ← readVarUint64 fun len =>
    s!"cannot unmarshal the number of columns from len(src)={len}"
  alloc limit (columnsLen * sizeOfBlockColumn)
  let columns ← times (unmarshalColumn limit debugName rowsCount) 0 columnsLen
  return ⟨columns⟩

end DataBlock

/-! ## Values with hits -/

structure ValueWithHits where
  value : Bytes
  hits : Nat
  deriving DecidableEq

/-- The fields of query stats in the order in which they are looked up. -/
def queryStatsFields : List String :=
  ["BytesReadColumnsHeaders", "BytesReadColumnsHeaderIndexes", "BytesReadBloomFilters",
    "BytesReadValues", "BytesReadTimestamps", "BytesReadBlockHeaders", "BlocksProcessed",
    "RowsProcessed", "RowsFound", "ValuesRead", "TimestampsRead", "BytesProcessedUncompressedValues"]

section ValuesWithHits

variable (limit : Nat) (debugName : Bytes → String)

/-- `get_uint64_entry` of `update_from_data_block`: `c.values[0]` as a number, `none` without such a
column. Bytes that are not UTF-8 count as an empty text. -/
def getUint64Entry (db : DataBlock) (name : String) : Decoder (Option Nat) :=
  match db.getColumnByName (ascii name) with
  | none => pure none
  | some c =>
    match c.values with
    | [] => crash "index out of bounds: the len is 0 but the index is 0"
    | v :: _ =>
      pure (some ((tryParseUint64Bytes (if Utf8.isValid v then v else [])).getD 0))

/-- `QueryStats::update_from_data_block`: what is added to the counters. All of them are looked up, and
the first one that is missing makes the error. -/
def updateFromDataBlock (db : DataBlock) : Decoder (List Nat) := do
  if db.rowsCount ≠ 1 then
    fail s!"unexpected number of rows in the query stats block; got {db.rowsCount}; want 1"
  else
    let entries ← times (fun i => getUint64Entry db (queryStatsFields.getD i "")) 0 queryStatsFields.length
    match (queryStatsFields.zip entries).find? fun e => e.2.isNone with
    | some (name, _) =>
      fail s!"cannot find field {repr name} in query stats received from the remote storage"
    | none => return entries.map fun e => e.getD 0

def unmarshalQueryStats : Decoder (List Nat) := do
  let db ← mapErr (fun err => s!"cannot unmarshal data block: {err}") (unmarshalDataBlock limit debugName)
  mapErr (fun err => s!"cannot read query stats: {err}") (updateFromDataBlock db)

def unmarshalValueWithHits : Decoder ValueWithHits := do
  let value ← readBytes limit fun _ => "cannot unmarshal value"
  let len ← look List.length
  if len < 8 then fail "cannot unmarshal hits"
  else
    let hits ← takeUint64
    return ⟨value, hits⟩

/-- `unmarshal_values_with_hits`, with the query stats it adds to the ones of the query. -/
def unmarshalValuesWithHits : Decoder (List ValueWithHits × List Nat) := do
  let len ← look List.length
  if len < 8 then fail "missing length of ValueWithHits entries"
  else
    let vhsLen ← takeUint64
    alloc limit (vhsLen * sizeOfValueWithHits)
    let vhs ← times (fun i =>
      mapErr (fun err => s!"cannot unmarshal ValueWithHits #{i} out of {vhsLen}: {err}")
        (unmarshalValueWithHits limit)) 0 vhsLen
    let qs ← mapErr (fun err => s!"cannot unmarshal query stats: {err}") (unmarshalQueryStats limit debugName)
    let tail ← look List.length
    if tail ≠ 0 then fail s!"unexpected tail left after query stats; len(tail)={tail}"
    else return (vhs, qs)

end ValuesWithHits

/-! ## Exported states -/

section States

variable (limit : Nat) (H : HashTable)

/-- The loop of `unmarshal_uint64_set`, `none` when it is told to stop. -/
def uint64Entries : Nat → Decoder (Option (List Nat))
  | 0 => pure (some [])
  | n + 1 => do
    let u ← takeUint64
    let stop ← needStop
    if stop then
      clear
      return none
    else
      let us ← uint64Entries n
      return us.map (u :: ·)

/-- `unmarshal_uint64_set`: the set, `none` if the destination is left alone, and the size of its
state. -/
def unmarshalUint64Set : Decoder (Option (List Nat) × Int) := do
  let stop ← needStop
  if stop then
    clear
    return (none, 0)
  else
    let entriesLen ← readVarUint64 fun _ => "cannot unmarshal the number of uint64 entries"
    let need ← u64 (8 * entriesLen)
    let len ← look List.length
    if len < need then
      fail s!"cannot unmarshal {entriesLen} uint64 values from {len} bytes; need {need} bytes"
    else
      H.withCapacity limit entriesLen sizeOfU64
      let us ← uint64Entries entriesLen
      match us with
      | none => return (none, 0)
      | some us =>
        let size ← i64 (8 * entriesLen)
        return (some us.dedup, size)

/-- The loop of `unmarshal_string_set`, with the size of the state so far. -/
def stringEntries : Nat → Int → Decoder (Option (List Bytes) × Int)
  | 0, size => pure (some [], size)
  | n + 1, size => do
    let v ← readBytesUnwrap limit "cannot unmarshal string entry"
    let size ← i64 (size + (stateSizeOfString + v.length))
    let stop ← needStop
    if stop then
      clear
      return (none, 0)
    else
      let (vs, size) ← stringEntries n size
      return (vs.map (v :: ·), size)

def unmarshalStringSet : Decoder (Option (List Bytes) × Int) := do
  let stop ← needStop
  if stop then
    clear
    return (none, 0)
  else
    let entriesLen ← readVarUint64 fun _ => "cannot unmarshal the number of string entries"
    H.withCapacity limit entriesLen sizeOfVec
    let (vs, size) ← stringEntries limit entriesLen 0
    return (vs.map List.dedup, size)

structure StatsCountUniqSet where
  timestamps : List Nat
  u64 : List Nat
  negative64 : List Nat
  strings : List Bytes
  deriving DecidableEq

def importSet : Decoder (StatsCountUniqSet × Int) := do
  let (timestamps, s1) ← mapErr (fun e => s!"cannot unmarshal timestamps: {e}") (unmarshalUint64Set limit H)
  let (u, s2) ← mapErr (fun e => s!"cannot unmarshal uint64 values: {e}") (unmarshalUint64Set limit H)
  let total ← i64 (s1 + s2)
  let (negative, s3) ←
    mapErr (fun e => s!"cannot unmarshal negative64 values: {e}") (unmarshalUint64Set limit H)
  let total ← i64 (total + s3)
  let (strings, s4) ← mapErr (fun e => s!"cannot unmarshal string values: {e}") (unmarshalStringSet limit H)
  let total ← i64 (total + s4)
  return (⟨timestamps.getD [], u.getD [], negative.getD [], strings.getD []⟩, total)

/-- The loop over the shards, with the size of the state so far. -/
def importSets : Nat → Nat → Int → Decoder (List StatsCountUniqSet × Int)
  | _, 0, size => pure ([], size)
  | i, k + 1, size => do
    let (set, s) ← mapErr (fun e => s!"cannot read state for shard[{i}]: {e}") (importSet limit H)
    let size ← i64 (size + s)
    let (sets, size) ← importSets (i + 1) k size
    return (set :: sets, size)

/-- `StatsCountUniqProcessor::import_state` up to `import_shards`, which moves the values of the decoded
sets into the sets of the processor. -/
def importCountUniq : Decoder (List StatsCountUniqSet × Int) := do
  let shardsLen ← readVarUint64 fun _ => "cannot read the number of shards"
  if shardsLen < 1 then fail "the number of shards must be at least 1"
  else if shardsLen = 1 then
    let (set, size) ← mapErr (fun e => s!"cannot read uniqValues state: {e}") (importSet limit H)
    let tail ← look List.length
    if tail ≠ 0 then fail s!"unexpected tail left after importing uniqValues state; len(tail)={tail}"
    else return ([set], size)
  else
    alloc limit (shardsLen * sizeOfStatsCountUniqSet)
    let size ← i64 (stateSizeOfSet * shardsLen)
    let (sets, size) ← importSets limit H 0 shardsLen size
    let tail ← look List.length
    if tail ≠ 0 then fail s!"unexpected tail left after importing shards' state; len(tail)={tail}"
    else return (sets, size)

def valuesEntries : Nat → Int → Decoder (List Bytes × Int)
  | 0, size => pure ([], size)
  | n + 1, size => do
    let v ← readBytesUnwrap limit "cannot unmarshal value"
    let size ← i64 (size + v.length)
    let (vs, size) ← valuesEntries n size
    return (v :: vs, size)

def importValues : Decoder (List Bytes × Int) := do
  let valuesLen ← readVarUint64 fun _ => "cannot unmarshal valuesLen"
  alloc limit (valuesLen * sizeOfVec)
  let size ← i64 (stateSizeOfString * valuesLen)
  let (values, size) ← valuesEntries limit valuesLen size
  let tail ← look List.length
  if tail ≠ 0 then fail s!"unexpected non-empty tail left; len(tail)={tail}"
  else return (values, size)

end States

end EsLogs.ClusterResponses
