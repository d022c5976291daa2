import EsLogs.HitsMap
import EsLogs.VarUint

/-!
The pipe `uniq by (...) [filter ...] [with hits] [limit N]` (`pipe_uniq.rs`). Each worker counts the rows of
its blocks in a map of its own; at the end the maps are merged, cut down to the limit and written out as
one block. A worker whose map has more entries than the limit sets the stop flag of the query at its next
block instead of taking it, and a flush after a stop writes nothing.

A hash map is gone through in an order of its own, so whatever is taken from a map comes in an order that
is given from outside.
-/

namespace EsLogs.Uniq

open NumberText ColumnValues Encoding Hits

/-- `PipeUniq`; a limit of zero means no limit. The parser asks for a field and allows a filter for a
single field only. -/
structure PipeUniq where
  byFields : List Bytes
  filter : Bytes
  hitsFieldName : Bytes
  limit : Nat
  deriving DecidableEq, Repr

def PipeUniq.needHits (p : PipeUniq) : Bool := !p.hitsFieldName.isEmpty

/-! ### Counting the rows of a block -/

def unmarshalUint8 (v : Bytes) : Nat := beNat (v.take 1)

def uintReader : ValueType → Option (Bytes → Nat)
  | .uint8 => some unmarshalUint8
  | .uint16 => some unmarshalUint16
  | .uint32 => some unmarshalUint32
  | .uint64 => some unmarshalUint64
  | _ => none

/-- The loop of `update_single_column` over texts; without hits a value is skipped if it is the one before. -/
def genericLoop (needHits : Bool) : Option Bytes → List Bytes → HitsMap → HitsMap
  | _, [], m => m
  | prev, v :: values, m =>
    genericLoop needHits (some v) values
      (if needHits || decide (prev ≠ some v) then m.updateStateGeneric v 1 else m)

def updateSingleColumn (c : Float64Codec) (needHits : Bool) (m : HitsMap) (br : BlockResult)
    (columnName : Bytes) : Outcome HitsMap := do
  let r := (br.getColumnByName columnName).2
  let br := (br.getColumnByName columnName).1
  let column ← br.col r
  match column.content with
  | .const v => return m.updateStateGeneric v br.rowsLen
  | .time => do
    let values ← br.columnGetValues c r
    return genericLoop needHits none values m
  | .encoded vt _ valuesEncoded =>
    match uintReader vt with
    | some read => return valuesEncoded.foldl (fun m v => m.updateStateUint64 (read v) 1) m
    | none =>
      if vt = .int64 then
        return valuesEncoded.foldl (fun m v => m.updateStateInt64 (unmarshalInt64 v) 1) m
      else do
        let values ← br.columnGetValues c r
        return genericLoop needHits none values m

def columnValues (c : Float64Codec) : List Bytes → BlockResult → Outcome (List (List Bytes))
  | [], _ => .ok []
  | f :: fields, br => do
    let values ← (br.getColumnByName f).1.columnGetValues c (br.getColumnByName f).2
    let rest ← columnValues c fields (br.getColumnByName f).1
    return values :: rest

/-- The values of a row; every column has one for each row. -/
def rowAt (colValues : List (List Bytes)) (i : Nat) : List Bytes := colValues.map fun vals => vals.getD i []

/-- Whether a row may be skipped: it has the values of the row before, and hits are not asked for. -/
def seen (needHits : Bool) (prev : Option (List Bytes)) (row : List Bytes) : Bool :=
  match prev with
  | none => false
  | some prev => (prev.zip row).all fun v => !needHits && decide (v.1 = v.2)

/-- The loop of `write_block_into` over the rows. -/
def rowsLoop (needHits : Bool) : Option (List Bytes) → List (List Bytes) → HitsMap → HitsMap
  | _, [], m => m
  | prev, row :: rows, m =>
    rowsLoop needHits (some row) rows
      (if seen needHits prev row then m else m.updateStateString (row.flatMap marshalBytes) 1)

def PipeUniq.writeBlockInto (p : PipeUniq) (c : Float64Codec) (m : HitsMap) (br : BlockResult) :
    Outcome (HitsMap × Bool) :=
  if p.limit > 0 ∧ m.entriesCount > p.limit then .ok (m, false)
  else
    match p.byFields with
    | [columnName] => do
      let m ← updateSingleColumn c p.needHits m br columnName
      return (m, true)
    | byFields => do
      let colValues ← columnValues c byFields br
      return (rowsLoop p.needHits none ((List.range br.rowsLen).map (rowAt colValues)) m, true)

/-! ### The processor -/

/-- `PipeUniqProcessor`: the maps of the workers, and the stop flag of the query. -/
structure Processor where
  shards : List HitsMap
  stop : Bool

def PipeUniq.newPipeProcessor (p : PipeUniq) (concurrency : Nat) (stop : Bool) : Processor :=
  ⟨List.replicate (max concurrency 1) (HitsMap.new p.filter), stop⟩

def PipeUniq.writeBlock (p : PipeUniq) (c : Float64Codec) (s : Processor) (workerId : Nat) (br : BlockResult) :
    Outcome Processor :=
  if br.rowsLen = 0 then .ok s
  else
    let idx := min workerId (s.shards.length - 1)
    match s.shards[idx]? with
    | none => .error (.panic "index out of bounds")
    | some m => do
      let r ← p.writeBlockInto c m br
      return ⟨s.shards.set idx r.1, s.stop || !r.2⟩

/-! ### Writing the result -/

/-- The order in which each of the three maps is gone through. -/
structure Iteration where
  u64s : List Nat → List Nat
  negs : List Int → List Int
  strings : List Bytes → List Bytes
  perm_u64s : ∀ l, (u64s l).Perm l
  perm_negs : ∀ l, (negs l).Perm l
  perm_strings : ∀ l, (strings l).Perm l

/-- The loop of `trim_to_limit` over the keys of one map. -/
def dropFrom {κ : Type} [DecidableEq κ] (limit : Nat) : List κ → Tally κ → Nat → Tally κ × Nat
  | [], t, count => (t, count)
  | k :: keys, t, count => if count ≤ limit then (t, count) else dropFrom limit keys (t.remove k) (count - 1)

def trimToLimit (it : Iteration) (m : HitsMap) (limit : Nat) : HitsMap :=
  let count := m.entriesCount
  let u64s := dropFrom limit (it.u64s m.u64s.keys) m.u64s count
  let count := u64s.2
  let negs := if count > limit then dropFrom limit (it.negs m.negs.keys) m.negs count else (m.negs, count)
  let count := negs.2
  let strings :=
    if count > limit then dropFrom limit (it.strings m.strings.keys) m.strings count else (m.strings, count)
  { m with u64s := u64s.1, negs := negs.1, strings := strings.1 }

/-- A row of the result: the values of the fields, and the hits if these are asked for. -/
structure Row where
  values : List Bytes
  hits : Option Bytes
  deriving DecidableEq, Repr

/-- The values that are taken from a key of several fields. -/
def decodeKey : Nat → Bytes → List Bytes
  | 0, _ => []
  | n + 1, rest =>
    if rest = [] then []
    else
      match unmarshalBytes rest with
      | (some b, size) => if size > 0 then b :: decodeKey n (rest.drop size.toNat) else []
      | (none, _) => []

def PipeUniq.keyValues (p : PipeUniq) (k : Key) : List Bytes :=
  if p.byFields.length = 1 then [k.text]
  else
    match k with
    | .str b => decodeKey p.byFields.length b
    | _ => []

def PipeUniq.row (p : PipeUniq) (m : HitsMap) (resetHits : Bool) (k : Key) : Row :=
  ⟨p.keyValues k, if p.needHits then some (marshalUint64String (if resetHits then 0 else m.get k)) else none⟩

/-- `PipeUniqProcessor::write_output`: the rows of the block that is written; a block without rows is not
written. -/
def PipeUniq.writeOutput (p : PipeUniq) (it : Iteration) (m : HitsMap) (resetHits : Bool) : List Row :=
  if p.byFields.length = 1 then
    (it.u64s m.u64s.keys).map (p.row m resetHits ∘ .u64) ++
      ((it.negs m.negs.keys).map (p.row m resetHits ∘ .neg) ++
        (it.strings m.strings.keys).map (p.row m resetHits ∘ .str))
  else (it.strings m.strings.keys).map (p.row m resetHits ∘ .str)

def PipeUniq.flush (p : PipeUniq) (trim out : Iteration) (s : Processor) : List Row :=
  let merged := s.shards.foldl HitsMap.merge (HitsMap.new [])
  if s.stop then []
  else if p.limit > 0 ∧ merged.entriesCount > p.limit then
    p.writeOutput out (trimToLimit trim merged p.limit) true
  else p.writeOutput out merged false

/-- The blocks of the workers, one after the other: each block is counted under the lock of its shard, so
every interleaving is such a sequence. A search that has seen the stop flag may leave blocks out; nothing is
written after a stop, whatever they hold. -/
def PipeUniq.feed (p : PipeUniq) (c : Float64Codec) (s : Processor) (blocks : List (Nat × BlockResult)) :
    Outcome Processor := blocks.foldlM (fun s b => p.writeBlock c s b.1 b.2) s

def PipeUniq.run (p : PipeUniq) (c : Float64Codec) (concurrency : Nat) (stop : Bool) (trim out : Iteration)
    (blocks : List (Nat × BlockResult)) : Outcome (List Row) := do
  let s ← p.feed c (p.newPipeProcessor concurrency stop) blocks
  return p.flush trim out s

end EsLogs.Uniq
