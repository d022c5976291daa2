import EsLogs.UniqRun

/-!
The pipe `stats by (f) count()` (`pipe_stats.rs`, `stats_count.rs`): the number of rows of each value of a field.
New groups are charged to the budget of the worker, which takes more from the budget of the query when it has
none left; a query whose budget is used up fails.
-/

namespace EsLogs.Stats

open NumberText ColumnValues Encoding Hits Uniq

def stateSizeBudgetChunk : Int := 2 ^ 20

/-- `new_group_size_bytes` for one function: a vector and one boxed processor. -/
def newGroupSizeBytes : Int := 24 + 16

/-- `Shard`: the groups, whose states are the numbers of their rows, and the budget that is left. -/
structure Shard where
  groups : HitsMap
  stateSizeBudget : Int

structure Processor where
  shards : List Shard
  stateSizeBudget : Int
  stop : Bool

def groupCost : Key → Int
  | .str b => newGroupSizeBytes + b.length
  | _ => newGroupSizeBytes

/-- `get_group_generic`, the update of the group it returns by a number of rows, and the charge. -/
def Shard.addRows (s : Shard) (v : Bytes) (rows : Nat) : Shard :=
  ⟨s.groups.add (genericKey v) rows,
    s.stateSizeBudget - if genericKey v ∈ s.groups.keys then 0 else groupCost (genericKey v)⟩

/-- `PipeStatsProcessor::update_stats_single_column` for a field without buckets. -/
def updateStatsSingleColumn (c : Float64Codec) (s : Shard) (br : BlockResult) (fieldName : Bytes) : Outcome Shard := do
  let r := (br.getColumnByName fieldName).2
  let br := (br.getColumnByName fieldName).1
  let column ← br.col r
  match column.content with
  | .const v => return s.addRows v br.rowsLen
  | _ => do
    let values ← br.columnGetValues c r
    return values.foldl (fun s v => s.addRows v 1) s

/-- The loop of `write_block` that takes from the budget of the query: the budgets of the worker and of the query,
and, if there is nothing left, whether the stop flag is set. -/
def steal (budget global : Int) : Int × Int × Option Bool :=
  if budget < 0 then
    let remaining := global - stateSizeBudgetChunk
    if remaining < 0 then (budget, remaining, some (decide (remaining + stateSizeBudgetChunk ≥ 0)))
    else steal (budget + stateSizeBudgetChunk) remaining
  else (budget, global, none)
  termination_by (-budget).toNat
  decreasing_by
    unfold stateSizeBudgetChunk
    omega

def writeBlock (c : Float64Codec) (fieldName : Bytes) (s : Processor) (workerId : Nat) (br : BlockResult) :
    Outcome Processor :=
  if br.rowsLen = 0 then .ok s
  else
    let idx := min workerId (s.shards.length - 1)
    match s.shards[idx]? with
    | none => .error (.panic "index out of bounds")
    | some shard =>
      match steal shard.stateSizeBudget s.stateSizeBudget with
      | (budget, global, some stop) =>
        .ok ⟨s.shards.set idx { shard with stateSizeBudget := budget }, global, s.stop || stop⟩
      | (budget, global, none) => do
        let shard ← updateStatsSingleColumn c { shard with stateSizeBudget := budget } br fieldName
        return ⟨s.shards.set idx shard, global, s.stop⟩

/-- A row of the result: the value of the field and the count. -/
structure StatsRow where
  value : Bytes
  count : Bytes
  deriving DecidableEq, Repr

def writeMerged (it : Iteration) (m : HitsMap) : List StatsRow :=
  (it.u64s m.u64s.keys).map (fun n => ⟨(Key.u64 n).text, decimal (m.get (.u64 n))⟩) ++
    ((it.negs m.negs.keys).map (fun n => ⟨(Key.neg n).text, decimal (m.get (.neg n))⟩) ++
      (it.strings m.strings.keys).map fun b => ⟨(Key.str b).text, decimal (m.get (.str b))⟩)

/-- `PipeStatsProcessor::flush`; `maxStateSize` is the budget of the query and `psStr` its pipe as a text. -/
def flush (psStr : String) (maxStateSize : Int) (it : Iteration) (s : Processor) : Outcome (List StatsRow) :=
  if s.stateSizeBudget ≤ 0 then
    .error (.error s!"cannot calculate [{psStr}], since it requires more than {maxStateSize / 2 ^ 20}MB of memory")
  else
    let merged := (s.shards.map (·.groups)).foldl HitsMap.merge (HitsMap.new [])
    if s.stop then .ok [] else .ok (writeMerged it merged)

def run (c : Float64Codec) (fieldName : Bytes) (psStr : String) (maxStateSize : Int) (concurrency : Nat)
    (it : Iteration) (blocks : List (Nat × BlockResult)) : Outcome (List StatsRow) := do
  let s ← blocks.foldlM (fun s b => writeBlock c fieldName s b.1 b.2)
    ⟨List.replicate (max concurrency 1) ⟨HitsMap.new [], 0⟩, maxStateSize, false⟩
  flush psStr maxStateSize it s

end EsLogs.Stats
