import EsLogs.VarUint
import EsLogs.ByteOrder
import EsLogs.Outcome

/-!
The part of the query optimizer that merges adjacent `sort`, `offset` and `limit` pipes
(`parser/query.rs`, `pipe_sort.rs`), and what these pipes do to a list of rows. The optimizer goes through
the chain several times, with one rewrite rule for neighbours each time, until a round leaves the length
of the chain as it is. Sums of numbers that do not fit into 64 bits are failures.
-/

namespace EsLogs.Pipes

open Encoding

structure BySortField where
  name : Bytes
  isDesc : Bool
  deriving DecidableEq, Repr

/-- `PipeSort`; a limit of zero means no limit. -/
structure PipeSort where
  byFields : List BySortField
  isDesc : Bool
  offset : Nat
  limit : Nat
  rankFieldName : Bytes
  partitionByFields : List Bytes
  deriving DecidableEq, Repr

/-- A pipe: `PipeSort`, `PipeOffset`, `PipeLimit`, or another one, which the rules do not touch. -/
inductive Pipe (ρ : Type) where
  | sort (ps : PipeSort)
  | offset (n : Nat)
  | limit (n : Nat)
  | other (p : ρ)
  deriving DecidableEq, Repr

variable {ρ : Type}

/-- The sum of two `u64`. A build with overflow checks panics where it does not fit, one without them
goes on with a wrong value; both are an error here. -/
def addU64 (a b : Nat) : Outcome Nat :=
  if a + b < 2 ^ 64 then .ok (a + b) else .error (.panic "attempt to add with overflow")

/-! ### Rules for neighbours -/

/-- What a rule does to a pipe and its right neighbour: it leaves them, puts one pipe in their place, or
puts two pipes there. -/
inductive Rewrite (ρ : Type) where
  | keep
  | merge (p : Pipe ρ)
  | swap (p q : Pipe ρ)

/-- A pass with a rule, from left to right; what a rule puts in place is looked at again with the next
pipe. -/
def pass (rule : Pipe ρ → Pipe ρ → Outcome (Rewrite ρ)) : Pipe ρ → List (Pipe ρ) → Outcome (List (Pipe ρ))
  | p, [] => .ok [p]
  | p, q :: rest => do
    let r ← rule p q
    match r with
    | .keep => do
      let rest ← pass rule q rest
      return p :: rest
    | .merge p => pass rule p rest
    | .swap p q => do
      let rest ← pass rule q rest
      return p :: rest

def passAll (rule : Pipe ρ → Pipe ρ → Outcome (Rewrite ρ)) : List (Pipe ρ) → Outcome (List (Pipe ρ))
  | [] => .ok []
  | p :: rest => pass rule p rest

/-- `offset X | limit Y` becomes `limit X+Y | offset X`. -/
def offsetLimitRule : Pipe ρ → Pipe ρ → Outcome (Rewrite ρ)
  | .offset offset, .limit limit => do
    let sum ← addU64 limit offset
    return .swap (.limit sum) (.offset offset)
  | _, _ => .ok .keep

/-- `offset X | offset Y` becomes `offset X+Y`. -/
def offsetOffsetRule : Pipe ρ → Pipe ρ → Outcome (Rewrite ρ)
  | .offset o1, .offset o2 => do
    let sum ← addU64 o1 o2
    return .merge (.offset sum)
  | _, _ => .ok .keep

/-- `limit N | limit M` becomes `limit min(N, M)`. -/
def limitLimitRule : Pipe ρ → Pipe ρ → Outcome (Rewrite ρ)
  | .limit l1, .limit l2 => .ok (.merge (.limit (min l1 l2)))
  | _, _ => .ok .keep

/-- `limit X | offset Y` becomes `limit 0` if `Y >= X`. -/
def limitOffsetRule : Pipe ρ → Pipe ρ → Outcome (Rewrite ρ)
  | .limit limit, .offset offset => .ok (if offset < limit then .keep else .merge (.limit 0))
  | _, _ => .ok .keep

/-- `PipeSort::sort_merge_offset`; `none` stands for `Some(false)`. -/
def PipeSort.sortMergeOffset (ps : PipeSort) (offset : Nat) : Outcome (Option PipeSort) :=
  if ps.limit > 0 ∧ offset ≥ ps.limit then .ok none
  else do
    let sum ← addU64 ps.offset offset
    return some { ps with offset := sum, limit := if ps.limit > 0 then ps.limit - offset else ps.limit }

def PipeSort.sortMergeLimit (ps : PipeSort) (limit : Nat) : PipeSort :=
  if ps.limit = 0 ∨ limit < ps.limit then { ps with limit := limit } else ps

/-- The body of the loop of `optimize_sort_offset_pipes`. -/
def sortOffsetRule : Pipe ρ → Pipe ρ → Outcome (Rewrite ρ)
  | .sort ps, .offset offset => do
    let merged ← ps.sortMergeOffset offset
    match merged with
    | some ps => return .merge (.sort ps)
    | none => return .merge (.limit 0)
  | _, _ => .ok .keep

/-- The body of the loop of `optimize_sort_limit_pipes`; a limit of zero makes the sort useless. -/
def sortLimitRule : Pipe ρ → Pipe ρ → Outcome (Rewrite ρ)
  | .sort ps, .limit limit =>
    .ok (if limit = 0 then .merge (.limit 0) else .merge (.sort (ps.sortMergeLimit limit)))
  | _, _ => .ok .keep

/-! ### The optimizer -/

def isOffsetZero : Pipe ρ → Bool
  | .offset n => n == 0
  | _ => false

def optimizeOffsetLimitPipesInternal (pipes : List (Pipe ρ)) : Outcome (List (Pipe ρ)) := do
  let pipes ← passAll offsetLimitRule pipes
  let pipes ← passAll offsetOffsetRule pipes
  let pipes ← passAll limitLimitRule pipes
  let pipes ← passAll limitOffsetRule pipes
  let pipes := pipes.filter fun p => !isOffsetZero p
  let pipes ← passAll sortOffsetRule pipes
  passAll sortLimitRule pipes

def optimizeLoop : Nat → List (Pipe ρ) → Outcome (List (Pipe ρ))
  | 0, _ => .error (.panic "out of fuel")
  | fuel + 1, pipes => do
    let pipesLen := pipes.length
    let pipes ← optimizeOffsetLimitPipesInternal pipes
    if pipes.length = pipesLen then return pipes else optimizeLoop fuel pipes

/-- `optimize_offset_limit_pipes`; no round makes the chain longer. -/
def optimizeOffsetLimitPipes (pipes : List (Pipe ρ)) : Outcome (List (Pipe ρ)) :=
  optimizeLoop (pipes.length + 1) pipes

/-! ### Rows -/

/-- What the pipes need to know about rows: how the two processors of `sort by` compare them, the values of
their fields, how the rank is added, and what other pipes do. -/
structure RowOps (ρ α : Type) where
  /-- `sort_block_cmp`, of sort pipes without a limit, does not say `Greater`. -/
  sortBlockLe : List BySortField → Bool → α → α → Bool
  /-- `topk_less`, of sort pipes with a limit, does not hold the other way round. -/
  topkLe : List BySortField → Bool → α → α → Bool
  value : α → Bytes → Bytes
  setRank : Bytes → Nat → α → α
  run : ρ → List α → List α

variable {α : Type} (ops : RowOps ρ α)

/-- How the processor that `PipeSort::new_pipe_processor` chooses compares rows. -/
def PipeSort.le (ps : PipeSort) : α → α → Bool :=
  if ps.limit > 0 then ops.topkLe ps.byFields ps.isDesc else ops.sortBlockLe ps.byFields ps.isDesc

/-- The rows in the order of a sort pipe, with their ranks if these are asked for. Rows that compare equal stay
in their order; the heaps behind a limit may put them in another one. -/
def PipeSort.ranked (ps : PipeSort) (rows : List α) : List α :=
  let sorted := rows.insertionSort fun a b => ps.le ops a b = true
  if ps.rankFieldName.isEmpty then sorted
  else sorted.mapIdx fun i row => ops.setRank ps.rankFieldName (i + 1) row

def PipeSort.partitionKey (ps : PipeSort) (row : α) : Bytes :=
  ps.partitionByFields.flatMap fun name => marshalBytes (ops.value row name)

/-- The rows of each partition, in the order of the keys. -/
def PipeSort.partitions (ps : PipeSort) (rows : List α) : List (List α) :=
  let keys := (rows.map (ps.partitionKey ops)).dedup.insertionSort (· ≤ ·)
  keys.map fun key => rows.filter fun row => ps.partitionKey ops row = key

/-- A sort pipe over the complete rows. With a limit, the offset and the limit hold for each partition;
without one, the partitions play no part (the parser wants a limit for `partition by`). -/
def PipeSort.run (ps : PipeSort) (rows : List α) : List α :=
  if ps.limit > 0 then
    (ps.partitions ops rows).flatMap fun group => ((ps.ranked ops group).drop ps.offset).take ps.limit
  else (ps.ranked ops rows).drop ps.offset

def Pipe.run : Pipe ρ → List α → List α
  | .sort ps, rows => ps.run ops rows
  | .offset n, rows => rows.drop n
  | .limit n, rows => rows.take n
  | .other p, rows => ops.run p rows

def runPipes (pipes : List (Pipe ρ)) (rows : List α) : List α :=
  pipes.foldl (fun rows p => p.run ops rows) rows

end EsLogs.Pipes
