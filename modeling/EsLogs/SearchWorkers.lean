import Mathlib

/-! Worker ids of a query: the search hands every block to the head of the pipe chain together with
the id of the worker that found it, and a processor keeps one shard for each of the workers it was
created for. The number of shards comes from the `concurrency` of the query, the ids come from the
thread pool of the process. -/

namespace EsLogs.SearchWorkers

open List

def maxParallelReaders : Nat := 2000

/-- The two `options(...)` that size a query; zero stands for an option that is not set. -/
structure QueryOptions where
  concurrency : UInt32
  parallelReaders : UInt32

/-- The process a query runs in. The thread pool is the global one of `rayon`, which is started on
the first use and has at least one thread; nothing ties its size to `availableCpus`, which follows
`GOMAXPROCS` and the quota of the container. -/
structure Host where
  availableCpus : Nat
  defaultParallelReaders : Nat
  threads : Nat
  threads_pos : 0 < threads

def getParallelReaders (h : Host) (o : QueryOptions) : Nat :=
  let n := o.parallelReaders.toNat
  let n := if n = 0 then o.concurrency.toNat else n
  let n := if n = 0 then h.defaultParallelReaders else n
  let n := if n = 0 then 2 * h.availableCpus else n
  if maxParallelReaders < n then maxParallelReaders else n

def getConcurrency (h : Host) (o : QueryOptions) : Nat :=
  let c := o.concurrency.toNat
  if 0 < c ∧ c < h.availableCpus then c else h.availableCpus

/-- The `concurrency` that `run_query_with_sink` creates the processors with. -/
def concurrency (h : Host) (o : QueryOptions) : Nat := max (getConcurrency h o) 1

/-- The `workers` that `run_query_with_sink` searches with. -/
def workers (h : Host) (o : QueryOptions) : Nat := max (getParallelReaders h o) 1

/-- How a processor finds the shard of a worker. -/
inductive Sharding where
  | unsharded
  /-- `self.shards[worker_id]`. -/
  | indexed
  /-- `self.shards[worker_id.min(self.shards.len() - 1)]`. -/
  | clamped
  /-- `self.shards.get(worker_id)` of a slice that grows on demand. -/
  | growing
  deriving DecidableEq

/-- The processors of the pipes. Several pipes share one processor: `first` and `last` are `topk`, as is a `sort` with
a limit, `replace`, `replace_regexp`, `collapse_nums` and `decolorize` update, `field_values` is `uniq` and
`total_stats` is `running_stats`. The processor of `union` is not here, since it runs a query. -/
inductive Processor where
  | blockStats | blocksCount | coalesce | copy | delete | dropEmptyFields | extract | extractRegexp
  | facets | fieldNames | fieldValuesLocal | fields | filter | format | generateSequence | hash
  | join | jsonArrayLen | len | limit | math | offset | pack | queryStats | queryStatsLocal | rename
  | runningStats | sample | setStreamFields | sort | split | stats | streamContext | timeAdd | top
  | topk | uniq | uniqLocal | unpack | unpackWords | unroll | update
  deriving DecidableEq

namespace Processor

def sharding : Processor → Sharding
  | coalesce | dropEmptyFields | fieldNames | fieldValuesLocal | filter | format | hash | join | len
  | queryStats | sample | setStreamFields | sort | streamContext | timeAdd | topk | unroll
  | update => .indexed
  | blocksCount | facets | runningStats | stats | top | uniq | uniqLocal => .clamped
  | extract | extractRegexp | jsonArrayLen | pack | unpack | unpackWords => .growing
  | blockStats | copy | delete | fields | generateSequence | limit | math | offset
  | queryStatsLocal | rename | split => .unsharded

/-- Whether `write_block` hands its block to the next processor with the worker id it got. The other
processors collect the blocks and write their results from `flush`, as worker zero. -/
def passesOn : Processor → Bool
  | blockStats | coalesce | copy | delete | dropEmptyFields | extract | extractRegexp | fields
  | filter | format | hash | join | jsonArrayLen | len | limit | math | offset | pack | rename
  | sample | setStreamFields | split | timeAdd | unpack | unpackWords | unroll | update => true
  | blocksCount | facets | fieldNames | fieldValuesLocal | generateSequence | queryStats
  | queryStatsLocal | runningStats | sort | stats | streamContext | top | topk | uniq
  | uniqLocal => false

/-- The processor keeps `concurrency.max(1)` shards. -/
def hasFixedShards (k : Processor) : Bool := k.sharding == .indexed || k.sharding == .clamped

end Processor

/-- The chain of processors of a query, up to the sink it writes to. -/
inductive Pipes where
  | sink
  | pipe (k : Processor) (next : Pipes)
  /-- `union (sub)`, where the query `sub` has the options `o`. -/
  | union (o : QueryOptions) (sub next : Pipes)

/-- A call of a processor that was created for `concurrency` workers. -/
structure Call where
  processor : Processor
  concurrency : Nat
  workerId : Nat
  deriving DecidableEq

namespace Call

def shards (c : Call) : Nat := max c.concurrency 1

/-- The worker id is smaller than the number of shards, where that number is fixed. -/
def Fits (c : Call) : Prop := c.processor.hasFixedShards = true → c.workerId < c.shards

/-- Index of the shard that `write_block` works on, `none` when the indexing panics. -/
def shard (c : Call) : Option Nat :=
  match c.processor.sharding with
  | .indexed => if c.workerId < c.shards then some c.workerId else none
  | .clamped => some (min c.workerId (c.shards - 1))
  | .growing => some c.workerId
  | .unsharded => some 0

theorem isSome_shard {c : Call} (hc : c.Fits) : c.shard.isSome = true := by
  unfold shard
  cases hs : c.processor.sharding with
  | indexed =>
    have hf : c.processor.hasFixedShards = true := by simp [Processor.hasFixedShards, hs]
    simp only [if_pos (hc hf), Option.isSome_some]
  | clamped | growing | unsharded => rfl

end Call

/-- What a worker sees when it takes up a block: the query is stopped or cancelled, the head of the
chain proves the block useless, the search finds some number of rows, and the query around a `union`
wants no more rows. -/
structure Visit where
  stopped : Bool
  skipped : Bool
  rowsFound : Nat
  parentStopped : Bool

/-- A schedule of `search_parallel`: the scheduled blocks, how many of them the serial start takes
before its time is over, and the thread of the pool that takes each of the others. -/
structure Search (h : Host) where
  works : List Visit
  serial : Nat
  thread : Nat → Fin h.threads

namespace Search

variable {h : Host}

def workerIds (s : Search h) (workersCount : Nat) : List (Nat × Visit) :=
  if workersCount ≤ 1 ∨ s.works.length ≤ 1 then s.works.map fun w => (0, w)
  else (s.works.take s.serial).map (fun w => (0, w)) ++
    (s.works.drop s.serial).zipIdx.map fun w => ((s.thread w.2 : Nat), w.1)

/-- The ids that `block_skip_check` of the head is called with. -/
def checked (s : Search h) (workersCount : Nat) : List Nat :=
  ((s.workerIds workersCount).filter fun w => !w.2.stopped).map Prod.fst

/-- The ids that `write_block` of the head is called with. -/
def written (s : Search h) (workersCount : Nat) : List Nat :=
  ((s.workerIds workersCount).filter fun w =>
    !w.2.stopped && !w.2.skipped && decide (0 < w.2.rowsFound) && !w.2.parentStopped).map Prod.fst

end Search

/-- What happens in the chain: which of the blocks a processor got it hands on, how many blocks it
writes from `flush`, and the run of the query of a `union`. -/
inductive Run (h : Host) : Pipes → Type where
  | sink : Run h .sink
  | pipe {k : Processor} {next : Pipes} (kept : Nat → Bool) (flushed : Nat) (r : Run h next) :
      Run h (.pipe k next)
  | union {o : QueryOptions} {sub next : Pipes} (kept : Nat → Bool) (s : Search h)
      (rsub : Run h sub) (r : Run h next) : Run h (.union o sub next)

/-- The blocks that are handed on, by their position. -/
def keep (kept : Nat → Bool) (ids : List Nat) : List Nat :=
  (ids.zipIdx.filter fun w => kept w.2).map Prod.fst

namespace Pipes

/-- Calls of `block_skip_check` of the head. The default one has no use for the worker id, and the
processor of `union` has no shards. -/
def checkHead : Pipes → Nat → List Nat → List Call
  | pipe k _, c, ids => ids.map fun id => ⟨k, c, id⟩
  | sink, _, _ => []
  | union _ _ _, _, _ => []

/-- All calls that follow when blocks of the given workers arrive at a chain that was created for `c`
workers, and the workers of the blocks that come out at its sink. `flush` runs the query of a `union`
with the next processor as its sink, so a query without pipes asks that processor about its blocks. -/
def deliver (h : Host) : (p : Pipes) → Run h p → Nat → List Nat → List Call × List Nat
  | sink, .sink, _, ids => ([], ids)
  | pipe k next, .pipe kept flushed r, c, ids =>
    let out := if k.passesOn then keep kept ids else List.replicate flushed 0
    let d := deliver h next r c out
    (ids.map (fun id => ⟨k, c, id⟩) ++ d.1, d.2)
  | union o sub next, .union kept s rsub r, c, ids =>
    let heads := match sub with
      | sink => next.checkHead c (s.checked (workers h o))
      | _ => sub.checkHead (concurrency h o) (s.checked (workers h o))
    let inner := deliver h sub rsub (concurrency h o) (s.written (workers h o))
    let d := deliver h next r c (keep kept ids ++ inner.2)
    (heads ++ inner.1 ++ d.1, d.2)

end Pipes

structure Query where
  options : QueryOptions
  pipes : Pipes

/-- The calls of `write_block` and `block_skip_check` in a run of the query. -/
def Query.calls (h : Host) (q : Query) (s : Search h) (r : Run h q.pipes) : List Call :=
  q.pipes.checkHead (concurrency h q.options) (s.checked (workers h q.options)) ++
    (q.pipes.deliver h r (concurrency h q.options) (s.written (workers h q.options))).1

/-! ## When the ids fit -/

namespace Pipes

/-- Blocks of the thread pool come out of the chain when they go in (`pooled`), or when the query of
a `union` searches with several workers and lets its blocks through. -/
def pooledAfter (h : Host) : Pipes → Bool → Bool
  | sink, pooled => pooled
  | pipe k next, pooled => next.pooledAfter h (pooled && k.passesOn)
  | union o sub next, pooled =>
    next.pooledAfter h (pooled || sub.pooledAfter h (decide (1 < workers h o)))

/-- No thread of the pool is too large for a processor with a fixed number of shards that its blocks
can reach. -/
def PoolFits (h : Host) : Pipes → Nat → Bool → Prop
  | sink, _, _ => True
  | pipe k next, c, pooled =>
    (pooled = true → k.hasFixedShards = true → h.threads ≤ max c 1) ∧
      next.PoolFits h c (pooled && k.passesOn)
  | union o sub next, c, pooled =>
    sub.PoolFits h (concurrency h o) (decide (1 < workers h o)) ∧
      next.PoolFits h c (pooled || sub.pooledAfter h (decide (1 < workers h o)))

end Pipes

/-- The workers of a list of blocks are zero, or threads of the pool if such blocks may come. -/
def FromPool (h : Host) (pooled : Bool) (ids : List Nat) : Prop :=
  ∀ id ∈ ids, id = 0 ∨ pooled = true ∧ id < h.threads

namespace FromPool

variable {h : Host} {pooled : Bool} {ids : List Nat}

theorem mono {pooled' : Bool} (hi : FromPool h pooled ids) (hp : pooled = true → pooled' = true) :
    FromPool h pooled' ids :=
  fun id hid => (hi id hid).imp_right (And.imp_left hp)

theorem append {pooled' : Bool} {ids' : List Nat} (hi : FromPool h pooled ids)
    (hi' : FromPool h pooled' ids') : FromPool h (pooled || pooled') (ids ++ ids') :=
  forall_mem_append.2 ⟨hi.mono (Bool.or_inl ·), hi'.mono (Bool.or_inr ·)⟩

theorem keep (hi : FromPool h pooled ids) (kept : Nat → Bool) :
    FromPool h pooled (keep kept ids) := by
  intro id hid
  obtain ⟨w, hw, rfl⟩ := mem_map.1 hid
  exact hi w.1 (fst_mem_of_mem_zipIdx (mem_filter.1 hw).1)

/-- A processor hands on what it got, or writes as worker zero. -/
theorem passOn (hi : FromPool h pooled ids) (k : Processor) (kept : Nat → Bool) (flushed : Nat) :
    FromPool h (pooled && k.passesOn)
      (if k.passesOn then SearchWorkers.keep kept ids else List.replicate flushed 0) := by
  cases hk : k.passesOn with
  | true =>
    rw [Bool.and_true, if_pos rfl]
    exact hi.keep kept
  | false =>
    intro id hid
    rw [if_neg Bool.false_ne_true] at hid
    exact .inl (eq_of_mem_replicate hid)

/-- The calls that hand these ids to a processor fit, if the pool does. -/
theorem fits (hi : FromPool h pooled ids) {k : Processor} {c : Nat}
    (hk : pooled = true → k.hasFixedShards = true → h.threads ≤ max c 1) :
    ∀ call ∈ ids.map (fun id => (⟨k, c, id⟩ : Call)), call.Fits := by
  intro call hcall
  obtain ⟨id, hid, rfl⟩ := mem_map.1 hcall
  intro hf
  change id < max c 1
  rcases hi id hid with rfl | ⟨hp, hlt⟩
  · exact lt_of_lt_of_le Nat.one_pos (le_max_right c 1)
  · exact lt_of_lt_of_le hlt (hk hp hf)

end FromPool

namespace Search

variable {h : Host} (s : Search h)

theorem fromPool_workerIds (n : Nat) :
    FromPool h (decide (1 < n)) ((s.workerIds n).map Prod.fst) := by
  intro id hid
  obtain ⟨w, hw, rfl⟩ := mem_map.1 hid
  unfold workerIds at hw
  split_ifs at hw with hc
  · obtain ⟨v, _, rfl⟩ := mem_map.1 hw
    exact .inl rfl
  · have hn : 1 < n := by omega
    rcases mem_append.1 hw with hw | hw
    · obtain ⟨v, _, rfl⟩ := mem_map.1 hw
      exact .inl rfl
    · obtain ⟨v, _, rfl⟩ := mem_map.1 hw
      exact .inr ⟨decide_eq_true hn, (s.thread v.2).isLt⟩

theorem fromPool_checked (n : Nat) : FromPool h (decide (1 < n)) (s.checked n) :=
  fun id hid => s.fromPool_workerIds n id (map_subset _ (filter_subset_self _) hid)

theorem fromPool_written (n : Nat) : FromPool h (decide (1 < n)) (s.written n) :=
  fun id hid => s.fromPool_workerIds n id (map_subset _ (filter_subset_self _) hid)

end Search

namespace Pipes

variable {h : Host}

theorem fits_checkHead {p : Pipes} {c : Nat} {pooled : Bool} {ids : List Nat}
    (hp : p.PoolFits h c pooled) (hi : FromPool h pooled ids) :
    ∀ call ∈ p.checkHead c ids, call.Fits := by
  cases p with
  | sink | union o sub next => exact forall_mem_nil _
  | pipe k next => exact hi.fits hp.1

/-- What comes out of a chain and the calls inside it, by induction on the chain. -/
theorem fits_deliver (p : Pipes) (r : Run h p) :
    ∀ {c : Nat} {pooled : Bool} {ids : List Nat}, p.PoolFits h c pooled → FromPool h pooled ids →
      (∀ call ∈ (p.deliver h r c ids).1, call.Fits) ∧
        FromPool h (p.pooledAfter h pooled) (p.deliver h r c ids).2 := by
  induction r with
  | sink =>
    intro c pooled ids _ hi
    exact ⟨forall_mem_nil _, hi⟩
  | @pipe k next kept flushed r ih =>
    intro c pooled ids hp hi
    obtain ⟨hcalls, hout⟩ := ih hp.2 (hi.passOn k kept flushed)
    exact ⟨forall_mem_append.2 ⟨hi.fits hp.1, hcalls⟩, hout⟩
  | @union o sub next kept s rsub r ihsub ih =>
    intro c pooled ids hp hi
    have hs := s.fromPool_checked (workers h o)
    obtain ⟨hin, hmid⟩ := ihsub hp.1 (s.fromPool_written (workers h o))
    obtain ⟨hcalls, hout⟩ := ih hp.2 ((hi.keep kept).append hmid)
    refine ⟨forall_mem_append.2 ⟨forall_mem_append.2 ⟨?_, hin⟩, hcalls⟩, hout⟩
    -- the head of a query without pipes is the processor after the `union`
    cases sub with
    | sink => exact fits_checkHead hp.2 (hs.mono (Bool.or_inr ·))
    | pipe k sub' | union o' sub' next' => exact fits_checkHead hp.1 hs

end Pipes

/-! ## A run that shows the largest id everywhere -/

section Widest

variable (h : Host)

def lastThread : Fin h.threads := ⟨h.threads - 1, Nat.sub_lt h.threads_pos Nat.one_pos⟩

/-- The serial start takes no block, and the last thread of the pool takes all of them. -/
def widestSearch : Search h where
  works := [⟨false, false, 1, false⟩, ⟨false, false, 1, false⟩]
  serial := 0
  thread := fun _ => lastThread h

/-- Every block is handed on, and every search is the one above. -/
def widestRun : (p : Pipes) → Run h p
  | .sink => .sink
  | .pipe _ next => .pipe (fun _ => true) 0 (widestRun next)
  | .union _ sub next => .union (fun _ => true) (widestSearch h) (widestRun sub) (widestRun next)

theorem keep_all (ids : List Nat) : keep (fun _ => true) ids = ids := by
  unfold keep
  rw [filter_true, zipIdx_map_fst]

theorem lastThread_mem_written {n : Nat} (hn : 1 < n) :
    (lastThread h : Nat) ∈ (widestSearch h).written n := by
  have hids : (widestSearch h).workerIds n =
      [((lastThread h : Nat), ⟨false, false, 1, false⟩),
        ((lastThread h : Nat), ⟨false, false, 1, false⟩)] := by
    unfold Search.workerIds
    rw [if_neg]
    · rfl
    · intro hc
      rcases hc with hc | hc
      · omega
      · exact absurd hc (by simp [widestSearch])
  unfold Search.written
  rw [hids]
  exact mem_cons_self

variable {h}

/-- If all calls of this run fit then the pool does, and the id of the last thread comes out of the
chain wherever blocks of the pool can. -/
theorem poolFits_of_fits (p : Pipes) :
    ∀ (c : Nat) (pooled : Bool) (ids : List Nat), (pooled = true → (lastThread h : Nat) ∈ ids) →
      (∀ call ∈ (p.deliver h (widestRun h p) c ids).1, call.Fits) →
        p.PoolFits h c pooled ∧ (p.pooledAfter h pooled = true →
          (lastThread h : Nat) ∈ (p.deliver h (widestRun h p) c ids).2) := by
  induction p with
  | sink =>
    intro c pooled ids hids _
    exact ⟨trivial, hids⟩
  | pipe k next ih =>
    intro c pooled ids hids hfits
    have hnext := ih c (pooled && k.passesOn)
      (if k.passesOn then keep (fun _ => true) ids else List.replicate 0 0)
      (by
        intro hp
        obtain ⟨hp, hk⟩ := Bool.and_eq_true_iff.1 hp
        rw [if_pos hk, keep_all]
        exact hids hp)
      (fun call hcall => hfits call (mem_append_right _ hcall))
    refine ⟨⟨?_, hnext.1⟩, hnext.2⟩
    intro hp hk
    have hlt : (lastThread h : Nat) < max c 1 :=
      hfits ⟨k, c, lastThread h⟩
        (mem_append_left _ (mem_map_of_mem (hids hp))) hk
    change h.threads - 1 < max c 1 at hlt
    omega
  | union o sub next ihsub ih =>
    intro c pooled ids hids hfits
    have hsub := ihsub (concurrency h o) (decide (1 < workers h o))
      ((widestSearch h).written (workers h o))
      (fun hw => lastThread_mem_written h (of_decide_eq_true hw))
      (fun call hcall => hfits call
        (mem_append_left _ (mem_append_right _ hcall)))
    have hnext := ih c
      (pooled || sub.pooledAfter h (decide (1 < workers h o)))
      (keep (fun _ => true) ids ++ (sub.deliver h (widestRun h sub) (concurrency h o)
        ((widestSearch h).written (workers h o))).2)
      (by
        intro hp
        rcases Bool.or_eq_true_iff.1 hp with hp | hp
        · apply mem_append_left
          rw [keep_all]
          exact hids hp
        · exact mem_append_right _ (hsub.2 hp))
      (fun call hcall => hfits call (mem_append_right _ hcall))
    exact ⟨⟨hsub.1, hnext.1⟩, hnext.2⟩

end Widest

namespace Query

/-- The condition on the options, the machine and the pipes of the query. -/
def PoolFits (h : Host) (q : Query) : Prop :=
  q.pipes.PoolFits h (concurrency h q.options) (decide (1 < workers h q.options))

theorem fits_calls {h : Host} {q : Query} (hq : q.PoolFits h) (s : Search h) (r : Run h q.pipes) :
    ∀ call ∈ q.calls h s r, call.Fits :=
  forall_mem_append.2 ⟨Pipes.fits_checkHead hq (s.fromPool_checked _),
    (Pipes.fits_deliver q.pipes r hq (s.fromPool_written _)).1⟩

/-- **Worker ids fit the shards.** In every run of a query, over whatever is stored and however the
blocks are scheduled, every worker id handed to a processor is smaller than its number of shards, and
no shard indexing panics, exactly when the thread pool is not larger than the concurrency of any
query whose processors with a fixed number of shards its blocks can reach. -/
theorem workerIds_fit_iff (h : Host) (q : Query) :
    (∀ (s : Search h) (r : Run h q.pipes), ∀ call ∈ q.calls h s r,
      call.Fits ∧ call.shard.isSome = true) ↔ q.PoolFits h := by
  constructor
  · intro hall
    have hfits : ∀ call ∈ (q.pipes.deliver h (widestRun h q.pipes) (concurrency h q.options)
        ((widestSearch h).written (workers h q.options))).1, call.Fits := fun call hcall =>
      (hall (widestSearch h) (widestRun h q.pipes) call (mem_append_right _ hcall)).1
    exact (poolFits_of_fits q.pipes _ _ _
      (fun hw => lastThread_mem_written h (of_decide_eq_true hw)) hfits).1
  · intro hq s r call hcall
    have hf := fits_calls hq s r call hcall
    exact ⟨hf, Call.isSome_shard hf⟩

/-- The query `options(concurrency=1, parallel_readers=2) * | sort by (x)`. -/
def narrowSort : Query where
  options := ⟨1, 2⟩
  pipes := .pipe .sort .sink

/-- A machine with eight CPUs and a thread for each of them. -/
def eightCpus : Host := ⟨8, 0, 8, by decide⟩

/-- On eight CPUs the sort has one shard, and worker 7 indexes it out of bounds. -/
theorem narrowSort_panics :
    (⟨.sort, 1, 7⟩ : Call) ∈ narrowSort.calls eightCpus (widestSearch eightCpus)
        (widestRun eightCpus narrowSort.pipes) ∧
      (⟨.sort, 1, 7⟩ : Call).shards = 1 ∧ (⟨.sort, 1, 7⟩ : Call).shard = none := by
  decide

end Query

end EsLogs.SearchWorkers
