import EsLogs.Partitions
import EsLogs.References

/-!
The references to the partitions of a storage. Queries and writers take references under the lock of the
list of partitions, and release them without it. The list has a reference to each of its partitions; the
slot of the hot partition has none. A partition is taken out of the list by the retention, by detaching and
by closing the storage; the thread that does it releases the reference of the list afterwards. Whoever
releases the last reference closes the partition, and removes its directory if it was marked for dropping.
-/

namespace EsLogs.LogStorage

open PartitionDay References

inductive RefThread where
  /-- Queries and writers: the partitions they have references to. -/
  | user (ptws : List PartitionWrapper)
  /-- `drop_stale_partitions` and `watch_max_disk_space_usage`, after the partitions were taken out of the
  list; `marked` tells whether `must_drop` of the first one is set already. -/
  | dropping (ptws : List PartitionWrapper) (marked : Bool)
  /-- `partition_detach`, after the partition was taken out of the list. -/
  | detaching (ptw : PartitionWrapper)
  /-- `partition_detach` in `wait_done`. -/
  | waiting (ptw : PartitionWrapper)
  /-- `must_close`: the partitions that are left, and the one whose users are checked next. -/
  | closingStorage (ptws : List PartitionWrapper) (check : Option PartitionWrapper)
  /-- `must_close` has found a user of a partition. -/
  | panicked (ptws : List PartitionWrapper)
  /-- `dec_ref` has released the last reference, and is about to close the partition. -/
  | closing (ptw : PartitionWrapper) (next : RefThread)

def RefThread.held : RefThread → List PartitionWrapper
  | .user ptws => ptws
  | .dropping ptws _ => ptws
  | .detaching ptw => [ptw]
  | .waiting _ => []
  | .closingStorage ptws _ => ptws
  | .panicked ptws => ptws
  | .closing _ next => next.held

/-- The partitions that a thread is about to close. -/
def RefThread.toClose : RefThread → List PartitionWrapper
  | .closing ptw next => ptw :: next.toClose
  | _ => []

/-- The partitions of a storage with their references. `created` are all partitions since the start. The
counters are `AtomicI32` in the source, so that `refCount` is right as long as fewer than 2^31 references to
one partition are held at once. -/
structure Refs where
  st : PartitionsState
  dirs : List Bytes
  created : List PartitionWrapper
  refCount : Nat → Int
  mustDrop : Nat → Bool
  closes : Nat → Nat
  threads : List RefThread

inductive RefEvent where
  /-- `get_partitions` and `get_partitions_for_time_range`. -/
  | getPartitions (t : Nat) (select : PartitionWrapper → Bool)
  /-- The beginning of `must_add_rows`. -/
  | getHot (t : Nat)
  /-- `get_partition_for_writing`, for the day of a timestamp. -/
  | getPartitionForWriting (t : Nat) (ts : Int64)
  /-- A user releases a partition. -/
  | decRef (t : Nat) (ptw : PartitionWrapper)
  /-- The retention takes the first `n` partitions out of the list. -/
  | drain (t n : Nat)
  /-- The beginning of `partition_detach`. -/
  | detach (t : Nat) (name : Bytes)
  /-- `must_close` takes all partitions out of the list. -/
  | mustClose (t : Nat)
  /-- Any other thread goes on. -/
  | goOn (t : Nat)

namespace Refs

/-- The partitions of a storage that was opened with directories for the days of the timestamps. -/
def openedPartitions (timestamps : List Int64) : List PartitionWrapper :=
  (timestamps.map (· / nsecsPerDay)).dedup.zipIdx.map fun (day, id) =>
    ⟨id, day, getPartitionNameFromDay day⟩

/-- `must_open_storage`, with a number of threads that will use the storage. -/
def init (threads : Nat) (timestamps : List Int64) : Refs where
  st := ⟨sortPartitions (openedPartitions timestamps), none, []⟩
  dirs := (openedPartitions timestamps).map PartitionWrapper.name
  created := openedPartitions timestamps
  refCount := fun id => if id < (openedPartitions timestamps).length then 1 else 0
  mustDrop := fun _ => false
  closes := fun _ => 0
  threads := List.replicate threads (.user [])

def setThread (s : Refs) (t : Nat) (th : RefThread) : Refs := { s with threads := s.threads.set t th }

def acquire (s : Refs) (t : Nat) (ptws new : List PartitionWrapper) : Refs :=
  { s with refCount := incRefs s.refCount (new.map PartitionWrapper.id) }.setThread t (.user (new ++ ptws))

def release (s : Refs) (t : Nat) (ptw : PartitionWrapper) (next : RefThread) : Refs :=
  let n := s.refCount ptw.id - 1
  { s with refCount := Function.update s.refCount ptw.id n }.setThread t
    (if n > 0 then next else .closing ptw next)

def close (s : Refs) (t : Nat) (ptw : PartitionWrapper) (next : RefThread) : Refs :=
  { s with
    closes := Function.update s.closes ptw.id (s.closes ptw.id + 1)
    dirs := if s.mustDrop ptw.id then s.dirs.filter (· ≠ ptw.name) else s.dirs }.setThread t next

def getForWriting (s : Refs) (t : Nat) (ptws : List PartitionWrapper) (day : Int64) : Refs :=
  match s.st.find? day with
  | some ptw => { s with st := { s.st with ptwHot := some ptw } }.acquire t ptws [ptw]
  | none =>
    if s.st.deletedPartitions.contains day then s
    else
      let fname := getPartitionNameFromDay day
      if s.dirs.contains fname then s
      else
        let newPtw : PartitionWrapper := ⟨s.created.length, day, fname⟩
        { s with
          st := { s.st.insert newPtw with ptwHot := some newPtw }
          dirs := s.dirs ++ [fname]
          created := s.created ++ [newPtw]
          refCount := incRefs s.refCount [newPtw.id] }.acquire t ptws [newPtw]

/-- The next step of a thread that is not a user. -/
def goOn (s : Refs) (t : Nat) : RefThread → Refs
  | .user _ => s
  | .dropping [] _ => s.setThread t (.user [])
  | .dropping (ptw :: ptws) false =>
    { s with mustDrop := Function.update s.mustDrop ptw.id true }.setThread t (.dropping (ptw :: ptws) true)
  | .dropping (ptw :: ptws) true => s.release t ptw (.dropping ptws false)
  | .detaching ptw => s.release t ptw (.waiting ptw)
  | .waiting ptw => if s.closes ptw.id > 0 then s.setThread t (.user []) else s
  | .closingStorage [] none => s.setThread t (.user [])
  | .closingStorage (ptw :: ptws) none => s.release t ptw (.closingStorage ptws (some ptw))
  | .closingStorage ptws (some ptw) =>
    -- "BUG: there are ... users of partition"
    if s.refCount ptw.id ≠ 0 then s.setThread t (.panicked ptws)
    else s.setThread t (.closingStorage ptws none)
  | .panicked _ => s
  | .closing ptw next => s.close t ptw next

/-- One step; an event that is not possible changes nothing. -/
def step (s : Refs) : RefEvent → Refs
  | .getPartitions t select =>
    match s.threads[t]? with
    | some (.user ptws) => s.acquire t ptws (s.st.partitions.filter select)
    | _ => s
  | .getHot t =>
    match s.threads[t]?, s.st.ptwHot with
    | some (.user ptws), some hot => s.acquire t ptws [hot]
    | _, _ => s
  | .getPartitionForWriting t ts =>
    match s.threads[t]? with
    | some (.user ptws) => s.getForWriting t ptws (ts / nsecsPerDay)
    | _ => s
  | .decRef t ptw =>
    match s.threads[t]? with
    | some (.user ptws) => if ptw ∈ ptws then s.release t ptw (.user (ptws.erase ptw)) else s
    | _ => s
  | .drain t n =>
    match s.threads[t]? with
    | some (.user []) =>
      { s with st := (s.st.drainFront n).1 }.setThread t (.dropping (s.st.drainFront n).2 false)
    | _ => s
  | .detach t name =>
    match s.threads[t]?, s.st.detach name with
    | some (.user []), (st, some ptw) => { s with st := st }.setThread t (.detaching ptw)
    | _, _ => s
  | .mustClose t =>
    match s.threads[t]? with
    | some (.user []) =>
      { s with st := { s.st with partitions := [], ptwHot := none } }.setThread t
        (.closingStorage s.st.partitions none)
    | _ => s
  | .goOn t =>
    match s.threads[t]? with
    | some th => s.goOn t th
    | none => s

def holders (s : Refs) : List Nat :=
  s.st.partitions.map PartitionWrapper.id ++
    s.threads.flatMap fun th => th.held.map PartitionWrapper.id

def toClose (s : Refs) : List Nat := s.threads.flatMap fun th => th.toClose.map PartitionWrapper.id

end Refs

end EsLogs.LogStorage
