import EsLogs.Partitions

/-!
The storage: its settings, the directories of its partitions with their rows, and the list of the attached
partitions. Rows are added in batches. A batch whose timestamps all belong to the hot partition is handed to
it as a whole; the rows of any other batch are checked one by one, grouped by day and handed to the
partitions of their days.
-/

namespace EsLogs.LogStorage

open PartitionDay

structure Settings where
  retention : Int64
  futureRetention : Int64
  maxBackfillAge : Int64
  deriving DecidableEq, Repr

/-- The settings that `must_open_storage` makes of its configuration. -/
def Settings.ofConfig (retention futureRetention maxBackfillAge : Int64) : Settings :=
  let retention := max retention nsecsPerDay
  let futureRetention := max futureRetention nsecsPerDay
  let maxBackfillAge :=
    if maxBackfillAge ≤ 0 ∨ maxBackfillAge > retention then retention else maxBackfillAge
  ⟨retention, futureRetention, maxBackfillAge⟩

def Settings.getMinAllowedDay (cfg : Settings) (now : Int64) : Int64 :=
  (now - cfg.retention) / nsecsPerDay

def Settings.getMaxAllowedDay (cfg : Settings) (now : Int64) : Int64 :=
  (now + cfg.futureRetention) / nsecsPerDay

/-- A row of a batch: its timestamp, and its stream and fields. -/
structure Row (α : Type) where
  timestamp : Int64
  entry : α

/-- What the slow path of `must_add_rows` does with a timestamp. -/
inductive RowCheck where
  | tooSmall
  | tooBig
  | allowed
  deriving DecidableEq, Repr

/-- The checks of the slow path, in their order. -/
def Settings.check (cfg : Settings) (now ts : Int64) : RowCheck :=
  let day := ts / nsecsPerDay
  if day < cfg.getMinAllowedDay now then .tooSmall
  else if day > cfg.getMaxAllowedDay now then .tooBig
  else if ts < now - cfg.maxBackfillAge then .tooSmall
  else .allowed

variable {α : Type}

/-- The storage. `data` holds the rows of each directory of a partition, attached or not. -/
structure Storage (α : Type) where
  settings : Settings
  st : PartitionsState
  dirs : List Bytes
  data : Bytes → List (Row α)
  nextId : Nat
  rowsDroppedTooSmallTimestamp : Nat
  rowsDroppedTooBigTimestamp : Nat

/-- The rows of a batch by days. A hash map hands them out in any order. -/
abbrev Groups (α : Type) := List (Int64 × List (Row α))

/-- An order in which a hash map hands out its entries. -/
structure Drain (α : Type) where
  order : Groups α → Groups α
  perm : ∀ m, (order m).Perm m

namespace Storage

def init (settings : Settings) : Storage α where
  settings := settings
  st := ⟨[], none, []⟩
  dirs := []
  data := fun _ => []
  nextId := 0
  rowsDroppedTooSmallTimestamp := 0
  rowsDroppedTooBigTimestamp := 0

def addTo (s : Storage α) (ptw : PartitionWrapper) (rows : List (Row α)) : Storage α :=
  { s with data := Function.update s.data ptw.name (s.data ptw.name ++ rows) }

def getPartitionForWriting (s : Storage α) (day : Int64) : Storage α × Option PartitionWrapper :=
  match s.st.find? day with
  | some ptw => ({ s with st := { s.st with ptwHot := some ptw } }, some ptw)
  | none =>
    if s.st.deletedPartitions.contains day then (s, none)
    else
      let fname := getPartitionNameFromDay day
      if s.dirs.contains fname then (s, none)
      else
        let newPtw : PartitionWrapper := ⟨s.nextId, day, fname⟩
        ({ s with
            st := { s.st.insert newPtw with ptwHot := some newPtw }
            dirs := s.dirs ++ [fname]
            data := Function.update s.data fname []
            nextId := s.nextId + 1 },
          some newPtw)

def fitsHot (s : Storage α) (lr : List (Row α)) : Bool :=
  match s.st.ptwHot with
  | some hot => hot.canAddAllRows (lr.map Row.timestamp)
  | none => false

section Adding

-- whether a row that is added to an empty batch once more passes the checks of `must_add_insert_row`
variable (mustAddInsertRow : α → Bool)

/-- The rows of the slow path, grouped by day. A group can be empty: its entry is made before the checks of
`must_add_insert_row`. -/
def groups (cfg : Settings) (now : Int64) (lr : List (Row α)) : Groups α :=
  let rows := lr.filter fun r => cfg.check now r.timestamp = .allowed
  let days := (rows.map fun r => r.timestamp / nsecsPerDay).dedup
  days.map fun day =>
    (day, rows.filter fun r => decide (r.timestamp / nsecsPerDay = day) && mustAddInsertRow r.entry)

/-- The groups are handed to the partitions of their days. The second part of the result tells which rows
were handed to which partition. The warning about a group that cannot be saved shows its first row, so that
the source panics there at an empty group, and the panic goes to the caller: what was handed out before stays,
and the groups after it are lost. -/
def writeGroups : Storage α → Groups α → Storage α × List (PartitionWrapper × List (Row α))
  | s, [] => (s, [])
  | s, (day, rows) :: m =>
    match s.getPartitionForWriting day with
    | (s, some ptw) =>
      let (s, writes) := writeGroups (s.addTo ptw rows) m
      (s, (ptw, rows) :: writes)
    | (s, none) =>
      match rows with
      | [] => (s, [])
      | _ :: _ => writeGroups s m

/-- `must_add_rows`, with the rows that were handed to partitions. -/
def mustAddRows (drain : Drain α) (s : Storage α) (now : Int64) (lr : List (Row α)) :
    Storage α × List (PartitionWrapper × List (Row α)) :=
  match s.st.ptwHot with
  | some hot =>
    if hot.canAddAllRows (lr.map Row.timestamp) then (s.addTo hot lr, [(hot, lr)]) else slowPath
  | none => slowPath
where
  slowPath :=
    let checks := lr.map fun r => s.settings.check now r.timestamp
    let s := { s with
      rowsDroppedTooSmallTimestamp := s.rowsDroppedTooSmallTimestamp + checks.count .tooSmall
      rowsDroppedTooBigTimestamp := s.rowsDroppedTooBigTimestamp + checks.count .tooBig }
    writeGroups s (drain.order (groups mustAddInsertRow s.settings now lr))

end Adding

/-! ### The other operations -/

/-- Removes the directories of partitions that were dropped. -/
def removeDirs (s : Storage α) (ptws : List PartitionWrapper) : Storage α :=
  { s with
    dirs := s.dirs.filter fun name => !(ptws.map PartitionWrapper.name).contains name
    data := fun name => if (ptws.map PartitionWrapper.name).contains name then [] else s.data name }

def dropFront (s : Storage α) (n : Nat) : Storage α :=
  let (st, ptws) := s.st.drainFront n
  { s with st := st }.removeDirs ptws

def dropStalePartitions (s : Storage α) (now : Int64) : Storage α :=
  s.dropFront (partitionPoint s.st.partitions (s.settings.getMinAllowedDay now))

def watchMaxDiskSpaceUsage (s : Storage α) (size : PartitionWrapper → Nat) (limitBytes : Nat) :
    Storage α :=
  if limitBytes = 0 then s else s.dropFront (PartitionsState.drainPoint size limitBytes s.st.partitions)

/-- `partition_detach`, when nobody uses the partition any more. -/
def partitionDetach (s : Storage α) (name : Bytes) : Storage α :=
  { s with st := (s.st.detach name).1 }

/-- `partition_attach`; it leaves the storage as it is when it returns an error. -/
def partitionAttach (s : Storage α) (name : Bytes) : Storage α :=
  match getPartitionDayFromName name with
  | .error _ => s
  | .ok day =>
    if s.st.deletedPartitions.contains day then s
    else if s.st.partitions.any fun ptw => ptw.name = name then s
    else if !s.dirs.contains name then s
    else { s with st := s.st.attach ⟨s.nextId, day, name⟩, nextId := s.nextId + 1 }

def openPartitions : Nat → List Bytes → Outcome (List PartitionWrapper)
  | _, [] => .ok []
  | id, fname :: names =>
    match getPartitionDayFromName fname with
    | .error _ => .error (.panic "FATAL: cannot parse partition filename")
    | .ok day => do
      let ptws ← openPartitions (id + 1) names
      return ⟨id, day, fname⟩ :: ptws

/-- `must_close` and `must_open_storage`: the partitions from the future are dropped. -/
def reopen (s : Storage α) (settings : Settings) (now : Int64) : Outcome (Storage α) := do
  let ptws ← openPartitions s.nextId s.dirs
  let maxAllowedDay := settings.getMaxAllowedDay now
  let ptws := sortPartitions ptws
  let dropped := (ptws.reverse.takeWhile fun ptw => maxAllowedDay < ptw.day)
  let st : PartitionsState := ⟨ptws.take (ptws.length - dropped.length), none, []⟩
  return { s with
    settings := settings
    st := st
    nextId := s.nextId + ptws.length
    rowsDroppedTooSmallTimestamp := 0
    rowsDroppedTooBigTimestamp := 0 }.removeDirs dropped

end Storage

inductive Event (α : Type) where
  | addRows (drain : Drain α) (now : Int64) (lr : List (Row α))
  | dropStalePartitions (now : Int64)
  | watchMaxDiskSpaceUsage (size : PartitionWrapper → Nat) (limitBytes : Nat)
  | partitionDetach (name : Bytes)
  | partitionAttach (name : Bytes)
  | reopen (settings : Settings) (now : Int64)

namespace Storage

def step (mustAddInsertRow : α → Bool) (s : Storage α) : Event α → Outcome (Storage α)
  | .addRows drain now lr => .ok (s.mustAddRows mustAddInsertRow drain now lr).1
  | .dropStalePartitions now => .ok (s.dropStalePartitions now)
  | .watchMaxDiskSpaceUsage size limitBytes => .ok (s.watchMaxDiskSpaceUsage size limitBytes)
  | .partitionDetach name => .ok (s.partitionDetach name)
  | .partitionAttach name => .ok (s.partitionAttach name)
  | .reopen settings now => s.reopen settings now

def run (mustAddInsertRow : α → Bool) (s : Storage α) (es : List (Event α)) : Outcome (Storage α) :=
  es.foldlM (step mustAddInsertRow) s

end Storage

end EsLogs.LogStorage
