import EsLogs.Runs
import Mathlib

/-! The delete tasks of a storage. Tasks are registered and stopped by requests; one watcher thread
takes the first task of the list, deletes the rows partition by partition, tells the waiting requests
that the task is done, and takes the task out of the list or puts it at the end for another try. The
list is saved to a file under its lock with every change, and is read from there at the next start. -/

namespace EsLogs.DeleteTasks

/-- A registered task. An id may be used again after its task is gone, so `uid` tells the
registrations apart; what the task deletes does not matter here. -/
structure Task where
  uid : Nat
  taskId : String
  deriving DecidableEq

/-- An entry of `Storage::delete_tasks`. The `cancel` flag and `done_ch` of an execution are made
together, so they have one number. -/
structure Entry where
  task : Task
  token : Option Nat
  deriving DecidableEq

inductive Watcher where
  /-- In `wait_timeout`. -/
  | waiting
  /-- The timeout is over. -/
  | woken
  /-- In `init_subqueries`. -/
  | preparing (task : Task) (token : Nat)
  /-- In `delete_rows`, with the number of partitions that are left. -/
  | deleting (task : Task) (token left : Nat) (ok : Bool)
  /-- `delete_rows` has returned false. -/
  | failed (task : Task) (token : Nat)
  /-- After that, the storage was not stopped. -/
  | notStopped (task : Task) (token : Nat)
  /-- `process_delete_task` has returned. -/
  | finished (task : Task) (token : Nat) (ok : Bool)
  /-- `done_ch` is closed. -/
  | signalled (task : Task) (token : Nat) (ok : Bool)
  /-- The thread has ended. -/
  | ended
  deriving DecidableEq

def Watcher.running : Watcher → Option (Task × Nat)
  | preparing task token | deleting task token _ _ | failed task token | notStopped task token
  | finished task token _ | signalled task token _ => some (task, token)
  | waiting | woken | ended => none

/-- The memory of the process. `stops` are the calls of `delete_stop_task` that have found their task
and have not returned yet, with the `done_ch` they wait for. -/
structure Live where
  tasks : List Entry
  tokens : Nat
  cancelled : Nat → Bool
  done : Nat → Bool
  stops : List (Task × Option Nat)
  watcher : Watcher
  closed : Bool

inductive Act where
  | started (uid : Nat)
  | deletedRows (uid : Nat)
  | stopReturned (uid : Nat)
  deriving DecidableEq

/-- The file, the process if it is up, and what has happened so far, newest first. -/
structure State where
  registered : Nat
  file : List Task
  live : Option Live
  log : List Act

inductive Event where
  /-- `must_open_storage` reads the file. -/
  | openStorage
  | deleteRunTask (taskId : String)
  /-- `delete_stop_task` up to the waiting. -/
  | deleteStopTask (taskId : String)
  /-- The rest of the `i`-th of the calls above. -/
  | stopReturns (i : Nat)
  /-- `wait_timeout` returns. -/
  | tick
  | pick
  /-- `init_subqueries` fails, or leaves a number of partitions to go through. -/
  | prepared (partitions : Option Nat)
  /-- `Partition::delete_rows`, whether it deletes something, and what it returns. -/
  | deletePartition (rows ok : Bool)
  | deleted
  | readClosed
  | readCancel
  | signal
  /-- The task leaves the front of the list. -/
  | remove
  /-- `must_close` up to the loop over the tasks. -/
  | close
  /-- That loop. -/
  | cancelRunning
  /-- `must_close` has joined the watcher, and the process ends. -/
  | shutdown
  /-- The process dies at any moment. -/
  | crash

inductive Panic where
  /-- `tasks.remove(0)` of an empty list. -/
  | removeIndex

namespace State

/-- `must_save_delete_tasks_locked` with the new list. -/
def save (s : State) (l : Live) (tasks : List Entry) : State :=
  { s with file := tasks.map Entry.task, live := some { l with tasks := tasks } }

def openStorage (s : State) : State :=
  { s with live := some {
      tasks := s.file.map fun task => ⟨task, none⟩
      tokens := 0
      cancelled := fun _ => false
      done := fun _ => false
      stops := []
      watcher := .waiting
      closed := false } }

def deleteRunTask (s : State) (l : Live) (taskId : String) : State :=
  -- "the delete task with task_id=... is already registered"
  if l.tasks.any (fun e => e.task.taskId = taskId) then s
  else save { s with registered := s.registered + 1 } l (l.tasks ++ [⟨⟨s.registered, taskId⟩, none⟩])

def deleteStopTask (s : State) (l : Live) (taskId : String) : State :=
  match l.tasks.find? (fun e => e.task.taskId = taskId) with
  | none => s
  | some ⟨task, some token⟩ =>
    { s with live := some { l with
        cancelled := Function.update l.cancelled token true
        stops := l.stops ++ [(task, some token)] } }
  | some ⟨task, none⟩ =>
    s.save { l with stops := l.stops ++ [(task, none)] }
      (l.tasks.eraseP fun e => e.task.taskId = taskId)

/-- The watcher goes on, and possibly does something to be remembered. -/
def setWatcher (s : State) (l : Live) (w : Watcher) (acts : List Act) : State :=
  { s with live := some { l with watcher := w }, log := acts ++ s.log }

def pick (s : State) (l : Live) : State :=
  match l.tasks with
  | [] => s.setWatcher l .waiting []
  | e :: rest =>
    { s with
      live := some { l with
        tasks := { e with token := some l.tokens } :: rest
        tokens := l.tokens + 1
        cancelled := Function.update l.cancelled l.tokens false
        done := Function.update l.done l.tokens false
        watcher := .preparing e.task l.tokens }
      log := .started e.task.uid :: s.log }

def remove (s : State) (l : Live) (ok : Bool) : Except Panic State :=
  match l.tasks with
  | [] => .error .removeIndex
  | e :: rest =>
    .ok (s.save { l with watcher := .waiting } (if ok then rest else rest ++ [{ e with token := none }]))

def cancelRunning (s : State) (l : Live) : State :=
  { s with live := some { l with
      cancelled := fun token => l.cancelled token || l.tasks.any fun e => e.token = some token } }

/-- A step of the running process, if it is possible. -/
def liveStep (s : State) (l : Live) : Event → Option (Except Panic State)
  | .openStorage => none
  | .deleteRunTask taskId => some (.ok (s.deleteRunTask l taskId))
  | .deleteStopTask taskId => some (.ok (s.deleteStopTask l taskId))
  | .stopReturns i =>
    match l.stops[i]? with
    | none => none
    | some (task, token) =>
      if token.all l.done then
        some (.ok { s with
          live := some { l with stops := l.stops.eraseIdx i }
          log := .stopReturned task.uid :: s.log })
      else none
  | .tick =>
    match l.watcher with
    | .waiting => some (.ok (s.setWatcher l (if l.closed then .ended else .woken) []))
    | _ => none
  | .pick =>
    match l.watcher with
    | .woken => some (.ok (s.pick l))
    | _ => none
  | .prepared partitions =>
    match l.watcher with
    | .preparing task token => some (.ok (s.setWatcher l
        (match partitions with
          | none => .finished task token false
          | some n => .deleting task token n true) []))
    | _ => none
  | .deletePartition rows ok' =>
    match l.watcher with
    | .deleting task token (left + 1) ok =>
      some (.ok (s.setWatcher l (.deleting task token left (ok && ok'))
        (if rows then [.deletedRows task.uid] else [])))
    | _ => none
  | .deleted =>
    match l.watcher with
    | .deleting task token 0 ok =>
      some (.ok (s.setWatcher l (if ok then .finished task token true else .failed task token) []))
    | _ => none
  | .readClosed =>
    match l.watcher with
    | .failed task token =>
      some (.ok (s.setWatcher l
        (if l.closed then .finished task token false else .notStopped task token) []))
    | _ => none
  | .readCancel =>
    match l.watcher with
    | .notStopped task token =>
      some (.ok (s.setWatcher l (.finished task token (l.cancelled token)) []))
    | _ => none
  | .signal =>
    match l.watcher with
    | .finished task token ok =>
      some (.ok { s with live := some { l with
        done := Function.update l.done token true
        watcher := .signalled task token ok } })
    | _ => none
  | .remove =>
    match l.watcher with
    | .signalled _ _ ok => some (s.remove l ok)
    | _ => none
  | .close => some (.ok { s with live := some { l with closed := true } })
  | .cancelRunning => if l.closed then some (.ok (s.cancelRunning l)) else none
  | .shutdown =>
    match l.watcher with
    | .ended => if l.closed then some (.ok { s with live := none }) else none
    | _ => none
  | .crash => some (.ok { s with live := none })

def step (s : State) (e : Event) : Option (Except Panic State) :=
  match s.live with
  | some l => s.liveStep l e
  | none =>
    match e with
    | .openStorage => some (.ok s.openStorage)
    | _ => none

def init : State := ⟨0, [], none, []⟩

end State

/-- Once a stop request for a task has returned, the task neither starts nor deletes rows. -/
def StopsAreFinal : List Act → Prop
  | [] => True
  | a :: earlier =>
    (∀ uid, a = .started uid ∨ a = .deletedRows uid → Act.stopReturned uid ∉ earlier) ∧
      StopsAreFinal earlier

end EsLogs.DeleteTasks
