import EsLogs.DeleteTasks

/-! When stopping a delete task is final. In every run, a stop request that has to wait waits for the task
that the watcher executes. The invariant of the runs that keep stopped tasks stopped follows the request from
there: until the task is done, the watcher has not decided to try it again; afterwards the task is out of the
list, or the watcher is about to take it out for good. -/

namespace EsLogs.DeleteTasks

open Runs List

/-- The watcher will take the task out of the list and not put it back. -/
def Watcher.Leaving (w : Watcher) (uid : Nat) : Prop :=
  ∃ task token, w = .signalled task token true ∧ task.uid = uid

def Watcher.IsSignalled (w : Watcher) : Prop := ∃ task token ok, w = .signalled task token ok

namespace Live

/-- No stop request waits for the running task. -/
def NobodyWaits (l : Live) : Prop := ∀ w ∈ l.stops, w.2.all l.done = true

structure Inv (l : Live) : Prop where
  running : ∀ task token, l.watcher.running = some (task, token) →
    ∃ rest, l.tasks = ⟨task, some token⟩ :: rest ∧ ∀ e ∈ rest, e.token = none
  idle : l.watcher.running = none → ∀ e ∈ l.tasks, e.token = none
  token_lt : ∀ task token, l.watcher.running = some (task, token) → token < l.tokens
  not_done : ∀ task token, l.watcher.running = some (task, token) → l.done token = true →
    l.watcher.IsSignalled
  signalled : ∀ task token ok, l.watcher = .signalled task token ok → l.done token = true
  stop_lt : ∀ task token, (task, some token) ∈ l.stops → token < l.tokens
  stop_waits : ∀ task token, (task, some token) ∈ l.stops → l.done token = false →
    l.watcher.running = some (task, token) ∧ l.cancelled token = true

/-- While no task is executed, nobody has to wait. -/
theorem inv_of_idle {l : Live} (hrun : l.watcher.running = none) (hidle : ∀ e ∈ l.tasks, e.token = none)
    (hstops : ∀ task token, (task, some token) ∈ l.stops → token < l.tokens ∧ l.done token = true) : l.Inv where
  running := fun _ _ hr => nomatch hrun.symm.trans hr
  idle := fun _ => hidle
  token_lt := fun _ _ hr => nomatch hrun.symm.trans hr
  not_done := fun _ _ hr => nomatch hrun.symm.trans hr
  signalled := fun _ _ _ hw => nomatch hrun.symm.trans (congrArg Watcher.running hw)
  stop_lt := fun task token hstop => (hstops task token hstop).1
  stop_waits := fun task token hstop hd => nomatch hd.symm.trans (hstops task token hstop).2

end Live

namespace State

def uids (s : State) : List Nat := s.file.map Task.uid

/-- The file has the tasks of the list, and the requests and the watcher agree on the task that is executed. -/
structure Tracks (s : State) : Prop where
  saved : ∀ l, s.live = some l → s.file = l.tasks.map Entry.task
  live : ∀ l, s.live = some l → l.Inv

/-- The task is not in the list any more, or only until the watcher goes on. -/
def Withdrawn (s : State) (uid : Nat) : Prop :=
  uid < s.registered ∧ (uid ∉ s.uids ∨ ∃ l, s.live = some l ∧ l.watcher.Leaving uid)

structure Inv (s : State) : Prop extends s.Tracks where
  nodup : s.uids.Nodup
  uid_lt : ∀ uid ∈ s.uids, uid < s.registered
  final : StopsAreFinal s.log
  returned : ∀ uid, Act.stopReturned uid ∈ s.log → s.Withdrawn uid
  not_again : ∀ l, s.live = some l → ∀ task token, (task, some token) ∈ l.stops → l.done token = false →
    l.watcher ≠ .finished task token false
  stopped : ∀ l, s.live = some l → ∀ task token, (task, token) ∈ l.stops → token.all l.done = true →
    s.Withdrawn task.uid

/-- The condition on a step of the running process:
no request waits for the task when its sub-queries cannot be prepared,
or when the watcher finds the storage stopped;
a request does not come between the decision to try the task again and the end of the try;
and the process does not die while the file still has a task whose stop request has returned. -/
def Settles (s : State) (l : Live) : Event → Prop
  | .prepared none => l.NobodyWaits
  | .readClosed => l.closed = true → l.NobodyWaits
  | .deleteStopTask taskId => ∀ task token,
      l.watcher = .finished task token false ∨ l.watcher = .signalled task token false →
        task.taskId ≠ taskId
  | .crash => ∀ uid, Act.stopReturned uid ∈ s.log → uid ∉ s.uids
  | _ => True

/-- The same for any step; opening the storage is always fine. -/
def StepSettles (s : State) (e : Event) : Prop := ∀ l, s.live = some l → s.Settles l e

def Final (s : State) : Prop := StopsAreFinal s.log

end State

theorem StopsAreFinal.append {acts log : List Act} (hlog : StopsAreFinal log)
    (hacts : ∀ a ∈ acts, ∃ uid, a = .deletedRows uid ∧ Act.stopReturned uid ∉ log) :
    StopsAreFinal (acts ++ log) := by
  induction acts with
  | nil => exact hlog
  | cons a acts ih =>
    have ih := ih fun b hb => hacts b (mem_cons_of_mem a hb)
    refine ⟨?_, ih⟩
    intro uid ha hmem
    obtain ⟨uid', rfl, hnot⟩ := hacts a mem_cons_self
    obtain rfl : uid' = uid := by
      rcases ha with ha | ha
      · cases ha
      · exact Act.deletedRows.inj ha
    rcases mem_append.1 hmem with hmem | hmem
    · obtain ⟨_, hb, _⟩ := hacts _ (mem_cons_of_mem _ hmem)
      cases hb
    · exact hnot hmem

theorem eraseP_of_find?_eq_some {α : Type} {p : α → Bool} {as : List α} {a : α} (hfind : as.find? p = some a) :
    ∃ before after, as = before ++ a :: after ∧ as.eraseP p = before ++ after := by
  obtain ⟨hp, before, after, has, hbefore⟩ := List.find?_eq_some_iff_append.1 hfind
  refine ⟨before, after, has, ?_⟩
  rw [has, eraseP_append_right _ fun b hb => by simpa using hbefore b hb]
  exact congrArg _ (eraseP_cons_of_pos hp)

theorem Watcher.not_isSignalled {w w' : Watcher} (hw : w = w')
    (hw' : ∀ task token ok, w' ≠ .signalled task token ok) : ¬w.IsSignalled := by
  rintro ⟨task, token, ok, hsig⟩
  exact hw' task token ok (hw.symm.trans hsig)

namespace State.Tracks

variable {s : State} {l : Live}

theorem of_live {l' : Live} (hl : s.live = some l') (hsaved : s.file = l'.tasks.map Entry.task)
    (hinv : l'.Inv) : s.Tracks where
  saved _ h := Option.some.inj (hl.symm.trans h) ▸ hsaved
  live _ h := Option.some.inj (hl.symm.trans h) ▸ hinv

section

variable (ht : s.Tracks) (hl : s.live = some l)
include ht hl

/-- The watcher goes on with the same task, before it has told that the task is done. -/
theorem setWatcher {w : Watcher} (acts : List Act) (hrun : w.running = l.watcher.running)
    (hsig : ¬l.watcher.IsSignalled) (hsig' : ¬w.IsSignalled) : (s.setWatcher l w acts).Tracks := by
  have hli := ht.live l hl
  refine of_live rfl (ht.saved l hl) ⟨?_, ?_, ?_, ?_,
    fun task token ok hw => absurd ⟨task, token, ok, hw⟩ hsig', hli.stop_lt, ?_⟩
  · intro task token hr
    exact hli.running task token (hrun ▸ hr)
  · intro hr
    exact hli.idle (hrun ▸ hr)
  · intro task token hr
    exact hli.token_lt task token (hrun ▸ hr)
  · intro task token hr hdone
    exact absurd (hli.not_done task token (hrun ▸ hr) hdone) hsig
  · intro task token hstop hdone
    obtain ⟨hr, hc⟩ := hli.stop_waits task token hstop hdone
    exact ⟨hrun.trans hr, hc⟩

theorem deleteRunTask (taskId : String) : (s.deleteRunTask l taskId).Tracks := by
  unfold State.deleteRunTask
  split_ifs with hany
  · exact ht
  · have hli := ht.live l hl
    refine of_live rfl rfl
      ⟨?_, ?_, hli.token_lt, hli.not_done, hli.signalled, hli.stop_lt, hli.stop_waits⟩
    · intro task token hr
      obtain ⟨rest, htasks, hrest⟩ := hli.running task token hr
      refine ⟨rest ++ [⟨⟨s.registered, taskId⟩, none⟩], ?_, ?_⟩
      · change l.tasks ++ _ = _
        rw [htasks]
        rfl
      · exact forall_mem_append.2 ⟨hrest, forall_mem_singleton.2 rfl⟩
    · exact fun hr => forall_mem_append.2 ⟨hli.idle hr, forall_mem_singleton.2 rfl⟩

/-- Only the entry of the running task has a token. -/
theorem running_of_token {task : Task} {token : Nat} (he : (⟨task, some token⟩ : Entry) ∈ l.tasks) :
    l.watcher.running = some (task, token) := by
  have hli := ht.live l hl
  cases hr : l.watcher.running with
  | none => exact absurd (hli.idle hr _ he) (by simp)
  | some r =>
    obtain ⟨rest, htasks, hrest⟩ := hli.running r.1 r.2 hr
    rw [htasks] at he
    rcases mem_cons.1 he with he | he
    · cases he
      rfl
    · exact absurd (hrest _ he) (by simp)

/-- A stop request of the running task sets its flag and waits. -/
theorem stopRunning {task : Task} {token : Nat} (he : (⟨task, some token⟩ : Entry) ∈ l.tasks) :
    Tracks { s with live := some { l with
          cancelled := Function.update l.cancelled token true
          stops := l.stops ++ [(task, some token)] } } := by
  have hli := ht.live l hl
  have hrunning := ht.running_of_token hl he
  refine of_live rfl (ht.saved l hl) { hli with stop_lt := ?_, stop_waits := ?_ }
  · intro task' token' hstop
    rcases mem_append.1 hstop with hstop | hstop
    · exact hli.stop_lt task' token' hstop
    · cases mem_singleton.1 hstop
      exact hli.token_lt task token hrunning
  · intro task' token' hstop hdone
    rcases mem_append.1 hstop with hstop | hstop
    · obtain ⟨hr, hc⟩ := hli.stop_waits task' token' hstop hdone
      refine ⟨hr, ?_⟩
      change Function.update l.cancelled token true token' = true
      by_cases htok : token' = token
      · rw [htok, Function.update_self]
      · rw [Function.update_of_ne htok]
        exact hc
    · cases mem_singleton.1 hstop
      exact ⟨hrunning, Function.update_self ..⟩

/-- A stop request of a task that is not running takes it out of the list. -/
theorem stopPending {task : Task} {before after : List Entry}
    (htasks : l.tasks = before ++ ⟨task, none⟩ :: after) :
    (s.save { l with stops := l.stops ++ [(task, none)] } (before ++ after)).Tracks := by
  have hli := ht.live l hl
  have hstops : ∀ task' token', (task', some token') ∈ l.stops ++ [(task, none)] →
      (task', some token') ∈ l.stops := by
    intro task' token' hstop
    rcases mem_append.1 hstop with hstop | hstop
    · exact hstop
    · cases mem_singleton.1 hstop
  refine of_live rfl rfl ⟨?_, ?_, hli.token_lt, hli.not_done, hli.signalled, ?_, ?_⟩
  · intro task' token' hr
    obtain ⟨rest, htasks', hrest⟩ := hli.running task' token' hr
    -- the entry of the running task stands before the one that is taken out
    cases before with
    | nil =>
      rw [htasks, nil_append] at htasks'
      exact absurd (Entry.mk.inj (List.cons.inj htasks').1).2 (by simp)
    | cons e before =>
      rw [htasks, cons_append] at htasks'
      cases htasks'
      refine ⟨before ++ after, rfl, ?_⟩
      exact fun e he => hrest e (((sublist_cons_self _ _).append_left _).subset he)
  · exact fun hr e he => hli.idle hr e (htasks ▸ ((sublist_cons_self _ _).append_left _).subset he)
  · exact fun task' token' hstop => hli.stop_lt task' token' (hstops task' token' hstop)
  · exact fun task' token' hstop => hli.stop_waits task' token' (hstops task' token' hstop)

theorem deleteStopTask (taskId : String) : (s.deleteStopTask l taskId).Tracks := by
  unfold State.deleteStopTask
  split
  · exact ht
  · rename_i task token hfind
    exact ht.stopRunning hl (mem_of_find?_eq_some hfind)
  · rename_i task hfind
    obtain ⟨before, after, htasks, herase⟩ := eraseP_of_find?_eq_some hfind
    rw [herase]
    exact ht.stopPending hl htasks

/-- A stop request returns. -/
theorem stopReturns (i : Nat) (acts : List Act) :
    Tracks { s with live := some { l with stops := l.stops.eraseIdx i }, log := acts ++ s.log } := by
  have hli := ht.live l hl
  exact of_live rfl (ht.saved l hl) { hli with
    stop_lt := fun task token hstop => hli.stop_lt task token (mem_of_mem_eraseIdx hstop)
    stop_waits := fun task token hstop => hli.stop_waits task token (mem_of_mem_eraseIdx hstop) }

/-- The new token is larger than the ones that requests wait for. -/
theorem done_pick {task : Task} {token : Nat} (hstop : (task, some token) ∈ l.stops) :
    Function.update l.done l.tokens false token = l.done token :=
  Function.update_of_ne ((ht.live l hl).stop_lt task token hstop).ne _ _

theorem pick (hw : l.watcher = .woken) : (s.pick l).Tracks := by
  have hli := ht.live l hl
  have hrun : l.watcher.running = none := by rw [hw]; rfl
  unfold State.pick
  cases htasks : l.tasks with
  | nil =>
    exact ht.setWatcher hl [] hrun.symm (Watcher.not_isSignalled hw (by simp))
      (Watcher.not_isSignalled rfl (by simp))
  | cons e rest =>
    refine of_live rfl ?_ ⟨?_, ?_, ?_, ?_, fun _ _ _ h => absurd h (by simp), ?_, ?_⟩
    · change s.file = _
      rw [ht.saved l hl, htasks]
      rfl
    · intro task token hr
      cases hr
      refine ⟨rest, rfl, ?_⟩
      intro e' he'
      apply hli.idle hrun
      rw [htasks]
      exact mem_cons_of_mem _ he'
    · exact fun hr => absurd hr (by simp [Watcher.running])
    · intro task token hr
      cases hr
      exact Nat.lt_succ_self _
    · intro task token hr hd
      cases hr
      exact absurd hd (by simp)
    · exact fun task token hstop => Nat.lt_succ_of_lt (hli.stop_lt task token hstop)
    · intro task token hstop hd
      have hr := (hli.stop_waits task token hstop ((ht.done_pick hl hstop).symm.trans hd)).1
      cases hr.symm.trans hrun

/-- The watcher tells that the task is done. -/
theorem signal {task : Task} {token : Nat} {ok : Bool} (hw : l.watcher = .finished task token ok) :
    Tracks { s with live := some { l with
      done := Function.update l.done token true
      watcher := .signalled task token ok } } := by
  have hli := ht.live l hl
  have hrun : l.watcher.running = some (task, token) := by rw [hw]; rfl
  refine of_live rfl (ht.saved l hl) ⟨?_, ?_, ?_, ?_, ?_, hli.stop_lt, ?_⟩
  · intro task' token' hr
    exact hli.running task' token' (hrun.trans hr)
  · exact fun hr => absurd hr (by simp [Watcher.running])
  · intro task' token' hr
    exact hli.token_lt task' token' (hrun.trans hr)
  · exact fun _ _ _ _ => ⟨task, token, ok, rfl⟩
  · intro task' token' ok' hw'
    rw [(Watcher.signalled.inj hw').2.1]
    exact Function.update_self ..
  · intro task' token' hstop hd
    change Function.update l.done token true token' = false at hd
    by_cases htok : token' = token
    · rw [htok, Function.update_self] at hd
      cases hd
    · rw [Function.update_of_ne htok] at hd
      cases hrun.symm.trans (hli.stop_waits task' token' hstop hd).1
      exact absurd rfl htok

/-- The watcher takes the task out of the list, or puts it at the end. -/
theorem remove {task : Task} {token : Nat} {ok : Bool} (hw : l.watcher = .signalled task token ok) :
    ∃ rest, l.tasks = ⟨task, some token⟩ :: rest ∧
      s.remove l ok =
        .ok (s.save { l with watcher := .waiting } (if ok then rest else rest ++ [⟨task, none⟩])) ∧
      (s.save { l with watcher := .waiting } (if ok then rest else rest ++ [⟨task, none⟩])).Tracks := by
  have hli := ht.live l hl
  have hrun : l.watcher.running = some (task, token) := by rw [hw]; rfl
  obtain ⟨rest, htasks, hrest⟩ := hli.running task token hrun
  refine ⟨rest, htasks, by rw [State.remove, htasks], of_live rfl rfl (Live.inv_of_idle rfl ?_ ?_)⟩
  · show ∀ e ∈ (if ok then rest else rest ++ [⟨task, none⟩]), e.token = none
    split_ifs
    · exact hrest
    · exact forall_mem_append.2 ⟨hrest, forall_mem_singleton.2 rfl⟩
  · intro task' token' hstop
    refine ⟨hli.stop_lt task' token' hstop, ?_⟩
    by_contra hd
    have hd : l.done token' = false := Bool.not_eq_true _ ▸ hd
    cases hrun.symm.trans (hli.stop_waits task' token' hstop hd).1
    cases hd.symm.trans (hli.signalled task token ok hw)

/-- Closing the storage only sets flags. -/
theorem setFlags (closed : Bool) {cancelled : Nat → Bool}
    (hc : ∀ token, l.cancelled token = true → cancelled token = true) :
    Tracks { s with live := some { l with closed := closed, cancelled := cancelled } } := by
  have hli := ht.live l hl
  refine of_live rfl (ht.saved l hl) { hli with stop_waits := ?_ }
  intro task token hstop hd
  obtain ⟨hr, hcan⟩ := hli.stop_waits task token hstop hd
  exact ⟨hr, hc token hcan⟩

end

theorem down (s : State) : Tracks { s with live := none } := ⟨nofun, nofun⟩

theorem openStorage (s : State) : s.openStorage.Tracks := by
  refine of_live rfl ?_ (Live.inv_of_idle rfl (forall_mem_map.2 fun _ _ => rfl) nofun)
  change s.file = (s.file.map fun task => (⟨task, none⟩ : Entry)).map Entry.task
  rw [map_map]
  exact (map_id _).symm

end State.Tracks

namespace State.Inv

open Watcher

variable {s : State} {l : Live}

theorem uid_mem (hs : s.Inv) (hl : s.live = some l) {e : Entry} (he : e ∈ l.tasks) : e.task.uid ∈ s.uids := by
  rw [State.uids, hs.saved l hl, map_map]
  exact mem_map.2 ⟨e, he, rfl⟩

/-- A task that the watcher executes is not withdrawn before the watcher has told so. -/
theorem not_withdrawn (hs : s.Inv) (hl : s.live = some l) (hsig : ¬l.watcher.IsSignalled)
    {e : Entry} (he : e ∈ l.tasks) : Act.stopReturned e.task.uid ∉ s.log := by
  intro hret
  obtain ⟨_, hnot | ⟨l', hl', task, token, hw, _⟩⟩ := hs.returned _ hret
  · exact hnot (hs.uid_mem hl he)
  · cases hl.symm.trans hl'
    exact hsig ⟨task, token, true, hw⟩

/-- Withdrawn tasks stay so while no old task comes back and the watcher waits for the lock or is not at its end. -/
theorem withdrawn_mono {s' : State} {l' : Live} {uid : Nat} (hl : s.live = some l) (hl' : s'.live = some l')
    (hw : l'.watcher = l.watcher ∨ ¬l.watcher.IsSignalled) (hreg : s.registered ≤ s'.registered)
    (huids : ∀ uid < s.registered, uid ∈ s'.uids → uid ∈ s.uids) (h : s.Withdrawn uid) : s'.Withdrawn uid := by
  obtain ⟨hlt, hnot | ⟨l'', hl'', hleave⟩⟩ := h
  · exact ⟨lt_of_lt_of_le hlt hreg, .inl fun hmem => hnot (huids uid hlt hmem)⟩
  · cases hl.symm.trans hl''
    rcases hw with hw | hsig
    · exact ⟨lt_of_lt_of_le hlt hreg, .inr ⟨l', hl', hw ▸ hleave⟩⟩
    · obtain ⟨task, token, hw, -⟩ := hleave
      exact absurd ⟨task, token, true, hw⟩ hsig

/-- What is to be shown of a step of the running process: withdrawn tasks stay so, nobody waits for a task
that is tried again, and the requests that have become free belong to withdrawn tasks. -/
theorem of_live {s' : State} {l' : Live} (hs : s.Inv) (hl : s.live = some l) (hl' : s'.live = some l')
    (htracks : s'.Tracks)
    (hkeep : ∀ uid, s.Withdrawn uid → s'.Withdrawn uid) (hnodup : s'.uids.Nodup)
    (hlt : ∀ uid ∈ s'.uids, uid < s'.registered) (hfinal : StopsAreFinal s'.log)
    (hlog : ∀ uid, Act.stopReturned uid ∈ s'.log → Act.stopReturned uid ∈ s.log ∨ s'.Withdrawn uid)
    (hagain : ∀ task token, (task, some token) ∈ l'.stops → l'.done token = false →
      l'.watcher ≠ .finished task token false)
    (hstops : ∀ task token, (task, token) ∈ l'.stops → token.all l'.done = true →
      (task, token) ∈ l.stops ∧ token.all l.done = true ∨ s'.Withdrawn task.uid) : s'.Inv := by
  have hunique : ∀ l'', s'.live = some l'' → l' = l'' :=
    fun _ h => Option.some.inj (hl'.symm.trans h)
  refine ⟨htracks, hnodup, hlt, hfinal, ?_, ?_, ?_⟩
  · intro uid hret
    exact (hlog uid hret).elim (fun h => hkeep uid (hs.returned uid h)) id
  · exact fun l'' h => hunique l'' h ▸ hagain
  · intro l'' h task token hstop hdone
    obtain rfl := hunique l'' h
    rcases hstops task token hstop hdone with ⟨hold, hd⟩ | hw
    · exact hkeep _ (hs.stopped l hl task token hold hd)
    · exact hw

/-- The same of a step that does not save the list. -/
theorem of_unsaved (hs : s.Inv) (hl : s.live = some l) {l' : Live} (acts : List Act)
    (hw : l'.watcher = l.watcher ∨ ¬l.watcher.IsSignalled)
    (htracks : Tracks { s with live := some l', log := acts ++ s.log })
    (hfinal : StopsAreFinal (acts ++ s.log))
    (hacts : ∀ uid, Act.stopReturned uid ∈ acts → s.Withdrawn uid)
    (hagain : ∀ task token, (task, some token) ∈ l'.stops → l'.done token = false →
      l'.watcher ≠ .finished task token false)
    (hstops : ∀ task token, (task, token) ∈ l'.stops → token.all l'.done = true →
      (task, token) ∈ l.stops ∧ token.all l.done = true ∨ State.Withdrawn { s with live := some l' } task.uid) :
    Inv { s with live := some l', log := acts ++ s.log } := by
  have hkeep : ∀ uid, s.Withdrawn uid → State.Withdrawn { s with live := some l', log := acts ++ s.log } uid :=
    fun uid => withdrawn_mono hl rfl hw le_rfl fun _ _ hmem => hmem
  refine hs.of_live hl rfl htracks hkeep hs.nodup hs.uid_lt hfinal ?_ hagain hstops
  intro uid hret
  rcases mem_append.1 hret with hret | hret
  · exact .inr (hkeep uid (hacts uid hret))
  · exact .inl hret

theorem setWatcher (hs : s.Inv) (hl : s.live = some l) {w : Watcher} {acts : List Act}
    (hrun : w.running = l.watcher.running) (hsig : ¬l.watcher.IsSignalled) (hsig' : ¬w.IsSignalled)
    (hagain : ∀ task token, w = .finished task token false → l.NobodyWaits)
    (hacts : ∀ a ∈ acts, ∃ task token, l.watcher.running = some (task, token) ∧
      a = .deletedRows task.uid) : (s.setWatcher l w acts).Inv := by
  have hli := hs.live l hl
  refine hs.of_unsaved hl acts (.inr hsig) (hs.toTracks.setWatcher hl acts hrun hsig hsig') ?_ ?_ ?_
    fun _ _ hstop hd => .inl ⟨hstop, hd⟩
  · apply hs.final.append
    intro a ha
    obtain ⟨task, token, hr, rfl⟩ := hacts a ha
    obtain ⟨rest, htasks, _⟩ := hli.running task token hr
    refine ⟨task.uid, rfl, ?_⟩
    exact hs.not_withdrawn hl hsig (e := ⟨task, some token⟩) (by rw [htasks]; exact mem_cons_self)
  · intro uid hret
    obtain ⟨_, _, _, hact⟩ := hacts _ hret
    cases hact
  · intro task token hstop hdone hw
    have hd := hagain task token hw _ hstop
    rw [Option.all_some] at hd
    exact Bool.false_ne_true (hdone.symm.trans hd)

/-- The watcher goes on and deletes nothing. -/
theorem advance {C : Prop} (ht : s.Tracks) (hl : s.live = some l) {w w' : Watcher} (hw : l.watcher = w)
    (hrun : w'.running = w.running)
    (hagain : C → ∀ task token, w' = .finished task token false → l.NobodyWaits := by simp)
    (hsig : ∀ task token ok, w ≠ .signalled task token ok := by simp)
    (hsig' : ∀ task token ok, w' ≠ .signalled task token ok := by simp) :
    (s.setWatcher l w' []).Tracks ∧ (s.Inv → C → (s.setWatcher l w' []).Inv) := by
  have hrun' : w'.running = l.watcher.running := hw ▸ hrun
  have hnot := not_isSignalled hw hsig
  have hnot' := not_isSignalled (w := w') rfl hsig'
  exact ⟨ht.setWatcher hl [] hrun' hnot hnot', fun hs hc => hs.setWatcher hl hrun' hnot hnot' (hagain hc) (by simp)⟩

section

variable (hs : s.Inv) (hl : s.live = some l)
include hs hl

theorem deleteRunTask (taskId : String) :
    (s.deleteRunTask l taskId).Inv := by
  have htracks := hs.toTracks.deleteRunTask hl taskId
  unfold State.deleteRunTask at htracks ⊢
  split_ifs at htracks ⊢ with hany
  · exact hs
  · set s' := State.save { s with registered := s.registered + 1 } l
      (l.tasks ++ [⟨⟨s.registered, taskId⟩, none⟩]) with hs'
    have huids : s'.uids = s.uids ++ [s.registered] := by
      rw [State.uids, State.uids, hs.saved l hl, hs']
      simp [State.save]
    have hlive : s'.live =
        some { l with tasks := l.tasks ++ [⟨⟨s.registered, taskId⟩, none⟩] } := rfl
    have hkeep : ∀ uid, s.Withdrawn uid → s'.Withdrawn uid := by
      intro uid
      apply withdrawn_mono hl hlive (.inl rfl) (Nat.le_succ _)
      intro uid hlt hmem
      rw [huids] at hmem
      rcases mem_append.1 hmem with hmem | hmem
      · exact hmem
      · exact absurd (mem_singleton.1 hmem) hlt.ne
    refine hs.of_live hl hlive htracks hkeep ?_ ?_ hs.final (fun _ => .inl) (hs.not_again l hl)
      fun _ _ hstop hd => .inl ⟨hstop, hd⟩
    · rw [huids]
      have hnew : s.registered ∉ s.uids := fun h => (hs.uid_lt _ h).ne rfl
      exact nodup_append'.2 ⟨hs.nodup, nodup_singleton _, disjoint_singleton.2 hnew⟩
    · rw [huids]
      exact forall_mem_append.2 ⟨fun uid h => Nat.lt_succ_of_lt (hs.uid_lt uid h),
        forall_mem_singleton.2 (Nat.lt_succ_self _)⟩

theorem stopRunning {task : Task} {token : Nat}
    (he : (⟨task, some token⟩ : Entry) ∈ l.tasks)
    (hagain : ∀ ok, l.watcher = .finished task token ok ∨ l.watcher = .signalled task token ok →
      ok = true) :
    Inv { s with live := some { l with
          cancelled := Function.update l.cancelled token true
          stops := l.stops ++ [(task, some token)] } } := by
  have hrunning := hs.running_of_token hl he
  refine hs.of_unsaved hl [] (.inl rfl) (hs.toTracks.stopRunning hl he) hs.final nofun ?_ ?_
  · intro task' token' hstop hdone hw
    rcases mem_append.1 hstop with hstop | hstop
    · exact hs.not_again l hl task' token' hstop hdone hw
    · cases mem_singleton.1 hstop
      exact Bool.false_ne_true (hagain false (.inl hw))
  · intro task' token' hstop hdone
    rcases mem_append.1 hstop with hstop | hstop
    · exact .inl ⟨hstop, hdone⟩
    · -- the task was done already, so the watcher is about to take it out
      cases mem_singleton.1 hstop
      obtain ⟨task', token', ok, hw⟩ := (hs.live l hl).not_done _ _ hrunning hdone
      rw [hw] at hrunning
      cases hrunning
      obtain rfl := hagain ok (.inr hw)
      exact .inr ⟨hs.uid_lt _ (hs.uid_mem hl he), .inr ⟨_, rfl, task, token, hw, rfl⟩⟩

theorem stopPending {task : Task} {before after : List Entry}
    (htasks : l.tasks = before ++ ⟨task, none⟩ :: after) :
    (s.save { l with stops := l.stops ++ [(task, none)] } (before ++ after)).Inv := by
  set s' := s.save { l with stops := l.stops ++ [(task, none)] } (before ++ after) with hs'
  have hlive : s'.live = some { l with tasks := before ++ after, stops := l.stops ++ [(task, none)] } := rfl
  have huids : s.uids = (before.map Entry.task).map Task.uid ++
      task.uid :: (after.map Entry.task).map Task.uid := by
    rw [State.uids, hs.saved l hl, htasks]
    simp only [map_append, map_cons]
  have huids' : s'.uids = (before.map Entry.task).map Task.uid ++
      (after.map Entry.task).map Task.uid := by
    rw [State.uids, hs']
    simp only [State.save, map_append]
  have hsub : s'.uids.Sublist s.uids := by
    rw [huids, huids']
    exact (sublist_cons_self _ _).append_left _
  have hkeep : ∀ uid, s.Withdrawn uid → s'.Withdrawn uid :=
    fun uid => withdrawn_mono hl hlive (.inl rfl) le_rfl fun _ _ hmem => hsub.subset hmem
  refine hs.of_live hl hlive (hs.toTracks.stopPending hl htasks) hkeep (hs.nodup.sublist hsub)
    (fun uid hmem => hs.uid_lt uid (hsub.subset hmem)) hs.final (fun _ => .inl) ?_ ?_
  · intro task' token' hstop
    rcases mem_append.1 hstop with hstop | hstop
    · exact hs.not_again l hl task' token' hstop
    · cases mem_singleton.1 hstop
  · intro task' token' hstop hdone
    rcases mem_append.1 hstop with hstop | hstop
    · exact .inl ⟨hstop, hdone⟩
    · cases mem_singleton.1 hstop
      refine .inr ⟨hs.uid_lt _ (hs.uid_mem hl (htasks ▸ mem_append_right _ mem_cons_self)), .inl ?_⟩
      have hnodup := hs.nodup
      rw [huids] at hnodup
      rw [huids']
      exact (nodup_cons.1 (perm_middle.nodup_iff.1 hnodup)).1

theorem deleteStopTask {taskId : String}
    (hset : s.Settles l (.deleteStopTask taskId)) : (s.deleteStopTask l taskId).Inv := by
  unfold State.deleteStopTask
  split
  · exact hs
  · rename_i task token hfind
    apply hs.stopRunning hl (mem_of_find?_eq_some hfind)
    intro ok hw
    have hid : task.taskId = taskId := by simpa using List.find?_some hfind
    cases ok with
    | true => rfl
    | false => exact absurd hid (hset task token hw)
  · rename_i task hfind
    obtain ⟨before, after, htasks, herase⟩ := eraseP_of_find?_eq_some hfind
    rw [herase]
    exact hs.stopPending hl htasks

theorem stopReturns {i : Nat} {task : Task} {token : Option Nat}
    (hi : l.stops[i]? = some (task, token)) (hdone : token.all l.done = true) :
    Inv { s with
      live := some { l with stops := l.stops.eraseIdx i }
      log := .stopReturned task.uid :: s.log } := by
  have hmem : (task, token) ∈ l.stops := mem_of_getElem? hi
  have hstops : ∀ p, p ∈ l.stops.eraseIdx i → p ∈ l.stops := fun p => mem_of_mem_eraseIdx
  refine hs.of_unsaved hl [.stopReturned task.uid] (.inl rfl) (hs.toTracks.stopReturns hl i _)
    ⟨?_, hs.final⟩ ?_ (fun _ _ hstop => hs.not_again l hl _ _ (hstops _ hstop))
    fun _ _ hstop hd => .inl ⟨hstops _ hstop, hd⟩
  · intro uid hact
    rcases hact with hact | hact
    · cases hact
    · cases hact
  · intro uid hret
    rw [Act.stopReturned.inj (mem_singleton.1 hret)]
    exact hs.stopped l hl task token hmem hdone

theorem pick (hw : l.watcher = .woken) : (s.pick l).Inv := by
  have htracks := hs.toTracks.pick hl hw
  have hsig := not_isSignalled hw (by simp)
  unfold State.pick at htracks ⊢
  cases htasks : l.tasks with
  | nil =>
    exact (advance hs.toTracks hl hw (rfl : waiting.running = _)).2 hs trivial
  | cons e rest =>
    rw [htasks] at htracks
    refine hs.of_unsaved hl [.started e.task.uid] (.inr hsig) htracks ⟨?_, hs.final⟩ nofun
      (fun _ _ _ _ => by simp) ?_
    · intro uid hact
      rcases hact with hact | hact
      · rw [← Act.started.inj hact]
        exact hs.not_withdrawn hl hsig (htasks ▸ mem_cons_self)
      · cases hact
    · intro task token hstop hd
      refine .inl ⟨hstop, ?_⟩
      cases token with
      | none => rfl
      | some token =>
        rw [Option.all_some] at hd ⊢
        exact (hs.done_pick hl hstop).symm.trans hd

/-- The watcher tells that the task is done; whoever waits for it has made sure that it is not tried
again. -/
theorem signal {task : Task} {token : Nat} {ok : Bool}
    (hw : l.watcher = .finished task token ok) :
    Inv { s with live := some { l with
      done := Function.update l.done token true
      watcher := .signalled task token ok } } := by
  have hli := hs.live l hl
  have hrun : l.watcher.running = some (task, token) := by rw [hw]; rfl
  have hsig := not_isSignalled hw (by simp)
  refine hs.of_unsaved hl [] (.inr hsig) (hs.toTracks.signal hl hw) hs.final nofun
    (fun _ _ _ _ => by simp) ?_
  intro task' token' hstop hd
  by_cases hold : token'.all l.done = true
  · exact .inl ⟨hstop, hold⟩
  · -- this request has waited for the running task
    cases token' with
    | none => exact absurd rfl hold
    | some token' =>
      rw [Option.all_some, Bool.not_eq_true] at hold
      cases hrun.symm.trans (hli.stop_waits task' token' hstop hold).1
      obtain ⟨rest, htasks, _⟩ := hli.running task token hrun
      cases ok with
      | false => exact absurd hw (hs.not_again l hl task token hstop hold)
      | true =>
        have hmem := hs.uid_mem hl (htasks ▸ mem_cons_self)
        exact .inr ⟨hs.uid_lt _ hmem, .inr ⟨_, rfl, task, token, rfl, rfl⟩⟩

theorem remove {task : Task} {token : Nat} {ok : Bool}
    (hw : l.watcher = .signalled task token ok) : ∃ s', s.remove l ok = .ok s' ∧ s'.Inv := by
  obtain ⟨rest, htasks, hremove, htracks⟩ := hs.toTracks.remove hl hw
  set tasks : List Entry := if ok then rest else rest ++ [⟨task, none⟩] with htasks'
  set s' := s.save { l with watcher := .waiting } tasks with hs'
  refine ⟨s', hremove, ?_⟩
  have huids : s.uids = task.uid :: (rest.map Entry.task).map Task.uid := by
    rw [State.uids, hs.saved l hl, htasks, map_cons, map_cons]
  have huids' : s'.uids = (rest.map Entry.task).map Task.uid ++ if ok then [] else [task.uid] := by
    rw [State.uids, hs', State.save, htasks']
    cases ok with
    | true => simp only [if_true, append_nil]
    | false => simp only [Bool.false_eq_true, if_false, map_append, map_cons, map_nil]
  obtain ⟨uids, hperm, hsub⟩ : s'.uids <+~ s.uids := by
    rw [huids, huids']
    split_ifs
    · rw [append_nil]
      exact (sublist_cons_self _ _).subperm
    · exact (perm_append_singleton _ _).subperm
  have hmem : ∀ uid ∈ s'.uids, uid ∈ s.uids := fun _ h => hsub.subset (hperm.mem_iff.2 h)
  have hnodup := hs.nodup
  rw [huids, nodup_cons] at hnodup
  have hkeep : ∀ uid, s.Withdrawn uid → s'.Withdrawn uid := by
    intro uid h
    obtain ⟨hlt, hnot | ⟨l', hl', task', token', hw', rfl⟩⟩ := h
    · exact ⟨hlt, .inl fun h => hnot (hmem uid h)⟩
    · cases hl.symm.trans hl'
      cases hw.symm.trans hw'
      refine ⟨hlt, .inl ?_⟩
      rw [huids', if_pos rfl, append_nil]
      exact hnodup.1
  exact hs.of_live hl rfl htracks hkeep (hperm.nodup_iff.1 (hs.nodup.sublist hsub))
    (fun uid h => hs.uid_lt uid (hmem uid h)) hs.final (fun _ => .inl) (fun _ _ _ _ => nofun)
    fun _ _ hstop hd => .inl ⟨hstop, hd⟩

theorem setFlags (closed : Bool) {cancelled : Nat → Bool}
    (hc : ∀ token, l.cancelled token = true → cancelled token = true) :
    Inv { s with live := some { l with closed := closed, cancelled := cancelled } } := by
  exact hs.of_unsaved hl [] (.inl rfl) (hs.toTracks.setFlags hl closed hc) hs.final nofun
    (hs.not_again l hl) fun _ _ hstop hd => .inl ⟨hstop, hd⟩

end

/-- The process ends, and only the file is left. -/
theorem down (hs : s.Inv) (hret : ∀ uid, Act.stopReturned uid ∈ s.log → uid ∉ s.uids) :
    Inv { s with live := none } := by
  refine ⟨.down s, hs.nodup, hs.uid_lt, hs.final, ?_, nofun, nofun⟩
  exact fun uid h => ⟨(hs.returned uid h).1, .inl (hret uid h)⟩

theorem openStorage (hs : s.Inv) (hl : s.live = none) : s.openStorage.Inv := by
  refine ⟨.openStorage s, hs.nodup, hs.uid_lt, hs.final, ?_, ?_, ?_⟩
  · intro uid hret
    obtain ⟨hlt, hnot | ⟨l, hl', _⟩⟩ := hs.returned uid hret
    · exact ⟨hlt, .inl hnot⟩
    · cases hl.symm.trans hl'
  · intro l hl' task token hstop
    cases hl'
    cases hstop
  · intro l hl' task token hstop
    cases hl'
    cases hstop

end State.Inv

namespace State

open Watcher

variable {s : State} {l : Live}

/-- No step panics, the requests and the watcher agree after it, and it keeps the invariant if it meets the
condition. -/
theorem liveStep_spec (ht : s.Tracks) (hl : s.live = some l) {e : Event}
    {r : Except Panic State} (hr : s.liveStep l e = some r) :
    ∃ s', r = .ok s' ∧ s'.Tracks ∧ (s.Inv → s.Settles l e → s'.Inv) := by
  cases e <;> simp only [liveStep] at hr
  case openStorage => cases hr
  case deleteRunTask taskId =>
    cases hr
    exact ⟨_, rfl, ht.deleteRunTask hl taskId, fun hs _ => hs.deleteRunTask hl taskId⟩
  case deleteStopTask taskId =>
    cases hr
    exact ⟨_, rfl, ht.deleteStopTask hl taskId, fun hs hset => hs.deleteStopTask hl hset⟩
  case stopReturns i =>
    split at hr
    case h_1 => cases hr
    case h_2 hi =>
      split_ifs at hr with hdone
      cases hr
      exact ⟨_, rfl, ht.stopReturns hl i [_], fun hs _ => hs.stopReturns hl hi hdone⟩
  case tick =>
    split at hr <;> cases hr
    rename_i hw
    refine ⟨_, rfl, ?_⟩
    split_ifs <;> exact Inv.advance ht hl hw rfl
  case pick =>
    split at hr <;> cases hr
    rename_i hw
    exact ⟨_, rfl, ht.pick hl hw, fun hs _ => hs.pick hl hw⟩
  case prepared partitions =>
    split at hr <;> cases hr
    rename_i task token hw
    refine ⟨_, rfl, ?_⟩
    cases partitions with
    | none => exact Inv.advance ht hl hw rfl fun hset _ _ _ => hset
    | some n => exact Inv.advance ht hl hw rfl
  case deletePartition rows ok' =>
    split at hr <;> cases hr
    rename_i task token left ok hw
    have hrun : l.watcher.running = some (task, token) := by rw [hw]; rfl
    have hsig := not_isSignalled hw (by simp)
    have hsig' := not_isSignalled (w := .deleting task token left (ok && ok')) rfl (by simp)
    refine ⟨_, rfl, ht.setWatcher hl _ hrun.symm hsig hsig', fun hs _ =>
      hs.setWatcher hl hrun.symm hsig hsig' (fun _ _ h => by cases h) ?_⟩
    intro a ha
    refine ⟨task, token, hrun, ?_⟩
    split_ifs at ha
    · exact mem_singleton.1 ha
    · cases ha
  case deleted =>
    split at hr <;> cases hr
    rename_i task token ok hw
    refine ⟨_, rfl, ?_⟩
    split_ifs <;> exact Inv.advance ht hl hw rfl
  case readClosed =>
    split at hr <;> cases hr
    rename_i task token hw
    refine ⟨_, rfl, ?_⟩
    split_ifs with hclosed
    · exact Inv.advance ht hl hw rfl fun hset _ _ _ => hset hclosed
    · exact Inv.advance ht hl hw rfl
  case readCancel =>
    split at hr <;> cases hr
    rename_i task token hw
    refine ⟨_, rfl, Inv.advance ht hl hw rfl ?_⟩
    -- a waiting request has set the flag, so the task is not tried again
    intro _ task' token' h p hp
    obtain ⟨_, rfl, hcan⟩ := Watcher.finished.inj h
    obtain ⟨taskp, tokenp⟩ := p
    cases tokenp with
    | none => rfl
    | some tokenp =>
      rw [Option.all_some]
      by_contra hd
      rw [Bool.not_eq_true] at hd
      obtain ⟨hrun, hcan'⟩ := (ht.live l hl).stop_waits taskp tokenp hp hd
      rw [hw] at hrun
      cases hrun
      cases hcan.symm.trans hcan'
  case signal =>
    split at hr <;> cases hr
    rename_i task token ok hw
    exact ⟨_, rfl, ht.signal hl hw, fun hs _ => hs.signal hl hw⟩
  case remove =>
    split at hr <;> cases hr
    rename_i task token ok hw
    obtain ⟨rest, -, hremove, htracks⟩ := ht.remove hl hw
    refine ⟨_, hremove, htracks, fun hs _ => ?_⟩
    obtain ⟨s', hremove', hinv⟩ := hs.remove hl hw
    exact Except.ok.inj (hremove'.symm.trans hremove) ▸ hinv
  case close =>
    cases hr
    exact ⟨_, rfl, ht.setFlags hl true fun _ h => h, fun hs _ => hs.setFlags hl true fun _ h => h⟩
  case cancelRunning =>
    split_ifs at hr
    cases hr
    have hflags : ∀ token, l.cancelled token = true →
        (l.cancelled token || l.tasks.any fun e => e.token = some token) = true :=
      fun token h => by rw [h, Bool.true_or]
    exact ⟨_, rfl, ht.setFlags hl l.closed hflags, fun hs _ => hs.setFlags hl l.closed hflags⟩
  case shutdown =>
    split at hr
    case h_2 => cases hr
    case h_1 hw =>
      split_ifs at hr
      cases hr
      refine ⟨_, rfl, .down s, fun hs _ => hs.down ?_⟩
      intro uid hret
      obtain ⟨_, hnot | ⟨l', hl', hleave⟩⟩ := hs.returned uid hret
      · exact hnot
      · cases hl.symm.trans hl'
        obtain ⟨task, token, hsig, _⟩ := hleave
        cases hw.symm.trans hsig
  case crash =>
    cases hr
    exact ⟨_, rfl, .down s, fun hs hset => hs.down hset⟩

theorem step_spec (ht : s.Tracks) {e : Event} {r : Except Panic State} (hr : s.step e = some r) :
    ∃ s', r = .ok s' ∧ s'.Tracks ∧ (s.Inv → s.StepSettles e → s'.Inv) := by
  unfold step at hr
  cases hl : s.live with
  | some l =>
    rw [hl] at hr
    obtain ⟨s', hs', htracks, hinv⟩ := liveStep_spec ht hl hr
    exact ⟨s', hs', htracks, fun hs hset => hinv hs (hset l hl)⟩
  | none =>
    rw [hl] at hr
    cases e with
    | openStorage =>
      cases hr
      exact ⟨_, rfl, .openStorage s, fun hs _ => hs.openStorage hl⟩
    | _ => cases hr

theorem inv_step (hs : s.Inv) {e : Event} (hset : s.StepSettles e)
    {r : Except Panic State} (hr : s.step e = some r) : ∃ s', r = .ok s' ∧ s'.Inv := by
  obtain ⟨s', hs', -, hinv⟩ := step_spec hs.toTracks hr
  exact ⟨s', hs', hinv hs hset⟩

theorem inv_init : init.Inv := ⟨.down init, nodup_nil, nofun, trivial, nofun, nofun, nofun⟩

/-- **Stopping is final.** In every interleaving of requests, the watcher, restarts and crashes whose
steps meet the condition, no step panics, and at every moment no task has been started or has deleted
rows after a stop request for it has returned. -/
theorem stopsAreFinal_of_settles (es : List Event) (hes : Along step StepSettles init es) :
    Always step Final init es :=
  always_of_along (fun _ hs => hs.final) (fun _ _ _ hs hset hr => inv_step hs hset hr) init es
    inv_init hes

/-- A task is stopped while its rows are deleted, and leaves the list. -/
def stoppedWhileDeleting : List Event :=
  [.openStorage, .deleteRunTask "a", .tick, .pick, .prepared (some 2), .deletePartition true true,
    .deleteStopTask "a", .deletePartition false false, .deleted, .readClosed, .readCancel, .signal,
    .stopReturns 0, .remove, .tick, .pick]

theorem settles_stoppedWhileDeleting : Along step StepSettles init stoppedWhileDeleting := by
  have hstop : ∀ {s : State} {l : Live} {task : Task} {left : Nat} {ok : Bool},
      s.live = some l → l.watcher = .deleting task 0 left ok → s.StepSettles (.deleteStopTask "a") := by
    intro s l task left ok hl hw l' hl' task' token' h
    cases hl.symm.trans hl'
    rw [hw] at h
    exact absurd h (by simp)
  have hopen : ∀ {s : State} {l : Live}, s.live = some l → l.closed = false →
      s.StepSettles .readClosed := by
    intro s l hl hclosed l' hl' h
    cases hl.symm.trans hl'
    cases hclosed.symm.trans h
  exact ⟨fun _ _ => trivial, fun _ _ => trivial, fun _ _ => trivial, fun _ _ => trivial,
    fun _ _ => trivial, fun _ _ => trivial, hstop rfl rfl, fun _ _ => trivial, fun _ _ => trivial,
    hopen rfl rfl, fun _ _ => trivial, fun _ _ => trivial, fun _ _ => trivial, fun _ _ => trivial,
    fun _ _ => trivial, fun _ _ => trivial, trivial⟩

theorem stopsAreFinal_stoppedWhileDeleting :
    Along step StepSettles init stoppedWhileDeleting ∧
      Always step Final init stoppedWhileDeleting :=
  ⟨settles_stoppedWhileDeleting, stopsAreFinal_of_settles _ settles_stoppedWhileDeleting⟩

/-- The file has the tasks of the list, and a stop request that has to wait waits for the task that is executed, which
has been told to stop. -/
def StopsWait (s : State) : Prop :=
  ∀ l, s.live = some l → s.file = l.tasks.map Entry.task ∧
    ∀ task token, (task, some token) ∈ l.stops → l.done token = false →
      l.watcher.running = some (task, token) ∧ l.cancelled token = true

theorem always_stopsWait (es : List Event) : Always step StopsWait init es := by
  apply always_of_inv (I := Tracks)
  · intro s ht l hl
    exact ⟨ht.saved l hl, (ht.live l hl).stop_waits⟩
  · intro s e r ht hr
    obtain ⟨s', hs', htracks, -⟩ := step_spec ht hr
    exact ⟨s', hs', htracks⟩
  · exact inv_init.toTracks

def logOf (es : List Event) : Option (List Act) :=
  match run step init es with
  | some (.ok s) => some s.log
  | _ => none

/-- A stop request comes while the sub-queries are prepared, which makes the preparation fail. The task
goes to the end of the list, where it is the next one again. -/
theorem stoppedWhilePreparing_started :
    logOf [.openStorage, .deleteRunTask "a", .tick, .pick, .deleteStopTask "a", .prepared none, .signal,
        .stopReturns 0, .remove, .tick, .pick] =
      some [.started 0, .stopReturned 0, .started 0] ∧
      ¬StopsAreFinal [.started 0, .stopReturned 0, .started 0] := by
  refine ⟨by decide, ?_⟩
  intro h
  exact h.1 0 (.inl rfl) mem_cons_self

end State

end EsLogs.DeleteTasks
