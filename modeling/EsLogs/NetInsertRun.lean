import EsLogs.NetInsert
import EsLogs.Runs
import Mathlib.Algebra.BigOperators.Group.List.Basic

/-! The sender of rows conserves them. Rows are counted call by call: a step moves a block between a
thread, the pending buffer of a node and the records of what was delivered or discarded, and every place
has its own summand. That no row gets lost where the program finds "nothing to send" rests on the fact
that a row is never encoded as an empty string. -/

namespace EsLogs.NetInsert

open Encoding Runs List

variable {nd : Node} {r : Refusal} (c : Call)

section Lists

variable {α : Type} {l : List α} {i : Nat} {a : α}

theorem sum_map_eraseIdx (g : α → Nat) (h : l[i]? = some a) :
    ((l.eraseIdx i).map g).sum + g a = (l.map g).sum := by
  obtain ⟨hi, rfl⟩ := List.getElem?_eq_some_iff.1 h
  have hsum := ((getElem_cons_eraseIdx_perm hi).map g).sum_eq
  rw [map_cons, sum_cons] at hsum
  omega

theorem sum_map_set (g : α → Nat) (h : l[i]? = some a) (b : α) :
    ((l.set i b).map g).sum + g a = (l.map g).sum + g b := by
  have hsum := ((set_perm_cons_eraseIdx (List.getElem?_eq_some_iff.1 h).1 b).map g).sum_eq
  have herase := sum_map_eraseIdx g h
  rw [map_cons, sum_cons] at hsum
  omega

theorem forall_mem_set {p : α → Prop} (hl : ∀ x ∈ l, p x) (ha : p a) : ∀ x ∈ l.set i a, p x := by
  intro x hx
  rcases mem_or_eq_of_mem_set hx with hx | rfl
  · exact hl x hx
  · exact ha

theorem forall_mem_eraseIdx {p : α → Prop} (hl : ∀ x ∈ l, p x) : ∀ x ∈ l.eraseIdx i, p x :=
  fun x hx => hl x (mem_of_mem_eraseIdx hx)

end Lists

/-! ### Buffers -/

/-- A buffer consists of whole rows and is not too large. -/
structure Buffer.Valid (b : Buffer) : Prop where
  whole : b.data = b.rows.flatMap fun c => c.row.marshal
  bounded : b.data.length ≤ maxInsertBlockSize

def Buffer.count (c : Call) (b : Buffer) : Nat := b.rows.count c

theorem InsertRow.length_marshal_pos (r : InsertRow) : 0 < r.marshal.length := by
  rw [InsertRow.marshal, length_append, TenantID.marshal, length_append,
    length_marshalUint32, length_marshalUint32]
  omega

namespace Buffer.Valid

theorem empty : Buffer.empty.Valid := ⟨rfl, Nat.zero_le _⟩

theorem mustWrite {b : Buffer} {c : Call} (h : b.Valid)
    (hsize : b.data.length + c.row.marshal.length ≤ maxInsertBlockSize) : (b.mustWrite c).Valid where
  whole := by
    show b.data ++ c.row.marshal = (b.rows ++ [c]).flatMap fun c => c.row.marshal
    rw [flatMap_append, ← h.whole, flatMap_singleton]
  bounded := by
    show (b.data ++ c.row.marshal).length ≤ maxInsertBlockSize
    rw [length_append]
    exact hsize

/-- A buffer without data has no rows. -/
theorem rows_eq_nil {b : Buffer} (h : b.Valid) (hdata : b.data.length = 0) : b.rows = [] := by
  cases hrows : b.rows with
  | nil => rfl
  | cons c rows =>
    have hlen := c.row.length_marshal_pos
    rw [h.whole, hrows, flatMap_cons, length_append] at hdata
    omega

end Buffer.Valid

theorem Buffer.count_mustWrite (b : Buffer) (d : Call) : (b.mustWrite d).count c = b.count c + [d].count c :=
  count_append

theorem Buffer.count_empty : Buffer.empty.count c = 0 := rfl

/-! ### Threads -/

/-- The nodes up to `i`, counted from the first index, have refused. -/
structure Offered (n startIdx i : Nat) (refusals : List (Nat × Refusal)) : Prop where
  nodes : refusals.map Prod.fst = (List.range i).map fun j => (startIdx + j) % n
  justified : ∀ r ∈ refusals, r.2.Justified

theorem Offered.start (n startIdx : Nat) : Offered n startIdx 0 [] :=
  ⟨rfl, forall_mem_nil _⟩

theorem Offered.concat {n startIdx i : Nat} {refusals : List (Nat × Refusal)} {refusal : Refusal}
    (h : Offered n startIdx i refusals) (hr : refusal.Justified) :
    Offered n startIdx (i + 1) (refusals ++ [((startIdx + i) % n, refusal)]) where
  nodes := by
    rw [map_append, h.nodes, range_succ, map_append]
    rfl
  justified := forall_mem_append.2 ⟨h.justified, forall_mem_singleton.2 hr⟩

/-- A whole round has come to every node. -/
theorem Offered.all {n startIdx : Nat} {refusals : List (Nat × Refusal)}
    (h : Offered n startIdx n refusals) {node : Nat} (hnode : node < n) :
    ∃ refusal, (node, refusal) ∈ refusals ∧ refusal.Justified := by
  -- the round at which the loop comes to the node
  have hround : ∃ j, j < n ∧ (startIdx + j) % n = node := by
    have hpos : 0 < n := by omega
    have hmod := Nat.mod_lt startIdx hpos
    have hdiv := Nat.div_add_mod startIdx n
    have hsum : startIdx + (node + (n - startIdx % n)) = node + n * (startIdx / n + 1) := by
      rw [Nat.mul_add]
      omega
    refine ⟨(node + (n - startIdx % n)) % n, Nat.mod_lt _ hpos, ?_⟩
    rw [Nat.add_mod_mod, hsum, Nat.add_mul_mod_self_left, Nat.mod_eq_of_lt hnode]
  obtain ⟨j, hj, hnode⟩ := hround
  have hmem : node ∈ refusals.map Prod.fst := by
    rw [h.nodes]
    exact mem_map.2 ⟨j, mem_range.2 hj, hnode⟩
  obtain ⟨⟨_, refusal⟩, hmem', rfl⟩ := mem_map.1 hmem
  exact ⟨refusal, hmem', h.justified _ hmem'⟩

def Target.Valid (n : Nat) : Target → Prop
  | own node => node < n
  | any startIdx i refusals => i < n ∧ Offered n startIdx i refusals

def Task.Valid (n : Nat) : Task → Prop
  | sending _ target | posted _ target => target.Valid n
  | waiting _ refusals => 0 < n ∧ ∃ startIdx, Offered n startIdx n refusals
  | adding _ call => call.fits = true
  | rerouting _ => 0 < n
  | releasing _ => True

/-- What a thread counts for: the row it has not written, or the rows of the block it has to deliver. -/
def Task.count (c : Call) (t : Task) : Nat :=
  t.unwritten.count c + (t.inFlight.map (Buffer.count c)).sum

theorem Target.inFlight_refused (n : Nat) (block : Buffer) (r : Refusal) (target : Target) :
    (target.refused n block r).inFlight = [block] ∧ (target.refused n block r).unwritten = [] := by
  cases target with
  | own _ => exact ⟨rfl, rfl⟩
  | any startIdx i refusals =>
    unfold Target.refused
    dsimp only
    split <;> exact ⟨rfl, rfl⟩

theorem Target.valid_refused {n : Nat} (block : Buffer) {target : Target}
    (h : target.Valid n) (hr : r.Justified) : (target.refused n block r).Valid n := by
  cases target with
  | own node => exact Nat.zero_lt_of_lt h
  | any startIdx i refusals =>
    obtain ⟨hlt, h⟩ := h
    have hoffered := h.concat hr
    unfold Target.refused
    dsimp only
    split
    case isTrue hmore => exact ⟨hmore, hoffered⟩
    case isFalse hlast =>
      obtain rfl : i + 1 = n := by omega
      exact ⟨Nat.zero_lt_of_lt hlt, startIdx, hoffered⟩

/-! ### Nodes -/

namespace Node

variable (nd : Node)

@[simp]
theorem pending_doRequest (reply : Reply) (now : Nat) :
    (nd.doRequest reply now).2.pending = nd.pending := by
  cases reply with
  | authError | ioError => rfl
  | response statusCode =>
    unfold doRequest
    dsimp only
    split <;> rfl

theorem justified_doRequest {reply : Reply} {now : Nat} (h : (nd.doRequest reply now).1 = some r) : r.Justified := by
  cases reply with
  | authError | ioError => exact Option.some.inj h ▸ trivial
  | response statusCode =>
    unfold doRequest at h
    dsimp only at h
    split at h
    case isTrue => cases h
    case isFalse hstatus => exact Option.some.inj h ▸ hstatus

@[simp]
theorem pending_sendInsertRequest (block : Buffer) (now : Nat) :
    (nd.sendInsertRequest block now).2.pending = nd.pending := by
  unfold sendInsertRequest
  split
  · rfl
  · split <;> rfl

theorem justified_sendInsertRequest {block : Buffer} {now : Nat}
    (h : (nd.sendInsertRequest block now).1 = .refused r) : r.Justified := by
  unfold sendInsertRequest at h
  split at h
  · cases h
  · split at h
    case isTrue hdisabled => exact Attempt.refused.inj h ▸ hdisabled
    case isFalse => cases h

theorem length_eq_zero_of_nothingToSend {block : Buffer} {now : Nat}
    (h : (nd.sendInsertRequest block now).1 = .nothingToSend) : block.data.length = 0 := by
  unfold sendInsertRequest at h
  split at h
  case isTrue hempty => exact hempty
  case isFalse =>
    split at h <;> cases h

end Node

/-! ### The invariant -/

namespace State

def count (c : Call) (s : State) : Nat :=
  (s.tasks.map (Task.count c)).sum + (s.nodes.map fun nd => nd.pending.count c).sum +
    (s.delivered.map fun d => d.block.count c).sum + (s.discarded.map fun d => d.block.count c).sum

structure Inv (cfg : Config) (s : State) : Prop where
  numbers : s.calls.map Call.number = List.range s.calls.length
  counted : ∀ c, s.count c = (s.calls.filter Call.fits).count c
  pool : ∀ b ∈ s.pendingDataBuffers, b = Buffer.empty
  nodes : ∀ nd ∈ s.nodes, nd.pending.Valid
  tasks : ∀ t ∈ s.tasks, t.Valid s.nodes.length ∧ ∀ b ∈ t.inFlight, b.Valid
  delivered : ∀ d ∈ s.delivered,
    d.block.Valid ∧ d.node < s.nodes.length ∧ d.body = cfg.body d.block
  discarded : ∀ d ∈ s.discarded, d.block.Valid ∧ s.stopped = true ∧
    ∀ node < s.nodes.length, ∃ refusal, (node, refusal) ∈ d.refusals ∧ refusal.Justified

theorem count_places (s : State) : (s.unwritten ++ s.blocks.flatMap Buffer.rows).count c = s.count c := by
  have hrows : ∀ bs : List Buffer, (bs.flatMap Buffer.rows).count c = (bs.map (Buffer.count c)).sum := by
    intro bs
    rw [count_flatMap]
    rfl
  have htasks : s.unwritten.count c + (s.inFlight.map (Buffer.count c)).sum =
      (s.tasks.map (Task.count c)).sum := by
    rw [unwritten, inFlight]
    induction s.tasks with
    | nil => rfl
    | cons t tasks ih =>
      simp only [flatMap_cons, count_append, map_append, sum_append, map_cons,
        sum_cons, Task.count] at ih ⊢
      omega
  rw [count_append, hrows, blocks, map_append, map_append, map_append,
    sum_append, sum_append, sum_append, pending, deliveredBlocks, discardedBlocks,
    map_map, map_map, map_map, count]
  simp only [Function.comp_def]
  omega

namespace Inv

variable {cfg : Config} {s : State} {i : Nat} {t : Task}

theorem valid_blocks (hs : s.Inv cfg) : ∀ b ∈ s.blocks, b.Valid := by
  simp only [blocks, forall_mem_append, pending, deliveredBlocks, discardedBlocks, forall_mem_map, inFlight]
  refine ⟨⟨⟨hs.nodes, fun b hb => ?_⟩, fun d hd => (hs.delivered d hd).1⟩, fun d hd => (hs.discarded d hd).1⟩
  obtain ⟨t, ht, hb⟩ := mem_flatMap.1 hb
  exact (hs.tasks t ht).2 b hb

theorem conserves (hs : s.Inv cfg) : s.Conserves cfg where
  distinct := by
    apply List.Nodup.of_map Call.number
    rw [hs.numbers]
    exact nodup_range
  oncePlaced := by
    rw [perm_iff_count]
    intro c
    rw [count_places, hs.counted]
  whole := fun b hb => (hs.valid_blocks b hb).whole
  bounded := fun b hb => (hs.valid_blocks b hb).bounded
  delivered := fun d hd => (hs.delivered d hd).2
  discarded := fun d hd => (hs.discarded d hd).2

theorem newStorage (cfg : Config) (nodesCount concurrency : Nat) :
    (State.newStorage nodesCount concurrency).Inv cfg where
  numbers := rfl
  counted := by
    intro c
    show 0 + ((replicate nodesCount _).map _).sum + 0 + 0 = 0
    rw [map_replicate, sum_replicate, Buffer.count_empty, nsmul_zero]
    rfl
  pool := fun b hb => eq_of_mem_replicate hb
  nodes := by
    intro nd hnd
    rw [eq_of_mem_replicate hnd]
    exact Buffer.Valid.empty
  tasks := forall_mem_nil _
  delivered := forall_mem_nil _
  discarded := forall_mem_nil _

theorem count_releasing {block : Buffer} (ht : s.tasks[i]? = some t) (hcount : ∀ c, t.count c = block.count c)
    (c : Call) : (s.setTask i (.releasing block)).count c + block.count c = s.count c := by
  have hsum := sum_map_set (Task.count c) ht (.releasing block)
  have hc := hcount c
  have hrel : Task.count c (.releasing block) = 0 := rfl
  simp only [State.count, State.setTask]
  omega

section

variable (hs : s.Inv cfg)
include hs

variable {block : Buffer} {s' : State} {target : Target} {node : Nat}

/-- What a step leaves of the invariant to show if it moves rows and accepts none. -/
theorem moved (hcalls : s'.calls = s.calls) (hlen : s'.nodes.length = s.nodes.length)
    (hcount : ∀ c, s'.count c = s.count c) (hpool : ∀ b ∈ s'.pendingDataBuffers, b = Buffer.empty)
    (hnodes : ∀ nd ∈ s'.nodes, nd.pending.Valid)
    (htasks : ∀ t ∈ s'.tasks, t.Valid s.nodes.length ∧ ∀ b ∈ t.inFlight, b.Valid)
    (hdelivered : ∀ d ∈ s'.delivered,
      d.block.Valid ∧ d.node < s.nodes.length ∧ d.body = cfg.body d.block)
    (hdiscarded : ∀ d ∈ s'.discarded, d.block.Valid ∧ s'.stopped = true ∧
      ∀ node < s.nodes.length, ∃ refusal, (node, refusal) ∈ d.refusals ∧ refusal.Justified) :
    s'.Inv cfg := by
  rw [← hlen] at htasks hdelivered hdiscarded
  refine ⟨hcalls ▸ hs.numbers, fun c => ?_, hpool, hnodes, htasks, hdelivered, hdiscarded⟩
  rw [hcount, hcalls]
  exact hs.counted c

/-- A thread goes on with what it has. -/
theorem setTask (ht : s.tasks[i]? = some t) {t' : Task}
    (hvalid : t'.Valid s.nodes.length) (hflight : ∀ b ∈ t'.inFlight, b.Valid)
    (hcount : ∀ c, t'.count c = t.count c) : (s.setTask i t').Inv cfg := by
  refine hs.moved rfl rfl (fun c => ?_) hs.pool hs.nodes (forall_mem_set hs.tasks ⟨hvalid, hflight⟩)
    hs.delivered hs.discarded
  have hsum := sum_map_set (Task.count c) ht t'
  have hc := hcount c
  simp only [State.count, State.setTask]
  omega

/-- The block of a thread is refused. -/
theorem refuse (ht : s.tasks[i]? = some t) {refusal : Refusal}
    (hvalid : (target.refused s.nodes.length block refusal).Valid s.nodes.length)
    (hblock : ∀ b ∈ [block], b.Valid) (hcount : ∀ c, 0 + block.count c = t.count c) :
    (s.setTask i (target.refused s.nodes.length block refusal)).Inv cfg := by
  obtain ⟨hflight, hunwritten⟩ := target.inFlight_refused s.nodes.length block refusal
  apply hs.setTask ht hvalid
  · rw [hflight]
    exact hblock
  · intro c
    rw [← hcount, Task.count, hflight, hunwritten]
    rfl

/-- A thread has delivered its block. -/
theorem deliver {d : Delivery} (ht : s.tasks[i]? = some t)
    (hcount : ∀ c, t.count c = d.block.count c)
    (hd : d.block.Valid ∧ d.node < s.nodes.length ∧ d.body = cfg.body d.block) :
    Inv cfg { s.setTask i (.releasing d.block) with delivered := s.delivered ++ [d] } := by
  refine hs.moved rfl rfl (fun c => ?_) hs.pool hs.nodes
    (forall_mem_set hs.tasks ⟨trivial, forall_mem_nil _⟩)
    (forall_mem_append.2 ⟨hs.delivered, forall_mem_singleton.2 hd⟩) hs.discarded
  rw [← count_releasing ht hcount]
  simp only [State.count, State.setTask, map_append, sum_append, map_singleton, sum_singleton]
  omega

/-- A thread gives up. -/
theorem discard {d : Discard} (ht : s.tasks[i]? = some t)
    (hcount : ∀ c, t.count c = d.block.count c)
    (hd : d.block.Valid ∧ s.stopped = true ∧
      ∀ node < s.nodes.length, ∃ refusal, (node, refusal) ∈ d.refusals ∧ refusal.Justified) :
    Inv cfg { s.setTask i (.releasing d.block) with discarded := s.discarded ++ [d] } := by
  refine hs.moved rfl rfl (fun c => ?_) hs.pool hs.nodes
    (forall_mem_set hs.tasks ⟨trivial, forall_mem_nil _⟩) hs.delivered
    (forall_mem_append.2 ⟨hs.discarded, forall_mem_singleton.2 hd⟩)
  rw [← count_releasing ht hcount]
  simp only [State.count, State.setTask, map_append, sum_append, map_singleton, sum_singleton]
  omega

/-- The node changes, but not its pending buffer. -/
theorem setNode {nd nd' : Node} (hnd : s.nodes[node]? = some nd)
    (hpending : nd'.pending = nd.pending) : (s.setNode node nd').Inv cfg := by
  refine hs.moved rfl length_set (fun c => ?_) hs.pool (forall_mem_set hs.nodes ?_) hs.tasks hs.delivered
    hs.discarded
  · have hsum := sum_map_set (fun nd => nd.pending.count c) hnd nd'
    simp only [hpending] at hsum
    simp only [State.count, State.setNode]
    omega
  · rw [hpending]
    exact hs.nodes nd (mem_of_getElem? hnd)

/-- Calls are numbered one after the other. -/
theorem numbers_concat {call : Call} (hcall : call.number = s.calls.length) :
    (s.calls ++ [call]).map Call.number = range (s.calls ++ [call]).length := by
  rw [map_append, hs.numbers, length_append, length_singleton, range_succ,
    map_singleton, hcall]

theorem addRow (node : Nat) (row : InsertRow) : (s.addRow node row).Inv cfg := by
  unfold State.addRow
  dsimp only
  split
  case isTrue hlong =>
    have hfits : Call.fits ⟨s.calls.length, row⟩ = false := decide_eq_false (Nat.not_le.2 hlong)
    refine { hs with numbers := hs.numbers_concat rfl, counted := fun c => ?_ }
    rw [filter_append, filter_singleton, hfits]
    exact (hs.counted c).trans (by simp)
  case isFalse hshort =>
    have hfits : Call.fits ⟨s.calls.length, row⟩ = true := decide_eq_true (Nat.not_lt.1 hshort)
    refine { hs with numbers := hs.numbers_concat rfl, counted := fun c => ?_, tasks := ?_ }
    · have hcount : Task.count c (.adding node ⟨s.calls.length, row⟩) =
          [(⟨s.calls.length, row⟩ : Call)].count c := rfl
      have hold := hs.counted c
      rw [filter_append, filter_singleton, hfits]
      simp only [State.count, map_append, sum_append, map_singleton, sum_singleton,
        count_append, hcount, cond_true] at hold ⊢
      omega
    · exact forall_mem_append.2 ⟨hs.tasks, forall_mem_singleton.2 ⟨hfits, forall_mem_nil _⟩⟩

/-- A buffer of the pool takes the place of the pending one, which a thread has from then on. -/
theorem grab {write : Buffer → Buffer} {pendingData : Buffer} (f : List Task → List Task)
    (hnd : s.nodes[node]? = some nd)
    (hgrab : s.grabPendingData node nd write = some (pendingData, s')) (hwrite : (write .empty).Valid)
    (htasks : ∀ t ∈ f s.tasks, t ∈ s.tasks ∨ t = .sending pendingData (.own node))
    (hcount : ∀ c, ((f s.tasks).map (Task.count c)).sum + (write .empty).count c =
      (s.tasks.map (Task.count c)).sum + pendingData.count c) : Inv cfg { s' with tasks := f s'.tasks } := by
  unfold State.grabPendingData at hgrab
  split at hgrab
  case h_1 => cases hgrab
  case h_2 fresh buffers hpool =>
    cases hgrab
    have hfresh : fresh = .empty := hs.pool fresh (hpool ▸ mem_cons_self)
    subst hfresh
    have hvalid : nd.pending.Valid := hs.nodes nd (mem_of_getElem? hnd)
    refine hs.moved rfl length_set (fun c => ?_) (fun b hb => hs.pool b (hpool ▸ mem_cons_of_mem _ hb))
      (forall_mem_set hs.nodes hwrite) (fun t ht => ?_) hs.delivered hs.discarded
    · have hsum := sum_map_set (fun nd => nd.pending.count c) hnd { nd with pending := write .empty }
      have hc := hcount c
      simp only [State.count, State.setNode] at hsum ⊢
      omega
    · rcases htasks t ht with hold | rfl
      · exact hs.tasks t hold
      · exact ⟨(List.getElem?_eq_some_iff.1 hnd).1, fun b hb => mem_singleton.1 hb ▸ hvalid⟩

theorem writePending {call : Call} (ht : s.tasks[i]? = some (.adding node call)) (hnd : s.nodes[node]? = some nd)
    (hnext : s.writePending i node nd call = some s') : s'.Inv cfg := by
  have hfits : call.row.marshal.length ≤ maxInsertBlockSize :=
    of_decide_eq_true (hs.tasks _ (mem_of_getElem? ht)).1
  have hadding : ∀ c, Task.count c (.adding node call) = [call].count c := fun _ => rfl
  unfold State.writePending at hnext
  split at hnext
  case isTrue =>
    obtain ⟨⟨pendingData, s₁⟩, hgrab, rfl⟩ := Option.map_eq_some_iff.1 hnext
    apply hs.grab (·.set i (.sending pendingData (.own node))) hnd hgrab
    · exact Buffer.Valid.empty.mustWrite (by simpa [Buffer.empty] using hfits)
    · exact fun t ht => mem_or_eq_of_mem_set ht
    · intro c
      have hsum := sum_map_set (Task.count c) ht (.sending pendingData (.own node))
      have hsending : Task.count c (.sending pendingData (.own node)) = pendingData.count c := Nat.zero_add _
      have hcall := hadding c
      rw [Buffer.count_mustWrite, Buffer.count_empty]
      omega
  case isFalse hroom =>
    cases hnext
    refine hs.moved rfl length_set (fun c => ?_) hs.pool (forall_mem_set hs.nodes ?_)
      (forall_mem_eraseIdx hs.tasks) hs.delivered hs.discarded
    · have hnodes := sum_map_set (fun nd => nd.pending.count c) hnd
        { nd with pending := nd.pending.mustWrite call }
      have htasks := sum_map_eraseIdx (Task.count c) ht
      have hcall := hadding c
      simp only [State.count, State.setNode, Buffer.count_mustWrite] at hnodes ⊢
      omega
    · exact (hs.nodes nd (mem_of_getElem? hnd)).mustWrite (Nat.not_lt.1 hroom)

theorem flushPendingData {force : Bool} {elapsed : Nat} (hnd : s.nodes[node]? = some nd)
    (hnext : s.flushPendingData node nd force elapsed = some s') : s'.Inv cfg := by
  unfold State.flushPendingData at hnext
  split at hnext
  case isTrue =>
    cases hnext
    exact hs
  case isFalse =>
    obtain ⟨⟨pendingData, s₁⟩, hgrab, rfl⟩ := Option.map_eq_some_iff.1 hnext
    apply hs.grab (· ++ [Task.sending pendingData (.own node)]) hnd hgrab Buffer.Valid.empty
    · intro t ht
      rcases mem_append.1 ht with ht | ht
      · exact .inl ht
      · exact .inr (mem_singleton.1 ht)
    · intro c
      have hsending : Task.count c (.sending pendingData (.own node)) = pendingData.count c := Nat.zero_add _
      rw [map_append, sum_append, map_singleton, sum_singleton, hsending]
      rfl

theorem send (ht : s.tasks[i]? = some (.sending block target))
    (hnd : s.nodes[target.node s.nodes.length]? = some nd) (now : Nat) : (s.send i block target nd now).Inv cfg := by
  obtain ⟨htarget, hblock⟩ := hs.tasks _ (mem_of_getElem? ht)
  have hs' := hs.setNode hnd (nd.pending_sendInsertRequest block now)
  have hlen : (s.nodes.set (target.node s.nodes.length) (nd.sendInsertRequest block now).2).length =
      s.nodes.length := length_set
  unfold State.send
  dsimp only
  split
  case h_1 hattempt =>
    -- an empty block counts for nothing
    have hrows := (hblock block mem_cons_self).rows_eq_nil
      (nd.length_eq_zero_of_nothingToSend hattempt)
    have hcount : ∀ c, Task.count c (.releasing block) = Task.count c (.sending block target) := by
      intro c
      simp [Task.count, Task.unwritten, Task.inFlight, Buffer.count, hrows]
    apply hs'.setTask ht _ _ hcount
    · exact trivial
    · exact forall_mem_nil _
  case h_2 refusal hattempt =>
    have hvalid := target.valid_refused block htarget (nd.justified_sendInsertRequest hattempt)
    exact hs'.refuse ht (hlen.symm ▸ hvalid) hblock fun _ => rfl
  case h_3 =>
    apply hs'.setTask ht
    · show Target.Valid (s.nodes.set _ _).length target
      rw [hlen]
      exact htarget
    · exact hblock
    · exact fun c => rfl

theorem reply (ht : s.tasks[i]? = some (.posted block target))
    (hnd : s.nodes[target.node s.nodes.length]? = some nd) (reply : Reply) (now : Nat) :
    (s.reply cfg i block target nd reply now).Inv cfg := by
  obtain ⟨htarget, hblock⟩ := hs.tasks _ (mem_of_getElem? ht)
  have hs' := hs.setNode hnd (nd.pending_doRequest reply now)
  have hlen : (s.nodes.set (target.node s.nodes.length) (nd.doRequest reply now).2).length =
      s.nodes.length := length_set
  unfold State.reply
  dsimp only
  split
  case h_1 refusal hrefusal =>
    have hvalid := target.valid_refused block htarget (nd.justified_doRequest hrefusal)
    exact hs'.refuse ht (hlen.symm ▸ hvalid) hblock fun _ => rfl
  case h_2 =>
    apply hs'.deliver (d := ⟨_, cfg.body block, block⟩) ht
    · exact fun c => Nat.zero_add _
    · refine ⟨hblock block mem_cons_self, ?_, rfl⟩
      show target.node (s.nodes.set _ _).length < (s.nodes.set _ _).length
      rw [hlen]
      exact (List.getElem?_eq_some_iff.1 hnd).1

theorem wakeUp {refusals : List (Nat × Refusal)}
    (ht : s.tasks[i]? = some (.waiting block refusals)) : (s.wakeUp i block refusals).Inv cfg := by
  obtain ⟨⟨hpos, startIdx, hoffered⟩, hblock⟩ := hs.tasks _ (mem_of_getElem? ht)
  unfold State.wakeUp
  split
  case isTrue hstopped =>
    apply hs.discard (d := ⟨block, refusals⟩) ht
    · exact fun c => Nat.zero_add _
    · exact ⟨hblock block mem_cons_self, hstopped, fun node hnode => hoffered.all hnode⟩
  case isFalse =>
    exact hs.setTask ht hpos hblock fun c => rfl

theorem putBuffer (ht : s.tasks[i]? = some (.releasing block)) :
    Inv cfg { s with
      tasks := s.tasks.eraseIdx i
      pendingDataBuffers := Buffer.empty :: s.pendingDataBuffers } := by
  refine hs.moved rfl rfl (fun c => ?_) (forall_mem_cons.2 ⟨rfl, hs.pool⟩) hs.nodes
    (forall_mem_eraseIdx hs.tasks) hs.delivered hs.discarded
  have hsum := sum_map_eraseIdx (Task.count c) ht
  have hrel : Task.count c (.releasing block) = 0 := rfl
  simp only [State.count]
  omega

theorem next {e : Event} (hnext : s.next cfg e = some s') :
    s'.Inv cfg := by
  cases e <;> unfold State.next at hnext <;> dsimp only at hnext
  case addRow node row =>
    obtain ⟨_, h⟩ := Option.ite_none_right_eq_some.1 hnext
    cases h
    exact hs.addRow node row
  case writePending i =>
    split at hnext
    case h_1 node call ht =>
      obtain ⟨nd, hnd, hnext⟩ := Option.bind_eq_some_iff.1 hnext
      exact hs.writePending ht hnd hnext
    case h_2 => cases hnext
  case flushPendingData node force elapsed =>
    obtain ⟨nd, hnd, hnext⟩ := Option.bind_eq_some_iff.1 hnext
    exact hs.flushPendingData hnd hnext
  case forceFlush node reply now =>
    obtain ⟨nd, hnd, hnext⟩ := Option.bind_eq_some_iff.1 hnext
    cases hnext
    exact hs.setNode hnd (nd.pending_doRequest reply now)
  case send i now =>
    split at hnext
    case h_1 block target ht =>
      obtain ⟨nd, hnd, hnext⟩ := Option.bind_eq_some_iff.1 hnext
      cases hnext
      exact hs.send ht hnd now
    case h_2 => cases hnext
  case reply i reply now =>
    split at hnext
    case h_1 block target ht =>
      obtain ⟨nd, hnd, hnext⟩ := Option.bind_eq_some_iff.1 hnext
      cases hnext
      exact hs.reply ht hnd reply now
    case h_2 => cases hnext
  case chooseStart i random =>
    split at hnext <;> cases hnext
    case h_1 block ht =>
      obtain ⟨hpos, hblock⟩ := hs.tasks _ (mem_of_getElem? ht)
      exact hs.setTask ht ⟨hpos, Offered.start _ _⟩ hblock fun c => rfl
  case wakeUp i =>
    split at hnext <;> cases hnext
    case h_1 block refusals ht => exact hs.wakeUp ht
  case putBuffer i =>
    split at hnext <;> cases hnext
    case h_1 block ht => exact hs.putBuffer ht
  case mustStop =>
    cases hnext
    refine { hs with discarded := ?_ }
    intro d hd
    obtain ⟨hvalid, _, hrefused⟩ := hs.discarded d hd
    exact ⟨hvalid, rfl, hrefused⟩

end

end Inv

/-- In every run, whatever the threads, the nodes and the clocks do, the sender keeps its promises. -/
theorem rows_conserved (cfg : Config) (nodesCount concurrency : Nat) (events : List Event) :
    Always (step cfg) (Conserves cfg) (newStorage nodesCount concurrency) events := by
  apply always_of_inv (I := Inv cfg) (fun s hs => hs.conserves)
  · intro s e r hs hstep
    obtain ⟨s', hnext, rfl⟩ := Option.map_eq_some_iff.1 hstep
    exact ⟨s', rfl, hs.next hnext⟩
  · exact Inv.newStorage cfg nodesCount concurrency

/-- The node of a row does not answer, so the other one gets it. -/
example :
    (run (step ⟨storedZstd, true⟩) (newStorage 2 1)
      [.addRow 0 ⟨⟨0, 0⟩, [], 0, []⟩, .writePending 0, .flushPendingData 0 false 1500, .send 0 7,
        .reply 0 .ioError 8, .chooseStart 0 4, .send 0 9, .send 0 9, .reply 0 (.response 204) 9]).bind
      (fun r => r.toOption.map fun s => s.delivered.map fun d => (d.node, d.block.rows.length)) =
    some [(1, 1)] := by decide +kernel

end State

end EsLogs.NetInsert
