import EsLogs.FastQueueRun

/-!
The queue on disk with a limit on the pending bytes. To make room for a block, the queue drops the blocks at its
front, and a block that alone is over the limit is not stored at all; nothing else is lost, and what the pending
blocks take up with their lengths stays within the limit.
-/

namespace EsLogs.PersistentQueue

open ChunkLayout FileStream List

namespace Fifo

/-- The blocks that are stored at all: a block that alone is over the limit is dropped. -/
def stored (limit : Nat) (blocks : List Bytes) : List Bytes := blocks.filter fun b => 8 + b.length ≤ limit

/-- One operation on the list of a queue with a limit. A write may drop blocks, the oldest ones first. -/
inductive LimitedStep (limit : Nat) (s : Fifo) : QueueOp → Fifo → Prop
  | write (b : Bytes) (k : Nat) (within : storedSize (s.pending.drop k ++ stored limit [b]) ≤ limit) :
    LimitedStep limit s (.write b) { s with pending := s.pending.drop k ++ stored limit [b] }
  | read : LimitedStep limit s .read (s.step .read)

inductive LimitedRun (limit : Nat) : List QueueOp → Fifo → Prop
  | nil : LimitedRun limit [] ⟨[], []⟩
  | step {ops : List QueueOp} {op : QueueOp} {s s' : Fifo} (run : LimitedRun limit ops s)
    (step : LimitedStep limit s op s') : LimitedRun limit (ops ++ [op]) s'

variable {limit : Nat} {ops : List QueueOp} {s s' : Fifo}

theorem LimitedRun.within (h : LimitedRun limit ops s) : storedSize s.pending ≤ limit := by
  induction h with
  | nil => exact Nat.zero_le _
  | @step ops op s s' _ hstep ih =>
    cases hstep with
    | write b k within => exact within
    | read =>
      rw [← take_append_drop 1 s.pending, storedSize_append, drop_one] at ih
      exact Nat.le_of_add_left_le ih

/-- What was read and what is pending are written blocks, in the order of the writes. -/
theorem LimitedRun.sublist (h : LimitedRun limit ops s) :
    (s.delivered ++ s.pending).Sublist (stored limit (written ops)) := by
  induction h with
  | nil => exact List.Sublist.refl _
  | @step ops op s s' _ hstep ih =>
    rw [written_append, stored, filter_append]
    cases hstep with
    | write b k within =>
      rw [← append_assoc]
      exact (((List.Sublist.refl _).append (drop_sublist k _)).trans ih).append (List.Sublist.refl _)
    | read =>
      have hmove : s.delivered ++ s.pending.take 1 ++ s.pending.tail = s.delivered ++ s.pending := by
        rw [append_assoc, ← drop_one, take_append_drop]
      exact hmove ▸ ih.trans (sublist_append_left _ _)

end Fifo

/-- One operation on a queue with a limit is one on the list. -/
theorem OnDisk.step {pq : Queue} {used limit : Nat} {s : Fifo} (h : OnDisk pq s.pending used limit)
    (hlimit : 0 < limit) {op : QueueOp} (hop : op ≠ .restart)
    (hblock : ∀ b, op = .write b → defaultGeometry.IsBlock b)
    (hfits : 2 * (used + storedSize (written [op])) + 2 * defaultGeometry.chunk < 2 ^ 64) :
    ∃ pq' s' more, pq.step op = .ok (pq', more) ∧ Fifo.LimitedStep limit s op s' ∧
      s'.delivered = s.delivered ++ more ∧ OnDisk pq' s'.pending (used + storedSize (written [op])) limit := by
  cases op with
  | write b =>
    obtain ⟨r, w, hinv, hused, rfl⟩ := h
    have hbase := after_base_le defaultGeometry w b
    have hafter := used_after w b
    have hstored : Fifo.stored pq.maxPendingBytes [b] = if 8 + b.length ≤ pq.maxPendingBytes then [b] else [] := by
      rw [Fifo.stored, filter_cons, filter_nil]
      simp only [decide_eq_true_eq]
    obtain ⟨pq', r', w', k, hq', hinv', hwithin, hw', hlimit'⟩ :=
      hinv.mustWriteBlock_drops (hblock b rfl) (by omega) hlimit
    rw [← hstored] at hinv' hwithin
    refine ⟨pq', _, [], ?_, .write b k hwithin, (append_nil _).symm, r', w', hinv', ?_, hlimit'⟩
    · rw [Queue.step, hq']
      rfl
    · have hone : storedSize (written [.write b]) = 8 + b.length := rfl
      rcases hw' with rfl | rfl <;> omega
  | read =>
    obtain ⟨pending, delivered⟩ := s
    cases pending with
    | nil =>
      obtain ⟨r, w, hinv, hrest⟩ := h
      refine ⟨pq, _, [], ?_, .read, rfl, r, w, hinv, hrest⟩
      rw [Queue.step, hinv.mustReadBlockNonblocking_nil]
      rfl
    | cons b pending =>
      obtain ⟨pq', hq', hdisk⟩ := h.mustReadBlockNonblocking
      refine ⟨pq', _, [b], ?_, .read, rfl, hdisk⟩
      rw [Queue.step, hq']
      rfl
  | restart => exact absurd rfl hop

theorem OnDisk.run {pq₀ : Queue} {limit : Nat} (h : OnDisk pq₀ [] 0 limit) (hlimit : 0 < limit)
    (ops : List QueueOp) (hops : .restart ∉ ops) (hblocks : ∀ b, .write b ∈ ops → defaultGeometry.IsBlock b)
    (hfits : 2 * storedSize (written ops) + 2 * defaultGeometry.chunk < 2 ^ 64) :
    ∃ pq s, pq₀.run ops = .ok (pq, s.delivered) ∧ Fifo.LimitedRun limit ops s ∧
      OnDisk pq s.pending (storedSize (written ops)) limit := by
  induction ops using List.reverseRecOn with
  | nil => exact ⟨pq₀, _, rfl, .nil, h⟩
  | append_singleton ops op ih =>
    rw [written_append, storedSize_append] at hfits ⊢
    obtain ⟨pq, s, hrun, hlist, hdisk⟩ := ih (fun hmem => hops (mem_append_left _ hmem))
      (fun b hb => hblocks b (mem_append_left _ hb)) (by omega)
    have hop : op ≠ .restart := by
      rintro rfl
      exact hops mem_concat_self
    obtain ⟨pq', s', more, hstep, hlist', hmore, hdisk'⟩ := hdisk.step hlimit hop
      (by rintro b rfl; exact hblocks b mem_concat_self) hfits
    refine ⟨pq', s', ?_, .step hlist hlist', hdisk'⟩
    rw [Queue.run_append, hrun, except_ok_bind]
    simp only
    rw [hstep, hmore]
    rfl

/-- A queue with a limit loses only the oldest of its blocks and those that alone are over the limit, after every
number of writes and reads, and what is pending is within the limit. -/
theorem limited_queue_drops_oldest (m : Machine) (name : Bytes) (maxPendingBytes : Int) (ops : List QueueOp)
    (hlimit : 0 < maxPendingBytes) (hmeta : metainfoFilename ∉ m.files) (hname : Utf8.isValid name = true)
    (hops : .restart ∉ ops) (hblocks : ∀ b, .write b ∈ ops → defaultGeometry.IsBlock b)
    (hfits : 2 * storedSize (written ops) + 2 * defaultGeometry.chunk < 2 ^ 64) (n : Nat) :
    ∃ q s, (do
        let q ← mustOpen m name maxPendingBytes
        q.run (ops.take n)) = .ok (q, s.delivered) ∧
      q.contents = .ok s.pending ∧ Fifo.LimitedRun maxPendingBytes.toNat (ops.take n) s ∧
      (s.delivered ++ s.pending).Sublist (Fifo.stored maxPendingBytes.toNat (written (ops.take n))) ∧
      storedSize s.pending ≤ maxPendingBytes.toNat := by
  obtain ⟨q₀, hq₀, hinv, hlimit₀, -⟩ := mustOpenInternal_fresh (g := defaultGeometry)
    (max maxPendingBytes 0).toNat (by decide) hname hmeta
  rw [max_eq_left hlimit.le] at hq₀ hlimit₀
  have hopen : mustOpen m name maxPendingBytes = .ok q₀ := by
    rw [mustOpen, max_eq_left hlimit.le]
    exact hq₀
  have hdisk : OnDisk q₀ [] 0 maxPendingBytes.toNat := ⟨origin, origin, hinv, le_rfl, hlimit₀⟩
  have hsplit : written (ops.take n) ++ written (ops.drop n) = written ops := by
    rw [← written_append, take_append_drop]
  rw [← hsplit, storedSize_append] at hfits
  obtain ⟨q, s, hrun, hlist, hdisk⟩ := hdisk.run (by omega) (ops.take n) (fun h => hops (mem_of_mem_take h))
    (fun b hb => hblocks b (mem_of_mem_take hb)) (by omega)
  refine ⟨q, s, ?_, hdisk.contents, hlist, hlist.sublist, hlist.within⟩
  rw [hopen, except_ok_bind]
  exact hrun

/-- With room for one of them, the second block takes the place of the first. -/
theorem limited_queue_drops_oldest_two :
    metainfoFilename ∉ emptyMachine.files ∧
      ∃ q s, (do
          let q ← mustOpen emptyMachine (ascii "queue") 10
          q.run [.write [1], .write [2, 3]]) = .ok (q, s.delivered) ∧
        q.contents = .ok s.pending ∧ Fifo.LimitedRun 10 [.write [1], .write [2, 3]] s ∧
        (s.delivered ++ s.pending).Sublist [[1], [2, 3]] ∧ storedSize s.pending ≤ 10 := by
  have hmeta : metainfoFilename ∉ emptyMachine.files := AList.notMem_empty _
  refine ⟨hmeta, limited_queue_drops_oldest emptyMachine (ascii "queue") 10 [.write [1], .write [2, 3]]
    (by decide) hmeta (by decide) (by decide) ?_ (by decide) 2⟩
  intro b hb
  have hcases : b = [1] ∨ b = [2, 3] := by simpa using hb
  rcases hcases with rfl | rfl <;> exact ⟨by decide, by decide⟩

end EsLogs.PersistentQueue
