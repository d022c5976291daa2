import EsLogs.QueueOpening

/-!
Runs of the queue on disk: writes, reads, and restarts, which close the queue and open it again. A run
behaves as a list that grows at its end and is read at its front, unless it restarts at a moment when
the blocks written so far fill their last chunk to the byte and some of them are unread: these are lost.
-/

namespace EsLogs.PersistentQueue

open ChunkLayout FileStream List

inductive QueueOp where
  | write (block : Bytes)
  | read
  | restart
  deriving DecidableEq, Repr

def Queue.step (q : Queue) : QueueOp → Outcome (Queue × List Bytes)
  | .write block => do
    let q ← q.mustWriteBlock block
    return (q, [])
  | .read => do
    let (q, block) ← q.mustReadBlockNonblocking
    return (q, block.toList)
  | .restart => do
    let q ← mustOpenInternal q.mustClose q.name q.chunkFileSize q.maxBlockSize q.maxPendingBytes
    return (q, [])

def Queue.run (q : Queue) (ops : List QueueOp) : Outcome (Queue × List Bytes) :=
  ops.foldlM (fun (q, blocks) op => do
    let (q, more) ← q.step op
    return (q, blocks ++ more)) (q, [])

def Queue.drain : Nat → Queue → Outcome (List Bytes)
  | 0, _ => .error outOfFuel
  | fuel + 1, q => do
    let (q, block) ← q.mustReadBlockNonblocking
    match block with
    | none => return []
    | some block => do
      let blocks ← drain fuel q
      return block :: blocks

/-- The blocks that a queue still has: each of them takes up some bytes before the writer. -/
def Queue.contents (q : Queue) : Outcome (List Bytes) := q.drain (q.writerOffset + 1)

/-- The queue as a list: what was written and not read, and what was read. -/
structure Fifo where
  pending : List Bytes
  delivered : List Bytes

def Fifo.step (s : Fifo) : QueueOp → Fifo
  | .write block => { s with pending := s.pending ++ [block] }
  | .read => ⟨s.pending.tail, s.delivered ++ s.pending.take 1⟩
  | .restart => s

def Fifo.run (ops : List QueueOp) : Fifo := ops.foldl Fifo.step ⟨[], []⟩

def written (ops : List QueueOp) : List Bytes :=
  ops.filterMap fun
    | .write block => some block
    | _ => none

/-- After every number of operations, the reads returned what those on the list do, and the queue has
the blocks that the list has. -/
def BehavesAsFifo (g : Geometry) (m : Machine) (name : Bytes) (ops : List QueueOp) : Prop :=
  ∀ n, ∃ q, (do
      let q ← mustOpenInternal m name g.chunk g.maxBlock 0
      q.run (ops.take n)) = .ok (q, (Fifo.run (ops.take n)).delivered) ∧
    q.contents = .ok (Fifo.run (ops.take n)).pending

/-- Whenever the queue is restarted and the blocks written so far end with their chunk, none of them is
unread. -/
def RestartsSafely (g : Geometry) (ops : List QueueOp) : Prop :=
  ∀ n, ops[n]? = some .restart → (g.place (written (ops.take n))).off = g.chunk →
    (Fifo.run (ops.take n)).pending = []

section Run

variable {g : Geometry} {q : Queue} {r w : Pos} {xs : List Bytes}

theorem Inv.drain (h : Inv g q r w xs) {fuel : Nat} (hfuel : xs.length < fuel) :
    q.drain fuel = .ok xs := by
  induction xs generalizing q r fuel with
  | nil =>
    obtain ⟨fuel, rfl⟩ : ∃ k, fuel = k + 1 := ⟨fuel - 1, by omega⟩
    rw [Queue.drain, h.mustReadBlockNonblocking_nil]
    rfl
  | cons b xs ih =>
    obtain ⟨fuel, rfl⟩ : ∃ k, fuel = k + 1 := ⟨fuel - 1, by omega⟩
    obtain ⟨q', hq', hinv, -⟩ := h.mustReadBlockNonblocking_cons
    rw [Queue.drain, hq', except_ok_bind]
    simp only
    rw [ih hinv (by rw [length_cons] at hfuel; omega)]
    rfl

theorem Inv.contents (h : Inv g q r w xs) : q.contents = .ok xs := by
  refine h.drain ?_
  have hlen := h.laid.length_le h.files.inChunkReader h.blocks
  rw [h.files.writerOffset]
  omega

/-- The writer of a queue that may have started anew, and the place that it would have without. -/
structure Tracks (g : Geometry) (p w : Pos) (xs : List Bytes) : Prop where
  off : (g.advance p).off = (g.advance w).off
  base_le : (g.advance w).base ≤ (g.advance p).base
  full : p.off = w.off ∨ p.off = g.chunk ∧ xs = []

theorem Tracks.after {p : Pos} (h : Tracks g p w xs) (b : Bytes) :
    Tracks g (g.after p b) (g.after w b) (xs ++ [b]) := by
  have hoff : (g.after p b).off = (g.after w b).off := by
    show (g.advance p).off + 8 + b.length = (g.advance w).off + 8 + b.length
    rw [h.off]
  have hbase : (g.after w b).base ≤ (g.after p b).base := h.base_le
  refine ⟨?_, ?_, .inl hoff⟩
  · unfold Geometry.advance
    rw [hoff]
    split
    · rfl
    · exact hoff
  · unfold Geometry.advance
    rw [hoff]
    split
    · exact Nat.add_le_add_right hbase _
    · exact hbase

theorem Tracks.tail {p : Pos} (h : Tracks g p w xs) : Tracks g p w xs.tail := by
  refine ⟨h.off, h.base_le, h.full.imp_right ?_⟩
  rintro ⟨hend, rfl⟩
  exact ⟨hend, rfl⟩

theorem Tracks.restart_full {p : Pos} (h : Tracks g p w []) (hw : w.off = g.chunk) :
    Tracks g p origin [] := by
  have hpos := g.maxBlock_pos
  have hfits := g.fits
  have hend : p.off = g.chunk := by
    rcases h.full with heq | ⟨hend, -⟩
    · exact heq.trans hw
    · exact hend
  have horigin : g.advance origin = origin := Geometry.advance_of_room (by show 0 + _ + 8 ≤ _; omega)
  refine ⟨?_, ?_, .inr ⟨hend, rfl⟩⟩
  · rw [horigin, Geometry.advance_of_full (by omega)]
    rfl
  · rw [horigin]
    exact Nat.zero_le _

/-- One operation on the queue is the operation on the list. -/
theorem Inv.step (h : Inv g q r w xs) (hlimit : q.maxPendingBytes = 0) {p : Pos}
    (htracks : Tracks g p w xs) (op : QueueOp) (delivered : List Bytes)
    (hwrite : ∀ b, op = .write b → g.IsBlock b ∧ (g.after p b).base + g.chunk < 2 ^ 64)
    (hrestart : op = .restart → p.off = g.chunk → xs = []) :
    ∃ q' r' w' more, q.step op = .ok (q', more) ∧
      Inv g q' r' w' (Fifo.step ⟨xs, delivered⟩ op).pending ∧ q'.maxPendingBytes = 0 ∧
      delivered ++ more = (Fifo.step ⟨xs, delivered⟩ op).delivered ∧
      Tracks g ((written [op]).foldl g.after p) w' (Fifo.step ⟨xs, delivered⟩ op).pending := by
  cases op with
  | write b =>
    obtain ⟨hb, hbound⟩ := hwrite b rfl
    have hbase : (g.after w b).base ≤ (g.after p b).base := htracks.base_le
    obtain ⟨q', hq', hinv, hlimit'⟩ := h.mustWriteBlock hlimit hb (by omega)
    refine ⟨q', r, g.after w b, [], ?_, hinv, hlimit', append_nil _, htracks.after b⟩
    rw [Queue.step, hq']
    rfl
  | read =>
    cases xs with
    | nil =>
      refine ⟨q, r, w, [], ?_, h, hlimit, rfl, htracks⟩
      rw [Queue.step, h.mustReadBlockNonblocking_nil]
      rfl
    | cons b xs =>
      obtain ⟨q', hq', hinv, hlimit'⟩ := h.mustReadBlockNonblocking_cons
      refine ⟨q', g.after r b, w, [b], ?_, hinv, hlimit'.trans hlimit, rfl, htracks.tail⟩
      rw [Queue.step, hq']
      rfl
  | restart =>
    by_cases hw : w.off = g.chunk
    · -- the queue starts anew, and nothing is lost
      have hxs : xs = [] := by
        rcases htracks.full with heq | ⟨-, hxs⟩
        · exact hrestart rfl (heq.trans hw)
        · exact hxs
      subst hxs
      obtain ⟨q', hq', hinv, hlimit', -⟩ := h.reopen_full hw
      refine ⟨q', origin, origin, [], ?_, hinv, hlimit'.trans hlimit, append_nil _,
        htracks.restart_full hw⟩
      rw [Queue.step, hq']
      rfl
    · obtain ⟨q', hq', hinv, hlimit', -⟩ := h.reopen_inside hw
      refine ⟨q', g.normal r, w, [], ?_, hinv, hlimit'.trans hlimit, append_nil _, htracks⟩
      rw [Queue.step, hq']
      rfl

theorem Queue.run_append (q : Queue) (ops : List QueueOp) (op : QueueOp) :
    q.run (ops ++ [op]) = (do
      let (q, blocks) ← q.run ops
      let (q, more) ← q.step op
      return (q, blocks ++ more)) := by
  rw [Queue.run, foldlM_append]
  simp only [foldlM_cons, foldlM_nil, bind_pure]
  rfl

theorem Fifo.run_append (ops : List QueueOp) (op : QueueOp) :
    Fifo.run (ops ++ [op]) = (Fifo.run ops).step op := by
  rw [Fifo.run, foldl_append]
  rfl

theorem written_append (ops ops' : List QueueOp) :
    written (ops ++ ops') = written ops ++ written ops' := filterMap_append

/-- A queue that is run from an empty one. -/
structure Ran (g : Geometry) (m : Machine) (name : Bytes) (ops : List QueueOp) (q : Queue)
    (r w : Pos) : Prop where
  run : (do
    let q ← mustOpenInternal m name g.chunk g.maxBlock 0
    q.run ops) = .ok (q, (Fifo.run ops).delivered)
  inv : Inv g q r w (Fifo.run ops).pending
  limit : q.maxPendingBytes = 0
  tracks : Tracks g (g.place (written ops)) w (Fifo.run ops).pending

/-- The operations up to a number, as long as every restart before it is safe. -/
theorem ran_take {m : Machine} {name : Bytes} {ops : List QueueOp}
    (hmeta : metainfoFilename ∉ m.files) (hname : Utf8.isValid name = true)
    (hblocks : ∀ b, .write b ∈ ops → g.IsBlock b)
    (hbound : (g.place (written ops)).base + g.chunk < 2 ^ 64) (n : Nat)
    (hsafe : ∀ i < n, ops[i]? = some .restart → (g.place (written (ops.take i))).off = g.chunk →
      (Fifo.run (ops.take i)).pending = []) :
    ∃ q r w, Ran g m name (ops.take n) q r w := by
  induction n with
  | zero =>
    obtain ⟨q, hq, hinv, hlimit, -⟩ := mustOpenInternal_fresh (g := g) 0 (by omega) hname hmeta
    refine ⟨q, origin, origin, ?_, hinv, hlimit, rfl, le_rfl, .inl rfl⟩
    rw [hq]
    rfl
  | succ n ih =>
    obtain ⟨q, r, w, hran⟩ := ih fun i hi => hsafe i (Nat.lt_succ_of_lt hi)
    rw [take_add_one]
    cases hop : ops[n]? with
    | none => exact ⟨q, r, w, by rwa [Option.toList_none, append_nil]⟩
    | some op =>
      rw [Option.toList_some]
      have hplace : (written [op]).foldl g.after (g.place (written (ops.take n))) =
          g.place (written (ops.take n ++ [op])) := by
        rw [written_append, Geometry.place, Geometry.place, foldl_append]
      -- the place behind the written blocks is within bounds, as the last one is
      have hsplit : ops.take n ++ [op] ++ ops.drop (n + 1) = ops := by
        have htake : ops.take n ++ [op] = ops.take (n + 1) := by
          rw [take_add_one, hop, Option.toList_some]
        rw [htake, take_append_drop]
      have hle : (g.place (written (ops.take n ++ [op]))).base ≤ (g.place (written ops)).base := by
        have hmono := Geometry.place_base_mono (g := g) (written (ops.take n ++ [op]))
          (written (ops.drop (n + 1)))
        rwa [← written_append, hsplit] at hmono
      obtain ⟨q', r', w', more, hstep, hinv, hlimit, hmore, htracks⟩ := hran.inv.step hran.limit
        hran.tracks op (Fifo.run (ops.take n)).delivered (by
          rintro b rfl
          refine ⟨hblocks b (mem_of_getElem? hop), ?_⟩
          rw [← hplace] at hle
          exact Nat.lt_of_le_of_lt (Nat.add_le_add_right hle _) hbound)
        (by
          rintro rfl hfull
          exact hsafe n (Nat.lt_succ_self n) hop hfull)
      refine ⟨q', r', w', ?_, ?_, hlimit, ?_⟩
      · have hrun := hran.run
        obtain ⟨q₀, hq₀, hrun⟩ := except_bind_eq_ok_iff.1 hrun
        rw [hq₀, except_ok_bind, Queue.run_append, hrun, except_ok_bind]
        simp only
        rw [hstep, except_ok_bind, Fifo.run_append, ← hmore]
        rfl
      · rw [Fifo.run_append]
        exact hinv
      · rw [Fifo.run_append, ← hplace]
        exact htracks

end Run

/-- A restart at the end of a chunk loses the blocks that are unread. -/
theorem restart_loses {g : Geometry} {q : Queue} {r w : Pos} {xs : List Bytes} (h : Inv g q r w xs)
    (hw : w.off = g.chunk) : ∃ q', q.step .restart = .ok (q', []) ∧ q'.contents = .ok [] := by
  obtain ⟨q', hq', hinv, -⟩ := h.reopen_full hw
  refine ⟨q', ?_, hinv.contents⟩
  rw [Queue.step, hq']
  rfl

/-- A run that behaves as a list has lost nothing at a restart. -/
theorem restartsSafely_of_behavesAsFifo {g : Geometry} {m : Machine} {name : Bytes}
    {ops : List QueueOp} (hmeta : metainfoFilename ∉ m.files) (hname : Utf8.isValid name = true)
    (hblocks : ∀ b, .write b ∈ ops → g.IsBlock b)
    (hbound : (g.place (written ops)).base + g.chunk < 2 ^ 64) (h : BehavesAsFifo g m name ops) :
    RestartsSafely g ops := by
  intro n
  -- up to the first restart that is not safe the queue is as it should be
  induction n using Nat.strong_induction_on with
  | _ n ih =>
    intro hop hfull
    by_contra hne
    obtain ⟨q, r, w, hran⟩ := ran_take hmeta hname hblocks hbound n ih
    have hw : w.off = g.chunk := by
      rcases hran.tracks.full with heq | ⟨-, hnil⟩
      · exact heq.symm.trans hfull
      · exact absurd hnil hne
    obtain ⟨q', hstep, hcontents⟩ := restart_loses hran.inv hw
    obtain ⟨q'', hrun, hcontents'⟩ := h (n + 1)
    rw [take_add_one, hop, Option.toList_some, Fifo.run_append] at hrun hcontents'
    obtain ⟨q₀, hq₀, hrun₀⟩ := except_bind_eq_ok_iff.1 hran.run
    rw [hq₀, except_ok_bind, Queue.run_append, hrun₀, except_ok_bind] at hrun
    simp only [hstep, except_ok_bind] at hrun
    obtain rfl : q' = q'' := (Prod.mk.inj (Except.ok.inj hrun)).1
    rw [hcontents] at hcontents'
    exact hne (Except.ok.inj hcontents').symm

/-- A queue without a limit behaves as a list, whatever is written, read and restarted, if and only if
no restart comes at a moment when the written blocks end with their chunk and some are unread. -/
theorem behavesAsFifo_iff_restartsSafely (g : Geometry) (m : Machine) (name : Bytes)
    (ops : List QueueOp) (hmeta : metainfoFilename ∉ m.files) (hname : Utf8.isValid name = true)
    (hblocks : ∀ b, .write b ∈ ops → g.IsBlock b)
    (hbound : (g.place (written ops)).base + 2 * g.chunk < 2 ^ 64) :
    BehavesAsFifo g m name ops ↔ RestartsSafely g ops := by
  constructor
  · intro h
    exact restartsSafely_of_behavesAsFifo hmeta hname hblocks (by omega) h
  · intro h n
    obtain ⟨q, r, w, hran⟩ := ran_take hmeta hname hblocks (by omega) n fun i _ => h i
    exact ⟨q, hran.run, hran.inv.contents⟩

def emptyMachine : Machine := ⟨∅, Stream'.const 0, 0⟩

/-- Chunks of 20 bytes, for blocks of up to 5 bytes. -/
def smallGeometry : Geometry := ⟨20, 5, by decide, by decide⟩

/-- Two blocks in two chunks, one of which is read after a restart. -/
def sampleOps : List QueueOp := [.write [1, 2, 3], .write [4], .read, .restart, .read, .read]

theorem behavesAsFifo_sampleOps :
    metainfoFilename ∉ emptyMachine.files ∧ (∀ b, .write b ∈ sampleOps → smallGeometry.IsBlock b) ∧
      (Fifo.run sampleOps).delivered = [[1, 2, 3], [4]] ∧
      BehavesAsFifo smallGeometry emptyMachine (ascii "sample") sampleOps := by
  have hmeta : metainfoFilename ∉ emptyMachine.files := AList.notMem_empty _
  have hblocks : ∀ b, .write b ∈ sampleOps → smallGeometry.IsBlock b := by
    intro b hb
    have hcases : b = [1, 2, 3] ∨ b = [4] := by simpa [sampleOps] using hb
    rcases hcases with rfl | rfl
    · exact ⟨by decide, by decide⟩
    · exact ⟨by decide, by decide⟩
  have hsafe : RestartsSafely smallGeometry sampleOps := by
    intro n hop hfull
    have hn : n < 6 := by
      by_contra hge
      rw [getElem?_eq_none (by simpa [sampleOps] using Nat.le_of_not_lt hge)] at hop
      cases hop
    interval_cases n
    · cases hop
    · cases hop
    · cases hop
    · exact absurd hfull (by decide)
    · cases hop
    · cases hop
  exact ⟨hmeta, hblocks, by decide, (behavesAsFifo_iff_restartsSafely smallGeometry emptyMachine
    (ascii "sample") sampleOps hmeta (by decide) hblocks (by decide)).2 hsafe⟩

/-! ### A chunk that is filled to the byte -/

/-- The sizes with which `must_open` opens a queue. -/
def defaultGeometry : Geometry := ⟨defaultChunkFileSize, maxBlockSizeDefault, by decide, by decide⟩

/-- Blocks of the greatest size, in a chunk that has room for a whole number of them. -/
theorem place_replicate (g : Geometry) (count : Nat) (hcount : g.chunk = count * (g.maxBlock + 8))
    {b : Bytes} (hb : b.length = g.maxBlock) {n : Nat} (hn : n ≤ count) :
    g.place (replicate n b) = ⟨0, n * (g.maxBlock + 8)⟩ := by
  induction n with
  | zero => rw [Nat.zero_mul]; rfl
  | succ n ih =>
    have hroom : (n + 1) * (g.maxBlock + 8) ≤ g.chunk := by
      rw [hcount]
      exact Nat.mul_le_mul_right _ hn
    rw [Nat.succ_mul] at hroom ⊢
    have hadvance : g.advance ⟨0, n * (g.maxBlock + 8)⟩ = ⟨0, n * (g.maxBlock + 8)⟩ :=
      Geometry.advance_of_room (by simp only; omega)
    rw [replicate_succ', Geometry.place_append, ih (by omega), Geometry.after, hadvance, hb]
    ext
    · rfl
    · simp only
      omega

theorem pending_replicate_write (b : Bytes) (n : Nat) :
    (Fifo.run (replicate n (.write b))).pending = replicate n b := by
  induction n with
  | zero => rfl
  | succ n ih =>
    rw [replicate_succ', Fifo.run_append, Fifo.step, ih, ← replicate_succ']

theorem written_replicate_write (b : Bytes) (n : Nat) :
    written (replicate n (.write b)) = replicate n b :=
  filterMap_replicate_of_some rfl

/-- Sixteen blocks of the greatest size fill a chunk of a queue as `must_open` opens it. -/
def fullChunkOps : List QueueOp :=
  List.replicate 16 (.write (List.replicate maxBlockSizeDefault 0)) ++ [.restart]

/-- The sixteen blocks are lost when the queue is restarted. -/
theorem not_behavesAsFifo_fullChunkOps :
    (∀ b, .write b ∈ fullChunkOps → defaultGeometry.IsBlock b) ∧
      ¬BehavesAsFifo defaultGeometry emptyMachine (ascii "queue") fullChunkOps := by
  have hsize : (replicate maxBlockSizeDefault (0 : UInt8)).length = defaultGeometry.maxBlock :=
    length_replicate
  have hblocks : ∀ b, .write b ∈ fullChunkOps → defaultGeometry.IsBlock b := by
    intro b hb
    rw [fullChunkOps, mem_append] at hb
    rcases hb with hb | hb
    · obtain rfl := QueueOp.write.inj (eq_of_mem_replicate hb)
      exact ⟨hsize ▸ defaultGeometry.maxBlock_pos, Nat.le_of_eq hsize⟩
    · cases mem_singleton.1 hb
  have htake : fullChunkOps.take 16 =
      replicate 16 (.write (replicate maxBlockSizeDefault 0)) :=
    take_left' length_replicate
  have hplace := place_replicate defaultGeometry 16 (by decide) hsize (Nat.le_refl 16)
  have hwritten : written fullChunkOps =
      replicate 16 (replicate maxBlockSizeDefault 0) := by
    rw [fullChunkOps, written_append, written_replicate_write]
    exact append_nil _
  refine ⟨hblocks, ?_⟩
  intro h
  have hsafe := restartsSafely_of_behavesAsFifo (AList.notMem_empty _) (by decide) hblocks (by
    rw [hwritten, hplace]
    decide) h
  have hpending := hsafe 16 (by
    rw [fullChunkOps, getElem?_append_right (by rw [length_replicate]),
      length_replicate]
    rfl) (by
    rw [htake, written_replicate_write, hplace]
    decide)
  rw [htake, pending_replicate_write] at hpending
  cases hpending

end EsLogs.PersistentQueue
