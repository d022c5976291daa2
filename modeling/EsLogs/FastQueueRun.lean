import EsLogs.FastQueue
import EsLogs.QueueRun

/-!
Runs of the queue that prefers memory. Between two operations one of its two stores is empty, so that
the blocks on disk followed by those in memory are the blocks that were written and not delivered, in
their order; the counter of the bytes in memory is their total size, and none of the panics that guard
this can happen. Only a limit on the pending bytes makes blocks disappear.
-/

namespace EsLogs.PersistentQueue

open ChunkLayout FileStream List

variable {b : Bytes} {limit : Nat} {file : List Bytes} {fq : FastQueue} {log : Log}

def storedSize (blocks : List Bytes) : Nat := (blocks.map fun b => 8 + b.length).sum

@[simp]
theorem storedSize_nil : storedSize [] = 0 := rfl

@[simp]
theorem storedSize_cons (b : Bytes) (blocks : List Bytes) :
    storedSize (b :: blocks) = 8 + b.length + storedSize blocks := rfl

theorem storedSize_append (blocks blocks' : List Bytes) :
    storedSize (blocks ++ blocks') = storedSize blocks + storedSize blocks' := by
  rw [storedSize, map_append, sum_append]
  rfl

/-- The bytes up to a place, if less than half of every chunk before it is left unused. -/
def Pos.used (p : Pos) : Nat := p.base + 2 * p.off

/-- Chunks for so many bytes end before the numbers that mark places do. -/
abbrev Fits (total : Nat) : Prop := 2 * total + 2 * defaultGeometry.chunk < 2 ^ 64

/-- A chunk of the default size is more than half full when it is left. -/
theorem used_after (p : Pos) (b : Bytes) :
    Pos.used (defaultGeometry.after p b) ≤ Pos.used p + 2 * (8 + b.length) := by
  have hchunk : defaultGeometry.chunk = 16 * (defaultGeometry.maxBlock + 8) := by decide
  have hmax : defaultGeometry.maxBlock = 33554432 := by decide
  unfold Pos.used Geometry.after
  by_cases hfull : defaultGeometry.chunk < p.off + defaultGeometry.maxBlock + 8
  · rw [Geometry.advance_of_full hfull]
    simp only
    omega
  · rw [Geometry.advance_of_room (by omega)]
    simp only
    omega

theorem after_base_le (g : Geometry) (p : Pos) (b : Bytes) :
    (g.after p b).base ≤ Pos.used p + g.chunk := by
  refine Nat.le_trans (Geometry.advance_base_le p) (Nat.add_le_add_right ?_ _)
  exact Nat.le_add_right _ _

/-- The blocks that are left of some: they keep their order, and without a limit all are left. -/
structure Keeps (limit : Nat) (before after : List Bytes) : Prop where
  sublist : after.Sublist before
  all : limit = 0 → after = before

theorem Keeps.refl (limit : Nat) (blocks : List Bytes) : Keeps limit blocks blocks :=
  ⟨List.Sublist.refl _, fun _ => rfl⟩

theorem Keeps.trans {a b c : List Bytes} (h : Keeps limit a b) (h' : Keeps limit b c) : Keeps limit a c :=
  ⟨h'.sublist.trans h.sublist, fun hzero => (h'.all hzero).trans (h.all hzero)⟩

theorem Keeps.append_right {a b : List Bytes} (h : Keeps limit a b) (c : List Bytes) : Keeps limit (a ++ c) (b ++ c) :=
  ⟨h.sublist.append (List.Sublist.refl _), fun hzero => by rw [h.all hzero]⟩

theorem Keeps.append_left {a b : List Bytes} (h : Keeps limit a b) (c : List Bytes) : Keeps limit (c ++ a) (c ++ b) :=
  ⟨(List.Sublist.refl _).append h.sublist, fun hzero => by rw [h.all hzero]⟩

/-- The blocks on disk, the bytes that were ever stored there, and the limit. -/
def OnDisk (pq : Queue) (file : List Bytes) (used limit : Nat) : Prop :=
  ∃ r w, Inv defaultGeometry pq r w file ∧ Pos.used w ≤ 2 * used ∧ pq.maxPendingBytes = limit

namespace OnDisk

variable {pq : Queue} {file : List Bytes} {used limit : Nat}

theorem unixTimestamp (h : OnDisk pq file used limit) :
    OnDisk { pq with machine := pq.machine.unixTimestamp.2 } file used limit := by
  obtain ⟨r, w, hinv, hused, hlimit⟩ := h
  exact ⟨r, w, hinv.unixTimestamp, hused, hlimit⟩

theorem mustWriteBlock (h : OnDisk pq file used limit) (hb : defaultGeometry.IsBlock b)
    (hfits : Fits used) :
    ∃ pq' file', pq.mustWriteBlock b = .ok pq' ∧ OnDisk pq' file' (used + (8 + b.length)) limit ∧
      Keeps limit (file ++ [b]) file' ∧ (0 < limit → limit < b.length + 8 → file'.Sublist file) := by
  obtain ⟨r, w, hinv, hused, hlimit⟩ := h
  have hbase := after_base_le defaultGeometry w b
  have hafter := used_after w b
  rcases Nat.eq_zero_or_pos limit with rfl | hpos
  · obtain ⟨pq', hq', hinv', hlimit'⟩ := hinv.mustWriteBlock hlimit hb (by omega)
    exact ⟨pq', _, hq', ⟨r, _, hinv', by omega, hlimit'⟩, Keeps.refl _ _, fun hpos => absurd hpos (lt_irrefl 0)⟩
  · subst hlimit
    obtain ⟨pq', r', w', k, hq', hinv', -, hw', hlimit'⟩ := hinv.mustWriteBlock_drops hb (by omega) hpos
    refine ⟨pq', _, hq', ⟨r', w', hinv', ?_, hlimit'⟩,
      ⟨(drop_sublist k file).append ?_, fun hzero => absurd hzero hpos.ne'⟩, fun _ hover => ?_⟩
    · rcases hw' with rfl | rfl <;> omega
    · split_ifs
      · exact List.Sublist.refl _
      · exact nil_sublist _
    · rw [if_neg (by omega), append_nil]
      exact drop_sublist k file

theorem getPendingBytes (h : OnDisk pq file used limit) :
    ∃ n, pq.getPendingBytes = .ok n ∧ (n = 0 ↔ file = []) := by
  obtain ⟨r, w, hinv, -, -⟩ := h
  exact hinv.getPendingBytes

theorem mustReadBlockNonblocking (h : OnDisk pq (b :: file) used limit) :
    ∃ pq', pq.mustReadBlockNonblocking = .ok (pq', some b) ∧ OnDisk pq' file used limit := by
  obtain ⟨r, w, hinv, hused, hlimit⟩ := h
  obtain ⟨pq', hq', hinv', hlimit'⟩ := hinv.mustReadBlockNonblocking_cons
  exact ⟨pq', hq', _, w, hinv', hused, hlimit'.trans hlimit⟩

theorem resetIfEmpty (h : OnDisk pq [] used limit) :
    ∃ pq', pq.resetIfEmpty = .ok pq' ∧ OnDisk pq' [] used limit := by
  obtain ⟨r, w, hinv, hused, hlimit⟩ := h
  obtain ⟨pq', r', w', hq', hinv', hw', hlimit'⟩ := hinv.resetIfEmpty
  refine ⟨pq', hq', r', w', hinv', ?_, hlimit'.trans hlimit⟩
  rcases hw' with rfl | rfl
  · exact hused
  · exact Nat.zero_le _

theorem contents (h : OnDisk pq file used limit) : pq.contents = .ok file := by
  obtain ⟨r, w, hinv, -, -⟩ := h
  exact hinv.contents

end OnDisk

namespace FastQueue

def ReadResult.blocks : ReadResult → List Bytes
  | .block bb => [bb]
  | .stopped => []
  | .waiting => []

/-- The invariant: the blocks on disk, and the bytes of the blocks that were ever written. -/
structure Ordered (fq : FastQueue) (file : List Bytes) (total limit : Nat) : Prop where
  disk : ∃ used, OnDisk fq.pq file used limit ∧ used + storedSize fq.ch ≤ total
  apart : file = [] ∨ fq.ch = []
  bytes : fq.pendingInmemoryBytes = (fq.ch.map List.length).sum
  blocks : ∀ b ∈ fq.ch, defaultGeometry.IsBlock b
  enabled : fq.isPqDisabled = false

/-- What moving the blocks in memory to disk leaves. -/
structure Flushed (fq fq' : FastQueue) : Prop where
  ch : fq'.ch = []
  bytes : fq'.pendingInmemoryBytes = 0
  stopDeadline : fq'.stopDeadline = fq.stopDeadline
  isPqDisabled : fq'.isPqDisabled = fq.isPqDisabled

theorem flushBlocks_spec {limit total : Nat} (hfits : Fits total)
    (ch : List Bytes) (fq : FastQueue) (file : List Bytes) (used : Nat)
    (hdisk : OnDisk fq.pq file used limit) (hused : used + storedSize ch ≤ total)
    (hbytes : fq.pendingInmemoryBytes = (ch.map List.length).sum)
    (hblocks : ∀ b ∈ ch, defaultGeometry.IsBlock b) :
    ∃ fq' file', flushBlocks ch fq = .ok fq' ∧ OnDisk fq'.pq file' (used + storedSize ch) limit ∧
      Keeps limit (file ++ ch) file' ∧ Flushed fq fq' := by
  induction ch generalizing fq file used with
  | nil =>
    refine ⟨{ fq with ch := [] }, file, rfl, hdisk, ?_, rfl, hbytes, rfl, rfl⟩
    rw [append_nil]
    exact Keeps.refl _ _
  | cons b ch ih =>
    rw [storedSize_cons] at hused
    obtain ⟨pq', file', hwrite, hdisk', hkeeps, -⟩ :=
      hdisk.mustWriteBlock (hblocks b mem_cons_self) (by omega)
    have hrest : fq.pendingInmemoryBytes - b.length = (ch.map List.length).sum := by
      rw [hbytes, map_cons, sum_cons, Nat.add_sub_cancel_left]
    obtain ⟨fq', file'', hflush, hdisk'', hkeeps', hflushed⟩ := ih
      { fq with
        pq := { pq' with machine := pq'.machine.unixTimestamp.2 }
        pendingInmemoryBytes := fq.pendingInmemoryBytes - b.length
        lastInmemoryBlockReadTime := pq'.machine.unixTimestamp.1 }
      file' (used + (8 + b.length)) hdisk'.unixTimestamp (by omega) hrest
      fun c hc => hblocks c (mem_cons_of_mem _ hc)
    refine ⟨fq', file'', ?_, ?_, ?_, { hflushed with }⟩
    · rw [flushBlocks, hwrite, except_ok_bind]
      exact hflush
    · rw [storedSize_cons, ← Nat.add_assoc]
      exact hdisk''
    · rw [append_cons]
      exact (hkeeps.append_right ch).trans hkeeps'

namespace Ordered

variable {fq : FastQueue} {file : List Bytes} {total limit : Nat}

section

variable (h : Ordered fq file total limit)
include h

theorem unixTimestamp : Ordered fq.unixTimestamp.2 file total limit := by
  obtain ⟨used, hdisk, hused⟩ := h.disk
  exact ⟨⟨used, hdisk.unixTimestamp, hused⟩, h.apart, h.bytes, h.blocks, h.enabled⟩

/-- Moving the blocks in memory to disk. -/
theorem flush (hfits : Fits total) :
    ∃ fq' file', fq.flushInmemoryBlocksToFileLocked = .ok fq' ∧ Ordered fq' file' total limit ∧
      Keeps limit (file ++ fq.ch) file' ∧ Flushed fq fq' := by
  obtain ⟨used, hdisk, hused⟩ := h.disk
  obtain ⟨fq', file', hflush, hdisk', hkeeps, hflushed⟩ :=
    flushBlocks_spec hfits fq.ch fq file used hdisk hused h.bytes h.blocks
  refine ⟨fq', file', hflush, ?_, hkeeps, hflushed⟩
  refine ⟨⟨used + storedSize fq.ch, hdisk', ?_⟩, .inr hflushed.ch, ?_, ?_, ?_⟩
  · rw [hflushed.ch, storedSize_nil]
    exact hused
  · rw [hflushed.bytes, hflushed.ch]
    rfl
  · rw [hflushed.ch]
    simp
  · rw [hflushed.isPqDisabled, h.enabled]

theorem flushIfNeeded (hfits : Fits total) :
    ∃ fq' file', fq.flushInmemoryBlocksToFileIfNeededLocked = .ok fq' ∧
      Ordered fq' file' total limit ∧ Keeps limit (file ++ fq.ch) (file' ++ fq'.ch) := by
  by_cases hskip : fq.ch = [] ∨ fq.isPqDisabled = true
  · exact ⟨fq, file, if_pos hskip, h, Keeps.refl _ _⟩
  · by_cases hearly : fq.unixTimestamp.1 < fq.lastInmemoryBlockReadTime + 5
    · refine ⟨fq.unixTimestamp.2, file, ?_, h.unixTimestamp, Keeps.refl _ _⟩
      exact (if_neg hskip).trans (if_pos hearly)
    · obtain ⟨fq', file', hflush, hordered, hkeeps, hflushed⟩ := h.unixTimestamp.flush hfits
      refine ⟨fq', file', ?_, hordered, ?_⟩
      · exact ((if_neg hskip).trans (if_neg hearly)).trans hflush
      · rw [hflushed.ch, append_nil]
        exact hkeeps

/-- A block that is written to disk while there are none in memory. -/
theorem writeToDisk (hch : fq.ch = []) (hb : defaultGeometry.IsBlock b)
    (hfits : Fits (total + (8 + b.length))) :
    ∃ pq' file', fq.pq.mustWriteBlock b = .ok pq' ∧
      Ordered { fq with pq := pq' } file' (total + (8 + b.length)) limit ∧ Keeps limit (file ++ [b]) file' := by
  obtain ⟨used, hdisk, hused⟩ := h.disk
  rw [hch, storedSize_nil, Nat.add_zero] at hused
  obtain ⟨pq', file', hwrite, hdisk', hkeeps, -⟩ := hdisk.mustWriteBlock hb (by omega)
  refine ⟨pq', file', hwrite, ⟨⟨_, hdisk', ?_⟩, .inr hch, h.bytes, h.blocks, h.enabled⟩, hkeeps⟩
  show used + (8 + b.length) + storedSize fq.ch ≤ _
  rw [hch, storedSize_nil]
  omega

/-- The block that is written follows the others, on disk or in memory. -/
theorem writeFlushed (hb : defaultGeometry.IsBlock b)
    (hfits : Fits (total + (8 + b.length))) :
    ∃ fq' file', fq.writeFlushed b true = .ok (fq', true) ∧ Ordered fq' file' (total + (8 + b.length)) limit ∧
      Keeps limit (file ++ fq.ch ++ [b]) (file' ++ fq'.ch) := by
  obtain ⟨used, hdisk, hused⟩ := h.disk
  obtain ⟨n, hn, hnzero⟩ := hdisk.getPendingBytes
  by_cases hpending : n > 0
  · -- the disk is read first, and new blocks follow those on it
    have hch : fq.ch = [] := h.apart.resolve_left fun hnil => by
      rw [hnzero.2 hnil] at hpending
      exact Nat.lt_irrefl _ hpending
    obtain ⟨pq', file', hwrite, hordered, hkeeps⟩ := h.writeToDisk hch hb hfits
    refine ⟨{ fq with pq := pq' }, file', ?_, hordered, ?_⟩
    · rw [FastQueue.writeFlushed, hn, except_ok_bind, if_pos hpending, mustHold, if_pos hch,
        except_ok_bind]
      simp only [Bool.not_true, Bool.false_eq_true, if_false, hwrite, except_ok_bind]
      rfl
    · show Keeps limit (file ++ fq.ch ++ [b]) (file' ++ fq.ch)
      rw [hch, append_nil, append_nil]
      exact hkeeps
  · have hfile : file = [] := hnzero.1 (by omega)
    by_cases hfull : fq.ch.length = fq.chCap
    · obtain ⟨fq₁, file₁, hflush, hordered, hkeeps₁, hflushed⟩ := h.flush (by omega)
      obtain ⟨pq', file', hwrite, hordered', hkeeps⟩ := hordered.writeToDisk hflushed.ch hb hfits
      refine ⟨{ fq₁ with pq := pq' }, file', ?_, hordered', ?_⟩
      · rw [FastQueue.writeFlushed, hn, except_ok_bind, if_neg hpending, if_pos hfull]
        simp only [Bool.not_true, Bool.false_eq_true, if_false, hflush, except_ok_bind, hwrite]
        rfl
      · show Keeps limit (file ++ fq.ch ++ [b]) (file' ++ fq₁.ch)
        rw [hflushed.ch, append_nil]
        exact (hkeeps₁.append_right [b]).trans hkeeps
    · refine ⟨{ fq with
          ch := fq.ch ++ [b], pendingInmemoryBytes := fq.pendingInmemoryBytes + b.length }, file, ?_,
        ⟨⟨used, hdisk, ?_⟩, .inl hfile, ?_, ?_, h.enabled⟩, ?_⟩
      · rw [FastQueue.writeFlushed, hn, except_ok_bind, if_neg hpending, if_neg hfull]
        rfl
      · show used + storedSize (fq.ch ++ [b]) ≤ _
        rw [storedSize_append, storedSize_cons, storedSize_nil]
        omega
      · show fq.pendingInmemoryBytes + b.length = ((fq.ch ++ [b]).map List.length).sum
        rw [h.bytes, map_append, sum_append]
        rfl
      · exact forall_mem_append.2 ⟨h.blocks, forall_mem_singleton.2 hb⟩
      · show Keeps limit (file ++ fq.ch ++ [b]) (file ++ (fq.ch ++ [b]))
        rw [append_assoc]
        exact Keeps.refl _ _

/-- Every block is written, whether or not a disabled disk would be ignored. -/
theorem tryWriteBlockInternal (hb : defaultGeometry.IsBlock b)
    (hfits : Fits (total + (8 + b.length))) (ignore : Bool) :
    ∃ fq' file', fq.tryWriteBlockInternal b ignore = .ok (fq', true) ∧
      Ordered fq' file' (total + (8 + b.length)) limit ∧ Keeps limit (file ++ fq.ch ++ [b]) (file' ++ fq'.ch) := by
  obtain ⟨fq₁, file₁, hflush, hordered, hkeeps₁⟩ := h.flushIfNeeded (by omega)
  obtain ⟨fq', file', hwrite, hordered', hkeeps⟩ := hordered.writeFlushed hb hfits
  refine ⟨fq', file', ?_, hordered', (hkeeps₁.append_right [b]).trans hkeeps⟩
  rw [FastQueue.tryWriteBlockInternal, hflush, except_ok_bind, h.enabled]
  exact hwrite

theorem mustReadInMemoryBlockLocked {ch : List Bytes} (hch : fq.ch = b :: ch) :
    ∃ fq', fq.mustReadInMemoryBlockLocked = .ok (fq', b) ∧ Ordered fq' [] total limit ∧ file = [] ∧ fq'.ch = ch := by
  have hfile : file = [] := h.apart.resolve_right fun hnil => by
    rw [hch] at hnil
    cases hnil
  subst hfile
  obtain ⟨used, hdisk, hused⟩ := h.disk
  obtain ⟨n, hn, hnzero⟩ := hdisk.getPendingBytes
  rw [hch, storedSize_cons] at hused
  refine ⟨{ fq with
      pq := { fq.pq with machine := fq.pq.machine.unixTimestamp.2 }
      ch := ch
      pendingInmemoryBytes := fq.pendingInmemoryBytes - b.length
      lastInmemoryBlockReadTime := fq.pq.machine.unixTimestamp.1 }, ?_,
    ⟨⟨used, hdisk.unixTimestamp, ?_⟩, .inl rfl, ?_, ?_, h.enabled⟩, rfl, rfl⟩
  · rw [FastQueue.mustReadInMemoryBlockLocked, hch]
    simp only
    rw [hn, except_ok_bind, mustHold, if_pos (hnzero.2 rfl), except_ok_bind]
    rfl
  · show used + storedSize ch ≤ total
    omega
  · show fq.pendingInmemoryBytes - b.length = (ch.map List.length).sum
    rw [h.bytes, hch, map_cons, sum_cons, Nat.add_sub_cancel_left]
  · intro c hc
    exact h.blocks c (hch ▸ mem_cons_of_mem _ hc)

theorem mustReadInMemoryBlock :
    ∃ fq' block, fq.mustReadInMemoryBlock = .ok (fq', block) ∧ Ordered fq' file total limit ∧
      file ++ fq.ch = block.toList ++ (file ++ fq'.ch) := by
  cases hch : fq.ch with
  | nil =>
    refine ⟨fq, none, ?_, h, ?_⟩
    · rw [FastQueue.mustReadInMemoryBlock, if_neg (not_not_intro hch)]
    · rw [hch, Option.toList_none, nil_append]
  | cons b ch =>
    obtain ⟨fq', hread, hordered, rfl, hch'⟩ := h.mustReadInMemoryBlockLocked hch
    refine ⟨fq', some b, ?_, hordered, ?_⟩
    · rw [FastQueue.mustReadInMemoryBlock, if_pos (by rw [hch]; exact cons_ne_nil _ _), hread]
      rfl
    · rw [hch']
      rfl

theorem pastDeadline :
    Ordered fq.pastDeadline.1 file total limit ∧ fq.pastDeadline.1.ch = fq.ch ∧
      fq.pastDeadline.1.stopDeadline = fq.stopDeadline ∧
      (fq.stopDeadline = 0 → fq.pastDeadline.2 = false) := by
  unfold FastQueue.pastDeadline
  by_cases hstop : fq.stopDeadline > 0
  · rw [if_pos hstop]
    exact ⟨h.unixTimestamp, rfl, rfl, fun hzero => absurd hzero (Nat.ne_of_gt hstop)⟩
  · rw [if_neg hstop]
    exact ⟨h, rfl, rfl, fun _ => rfl⟩

/-- A read takes the first block, and does so unless readers were asked to stop. -/
theorem mustReadBlock :
    ∃ fq' result file', fq.mustReadBlock = .ok (fq', result) ∧ Ordered fq' file' total limit ∧
      file ++ fq.ch = result.blocks ++ (file' ++ fq'.ch) ∧
      (fq.stopDeadline = 0 → result.blocks = [] → file ++ fq.ch = []) := by
  obtain ⟨hpast, hch, hstop, hgoes⟩ := h.pastDeadline
  rw [FastQueue.mustReadBlock, mustReadBlockLoop]
  generalize fq.pastDeadline = past at hpast hch hstop hgoes ⊢
  obtain ⟨fq₁, past⟩ := past
  simp only at hpast hch hstop hgoes ⊢
  rw [← hch, ← hstop] at *
  cases past with
  | true =>
    refine ⟨fq₁, .stopped, file, rfl, hpast, rfl, ?_⟩
    intro hzero
    cases hgoes hzero
  | false =>
    rw [if_neg (by decide)]
    obtain ⟨pq, ch, cap, bytes, time, deadline, disabled⟩ := fq₁
    cases ch with
    | cons b ch =>
      obtain ⟨fq', hread, hordered, rfl, hch'⟩ := hpast.mustReadInMemoryBlockLocked rfl
      refine ⟨fq', .block b, [], ?_, hordered, ?_, fun _ hnil => nomatch hnil⟩
      · rw [if_pos (cons_ne_nil _ _), hread]
        rfl
      · rw [hch']
        rfl
    | nil =>
      rw [if_neg (not_not_intro rfl)]
      obtain ⟨used, hdisk, hused⟩ := hpast.disk
      obtain ⟨n, hn, hnzero⟩ := hdisk.getPendingBytes
      rw [hn, except_ok_bind]
      cases file with
      | cons b file =>
        have hpos : n > 0 := Nat.pos_of_ne_zero fun hzero => nomatch hnzero.1 hzero
        obtain ⟨pq', hread, hdisk'⟩ := hdisk.mustReadBlockNonblocking
        refine ⟨⟨pq', [], cap, bytes, time, deadline, disabled⟩, .block b, file, ?_,
          ⟨⟨used, hdisk', hused⟩, .inr rfl, hpast.bytes, hpast.blocks, hpast.enabled⟩, rfl,
          fun _ hnil => nomatch hnil⟩
        rw [if_pos hpos, hread]
        rfl
      | nil =>
        rw [if_neg (by rw [hnzero.2 rfl]; exact Nat.lt_irrefl 0)]
        by_cases hdeadline : deadline > 0
        · exact ⟨_, .stopped, [], if_pos hdeadline, hpast, rfl, fun _ _ => rfl⟩
        · obtain ⟨pq', hreset, hdisk'⟩ := hdisk.resetIfEmpty
          refine ⟨⟨pq', [], cap, bytes, time, deadline, disabled⟩, .waiting, [], ?_,
            ⟨⟨used, hdisk', hused⟩, .inr rfl, hpast.bytes, hpast.blocks, hpast.enabled⟩, rfl, fun _ _ => rfl⟩
          rw [if_neg hdeadline, hreset]
          rfl

theorem unblockAllReaders :
    Ordered fq.unblockAllReaders file total limit ∧ fq.unblockAllReaders.ch = fq.ch :=
  ⟨{ h.unixTimestamp with }, rfl⟩

theorem mustClose (hfits : Fits total) : ∃ m, fq.mustClose = .ok m := by
  obtain ⟨fq', file', hflush, -⟩ := h.unblockAllReaders.1.flush hfits
  refine ⟨fq'.pq.mustClose, ?_⟩
  rw [FastQueue.mustClose, hflush]
  rfl

end

end Ordered

/-! ### Runs -/

/-- An operation on the queue; the clock makes timed flushes part of the writes. -/
inductive Op where
  | tryWriteBlock (block : Bytes)
  | mustWriteBlockIgnoreDisabledPq (block : Bytes)
  | mustReadBlock
  | mustReadInMemoryBlock
  | unblockAllReaders
  deriving DecidableEq, Repr

def Op.blocks : Op → List Bytes
  | .tryWriteBlock block => [block]
  | .mustWriteBlockIgnoreDisabledPq block => [block]
  | _ => []

/-- The blocks that were accepted, and those that were delivered. -/
structure Log where
  written : List Bytes
  delivered : List Bytes

def step (fq : FastQueue) (log : Log) : Op → Outcome (FastQueue × Log)
  | .tryWriteBlock block => do
    let (fq, ok) ← fq.tryWriteBlock block
    return (fq, if ok then { log with written := log.written ++ [block] } else log)
  | .mustWriteBlockIgnoreDisabledPq block => do
    let fq ← fq.mustWriteBlockIgnoreDisabledPq block
    return (fq, { log with written := log.written ++ [block] })
  | .mustReadBlock => do
    let (fq, result) ← fq.mustReadBlock
    return (fq, { log with delivered := log.delivered ++ result.blocks })
  | .mustReadInMemoryBlock => do
    let (fq, block) ← fq.mustReadInMemoryBlock
    return (fq, { log with delivered := log.delivered ++ block.toList })
  | .unblockAllReaders => return (fq.unblockAllReaders, log)

def run (fq : FastQueue) (ops : List Op) : Outcome (FastQueue × Log) :=
  ops.foldlM (fun (fq, log) op => fq.step log op) (fq, ⟨[], []⟩)

/-- The blocks of a queue are the written ones that are not delivered, as far as they are kept. -/
structure Tracks (fq : FastQueue) (log : Log) (file : List Bytes) (limit : Nat) : Prop where
  ordered : Ordered fq file (storedSize log.written) limit
  keeps : Keeps limit log.written (log.delivered ++ (file ++ fq.ch))

theorem Tracks.step (h : Tracks fq log file limit) (op : Op) (hblocks : ∀ b ∈ op.blocks, defaultGeometry.IsBlock b)
    (hfits : Fits (storedSize (log.written ++ op.blocks))) :
    ∃ fq' log' file', fq.step log op = .ok (fq', log') ∧ log'.written = log.written ++ op.blocks ∧
      Tracks fq' log' file' limit := by
  -- a write of either kind goes through the same function
  have hwrite : ∀ b, op.blocks = [b] → ∀ ignore, ∃ fq' file',
      fq.tryWriteBlockInternal b ignore = .ok (fq', true) ∧
        Tracks fq' { log with written := log.written ++ [b] } file' limit := by
    intro b hb ignore
    rw [hb, storedSize_append, storedSize_cons, storedSize_nil] at hfits
    obtain ⟨fq', file', hfq', hordered, hkeeps⟩ :=
      h.ordered.tryWriteBlockInternal (hblocks b (by rw [hb]; exact mem_singleton_self b))
        (by omega) ignore
    refine ⟨fq', file', hfq', ?_, ?_⟩
    · show Ordered fq' file' (storedSize (log.written ++ [b])) limit
      rw [storedSize_append, storedSize_cons, storedSize_nil]
      exact hordered
    · have hmore := h.keeps.append_right [b]
      rw [append_assoc] at hmore
      exact hmore.trans (hkeeps.append_left log.delivered)
  -- a read of either kind moves a block to the delivered ones
  have hread : ∀ fq' file' (blocks : List Bytes), Ordered fq' file' (storedSize log.written) limit →
      file ++ fq.ch = blocks ++ (file' ++ fq'.ch) →
      Tracks fq' { log with delivered := log.delivered ++ blocks } file' limit := by
    intro fq' file' blocks hordered hsplit
    refine ⟨hordered, ?_⟩
    show Keeps limit log.written (log.delivered ++ blocks ++ (file' ++ fq'.ch))
    rw [append_assoc, ← hsplit]
    exact h.keeps
  cases op with
  | tryWriteBlock b =>
    obtain ⟨fq', file', hfq', htracks⟩ := hwrite b rfl false
    refine ⟨fq', _, file', ?_, rfl, htracks⟩
    rw [FastQueue.step, tryWriteBlock, hfq']
    rfl
  | mustWriteBlockIgnoreDisabledPq b =>
    obtain ⟨fq', file', hfq', htracks⟩ := hwrite b rfl true
    refine ⟨fq', _, file', ?_, rfl, htracks⟩
    rw [FastQueue.step, mustWriteBlockIgnoreDisabledPq, hfq']
    rfl
  | mustReadBlock =>
    obtain ⟨fq', result, file', hfq', hordered, hsplit, -⟩ := h.ordered.mustReadBlock
    refine ⟨fq', { log with delivered := log.delivered ++ result.blocks }, file', ?_,
      (append_nil _).symm, hread fq' file' result.blocks hordered hsplit⟩
    rw [FastQueue.step, hfq']
    rfl
  | mustReadInMemoryBlock =>
    obtain ⟨fq', block, hfq', hordered, hsplit⟩ := h.ordered.mustReadInMemoryBlock
    refine ⟨fq', { log with delivered := log.delivered ++ block.toList }, file, ?_,
      (append_nil _).symm, hread fq' file block.toList hordered hsplit⟩
    rw [FastQueue.step, hfq']
    rfl
  | unblockAllReaders =>
    refine ⟨fq.unblockAllReaders, log, file, rfl, (append_nil _).symm,
      h.ordered.unblockAllReaders.1, ?_⟩
    rw [h.ordered.unblockAllReaders.2]
    exact h.keeps

/-- A run accepts every block. -/
theorem Tracks.run (ops : List Op)
    (h : Tracks fq log file limit) (hblocks : ∀ b ∈ ops.flatMap Op.blocks, defaultGeometry.IsBlock b)
    (hfits : Fits (storedSize (log.written ++ ops.flatMap Op.blocks))) :
    ∃ fq' log' file', ops.foldlM (fun (fq, log) op => fq.step log op) (fq, log) = .ok (fq', log') ∧
      log'.written = log.written ++ ops.flatMap Op.blocks ∧ Tracks fq' log' file' limit := by
  induction ops generalizing fq log file with
  | nil => exact ⟨fq, log, file, rfl, (append_nil _).symm, h⟩
  | cons op ops ih =>
    rw [flatMap_cons, ← append_assoc] at hfits
    have hle : storedSize (log.written ++ op.blocks) ≤
        storedSize (log.written ++ op.blocks ++ ops.flatMap Op.blocks) := by
      rw [storedSize_append (log.written ++ op.blocks)]
      exact Nat.le_add_right _ _
    rw [flatMap_cons] at hblocks
    obtain ⟨fq₁, log₁, file₁, hstep, hwritten₁, htracks₁⟩ :=
      h.step op (fun b hb => hblocks b (mem_append_left _ hb)) (by omega)
    obtain ⟨fq', log', file', hrun, hwritten, htracks⟩ :=
      ih htracks₁ (fun b hb => hblocks b (mem_append_right _ hb)) (by rw [hwritten₁]; exact hfits)
    refine ⟨fq', log', file', ?_, ?_, htracks⟩
    · rw [foldlM_cons]
      simp only [hstep, except_ok_bind]
      exact hrun
    · rw [hwritten, hwritten₁, flatMap_cons, append_assoc]

/-- A queue as it is opened. -/
theorem mustOpenFastQueue_fresh {m : Machine} (name : Bytes) (hmeta : metainfoFilename ∉ m.files)
    (hname : Utf8.isValid name = true) (cap : Nat) (maxPendingBytes : Int) :
    ∃ fq, mustOpenFastQueue m name cap maxPendingBytes false = .ok fq ∧
      Tracks fq ⟨[], []⟩ [] (max maxPendingBytes 0).toNat ∧ fq.ch = [] ∧ fq.chCap = cap := by
  obtain ⟨q, hq, hinv, hlimit, -⟩ := mustOpenInternal_fresh (g := defaultGeometry)
    (max maxPendingBytes 0).toNat (by decide) hname hmeta
  have hdisk : OnDisk q [] 0 (max maxPendingBytes 0).toNat :=
    ⟨origin, origin, hinv, le_rfl, hlimit⟩
  refine ⟨⟨{ q with machine := q.machine.unixTimestamp.2 }, [], cap, 0, q.machine.unixTimestamp.1, 0, false⟩,
    ?_, ⟨⟨⟨0, hdisk.unixTimestamp, le_rfl⟩, .inl rfl, rfl, ?_, rfl⟩, Keeps.refl _ _⟩, rfl, rfl⟩
  · have hopen : mustOpen m name maxPendingBytes = .ok q := hq
    rw [mustOpenFastQueue, hopen]
    rfl
  · intro b hb
    cases hb

/-- What a queue promises between two operations. -/
structure InOrder (fq : FastQueue) (log : Log) (file : List Bytes) (maxPendingBytes : Int) : Prop where
  onDisk : fq.pq.contents = .ok file
  apart : file = [] ∨ fq.ch = []
  fifo : (log.delivered ++ (file ++ fq.ch)).Sublist log.written
  exactlyOnce : maxPendingBytes ≤ 0 → log.delivered ++ (file ++ fq.ch) = log.written
  bytes : fq.pendingInmemoryBytes = (fq.ch.map List.length).sum
  readable : ∀ b rest, file ++ fq.ch = b :: rest → fq.stopDeadline = 0 →
    ∃ fq', fq.mustReadBlock = .ok (fq', .block b)
  closes : ∃ m, fq.mustClose = .ok m

theorem Tracks.inOrder {maxPendingBytes : Int} (h : Tracks fq log file (max maxPendingBytes 0).toNat)
    (hfits : Fits (storedSize log.written)) :
    InOrder fq log file maxPendingBytes := by
  obtain ⟨used, hdisk, -⟩ := h.ordered.disk
  refine ⟨hdisk.contents, h.ordered.apart, h.keeps.sublist, ?_, h.ordered.bytes, ?_,
    h.ordered.mustClose hfits⟩
  · intro hnone
    exact h.keeps.all (by omega)
  · intro b rest hfirst hstop
    obtain ⟨fq', result, file', hread, -, hsplit, hempty⟩ := h.ordered.mustReadBlock
    cases hblocks : result.blocks with
    | nil =>
      rw [hempty hstop hblocks] at hfirst
      cases hfirst
    | cons c more =>
      rw [hfirst, hblocks] at hsplit
      obtain rfl : b = c := (List.cons.inj hsplit).1
      cases result with
      | block bb =>
        obtain rfl : bb = b := (List.cons.inj hblocks).1
        exact ⟨fq', hread⟩
      | stopped | waiting => cases hblocks

/-- Whatever is written and read, nothing panics, every block is accepted, and between two operations the
blocks that were delivered, those on disk and those in memory are written blocks in the order of the
writes; without a limit on the pending bytes they are all of them. -/
theorem inOrder_of_run (m : Machine) (name : Bytes) (cap : Nat) (maxPendingBytes : Int) (ops : List Op)
    (hmeta : metainfoFilename ∉ m.files) (hname : Utf8.isValid name = true)
    (hblocks : ∀ b ∈ ops.flatMap Op.blocks, defaultGeometry.IsBlock b)
    (hfits : 2 * storedSize (ops.flatMap Op.blocks) + 2 * defaultGeometry.chunk < 2 ^ 64) (n : Nat) :
    ∃ fq log file, (do
        let fq ← mustOpenFastQueue m name cap maxPendingBytes false
        fq.run (ops.take n)) = .ok (fq, log) ∧
      log.written = (ops.take n).flatMap Op.blocks ∧ InOrder fq log file maxPendingBytes := by
  have hsplit : (ops.take n).flatMap Op.blocks ++ (ops.drop n).flatMap Op.blocks =
      ops.flatMap Op.blocks := by
    rw [← flatMap_append, take_append_drop]
  have hfits' : Fits (storedSize ((ops.take n).flatMap Op.blocks)) := by
    rw [← hsplit, storedSize_append] at hfits
    omega
  obtain ⟨fq₀, hopen, htracks₀, -⟩ := mustOpenFastQueue_fresh name hmeta hname cap maxPendingBytes
  obtain ⟨fq, log, file, hrun, hwritten, htracks⟩ := htracks₀.run (ops.take n)
    (fun b hb => hblocks b (hsplit ▸ mem_append_left _ hb)) hfits'
  refine ⟨fq, log, file, ?_, hwritten, htracks.inOrder ?_⟩
  · rw [hopen, except_ok_bind]
    exact hrun
  · rw [hwritten]
    exact hfits'

/-- Two blocks, of which the first has to make room in memory and one is read. -/
def sampleOps : List Op := [.tryWriteBlock [1], .mustWriteBlockIgnoreDisabledPq [2, 3], .mustReadBlock]

theorem inOrder_sampleOps :
    metainfoFilename ∉ emptyMachine.files ∧
      ∃ fq log file, (do
          let fq ← mustOpenFastQueue emptyMachine (ascii "queue") 1 0 false
          fq.run sampleOps) = .ok (fq, log) ∧
        log.written = [[1], [2, 3]] ∧ InOrder fq log file 0 := by
  have hmeta : metainfoFilename ∉ emptyMachine.files := AList.notMem_empty _
  have hblocks : ∀ b ∈ sampleOps.flatMap Op.blocks, defaultGeometry.IsBlock b := by
    intro b hb
    have hcases : b = [1] ∨ b = [2, 3] := by simpa [sampleOps, Op.blocks] using hb
    rcases hcases with rfl | rfl <;> exact ⟨by decide, by decide⟩
  exact ⟨hmeta, inOrder_of_run emptyMachine (ascii "queue") 1 0 sampleOps hmeta (by decide) hblocks
    (by decide) 3⟩

/-- A block that is over the limit on the pending bytes is accepted and dropped. -/
theorem lost_over_limit :
    ∃ fq, (do
        let fq ← mustOpenFastQueue emptyMachine (ascii "queue") 0 1 false
        fq.run [.tryWriteBlock [1]]) = .ok (fq, ⟨[[1]], []⟩) ∧
      fq.pq.contents = .ok [] ∧ fq.ch = [] := by
  have hmeta : metainfoFilename ∉ emptyMachine.files := AList.notMem_empty _
  obtain ⟨fq, hopen, htracks, hch, hcap⟩ :=
    mustOpenFastQueue_fresh (ascii "queue") hmeta (by decide) 0 1
  obtain ⟨used, hdisk, hused⟩ := htracks.ordered.disk
  obtain ⟨n, hn, hnzero⟩ := hdisk.getPendingBytes
  have hzero : n = 0 := hnzero.2 rfl
  subst hzero
  have hused' : used ≤ 0 := Nat.le_trans (Nat.le_add_right _ _) hused
  obtain ⟨pq', file', hwrite, hdisk', -, hover⟩ :=
    hdisk.mustWriteBlock (b := [1]) ⟨by decide, by decide⟩ (by
      obtain rfl := Nat.le_zero.1 hused'
      decide)
  obtain rfl : file' = [] := sublist_nil.1 (hover (by decide) (by decide))
  refine ⟨{ fq with pq := pq', ch := [] }, ?_, hdisk'.contents, rfl⟩
  have hflush : fq.flushInmemoryBlocksToFileIfNeededLocked = .ok fq := if_pos (.inl hch)
  have hmove : fq.flushInmemoryBlocksToFileLocked = .ok { fq with ch := [] } := by
    rw [flushInmemoryBlocksToFileLocked, hch]
    rfl
  have htry : fq.tryWriteBlock [1] = .ok ({ fq with pq := pq', ch := [] }, true) := by
    have hallowed : (!fq.isPqDisabled || false) = true := by
      rw [htracks.ordered.enabled]
      rfl
    rw [tryWriteBlock, tryWriteBlockInternal, hflush, except_ok_bind, hallowed, FastQueue.writeFlushed,
      hn, except_ok_bind, if_neg (by decide), if_pos (by rw [hch, hcap]; rfl)]
    simp only [Bool.not_true, Bool.false_eq_true, if_false, hmove, except_ok_bind, hwrite]
    rfl
  rw [hopen, except_ok_bind, FastQueue.run, foldlM_cons]
  simp only [FastQueue.step, htry, except_ok_bind]
  rfl

end FastQueue

end EsLogs.PersistentQueue
