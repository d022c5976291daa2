import EsLogs.ChunkLayout
import EsLogs.PersistentQueue

/-!
What holds of the queue on disk between two operations: which files there are, where its reader and its
writer stand, and that the blocks that were written and not read are laid out between the two. Every
operation keeps this, and acts on the blocks as on a list.
-/

namespace EsLogs.PersistentQueue

open ChunkLayout Encoding FileStream JsonParser List

variable {b : Bytes} {p : Bytes} (k : Nat)

/-! ### The names of the chunk files -/

theorem hexValue_hexByte : ∀ d < 16, hexValue (hexByte 'A' d) = some d ∧
    (isDigit (hexByte 'A' d) || (byte 'A' ≤ hexByte 'A' d && hexByte 'A' d ≤ byte 'F')) = true ∧
    hexByte 'A' d ≠ byte '+' := by
  decide

theorem foldlM_hexValue (bs : Bytes) (n : Nat) :
    (bs.flatMap fun b => [hexByte 'A' (b.toNat / 16), hexByte 'A' (b.toNat % 16)]).foldlM
      (fun n c => (hexValue c).map fun d => n * 16 + d) n = some (n * 256 ^ bs.length + beNat bs) := by
  induction bs generalizing n with
  | nil => simp [beNat]
  | cons b bs ih =>
    have hhigh := (hexValue_hexByte (b.toNat / 16) (by have := b.toNat_lt; omega)).1
    have hlow := (hexValue_hexByte (b.toNat % 16) (by omega)).1
    simp only [flatMap_cons, cons_append, nil_append, foldlM_cons, hhigh, hlow,
      Option.map_some, Option.bind_eq_bind, Option.bind_some]
    have hvalue : (n * 16 + b.toNat / 16) * 16 + b.toNat % 16 = n * 256 + b.toNat := by omega
    rw [hvalue, ih, beNat, length_cons, pow_succ]
    congr 1
    ring

theorem length_chunkFilePath : (chunkFilePath k).length = 16 := by
  rw [chunkFilePath, length_flatMap]
  simp [length_beBytes]

theorem chunkFilePath_ne {k : Nat} {name : Bytes} (hname : name.length ≠ 16) : chunkFilePath k ≠ name := by
  rintro rfl
  exact hname (length_chunkFilePath k)

theorem isChunkFileName_chunkFilePath : isChunkFileName (chunkFilePath k) = true := by
  rw [isChunkFileName, length_chunkFilePath, decide_eq_true rfl, Bool.true_and, all_eq_true]
  intro c hc
  obtain ⟨b, -, hc⟩ := mem_flatMap.1 hc
  have hb := b.toNat_lt
  rcases mem_pair.1 hc with rfl | rfl
  · exact (hexValue_hexByte _ (by omega)).2.1
  · exact (hexValue_hexByte _ (by omega)).2.1

theorem fromStrRadix16_chunkFilePath {k : Nat} (hk : k < 2 ^ 64) :
    fromStrRadix16 (chunkFilePath k) = some k := by
  have hne : chunkFilePath k ≠ [] := chunkFilePath_ne (by decide)
  have hhead : (chunkFilePath k).head? ≠ some (byte '+') := by
    intro h
    obtain ⟨b, -, hc⟩ := mem_flatMap.1 (mem_of_mem_head? h)
    have hb := b.toNat_lt
    rcases mem_pair.1 hc with hc | hc
    · exact (hexValue_hexByte _ (by omega)).2.2 hc.symm
    · exact (hexValue_hexByte _ (by omega)).2.2 hc.symm
  simp only [fromStrRadix16, hhead, if_false, hne]
  rw [chunkFilePath, foldlM_hexValue, Nat.zero_mul, Nat.zero_add,
    beNat_beBytes (Nat.lt_of_lt_of_eq hk (by norm_num))]

theorem chunkFilePath_injOn {j k : Nat} (hj : j < 2 ^ 64) (hk : k < 2 ^ 64)
    (h : chunkFilePath j = chunkFilePath k) : j = k := by
  have heq := fromStrRadix16_chunkFilePath hj
  rw [h, fromStrRadix16_chunkFilePath hk] at heq
  exact (Option.some.inj heq).symm

theorem chunkFilePath_ne_metainfo : chunkFilePath k ≠ metainfoFilename := chunkFilePath_ne (by decide)

theorem chunkFilePath_ne_flock : chunkFilePath k ≠ flockFilename := chunkFilePath_ne (by decide)

/-! ### The files and the streams -/

/-- The bytes of a chunk, with those that the writer holds back. -/
def Queue.chunkData (q : Queue) (k : Nat) : Bytes :=
  q.machine.content (chunkFilePath k) ++
    match q.writer with
    | some w => if w.path = chunkFilePath k then w.buffered else []
    | none => []

/-- The names of the files of a queue with chunks from one offset to another. -/
def IsQueueFile (g : Geometry) (first last : Nat) (name : Bytes) : Prop :=
  name = metainfoFilename ∨ name = flockFilename ∨
    ∃ k, first ≤ k ∧ k ≤ last ∧ g.chunk ∣ k ∧ name = chunkFilePath k

/-- The reader stands at the place `r` and the writer at the place `w`, and there are the files that
there must be. -/
structure Files (g : Geometry) (q : Queue) (r w : Pos) : Prop where
  chunkFileSize : q.chunkFileSize = g.chunk
  maxBlockSize : q.maxBlockSize = g.maxBlock
  name : Utf8.isValid q.name = true
  inChunkReader : g.InChunk r
  inChunkWriter : g.InChunk w
  base_le : r.base ≤ w.base
  bound : w.base + g.chunk < 2 ^ 64
  mem : ∀ p, p ∈ q.machine.files ↔ IsQueueFile g r.base w.base p
  reader : ∃ rd, q.reader = some rd ∧ rd.path = chunkFilePath r.base ∧
    rd.At (q.machine.content (chunkFilePath r.base)) r.off
  readerPath : q.readerPath = chunkFilePath r.base
  readerOffset : q.readerOffset = r.offset
  readerLocalOffset : q.readerLocalOffset = r.off
  readable : r.off ≤ (q.chunkData r.base).length
  writer : ∃ wr, q.writer = some wr ∧ wr.path = chunkFilePath w.base ∧ wr.Appends q.machine
  writerPath : q.writerPath = chunkFilePath w.base
  writerOffset : q.writerOffset = w.offset
  writerLocalOffset : q.writerLocalOffset = w.off
  written : (q.chunkData w.base).length = w.off
  flushed_ge : w.base ≤ q.writerFlushedOffset
  flushed_le : q.writerFlushedOffset ≤ w.base + (q.machine.content (chunkFilePath w.base)).length

namespace Files

variable {g : Geometry} {q : Queue} {r w : Pos}

theorem lt_of_le (h : Files g q r w) {k : Nat} (hk : k ≤ w.base) : k < 2 ^ 64 := by
  have hbound := h.bound
  omega

theorem chunkFilePath_eq_iff (h : Files g q r w) {j k : Nat} (hj : j ≤ w.base) (hk : k ≤ w.base) :
    chunkFilePath j = chunkFilePath k ↔ j = k :=
  ⟨chunkFilePath_injOn (h.lt_of_le hj) (h.lt_of_le hk), fun hjk => hjk ▸ rfl⟩

theorem chunkData_of_lt (h : Files g q r w) {k : Nat} (hk : k < w.base) :
    q.chunkData k = q.machine.content (chunkFilePath k) := by
  obtain ⟨wr, hwr, hpath, -⟩ := h.writer
  have hne : ¬wr.path = chunkFilePath k := by
    rw [hpath, h.chunkFilePath_eq_iff le_rfl (Nat.le_of_lt hk)]
    omega
  simp only [Queue.chunkData, hwr, hne, if_false, append_nil]

theorem content_prefix_chunkData (q : Queue) (k : Nat) :
    q.machine.content (chunkFilePath k) <+: q.chunkData k := prefix_append _ _

section

variable (h : Files g q r w)
include h

theorem mem_reader : chunkFilePath r.base ∈ q.machine.files :=
  (h.mem _).2 (.inr (.inr ⟨r.base, le_rfl, h.base_le, h.inChunkReader.aligned, rfl⟩))

theorem chunkData_writer {wr : Writer} (hwr : q.writer = some wr) :
    q.chunkData w.base = wr.written q.machine := by
  obtain ⟨wr', hwr', hpath, -⟩ := h.writer
  cases hwr'.symm.trans hwr
  simp only [Queue.chunkData, hwr, hpath, if_true, Writer.written]

/-- A machine on which the files of the queue are as they were. -/
theorem of_machine {m : Machine}
    (hcontent : ∀ k, m.content (chunkFilePath k) = q.machine.content (chunkFilePath k))
    (hmem : ∀ p, p ∈ m.files ↔ p ∈ q.machine.files) :
    Files g { q with machine := m } r w ∧
      ∀ k, Queue.chunkData { q with machine := m } k = q.chunkData k := by
  have hdata : ∀ k, Queue.chunkData { q with machine := m } k = q.chunkData k := by
    intro k
    simp only [Queue.chunkData, hcontent]
  obtain ⟨rd, hrd, hrpath, hat⟩ := h.reader
  obtain ⟨wr, hwr, hwpath, hmemw, hpos, hroom⟩ := h.writer
  refine ⟨?_, hdata⟩
  exact { h with
    mem := fun p => (hmem p).trans (h.mem p)
    reader := ⟨rd, hrd, hrpath, (hcontent r.base).symm ▸ hat⟩
    readable := by rw [hdata]; exact h.readable
    writer := by
      refine ⟨wr, hwr, hwpath, (hmem _).2 hmemw, ?_, hroom⟩
      rw [hwpath, hcontent, ← hwpath]
      exact hpos
    written := by rw [hdata]; exact h.written
    flushed_le := by rw [hcontent]; exact h.flushed_le }

/-- Writing the offsets down leaves the chunks alone. -/
theorem flushMetainfo :
    Files g q.flushMetainfo r w ∧ ∀ k, q.flushMetainfo.chunkData k = q.chunkData k := by
  obtain ⟨-, hmem, hother, -, -⟩ := mustWriteSync_spec q.machine metainfoFilename
    (Metainfo.marshal ⟨q.name, q.readerOffset, q.writerOffset⟩)
  refine h.of_machine ?_ ?_
  · intro k
    exact hother _ (chunkFilePath_ne_metainfo k)
  · intro p
    rw [hmem p]
    refine ⟨fun hp => hp.elim (fun heq => ?_) id, .inr⟩
    rw [heq, h.mem]
    exact .inl rfl

/-- What the writer appends is added to its chunk. -/
theorem wrote {wr wr' : Writer} {m' : Machine} {p : Bytes} {q' : Queue}
    (hwr : q.writer = some wr) (hw : wr.Wrote q.machine p wr' m') (hfit : w.off + p.length ≤ g.chunk)
    (hq' : q' = { q with
      machine := m', writer := some wr'
      writerLocalOffset := q.writerLocalOffset + p.length
      writerOffset := q.writerOffset + p.length }) :
    Files g q' r ⟨w.base, w.off + p.length⟩ ∧
      ∀ k ≤ w.base, q'.chunkData k = q.chunkData k ++ if k = w.base then p else [] := by
  obtain ⟨rd, hrd, hrpath, hat⟩ := h.reader
  obtain ⟨wr₀, hwr₀, hwpath, happends⟩ := h.writer
  cases hwr₀.symm.trans hwr
  have hpath' : wr'.path = chunkFilePath w.base := hw.path.trans hwpath
  have hgrows := hw.grows
  rw [hwpath] at hgrows
  have hdata : ∀ k ≤ w.base, q'.chunkData k = q.chunkData k ++ if k = w.base then p else [] := by
    intro k hk
    subst hq'
    by_cases hkw : k = w.base
    · subst hkw
      have hwritten := hw.written
      rw [Writer.written, hpath'] at hwritten
      rw [h.chunkData_writer hwr, if_pos rfl]
      simp only [Queue.chunkData, hpath', if_true]
      exact hwritten
    · have hne : chunkFilePath w.base ≠ chunkFilePath k := by
        intro heq
        exact hkw ((h.chunkFilePath_eq_iff le_rfl hk).1 heq).symm
      rw [h.chunkData_of_lt (by omega), if_neg hkw, append_nil]
      simp only [Queue.chunkData, hpath', hne, if_false, append_nil]
      exact hgrows.other _ hne.symm
  have hcontent : ∀ k, q.machine.content (chunkFilePath k) <+: m'.content (chunkFilePath k) := by
    intro k
    by_cases heq : chunkFilePath k = chunkFilePath w.base
    · rw [heq]
      exact hgrows.grown
    · rw [hgrows.other _ heq]
  refine ⟨?_, hdata⟩
  subst hq'
  exact { h with
    inChunkWriter := ⟨h.inChunkWriter.aligned, hfit⟩
    mem := fun p => (hgrows.mem p).trans (h.mem p)
    reader := ⟨rd, hrd, hrpath, hat.mono (hcontent _)⟩
    readable := by
      rw [hdata _ h.base_le, length_append]
      exact Nat.le_trans h.readable (Nat.le_add_right _ _)
    writer := ⟨wr', rfl, hpath', hw.appends⟩
    writerOffset := by
      show q.writerOffset + p.length = w.base + (w.off + p.length)
      rw [h.writerOffset, Pos.offset, Nat.add_assoc]
    writerLocalOffset := by
      show q.writerLocalOffset + p.length = w.off + p.length
      rw [h.writerLocalOffset]
    written := by
      rw [hdata _ le_rfl, if_pos rfl, length_append, h.written]
    flushed_le := by
      refine Nat.le_trans h.flushed_le ?_
      exact Nat.add_le_add_left (hcontent w.base).length_le _ }

/-- The writer hands over what it holds back. -/
theorem flush {wr : Writer} (hwr : q.writer = some wr) :
    ∃ wr' m', wr.mustFlush q.machine = (wr', m') ∧
      Files g { q with machine := m', writer := some wr' } r w ∧
      (∀ k ≤ w.base, Queue.chunkData { q with machine := m', writer := some wr' } k = q.chunkData k) ∧
      m'.content (chunkFilePath w.base) = q.chunkData w.base := by
  obtain ⟨wr₀, hwr₀, hwpath, happends⟩ := h.writer
  cases hwr₀.symm.trans hwr
  obtain ⟨wr', m', hflush, -, hwrote, hcontent⟩ := Writer.mustFlush_spec happends
  obtain ⟨hfiles, hdata⟩ := h.wrote hwr hwrote h.inChunkWriter.le rfl
  refine ⟨wr', m', hflush, hfiles, ?_, ?_⟩
  · intro k hk
    refine (hdata k hk).trans ?_
    rw [ite_self, append_nil]
  · rw [h.chunkData_writer hwr, ← hwpath]
    exact hcontent

theorem with_time (t : Nat) :
    Files g { q with lastMetainfoFlushTime := t } r w := { h with }

/-- A look at the clock leaves the files alone. -/
theorem unixTimestamp :
    Files g { q with machine := q.machine.unixTimestamp.2 } r w ∧
      ∀ k, Queue.chunkData { q with machine := q.machine.unixTimestamp.2 } k = q.chunkData k :=
  h.of_machine (fun _ => rfl) fun _ => Iff.rfl

theorem flushReaderMetainfoIfNeeded :
    Files g q.flushReaderMetainfoIfNeeded r w ∧
      ∀ k, q.flushReaderMetainfoIfNeeded.chunkData k = q.chunkData k := by
  obtain ⟨hclock, hdata⟩ := h.unixTimestamp
  by_cases ht : q.machine.unixTimestamp.1 = q.lastMetainfoFlushTime
  · have heq : q.flushReaderMetainfoIfNeeded = { q with machine := q.machine.unixTimestamp.2 } :=
      if_pos ht
    rw [heq]
    exact ⟨hclock, hdata⟩
  · have heq : q.flushReaderMetainfoIfNeeded =
        { Queue.flushMetainfo { q with machine := q.machine.unixTimestamp.2 } with
          lastMetainfoFlushTime := q.machine.unixTimestamp.1 } := if_neg ht
    obtain ⟨hfiles, hdata'⟩ := hclock.flushMetainfo
    rw [heq]
    refine ⟨hfiles.with_time _, ?_⟩
    intro k
    exact (hdata' k).trans (hdata k)

theorem flushWriterMetainfoIfNeeded :
    ∃ q', q.flushWriterMetainfoIfNeeded = .ok q' ∧ Files g q' r w ∧
      (∀ k ≤ w.base, q'.chunkData k = q.chunkData k) ∧ q'.maxPendingBytes = q.maxPendingBytes := by
  obtain ⟨hclock, hdata⟩ := h.unixTimestamp
  by_cases ht : q.machine.unixTimestamp.1 = q.lastMetainfoFlushTime
  · exact ⟨_, if_pos ht, hclock, fun k _ => hdata k, rfl⟩
  · obtain ⟨wr, hwr, -, -⟩ := h.writer
    obtain ⟨wr', m', hflush, hfiles, hdata', -⟩ := hclock.flush hwr
    obtain ⟨hmeta, hdata''⟩ := hfiles.flushMetainfo
    refine ⟨{ Queue.flushMetainfo { q with machine := m', writer := some wr' } with
      lastMetainfoFlushTime := q.machine.unixTimestamp.1 }, ?_, hmeta.with_time _, ?_, rfl⟩
    · change wr.mustFlush ⟨q.machine.files, q.machine.clock.tail, q.machine.memoryAllowed⟩ = _ at hflush
      refine (if_neg ht).trans ?_
      rw [Queue.writerMut, hwr]
      simp only [except_ok_bind, hflush]
      rfl
    · intro k hk
      exact (hdata'' k).trans ((hdata' k hk).trans (hdata k))

/-- `Queue::write` appends to the chunk of the writer. -/
theorem write (hfit : w.off + p.length ≤ g.chunk) :
    ∃ q', q.write p = .ok q' ∧ Files g q' r ⟨w.base, w.off + p.length⟩ ∧
      (∀ k ≤ w.base, q'.chunkData k = q.chunkData k ++ if k = w.base then p else []) ∧
      q'.maxPendingBytes = q.maxPendingBytes := by
  obtain ⟨wr, hwr, -, happends⟩ := h.writer
  obtain ⟨wr', m', hwrite, hwrote⟩ := Writer.write_spec happends p
  obtain ⟨hfiles, hdata⟩ := h.wrote hwr hwrote hfit rfl
  refine ⟨_, ?_, hfiles, hdata, rfl⟩
  rw [Queue.write, Queue.writerMut, hwr]
  simp only [except_ok_bind, hwrite]
  rfl

end

/-- The offset at which the chunk behind a place starts. -/
theorem nextChunkOffset_eq {p : Pos} (hp : g.InChunk p) (hfull : g.chunk < p.off + g.maxBlock + 8) :
    Queue.nextChunkOffset g.chunk p.offset = p.base + g.chunk := by
  obtain ⟨a, ha⟩ := hp.aligned
  have hle := hp.le
  have hfits := g.fits
  have hmod : p.offset % g.chunk = p.off % g.chunk := by
    rw [Pos.offset, ha, Nat.mul_add_mod]
  unfold Queue.nextChunkOffset
  rw [hmod]
  rcases Nat.lt_or_ge p.off g.chunk with hlt | hge
  · rw [Nat.mod_eq_of_lt hlt]
    simp only [Pos.offset]
    rw [if_pos (by omega)]
    omega
  · have hend : p.off = g.chunk := Nat.le_antisymm hle hge
    simp only [hend, Nat.mod_self, Nat.lt_irrefl, gt_iff_lt, if_false, Pos.offset]

/-- Behind the last chunk there is only the start of the next one. -/
theorem isQueueFile_next {g : Geometry} {first last : Nat} (hlast : g.chunk ∣ last) (hle : first ≤ last) :
    IsQueueFile g first (last + g.chunk) p ↔ p = chunkFilePath (last + g.chunk) ∨ IsQueueFile g first last p := by
  unfold IsQueueFile
  constructor
  · rintro (hp | hp | ⟨k, hk, hkl, hdvd, hp⟩)
    · exact .inr (.inl hp)
    · exact .inr (.inr (.inl hp))
    · rcases Nat.lt_or_ge last k with hlt | hge
      · have hnext := Geometry.add_chunk_le_of_lt hlast hdvd hlt
        exact .inl (by rw [hp, Nat.le_antisymm hkl hnext])
      · exact .inr (.inr (.inr ⟨k, hk, hge, hdvd, hp⟩))
  · rintro (hp | hp | hp | ⟨k, hk, hkl, hdvd, hp⟩)
    · exact .inr (.inr ⟨_, Nat.le_trans hle (Nat.le_add_right _ _), le_rfl,
        Nat.dvd_add hlast (Nat.dvd_refl _), hp⟩)
    · exact .inl hp
    · exact .inr (.inl hp)
    · exact .inr (.inr ⟨k, hk, Nat.le_trans hkl (Nat.le_add_right _ _), hdvd, hp⟩)

/-- The next chunk file is empty, and the one before has all its bytes. -/
theorem nextChunkFileForWrite (h : Files g q r w) (hfull : g.chunk < w.off + g.maxBlock + 8)
    (hbound : w.base + g.chunk + g.chunk < 2 ^ 64) :
    Files g q.nextChunkFileForWrite r ⟨w.base + g.chunk, 0⟩ ∧
      (∀ k ≤ w.base, q.nextChunkFileForWrite.chunkData k = q.chunkData k) ∧
      q.nextChunkFileForWrite.chunkData (w.base + g.chunk) = [] ∧
      q.nextChunkFileForWrite.maxPendingBytes = q.maxPendingBytes := by
  obtain ⟨rd, hrd, hrpath, hat⟩ := h.reader
  obtain ⟨wr, hwr, hwpath, happends⟩ := h.writer
  obtain ⟨hgrows, hcontent⟩ := Writer.mustClose_spec happends
  rw [hwpath] at hgrows hcontent
  have hpos := g.chunk_pos
  -- the queue before its offsets are written down
  obtain ⟨q₁, hq₁⟩ : ∃ q₁ : Queue, q₁ = { q with
    machine := (wr.mustClose q.machine).put (chunkFilePath (w.base + g.chunk)) []
    writer := some (mustCreate (wr.mustClose q.machine) (chunkFilePath (w.base + g.chunk))).1
    writerPath := chunkFilePath (w.base + g.chunk)
    writerOffset := w.base + g.chunk, writerLocalOffset := 0
    writerFlushedOffset := w.base + g.chunk } := ⟨_, rfl⟩
  have hnext : q.nextChunkFileForWrite = q₁.flushMetainfo := by
    rw [Queue.nextChunkFileForWrite, Queue.closeWriter, hwr]
    simp only [h.chunkFileSize, h.writerOffset, nextChunkOffset_eq h.inChunkWriter hfull, hq₁]
    rfl
  have hne : ∀ k ≤ w.base, chunkFilePath k ≠ chunkFilePath (w.base + g.chunk) := by
    intro k hk heq
    have := chunkFilePath_injOn (h.lt_of_le hk) (by omega) heq
    omega
  have hkeep : ∀ k ≤ w.base, q₁.machine.content (chunkFilePath k) = q.chunkData k := by
    intro k hk
    rw [hq₁]
    show ((wr.mustClose q.machine).put (chunkFilePath (w.base + g.chunk)) []).content (chunkFilePath k) = _
    rw [Machine.content_put_of_ne _ (hne k hk)]
    rcases Nat.lt_or_eq_of_le hk with hlt | rfl
    · rw [h.chunkData_of_lt hlt, hgrows.other]
      intro heq
      have := (h.chunkFilePath_eq_iff hk le_rfl).1 heq
      omega
    · rw [hcontent, h.chunkData_writer hwr]
  have hnew : q₁.machine.content (chunkFilePath (w.base + g.chunk)) = [] := by
    rw [hq₁]
    exact Machine.content_put_self _ _ _
  have hwriter : q₁.writer =
      some (mustCreate (wr.mustClose q.machine) (chunkFilePath (w.base + g.chunk))).1 := by
    rw [hq₁]
  have hdata : ∀ k, q₁.chunkData k = q₁.machine.content (chunkFilePath k) := by
    intro k
    simp only [Queue.chunkData, hwriter, mustCreate, ite_self, append_nil]
  have hfiles : Files g q₁ r ⟨w.base + g.chunk, 0⟩ := by
    subst hq₁
    exact { h with
      inChunkWriter := ⟨Nat.dvd_add h.inChunkWriter.aligned (Nat.dvd_refl _), Nat.zero_le _⟩
      base_le := Nat.le_trans h.base_le (Nat.le_add_right _ _)
      bound := hbound
      mem := by
        intro p
        rw [isQueueFile_next h.inChunkWriter.aligned h.base_le, ← h.mem, ← hgrows.mem]
        exact Machine.mem_files_put
      reader := by
        refine ⟨rd, hrd, hrpath, hat.mono ?_⟩
        rw [hkeep _ h.base_le]
        exact content_prefix_chunkData q _
      readable := by
        rw [hdata, hkeep _ h.base_le]
        exact h.readable
      writer := ⟨_, hwriter, rfl, Writer.appends_mustCreate _ _⟩
      writerPath := rfl
      writerOffset := rfl
      writerLocalOffset := rfl
      written := by rw [hdata, hnew]; rfl
      flushed_ge := le_rfl
      flushed_le := Nat.le_add_right _ _ }
  obtain ⟨hmeta, hsame⟩ := hfiles.flushMetainfo
  rw [hnext]
  refine ⟨hmeta, ?_, ?_, by rw [hq₁]; rfl⟩
  · intro k hk
    rw [hsame, hdata, hkeep k hk]
  · rw [hsame, hdata, hnew]

/-- The first step of `write_block_internal` brings the writer to the place of the next block. -/
theorem moveWriter (h : Files g q r w) (hbound : (g.advance w).base + g.chunk < 2 ^ 64) :
    Files g q.moveWriter r (g.advance w) ∧
      (∀ k ≤ w.base, q.moveWriter.chunkData k = q.chunkData k) ∧
      q.moveWriter.maxPendingBytes = q.maxPendingBytes := by
  rw [Queue.moveWriter, h.writerLocalOffset, h.maxBlockSize, h.chunkFileSize]
  by_cases hfull : w.off + g.maxBlock + 8 > g.chunk
  · rw [if_pos hfull]
    rw [Geometry.advance_of_full hfull] at hbound ⊢
    obtain ⟨hfiles, hdata, -, hlimit⟩ := h.nextChunkFileForWrite hfull hbound
    exact ⟨hfiles, hdata, hlimit⟩
  · rw [if_neg hfull, Geometry.advance_of_room (by omega)]
    exact ⟨h, fun _ _ => rfl, rfl⟩

/-- Bytes of the reader's chunk that were written are in its file when they are read. -/
theorem flushForRead (h : Files g q r w) (n : Nat) (hn : r.off + n ≤ (q.chunkData r.base).length) :
    ∃ q', q.flushForRead n = .ok q' ∧ Files g q' r w ∧
      (∀ k ≤ w.base, q'.chunkData k = q.chunkData k) ∧
      r.off + n ≤ (q'.machine.content (chunkFilePath r.base)).length ∧
      q'.maxPendingBytes = q.maxPendingBytes := by
  obtain ⟨wr, hwr, -, -⟩ := h.writer
  unfold Queue.flushForRead
  by_cases hneed : q.readerOffset + n > q.writerFlushedOffset
  · rw [if_pos hneed]
    obtain ⟨wr', m', hflush, hfiles, hdata, hcontent⟩ := h.flush hwr
    have hwritten := h.written
    refine ⟨{ q with machine := m', writer := some wr', writerFlushedOffset := q.writerOffset }, ?_,
      ?_, hdata, ?_, rfl⟩
    · rw [Queue.writerMut, hwr]
      simp only [except_ok_bind, hflush]
      rfl
    · refine { hfiles with flushed_ge := ?_, flushed_le := ?_ }
      · rw [h.writerOffset]
        exact Nat.le_add_right _ _
      · show q.writerOffset ≤ w.base + (m'.content (chunkFilePath w.base)).length
        rw [h.writerOffset, hcontent, hwritten, Pos.offset]
    · show r.off + n ≤ (m'.content (chunkFilePath r.base)).length
      rcases Nat.lt_or_eq_of_le h.base_le with hlt | heq
      · have hsame := hfiles.chunkData_of_lt hlt
        rw [hdata _ h.base_le] at hsame
        rw [← hsame]
        exact hn
      · rw [heq] at hn ⊢
        rw [hcontent]
        exact hn
  · rw [if_neg hneed]
    refine ⟨q, rfl, h, fun _ _ => rfl, ?_, rfl⟩
    rcases Nat.lt_or_eq_of_le h.base_le with hlt | heq
    · rw [h.chunkData_of_lt hlt] at hn
      exact hn
    · -- the bytes are before the offset up to which everything was flushed
      have hflushed := h.flushed_le
      rw [h.readerOffset, Pos.offset, heq] at hneed
      rw [heq]
      omega

/-- Bytes of the reader's chunk that were written are read. -/
theorem readFull (h : Files g q r w) {n : Nat} (hn : r.off + n ≤ (q.chunkData r.base).length)
    (hfit : r.off + n ≤ g.chunk) :
    ∃ q', q.readFull n = .ok (q', .ok (((q.chunkData r.base).drop r.off).take n)) ∧
      Files g q' ⟨r.base, r.off + n⟩ w ∧ (∀ k ≤ w.base, q'.chunkData k = q.chunkData k) ∧
      q'.maxPendingBytes = q.maxPendingBytes := by
  obtain ⟨q₁, hq₁, hfiles, hdata, havail, hlimit⟩ := h.flushForRead n hn
  obtain ⟨rd, hrd, hrpath, hat⟩ := hfiles.reader
  obtain ⟨rd', hread, hat', hrpath'⟩ := Reader.readExact_spec (by rw [hrpath]) hat havail
  have hbehind : r.offset + n ≤ w.offset := by
    unfold Pos.offset
    rcases Nat.lt_or_eq_of_le h.base_le with hlt | heq
    · have hnext := Geometry.add_chunk_le_of_lt h.inChunkReader.aligned h.inChunkWriter.aligned hlt
      omega
    · rw [heq, h.written] at hn
      omega
  have hbytes : ((q₁.machine.content (chunkFilePath r.base)).drop r.off).take n =
      ((q.chunkData r.base).drop r.off).take n := by
    obtain ⟨more, hmore⟩ := content_prefix_chunkData q₁ r.base
    rw [← hdata _ h.base_le, ← hmore, drop_append_of_le_length (by omega),
      take_append_of_le_length (by rw [length_drop]; omega)]
  have hcheck : Queue.checkReaderWriterOffsets { q₁ with
      reader := some rd', readerLocalOffset := q₁.readerLocalOffset + n
      readerOffset := q₁.readerOffset + n } = .ok () := by
    refine if_pos ?_
    show q₁.readerOffset + n ≤ q₁.writerOffset
    rwa [hfiles.readerOffset, hfiles.writerOffset]
  refine ⟨{ q₁ with
      reader := some rd', readerLocalOffset := q₁.readerLocalOffset + n
      readerOffset := q₁.readerOffset + n }, ?_, ?_, hdata, hlimit⟩
  · rw [Queue.readFull, hq₁, except_ok_bind, Queue.readerMut, hrd, except_ok_bind, hread]
    simp only [hcheck, hbytes]
    rfl
  · exact { hfiles with
      inChunkReader := ⟨h.inChunkReader.aligned, hfit⟩
      reader := ⟨rd', rfl, hrpath'.trans hrpath, hat'⟩
      readerOffset := by
        show q₁.readerOffset + n = r.base + (r.off + n)
        rw [hfiles.readerOffset, Pos.offset, Nat.add_assoc]
      readerLocalOffset := by
        show q₁.readerLocalOffset + n = r.off + n
        rw [hfiles.readerLocalOffset]
      readable := Nat.le_trans hn (Nat.le_of_eq (congrArg List.length (hdata _ h.base_le)).symm) }

/-- Without the first chunk, the files are those from the next chunk on. -/
theorem isQueueFile_tail {g : Geometry} {first last : Nat} (hfirst : g.chunk ∣ first) (hlast : last < 2 ^ 64) :
    IsQueueFile g (first + g.chunk) last p ↔ p ≠ chunkFilePath first ∧ IsQueueFile g first last p := by
  have hpos := g.chunk_pos
  unfold IsQueueFile
  constructor
  · rintro (rfl | rfl | ⟨k, hk, hkl, hdvd, rfl⟩)
    · exact ⟨(chunkFilePath_ne_metainfo _).symm, .inl rfl⟩
    · exact ⟨(chunkFilePath_ne_flock _).symm, .inr (.inl rfl)⟩
    · refine ⟨?_, .inr (.inr ⟨k, by omega, hkl, hdvd, rfl⟩)⟩
      intro heq
      have := chunkFilePath_injOn (by omega) (by omega) heq
      omega
  · rintro ⟨hne, hp | hp | ⟨k, hk, hkl, hdvd, rfl⟩⟩
    · exact .inl hp
    · exact .inr (.inl hp)
    · have hlt : first < k := by
        refine Nat.lt_of_le_of_ne hk ?_
        rintro rfl
        exact hne rfl
      exact .inr (.inr ⟨k, Geometry.add_chunk_le_of_lt hfirst hdvd hlt, hkl, hdvd, rfl⟩)

/-- The reader goes to the next chunk, and the chunk that it leaves is removed. -/
theorem nextChunkFileForRead (h : Files g q r w) (hfull : g.chunk < r.off + g.maxBlock + 8)
    (hlt : r.base < w.base) :
    ∃ q', q.nextChunkFileForRead = .ok q' ∧ Files g q' ⟨r.base + g.chunk, 0⟩ w ∧
      (∀ k, r.base < k → k ≤ w.base → q'.chunkData k = q.chunkData k) ∧
      q'.maxPendingBytes = q.maxPendingBytes := by
  obtain ⟨wr, hwr, hwpath, happends⟩ := h.writer
  have hnext := Geometry.add_chunk_le_of_lt h.inChunkReader.aligned h.inChunkWriter.aligned hlt
  have hbound := h.bound
  -- the queue before its offsets are written down
  obtain ⟨m, hm⟩ : ∃ m : Machine, m = { q.machine with files := q.machine.files.erase (chunkFilePath r.base) } :=
    ⟨_, rfl⟩
  have hmem : ∀ p, p ∈ m.files ↔ IsQueueFile g (r.base + g.chunk) w.base p := by
    intro p
    rw [hm, isQueueFile_tail h.inChunkReader.aligned (h.lt_of_le le_rfl), ← h.mem]
    exact AList.mem_erase
  have hcontent : ∀ k, r.base < k → k ≤ w.base →
      m.content (chunkFilePath k) = q.machine.content (chunkFilePath k) := by
    intro k hk hkw
    have hne : chunkFilePath k ≠ chunkFilePath r.base := by
      intro heq
      have := (h.chunkFilePath_eq_iff hkw h.base_le).1 heq
      omega
    rw [hm]
    simp only [Machine.content, AList.lookup_erase_ne hne]
  have hnew : chunkFilePath (r.base + g.chunk) ∈ m.files :=
    (hmem _).2 (.inr (.inr ⟨_, le_rfl, hnext,
      Nat.dvd_add h.inChunkReader.aligned (Nat.dvd_refl _), rfl⟩))
  obtain ⟨q₁, hq₁⟩ : ∃ q₁ : Queue, q₁ = { q with
    machine := m, readerOffset := r.base + g.chunk, readerLocalOffset := 0
    readerPath := chunkFilePath (r.base + g.chunk)
    reader := some ⟨chunkFilePath (r.base + g.chunk), getReadBufferSize m, 0, []⟩ } := ⟨_, rfl⟩
  have hdata : ∀ k, r.base < k → k ≤ w.base → q₁.chunkData k = q.chunkData k := by
    intro k hk hkw
    rw [hq₁]
    simp only [Queue.chunkData, hcontent k hk hkw]
  have hfiles : Files g q₁ ⟨r.base + g.chunk, 0⟩ w := by
    subst hq₁
    exact { h with
      inChunkReader := ⟨Nat.dvd_add h.inChunkReader.aligned (Nat.dvd_refl _), Nat.zero_le _⟩
      base_le := hnext
      mem := hmem
      reader := ⟨_, rfl, rfl, rfl, List.nil_prefix⟩
      readerPath := rfl
      readerOffset := rfl
      readerLocalOffset := rfl
      readable := Nat.zero_le _
      writer := by
        refine ⟨wr, hwr, hwpath, ?_, ?_, happends.room⟩
        · rw [hwpath]
          exact (hmem _).2 (.inr (.inr ⟨_, hnext, le_rfl, h.inChunkWriter.aligned, rfl⟩))
        · rw [hwpath]
          show wr.filePos = (m.content (chunkFilePath w.base)).length
          rw [hcontent _ hlt le_rfl, ← hwpath]
          exact happends.pos
      written := by rw [hdata _ hlt le_rfl]; exact h.written
      flushed_le := by
        show q.writerFlushedOffset ≤ w.base + (m.content (chunkFilePath w.base)).length
        rw [hcontent _ hlt le_rfl]
        exact h.flushed_le }
  obtain ⟨hmeta, hsame⟩ := hfiles.flushMetainfo
  refine ⟨q₁.flushMetainfo, ?_, hmeta, ?_, by rw [hq₁]; rfl⟩
  · have hremove : q.machine.mustRemovePath q.readerPath = .ok m := by
      rw [h.readerPath, Machine.mustRemovePath, if_pos h.mem_reader, hm]
    have hcheck : Queue.checkReaderWriterOffsets { q with
        machine := m, reader := none, readerOffset := r.base + g.chunk } = .ok () := by
      refine if_pos ?_
      show r.base + g.chunk ≤ q.writerOffset
      rw [h.writerOffset, Pos.offset]
      omega
    have hopen : FileStream.mustOpen m (chunkFilePath (r.base + g.chunk)) =
        .ok ⟨chunkFilePath (r.base + g.chunk), getReadBufferSize m, 0, []⟩ := if_pos hnew
    rw [Queue.nextChunkFileForRead, hremove, except_ok_bind]
    simp only [h.chunkFileSize, h.readerOffset, nextChunkOffset_eq h.inChunkReader hfull]
    rw [h.chunkFileSize] at hcheck
    rw [hcheck, except_mapError_ok, except_ok_bind, hopen, hq₁, h.chunkFileSize]
    rfl
  · intro k hk hkw
    rw [hsame, hdata k hk hkw]

end Files

/-- The invariant of the queue: the blocks `xs` are stored between the reader and the writer. -/
structure Inv (g : Geometry) (q : Queue) (r w : Pos) (xs : List Bytes) : Prop where
  files : Files g q r w
  laid : Laid g q.chunkData r xs w
  blocks : ∀ b ∈ xs, g.IsBlock b

namespace Inv

variable {g : Geometry} {q : Queue} {r w : Pos} {xs : List Bytes}

/-- Writing a block adds it at the end. -/
theorem writeBlock (h : Inv g q r w xs) (hb : g.IsBlock b) (hbound : (g.after w b).base + g.chunk < 2 ^ 64) :
    ∃ q', q.writeBlock b = .ok q' ∧ Inv g q' r (g.after w b) (xs ++ [b]) ∧ q'.maxPendingBytes = q.maxPendingBytes := by
  have hroom := Geometry.advance_room (g := g) w
  have hle := hb.le
  have hbase := Geometry.base_le_advance (g := g) w
  obtain ⟨hfiles₁, hdata₁, hlimit₁⟩ := h.files.moveWriter hbound
  have hheader : (marshalUint64 b.length).length = 8 := length_beBytes _ _
  obtain ⟨q₂, hq₂, hfiles₂, hdata₂, hlimit₂⟩ := hfiles₁.write (p := marshalUint64 b.length)
    (by omega)
  obtain ⟨q₃, hq₃, hfiles₃, hdata₃, hlimit₃⟩ := hfiles₂.write (p := b)
    (by show (g.advance w).off + (marshalUint64 b.length).length + b.length ≤ g.chunk; omega)
  obtain ⟨q₄, hq₄, hfiles₄, hdata₄, hlimit₄⟩ := hfiles₃.flushWriterMetainfoIfNeeded
  have hplace : (⟨(g.advance w).base, (g.advance w).off + (marshalUint64 b.length).length + b.length⟩ : Pos) =
      g.after w b := by
    rw [hheader]
    rfl
  -- what became of the bytes of a chunk
  have hdata : ∀ k ≤ (g.advance w).base, q₄.chunkData k =
      q.moveWriter.chunkData k ++ if k = (g.advance w).base then frame b else [] := by
    intro k hk
    rw [hdata₄ k hk, hdata₃ k hk, hdata₂ k hk]
    by_cases hkb : k = (g.advance w).base
    · simp only [hkb, if_true, append_assoc]
      rfl
    · simp only [hkb, if_false, append_nil]
  refine ⟨q₄, ?_, ⟨hplace ▸ hfiles₄, ?_, ?_⟩, ?_⟩
  · rw [Queue.writeBlock]
    simp only [hq₂, except_ok_bind, hq₃, hq₄]
  · refine h.laid.append ?_ ?_
    · intro k _ hkw
      rw [hdata k (Nat.le_trans hkw hbase), hdata₁ k hkw]
      exact prefix_append _ _
    · rw [hdata _ le_rfl, if_pos rfl, drop_left' hfiles₁.written]
  · exact forall_mem_append.2 ⟨h.blocks, forall_mem_singleton.2 hb⟩
  · rw [hlimit₄, hlimit₃, hlimit₂, hlimit₁]

/-- The first step of `read_block_internal` brings the reader to the place of the next block. -/
theorem moveReader (h : Inv g q r w xs) (hne : xs ≠ []) :
    ∃ q', q.moveReader = .ok q' ∧ Inv g q' (g.advance r) w xs ∧
      q'.maxPendingBytes = q.maxPendingBytes := by
  obtain ⟨b, bs, rfl⟩ := exists_cons_of_ne_nil hne
  have hbase : (g.advance r).base ≤ w.base := h.laid.2.base_le
  have hlaid : Laid g q.chunkData (g.advance r) (b :: bs) w :=
    h.laid.of_advance hne (Geometry.advance_advance r)
  rw [Queue.moveReader, h.files.readerLocalOffset, h.files.maxBlockSize, h.files.chunkFileSize]
  by_cases hfull : r.off + g.maxBlock + 8 > g.chunk
  · have hadvance := Geometry.advance_of_full hfull
    have hpos := g.chunk_pos
    have hlt : r.base < w.base := by
      rw [hadvance] at hbase
      exact Nat.lt_of_lt_of_le (Nat.lt_add_of_pos_right hpos) hbase
    rw [if_pos hfull]
    obtain ⟨q', hq', hfiles, hdata, hlimit⟩ := h.files.nextChunkFileForRead hfull hlt
    refine ⟨q', hq', ⟨hadvance ▸ hfiles, hlaid.mono ?_, h.blocks⟩, hlimit⟩
    intro k hk hkw
    rw [Geometry.advance_advance, hadvance] at hk
    rw [hdata k (Nat.lt_of_lt_of_le (Nat.lt_add_of_pos_right hpos) hk) hkw]
  · rw [if_neg hfull]
    rw [Geometry.advance_of_room (by omega)]
    exact ⟨q, rfl, h, rfl⟩

/-- The parts of a block behind its length. -/
theorem frame_parts {data b : Bytes} {off : Nat} (h : frame b <+: data.drop off) :
    off + 8 + b.length ≤ data.length ∧ (data.drop off).take 8 = marshalUint64 b.length ∧
      (data.drop (off + 8)).take b.length = b := by
  have hlen := h.length_le
  rw [length_frame, length_drop] at hlen
  have hheader : (marshalUint64 b.length).length = 8 := length_beBytes _ _
  obtain ⟨rest, hrest⟩ := h
  rw [frame, append_assoc] at hrest
  refine ⟨by omega, ?_, ?_⟩
  · rw [← hrest]
    exact take_left' hheader
  · rw [← drop_drop, ← hrest]
    have hdrop : (beBytes 8 b.length ++ (b ++ rest)).drop 8 = b ++ rest := drop_left' hheader
    rw [hdrop]
    exact take_left

/-- A block that is at the place of the reader is read. -/
theorem readFrame (h : Inv g q (g.advance r) w (b :: xs)) :
    ∃ q', q.readFrame = .ok (q', some b) ∧ Inv g q' (g.after r b) w xs ∧ q'.maxPendingBytes = q.maxPendingBytes := by
  have hblock := h.blocks b mem_cons_self
  have hroom := Geometry.advance_room (g := g) r
  have hle := hblock.le
  have hframe := h.laid.1
  have hafter : g.after (g.advance r) b = g.after r b := by
    rw [Geometry.after, Geometry.after, Geometry.advance_advance]
  rw [Geometry.advance_advance] at hframe
  obtain ⟨hlen, hheader, hbody⟩ := frame_parts hframe
  have hbase := h.files.base_le
  have hsize : b.length < 2 ^ 64 := by
    have hbound := h.files.bound
    have hfits := g.fits
    omega
  obtain ⟨q₁, hq₁, hfiles₁, hdata₁, hlimit₁⟩ := h.files.readFull (n := 8) (by omega) (by omega)
  have hnumber : unmarshalUint64 (marshalUint64 b.length) = b.length := by
    rw [unmarshalUint64, marshalUint64, take_of_length_le (by rw [length_beBytes]),
      beNat_beBytes (Nat.lt_of_lt_of_eq hsize (by norm_num))]
  obtain ⟨q₂, hq₂, hfiles₂, hdata₂, hlimit₂⟩ := hfiles₁.readFull (n := b.length)
    (by rw [hdata₁ _ hbase]; omega) (by show (g.advance r).off + 8 + b.length ≤ g.chunk; omega)
  rw [hheader] at hq₁
  have hread : (((q₁.chunkData (g.advance r).base).drop ((g.advance r).off + 8)).take b.length) = b := by
    rw [hdata₁ _ hbase, hbody]
  rw [hread] at hq₂
  obtain ⟨hfiles₃, hdata₃⟩ := hfiles₂.flushReaderMetainfoIfNeeded
  have hzero : ¬b.length = 0 := Nat.pos_iff_ne_zero.1 hblock.pos
  have hbig : ¬b.length > q₁.maxBlockSize := by
    rw [hfiles₁.maxBlockSize]
    exact Nat.not_lt.2 hle
  refine ⟨q₂.flushReaderMetainfoIfNeeded, ?_, ⟨hfiles₃, ?_, ?_⟩, ?_⟩
  · rw [Queue.readFrame, hq₁, except_ok_bind]
    simp only [hnumber, hzero, hbig, if_false]
    rw [hq₂, except_ok_bind]
    rfl
  · rw [← hafter]
    refine h.laid.2.mono ?_
    intro k _ hkw
    rw [hdata₃, hdata₂ k hkw, hdata₁ k hkw]
  · intro c hc
    exact h.blocks c (mem_cons_of_mem _ hc)
  · have htime : q₂.flushReaderMetainfoIfNeeded.maxPendingBytes = q₂.maxPendingBytes := by
      unfold Queue.flushReaderMetainfoIfNeeded
      simp only
      split <;> rfl
    rw [htime, hlimit₂, hlimit₁]

/-- Reading a block takes it from the front. -/
theorem readBlock (h : Inv g q r w (b :: xs)) : ∃ q', q.readBlock = .ok (q', some b) ∧ Inv g q' (g.after r b) w xs ∧
      q'.maxPendingBytes = q.maxPendingBytes := by
  obtain ⟨q₁, hq₁, hinv₁, hlimit₁⟩ := h.moveReader (cons_ne_nil _ _)
  obtain ⟨q₂, hq₂, hinv₂, hlimit₂⟩ := hinv₁.readFrame
  refine ⟨q₂, ?_, hinv₂, hlimit₂.trans hlimit₁⟩
  rw [Queue.readBlock, hq₁, except_ok_bind, Queue.readBlockLoop, hq₂]
  rfl

theorem offset_le (h : Inv g q r w xs) : q.readerOffset ≤ q.writerOffset := by
  rw [h.files.readerOffset, h.files.writerOffset]
  exact h.laid.offset_le h.files.inChunkReader h.blocks

theorem offset_eq_iff (h : Inv g q r w xs) : q.readerOffset = q.writerOffset ↔ xs = [] := by
  rw [h.files.readerOffset, h.files.writerOffset]
  exact h.laid.offset_eq_iff h.files.inChunkReader h.blocks

/-- `must_read_block_nonblocking` on a queue that has a block. -/
theorem mustReadBlockNonblocking_cons (h : Inv g q r w (b :: xs)) :
    ∃ q', q.mustReadBlockNonblocking = .ok (q', some b) ∧ Inv g q' (g.after r b) w xs ∧
      q'.maxPendingBytes = q.maxPendingBytes := by
  obtain ⟨q', hq', hinv, hlimit⟩ := h.readBlock
  have hne : ¬q.readerOffset = q.writerOffset := by
    rw [h.offset_eq_iff]
    exact cons_ne_nil _ _
  refine ⟨q', ?_, hinv, hlimit⟩
  rw [Queue.mustReadBlockNonblocking, mustHold, if_pos h.offset_le, except_ok_bind, if_neg hne, hq']
  rfl

/-- `must_read_block_nonblocking` on a queue without blocks. -/
theorem mustReadBlockNonblocking_nil (h : Inv g q r w []) :
    q.mustReadBlockNonblocking = .ok (q, none) := by
  rw [Queue.mustReadBlockNonblocking, mustHold, if_pos h.offset_le, except_ok_bind,
    if_pos (h.offset_eq_iff.2 rfl)]
  rfl

/-- `must_write_block` on a queue without a limit. -/
theorem mustWriteBlock (h : Inv g q r w xs) (hlimit : q.maxPendingBytes = 0)
    (hb : g.IsBlock b) (hbound : (g.after w b).base + g.chunk < 2 ^ 64) :
    ∃ q', q.mustWriteBlock b = .ok q' ∧ Inv g q' r (g.after w b) (xs ++ [b]) ∧ q'.maxPendingBytes = 0 := by
  obtain ⟨q', hq', hinv, hlimit'⟩ := h.writeBlock hb hbound
  have hsize : b.length ≤ q.maxBlockSize := by
    rw [h.files.maxBlockSize]
    exact hb.le
  refine ⟨q', ?_, hinv, hlimit'.trans hlimit⟩
  rw [Queue.mustWriteBlock, mustHold, if_pos hsize, except_ok_bind, mustHold, if_pos h.offset_le,
    except_ok_bind, if_neg (by omega), hq']
  rfl

/-- The number of pending bytes tells whether there are blocks. -/
theorem getPendingBytes (h : Inv g q r w xs) :
    ∃ n, q.getPendingBytes = .ok n ∧ (n = 0 ↔ xs = []) := by
  refine ⟨q.writerOffset - q.readerOffset, ?_, ?_⟩
  · rw [Queue.getPendingBytes, mustHold, if_pos h.offset_le]
    rfl
  · rw [← h.offset_eq_iff]
    have hle := h.offset_le
    omega

theorem unixTimestamp (h : Inv g q r w xs) :
    Inv g { q with machine := q.machine.unixTimestamp.2 } r w xs := by
  obtain ⟨hfiles, hdata⟩ := h.files.unixTimestamp
  refine ⟨hfiles, h.laid.mono ?_, h.blocks⟩
  intro k _ _
  rw [hdata]

/-- The loop that makes room drops blocks from the front, until what is left is within the limit. -/
theorem dropOldest (h : Inv g q r w xs) (limit fuel : Nat) (hfuel : xs.length < fuel) :
    ∃ q' k r', q.dropOldest limit fuel = .ok q' ∧ Inv g q' r' w (xs.drop k) ∧
      q'.maxPendingBytes = q.maxPendingBytes ∧ q'.writerOffset - q'.readerOffset ≤ limit := by
  induction xs generalizing q r fuel with
  | nil =>
    obtain ⟨fuel, rfl⟩ : ∃ k, fuel = k + 1 := ⟨fuel - 1, by omega⟩
    have hzero : q.writerOffset - q.readerOffset = 0 := by
      rw [h.offset_eq_iff.2 rfl, Nat.sub_self]
    refine ⟨q, 0, r, ?_, h, rfl, by omega⟩
    rw [Queue.dropOldest, if_neg (by omega)]
    rfl
  | cons b xs ih =>
    obtain ⟨fuel, rfl⟩ : ∃ k, fuel = k + 1 := ⟨fuel - 1, by omega⟩
    by_cases hover : q.writerOffset - q.readerOffset > limit
    · obtain ⟨q₁, hq₁, hinv, hlimit₁⟩ := h.readBlock
      obtain ⟨q', k, r', hq', hinv', hlimit', hwithin⟩ :=
        ih hinv fuel (by rw [length_cons] at hfuel; omega)
      refine ⟨q', k + 1, r', ?_, hinv', hlimit'.trans hlimit₁, hwithin⟩
      rw [Queue.dropOldest, if_pos hover, hq₁]
      exact hq'
    · refine ⟨q, 0, r, ?_, h, rfl, by omega⟩
      rw [Queue.dropOldest, if_neg hover]
      rfl

/-- `must_write_block` on a queue with a limit: blocks are dropped from the front until there is room, and the new
one is dropped as well if it alone is over the limit. -/
theorem mustWriteBlock_drops (h : Inv g q r w xs) (hb : g.IsBlock b)
    (hbound : (g.after w b).base + g.chunk < 2 ^ 64) (hpos : 0 < q.maxPendingBytes) :
    ∃ q' r' w' k, q.mustWriteBlock b = .ok q' ∧
      Inv g q' r' w' (xs.drop k ++ if 8 + b.length ≤ q.maxPendingBytes then [b] else []) ∧
      ((xs.drop k ++ if 8 + b.length ≤ q.maxPendingBytes then [b] else []).map fun b => 8 + b.length).sum ≤
        q.maxPendingBytes ∧ (w' = w ∨ w' = g.after w b) ∧ q'.maxPendingBytes = q.maxPendingBytes := by
  have hlen : xs.length < q.writerOffset + 1 := by
    have hle := h.laid.length_le h.files.inChunkReader h.blocks
    rw [h.files.writerOffset]
    omega
  have hsize : b.length ≤ q.maxBlockSize := by
    rw [h.files.maxBlockSize]
    exact hb.le
  obtain ⟨q₁, k, r', hq₁, hinv₁, hlimit₁, hroom⟩ :=
    h.dropOldest (q.maxPendingBytes - (b.length + 8)) (q.writerOffset + 1) hlen
  -- what is left is no more than the distance of the writer from the reader
  have hleft := hinv₁.laid.size_le hinv₁.files.inChunkReader hinv₁.blocks
  rw [← hinv₁.files.readerOffset, ← hinv₁.files.writerOffset] at hleft
  by_cases hbig : 8 + b.length ≤ q.maxPendingBytes
  · obtain ⟨q', hq', hinv', hlimit'⟩ := hinv₁.writeBlock hb hbound
    rw [if_pos hbig]
    refine ⟨q', r', g.after w b, k, ?_, hinv', ?_, .inr rfl, hlimit'.trans hlimit₁⟩
    · have hfits : ¬b.length + 8 > q.maxPendingBytes := by omega
      rw [Queue.mustWriteBlock, mustHold, if_pos hsize, except_ok_bind, mustHold, if_pos h.offset_le,
        except_ok_bind, if_pos hpos]
      simp only [hq₁, except_ok_bind, hlimit₁, hfits, if_false, hq']
      rfl
    · rw [map_append, sum_append, map_singleton, sum_singleton]
      omega
  · -- the block alone is over the limit
    simp only [if_neg hbig, append_nil]
    refine ⟨q₁, r', w, k, ?_, hinv₁, by omega, .inl rfl, hlimit₁⟩
    have hover : b.length + 8 > q.maxPendingBytes := by omega
    rw [Queue.mustWriteBlock, mustHold, if_pos hsize, except_ok_bind, mustHold, if_pos h.offset_le,
      except_ok_bind, if_pos hpos]
    simp only [hq₁, except_ok_bind, hlimit₁, hover, if_true]
    rfl

/-- An empty queue may start anew. -/
theorem mustResetFiles (h : Inv g q r w []) :
    ∃ q', q.mustResetFiles = .ok q' ∧ Inv g q' origin origin [] ∧
      q'.maxPendingBytes = q.maxPendingBytes := by
  obtain rfl : r = w := h.laid
  obtain ⟨wr, hwr, hwpath, happends⟩ := h.files.writer
  obtain ⟨hgrows, -⟩ := Writer.mustClose_spec happends
  have hbound := h.files.bound
  -- without its only chunk the directory has no chunks
  obtain ⟨m, hm⟩ : ∃ m : Machine, m = { wr.mustClose q.machine with
    files := (wr.mustClose q.machine).files.erase (chunkFilePath r.base) } := ⟨_, rfl⟩
  have hmem : ∀ p, p ∈ m.files ↔ p = metainfoFilename ∨ p = flockFilename := by
    intro p
    have herase : p ∈ m.files ↔ p ≠ chunkFilePath r.base ∧ p ∈ (wr.mustClose q.machine).files := by
      rw [hm]
      exact AList.mem_erase
    rw [herase, hgrows.mem, h.files.mem]
    constructor
    · rintro ⟨hne, hp | hp | ⟨k, hk, hkw, -, rfl⟩⟩
      · exact .inl hp
      · exact .inr hp
      · rw [Nat.le_antisymm hkw hk] at hne
        exact absurd rfl hne
    · rintro (rfl | rfl)
      · exact ⟨(chunkFilePath_ne_metainfo _).symm, .inl rfl⟩
      · exact ⟨(chunkFilePath_ne_flock _).symm, .inr (.inl rfl)⟩
  obtain ⟨q₁, hq₁⟩ : ∃ q₁ : Queue, q₁ = { q with
    machine := m.put (chunkFilePath 0) []
    writer := some ⟨chunkFilePath 0, getWriteBufferSize m, 0, []⟩, writerPath := chunkFilePath 0
    writerOffset := 0, writerLocalOffset := 0, writerFlushedOffset := 0
    reader := some ⟨chunkFilePath 0, getReadBufferSize (m.put (chunkFilePath 0) []), 0, []⟩
    readerPath := chunkFilePath 0
    readerOffset := 0, readerLocalOffset := 0 } := ⟨_, rfl⟩
  have hdata : q₁.chunkData 0 = [] := by
    rw [hq₁]
    simp only [Queue.chunkData, Machine.content_put_self, ite_self, append_nil]
  have hinside : g.InChunk origin := ⟨Nat.dvd_zero _, Nat.zero_le _⟩
  have hfiles : Files g q₁ origin origin := by
    subst hq₁
    exact { h.files with
      inChunkReader := hinside
      inChunkWriter := hinside
      base_le := le_rfl
      bound := by
        show 0 + g.chunk < 2 ^ 64
        omega
      mem := by
        intro p
        refine Machine.mem_files_put.trans ?_
        rw [hmem, IsQueueFile]
        constructor
        · rintro (hp | hp | hp)
          · exact .inr (.inr ⟨0, le_rfl, le_rfl, Nat.dvd_zero _, hp⟩)
          · exact .inl hp
          · exact .inr (.inl hp)
        · rintro (hp | hp | ⟨k, -, hk, -, hp⟩)
          · exact .inr (.inl hp)
          · exact .inr (.inr hp)
          · rw [Nat.le_zero.1 hk] at hp
            exact .inl hp
      reader := ⟨_, rfl, rfl, rfl, List.nil_prefix⟩
      readerPath := rfl
      readerOffset := rfl
      readerLocalOffset := rfl
      readable := Nat.zero_le _
      writer := by
        refine ⟨_, rfl, rfl, Machine.mem_files_put.2 (.inl rfl), ?_, .inl rfl⟩
        rw [Machine.content_put_self]
        rfl
      writerPath := rfl
      writerOffset := rfl
      writerLocalOffset := rfl
      written := congrArg List.length hdata
      flushed_ge := Nat.zero_le _
      flushed_le := Nat.zero_le _ }
  refine ⟨q₁.flushMetainfo, ?_, ⟨hfiles.flushMetainfo.1, rfl, by simp⟩, by rw [hq₁]; rfl⟩
  have hpath : q.readerPath = q.writerPath := h.files.readerPath.trans h.files.writerPath.symm
  have hremove : (wr.mustClose q.machine).mustRemovePath q.readerPath = .ok m := by
    rw [h.files.readerPath, Machine.mustRemovePath, if_pos ((hgrows.mem _).2 h.files.mem_reader), hm]
  have hopen : FileStream.mustOpen (m.put (chunkFilePath 0) []) (chunkFilePath 0) =
      .ok ⟨chunkFilePath 0, getReadBufferSize (m.put (chunkFilePath 0) []), 0, []⟩ :=
    if_pos (Machine.mem_files_put.2 (.inl rfl))
  rw [Queue.mustResetFiles, mustHold, if_pos hpath, except_ok_bind, Queue.closeWriter, hwr]
  simp only [hremove, except_ok_bind, mustCreate, hopen, hq₁]
  rfl

/-- `reset_if_empty` on an empty queue. -/
theorem resetIfEmpty (h : Inv g q r w []) :
    ∃ q' r' w', q.resetIfEmpty = .ok q' ∧ Inv g q' r' w' [] ∧ (w' = w ∨ w' = origin) ∧
      q'.maxPendingBytes = q.maxPendingBytes := by
  rw [Queue.resetIfEmpty, if_neg (not_not.2 (h.offset_eq_iff.2 rfl))]
  by_cases hsmall : q.readerOffset < 16 * 1024 * 1024
  · rw [if_pos hsmall]
    exact ⟨q, r, w, rfl, h, .inl rfl, rfl⟩
  · rw [if_neg hsmall]
    obtain ⟨q', hq', hinv, hlimit⟩ := h.mustResetFiles
    exact ⟨q', origin, origin, hq', hinv, .inr rfl, hlimit⟩

end Inv

end EsLogs.PersistentQueue
