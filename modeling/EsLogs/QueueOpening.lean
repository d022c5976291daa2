import EsLogs.QueueInvariant

/-!
Opening the queue on disk. The scan of the directory finds the chunks that the two offsets of the
metainfo fall into, if they exist, and removes the chunks before the one of the reader. A queue that was
closed is opened with the blocks it had, except when its writer had just filled a chunk: the next chunk
does not exist then, the writer is not found, and the directory is cleaned up.
-/

namespace EsLogs.PersistentQueue

open ChunkLayout FileStream JsonParser List

variable {k : Nat}

/-- A directory with the chunks from `first` to `last`, in which a reader is to be opened at the place `r`
and a writer at the place `w`. -/
structure ClosedDir (g : Geometry) (m : Machine) (first last : Nat) (r w : Pos)
    (data : Nat → Bytes) : Prop where
  reader : g.InsideChunk r
  writer : g.InsideChunk w
  first_le : first ≤ r.base
  last_le : last ≤ w.base
  bound : last + g.chunk < 2 ^ 64
  mem : ∀ p, p ∈ m.files ↔ IsQueueFile g first last p
  content : ∀ k, r.base ≤ k → k ≤ last → m.content (chunkFilePath k) = data k
  readable : r.base ≤ last → r.off ≤ (data r.base).length
  written : w.base ≤ last → (data w.base).length = w.off

structure ReaderFound (q : Queue) (r : Pos) : Prop where
  stream : ∃ size, q.reader = some ⟨chunkFilePath r.base, size, r.off, []⟩
  path : q.readerPath = chunkFilePath r.base
  offset : q.readerOffset = r.offset
  localOffset : q.readerLocalOffset = r.off

structure WriterFound (q : Queue) (w : Pos) : Prop where
  stream : ∃ cap, q.writer = some ⟨chunkFilePath w.base, cap, w.off, []⟩
  path : q.writerPath = chunkFilePath w.base
  offset : q.writerOffset = w.offset
  localOffset : q.writerLocalOffset = w.off
  flushedOffset : q.writerFlushedOffset = w.offset

/-- The state of the scan, with the names that are left. -/
structure Scanning (g : Geometry) (m : Machine) (name : Bytes) (limit last : Nat) (r w : Pos)
    (rest : List Bytes) (q : Queue) : Prop where
  chunkFileSize : q.chunkFileSize = g.chunk
  maxBlockSize : q.maxBlockSize = g.maxBlock
  maxPendingBytes : q.maxPendingBytes = limit
  name : q.name = name
  mem : ∀ p, p ∈ q.machine.files ↔ p ∈ m.files ∧ (p ∈ rest ∨ IsQueueFile g r.base last p)
  content : ∀ k, r.base ≤ k → k ≤ last →
    q.machine.content (chunkFilePath k) = m.content (chunkFilePath k)
  reader : if r.base ≤ last ∧ chunkFilePath r.base ∉ rest then ReaderFound q r else q.reader = none
  writer : if w.base ≤ last ∧ chunkFilePath w.base ∉ rest then WriterFound q w else q.writer = none

namespace Scanning

variable {g : Geometry} {m : Machine} {name : Bytes} {limit first last : Nat} {r w : Pos}
  {data : Nat → Bytes} {rest : List Bytes} {q : Queue} {fname : Bytes} {mi : Metainfo}

/-- A file that belongs to the queue stays. -/
theorem mem_keep (h : Scanning g m name limit last r w (fname :: rest) q)
    (hfile : IsQueueFile g r.base last fname) (p : Bytes) :
    p ∈ q.machine.files ↔ p ∈ m.files ∧ (p ∈ rest ∨ IsQueueFile g r.base last p) := by
  have hkept : p = fname → IsQueueFile g r.base last p := fun heq => heq ▸ hfile
  rw [h.mem p, mem_cons]
  tauto

/-- A file that is no chunk is passed over. -/
theorem skip (h : Scanning g m name limit last r w (fname :: rest) q)
    (hfile : IsQueueFile g r.base last fname) (hr : fname ≠ chunkFilePath r.base)
    (hw : fname ≠ chunkFilePath w.base) : Scanning g m name limit last r w rest q := by
  have hreader := h.reader
  have hwriter := h.writer
  simp only [mem_cons, hr.symm, hw.symm, false_or] at hreader hwriter
  exact { h with mem := h.mem_keep hfile, reader := hreader, writer := hwriter }

theorem ite_mono {c P P' Q Q' : Prop} [Decidable c] (h : if c then P else Q) (hP : P → P') (hQ : Q → Q') :
    if c then P' else Q' := by
  split_ifs at h ⊢
  · exact hP h
  · exact hQ h

section Step

variable (hdir : ClosedDir g m first last r w data)
include hdir

theorem lt_of_le_last (hk : k ≤ last) : k < 2 ^ 64 := by
  have hbound := hdir.bound
  omega

/-- Another chunk is not the one that is looked for. -/
theorem found_cons_iff {j k : Nat} (hkl : k ≤ last) (hne : j ≠ k) :
    (j ≤ last ∧ chunkFilePath j ∉ chunkFilePath k :: rest) ↔ j ≤ last ∧ chunkFilePath j ∉ rest := by
  refine and_congr_right fun hjl => ?_
  rw [mem_cons, not_or]
  exact and_iff_right fun heq =>
    hne (chunkFilePath_injOn (lt_of_le_last hdir hjl) (lt_of_le_last hdir hkl) heq)

/-- A chunk before the one of the reader is removed. -/
theorem remove (hkl : k ≤ last) (hmem : chunkFilePath k ∈ m.files) (hrest : chunkFilePath k ∉ rest)
    (hkr : k < r.base) (hrw : r.base ≤ w.base)
    (h : Scanning g m name limit last r w (chunkFilePath k :: rest) q) :
    ∃ q', removeEntry q (chunkFilePath k) = .ok q' ∧ Scanning g m name limit last r w rest q' := by
  have hpresent : chunkFilePath k ∈ q.machine.files := (h.mem _).2 ⟨hmem, .inl mem_cons_self⟩
  have hne : ∀ j, k < j → j ≤ last → chunkFilePath j ≠ chunkFilePath k := by
    intro j hj hjl heq
    have := chunkFilePath_injOn (lt_of_le_last hdir hjl) (lt_of_le_last hdir hkl) heq
    omega
  refine ⟨{ q with machine := { q.machine with files := q.machine.files.erase (chunkFilePath k) } },
    ?_, h.chunkFileSize, h.maxBlockSize, h.maxPendingBytes, h.name, ?_, ?_, ?_, ?_⟩
  · rw [removeEntry, Machine.mustRemovePath, if_pos hpresent]
    rfl
  · intro p
    show p ∈ q.machine.files.erase (chunkFilePath k) ↔ _
    rw [AList.mem_erase, h.mem p, mem_cons]
    constructor
    · rintro ⟨hpk, hp, (heq | hin) | hq⟩
      · exact absurd heq hpk
      · exact ⟨hp, .inl hin⟩
      · exact ⟨hp, .inr hq⟩
    · rintro ⟨hp, hin | hq⟩
      · exact ⟨fun heq => hrest (heq ▸ hin), hp, .inl (.inr hin)⟩
      · refine ⟨?_, hp, .inr hq⟩
        rcases hq with rfl | rfl | ⟨j, hj, hjl, -, rfl⟩
        · exact (chunkFilePath_ne_metainfo k).symm
        · exact (chunkFilePath_ne_flock k).symm
        · exact hne j (Nat.lt_of_lt_of_le hkr hj) hjl
  · intro j hj hjl
    rw [← h.content j hj hjl]
    simp only [Machine.content, AList.lookup_erase_ne (hne j (Nat.lt_of_lt_of_le hkr hj) hjl)]
  · have hreader := h.reader
    simp only [found_cons_iff hdir hkl hkr.ne'] at hreader
    exact ite_mono hreader (fun hf => { hf with }) id
  · have hwriter := h.writer
    simp only [found_cons_iff hdir hkl (hkr.trans_le hrw).ne'] at hwriter
    exact ite_mono hwriter (fun hf => { hf with }) id

/-- The chunk of the reader is opened for reading. -/
theorem scanReader_spec (hmi : mi.readerOffset = r.offset) (hk : g.chunk ∣ k) (hkl : k ≤ last)
    (hkr : r.base ≤ k) (hmem : chunkFilePath k ∈ m.files) (hrest : chunkFilePath k ∉ rest)
    (h : Scanning g m name limit last r w (chunkFilePath k :: rest) q) :
    ∃ rd path offset localOffset, scanReader mi q (chunkFilePath k) k = .ok ({ q with
        reader := rd, readerPath := path, readerOffset := offset
        readerLocalOffset := localOffset }, true) ∧
      if r.base ≤ last ∧ chunkFilePath r.base ∉ rest then
        ReaderFound { q with
          reader := rd, readerPath := path, readerOffset := offset
          readerLocalOffset := localOffset } r
      else rd = none := by
  have hreader := h.reader
  have hpresent : chunkFilePath k ∈ q.machine.files := (h.mem _).2 ⟨hmem, .inl mem_cons_self⟩
  have hcond : (mi.readerOffset ≥ k ∧ mi.readerOffset < k + q.chunkFileSize) ↔ k = r.base := by
    rw [hmi, h.chunkFileSize]
    exact hdir.reader.mem_iff hk
  by_cases heq : k = r.base
  · subst heq
    rw [if_neg fun hc => hc.2 mem_cons_self] at hreader
    have hsize : ¬(q.machine.content (chunkFilePath r.base)).length < mi.readerOffset % q.chunkFileSize := by
      rw [hmi, h.chunkFileSize, hdir.reader.offset_mod, h.content _ le_rfl hkl,
        hdir.content _ le_rfl hkl]
      exact Nat.not_lt.2 (hdir.readable hkl)
    refine ⟨some ⟨chunkFilePath r.base, getReadBufferSize q.machine, r.off, []⟩, chunkFilePath r.base,
      r.offset, r.off, ?_, ?_⟩
    · have hstat : q.machine.mustFileSize (chunkFilePath r.base) =
          .ok (q.machine.content (chunkFilePath r.base)).length := if_pos hpresent
      have hopen : openReaderAt q.machine (chunkFilePath r.base) (mi.readerOffset % q.chunkFileSize) =
          .ok ⟨chunkFilePath r.base, getReadBufferSize q.machine, r.off, []⟩ := by
        rw [openReaderAt, FileStream.mustOpen, if_pos hpresent, hmi, h.chunkFileSize,
          hdir.reader.offset_mod]
        rfl
      rw [scanReader, if_pos (hcond.2 rfl), mustHold, if_pos hreader, except_ok_bind]
      simp only [hstat, except_ok_bind, hsize, if_false, hopen]
      rw [hmi, h.chunkFileSize, hdir.reader.offset_mod]
      rfl
    · rw [if_pos ⟨hkl, hrest⟩]
      exact ⟨⟨_, rfl⟩, rfl, rfl, rfl⟩
  · refine ⟨q.reader, q.readerPath, q.readerOffset, q.readerLocalOffset, ?_, ?_⟩
    · rw [scanReader, if_neg fun hc => heq (hcond.1 hc)]
    · simp only [found_cons_iff hdir hkl (Ne.symm heq)] at hreader
      exact hreader

/-- The chunk of the writer is opened for writing. -/
theorem scanWriter_spec (hmi : mi.writerOffset = w.offset) (hk : g.chunk ∣ k) (hkl : k ≤ last)
    (hkr : r.base ≤ k) {q : Queue} (hsize : q.chunkFileSize = g.chunk) (hpresent : chunkFilePath k ∈ q.machine.files)
    (hcontent : q.machine.content (chunkFilePath k) = m.content (chunkFilePath k)) (hrest : chunkFilePath k ∉ rest)
    (hwriter : if w.base ≤ last ∧ chunkFilePath w.base ∉ chunkFilePath k :: rest then WriterFound q w
      else q.writer = none) : ∃ wr path offset localOffset flushed, scanWriter mi q (chunkFilePath k) k = .ok { q with
        writer := wr, writerPath := path, writerOffset := offset
        writerLocalOffset := localOffset, writerFlushedOffset := flushed } ∧
      if w.base ≤ last ∧ chunkFilePath w.base ∉ rest then WriterFound { q with
          writer := wr, writerPath := path, writerOffset := offset
          writerLocalOffset := localOffset, writerFlushedOffset := flushed } w else wr = none := by
  have hcond : (mi.writerOffset ≥ k ∧ mi.writerOffset < k + q.chunkFileSize) ↔ k = w.base := by
    rw [hmi, hsize]
    exact hdir.writer.mem_iff hk
  by_cases heq : k = w.base
  · subst heq
    rw [if_neg fun hc => hc.2 mem_cons_self] at hwriter
    have hlong : ¬(q.machine.content (chunkFilePath w.base)).length < mi.writerOffset % q.chunkFileSize := by
      rw [hmi, hsize, hdir.writer.offset_mod, hcontent, hdir.content _ hkr hkl, hdir.written hkl]
      exact Nat.lt_irrefl _
    refine ⟨some ⟨chunkFilePath w.base, getWriteBufferSize q.machine, w.off, []⟩, chunkFilePath w.base,
      w.offset, w.off, w.offset, ?_, ?_⟩
    · have hstat : q.machine.mustFileSize (chunkFilePath w.base) =
          .ok (q.machine.content (chunkFilePath w.base)).length := if_pos hpresent
      rw [scanWriter, if_pos (hcond.2 rfl), mustHold, if_pos hwriter, except_ok_bind]
      simp only [hstat, except_ok_bind, hlong, if_false, openWriterAt, hpresent, if_true]
      rw [hmi, hsize, hdir.writer.offset_mod]
      rfl
    · rw [if_pos ⟨hkl, hrest⟩]
      exact ⟨⟨_, rfl⟩, rfl, rfl, rfl, rfl⟩
  · refine ⟨q.writer, q.writerPath, q.writerOffset, q.writerLocalOffset, q.writerFlushedOffset, ?_, ?_⟩
    · rw [scanWriter, if_neg fun hc => heq (hcond.1 hc)]
    · simp only [found_cons_iff hdir hkl (Ne.symm heq)] at hwriter
      exact hwriter

omit hdir in
/-- What the scan does with a chunk file. -/
theorem scanEntry_chunkFilePath (hk : g.chunk ∣ k) (hlt : k < 2 ^ 64) (hsize : q.chunkFileSize = g.chunk) :
    scanEntry mi q (chunkFilePath k) = if mi.readerOffset ≥ k + g.chunk then removeEntry q (chunkFilePath k)
      else if mi.writerOffset < k then removeEntry q (chunkFilePath k) else do
        let (q, more) ← scanReader mi q (chunkFilePath k) k
        if more then scanWriter mi q (chunkFilePath k) k else return q := by
  rw [scanEntry, if_neg (chunkFilePath_ne_metainfo k), if_neg (chunkFilePath_ne_flock k),
    isChunkFileName_chunkFilePath, fromStrRadix16_chunkFilePath hlt, hsize]
  simp only [Bool.not_true, Bool.false_eq_true, if_false, Nat.mod_eq_zero_of_dvd hk, ne_eq,
    not_true_eq_false]

/-- One step of the scan. -/
theorem step (hrw : r.base ≤ w.base)
    (hreader : mi.readerOffset = r.offset) (hwriter : mi.writerOffset = w.offset)
    (hmem : fname ∈ m.files) (hrest : fname ∉ rest)
    (h : Scanning g m name limit last r w (fname :: rest) q) :
    ∃ q', scanEntry mi q fname = .ok q' ∧ Scanning g m name limit last r w rest q' := by
  rcases (hdir.mem fname).1 hmem with rfl | rfl | ⟨k, hkf, hkl, hk, rfl⟩
  · exact ⟨q, if_pos rfl, h.skip (.inl rfl) (chunkFilePath_ne_metainfo _).symm
      (chunkFilePath_ne_metainfo _).symm⟩
  · refine ⟨q, ?_, h.skip (.inr (.inl rfl)) (chunkFilePath_ne_flock _).symm
      (chunkFilePath_ne_flock _).symm⟩
    rw [scanEntry, if_neg (by decide), if_pos rfl]
  · have hpast : mi.readerOffset ≥ k + g.chunk ↔ k < r.base := by
      rw [hreader]
      exact hdir.reader.past_iff hk
    have hfuture : ¬mi.writerOffset < k := by
      have hlast := hdir.last_le
      rw [hwriter, Pos.offset]
      omega
    rw [scanEntry_chunkFilePath hk (lt_of_le_last hdir hkl) h.chunkFileSize]
    by_cases hkr : k < r.base
    · rw [if_pos (hpast.2 hkr)]
      exact remove hdir hkl hmem hrest hkr hrw h
    · have hkr' : r.base ≤ k := Nat.le_of_not_lt hkr
      rw [if_neg fun hc => hkr (hpast.1 hc), if_neg hfuture]
      obtain ⟨rd, rpath, roffset, rlocal, hscan, hrd⟩ :=
        scanReader_spec hdir hreader hk hkl hkr' hmem hrest h
      obtain ⟨wr, wpath, woffset, wlocal, wflushed, hscan', hwr⟩ := scanWriter_spec hdir hwriter hk hkl
        hkr' (q := { q with
          reader := rd, readerPath := rpath, readerOffset := roffset, readerLocalOffset := rlocal })
        h.chunkFileSize ((h.mem _).2 ⟨hmem, .inl mem_cons_self⟩) (h.content k hkr' hkl) hrest
        (ite_mono h.writer (fun hf => { hf with }) id)
      refine ⟨{ q with
          reader := rd, readerPath := rpath, readerOffset := roffset, readerLocalOffset := rlocal
          writer := wr, writerPath := wpath, writerOffset := woffset, writerLocalOffset := wlocal
          writerFlushedOffset := wflushed }, ?_,
        h.chunkFileSize, h.maxBlockSize, h.maxPendingBytes, h.name,
        h.mem_keep (.inr (.inr ⟨k, hkr', hkl, hk, rfl⟩)), h.content,
        ite_mono hrd (fun hf => { hf with }) id, hwr⟩
      rw [hscan, except_ok_bind]
      exact hscan'

/-- The scan of the whole directory. -/
theorem run (name : Bytes) (limit : Nat) (mi : Metainfo) (hrw : r.base ≤ w.base) (hreader : mi.readerOffset = r.offset)
    (hwriter : mi.writerOffset = w.offset) : ∃ q, m.mustReadDir.foldlM (scanEntry mi) (unopened m name g.chunk g.maxBlock limit) = .ok q ∧
      Scanning g m name limit last r w [] q := by
  have hperm : m.mustReadDir.Perm m.files.keys := mergeSort_perm _ _
  have hnodup : m.mustReadDir.Nodup := hperm.nodup_iff.2 m.files.keys_nodup
  have hfiles : ∀ p, p ∈ m.mustReadDir ↔ p ∈ m.files := fun p =>
    hperm.mem_iff.trans AList.mem_keys.symm
  -- the invariant of the fold: the names that are left are files, and none of them comes twice
  obtain ⟨q, hq, hinv⟩ := foldlM_invariant
    (fun rest q => rest.Nodup ∧ (∀ p ∈ rest, p ∈ m.files) ∧
      Scanning g m name limit last r w rest q) (f := scanEntry mi)
    (fun fname rest q ⟨hnd, hin, hscan⟩ => by
      obtain ⟨hnotin, hnd'⟩ := nodup_cons.1 hnd
      obtain ⟨q', hq', hscan'⟩ := step hdir hrw hreader hwriter (hin _ mem_cons_self) hnotin hscan
      exact ⟨q', hq', hnd', fun p hp => hin p (mem_cons_of_mem _ hp), hscan'⟩)
    m.mustReadDir (unopened m name g.chunk g.maxBlock limit)
    ⟨hnodup, fun p hp => (hfiles p).1 hp, by
      refine ⟨rfl, rfl, rfl, rfl, ?_, fun _ _ _ => rfl, ?_, ?_⟩
      · intro p
        exact ⟨fun hp => ⟨hp, .inl ((hfiles p).2 hp)⟩, fun hp => hp.1⟩
      · refine (if_neg ?_).mpr rfl
        rintro ⟨hrl, hnot⟩
        exact hnot ((hfiles _).2 ((hdir.mem _).2
          (.inr (.inr ⟨r.base, hdir.first_le, hrl, hdir.reader.aligned, rfl⟩))))
      · refine (if_neg ?_).mpr rfl
        rintro ⟨hwl, hnot⟩
        exact hnot ((hfiles _).2 ((hdir.mem _).2
          (.inr (.inr ⟨w.base, Nat.le_trans hdir.first_le hrw, hwl, hdir.writer.aligned, rfl⟩))))⟩
  exact ⟨q, hq, hinv.2.2⟩

/-- Both streams were found. -/
theorem opened (hname : Utf8.isValid name = true) (hlast : w.base ≤ last)
    (hle : r.offset ≤ w.offset) (h : Scanning g m name limit last r w [] q) :
    checkOpened q = .ok q ∧ Files g q r w ∧
      ∀ k, r.base ≤ k → k ≤ w.base → q.chunkData k = data k := by
  have hrw := hdir.reader.base_le_of_offset_le hdir.writer hle
  have heq : last = w.base := Nat.le_antisymm hdir.last_le hlast
  subst heq
  have hreader := h.reader
  have hwriter := h.writer
  rw [if_pos ⟨hrw, not_mem_nil⟩] at hreader
  rw [if_pos ⟨le_rfl, not_mem_nil⟩] at hwriter
  obtain ⟨size, hrd⟩ := hreader.stream
  obtain ⟨cap, hwr⟩ := hwriter.stream
  have hcontent : ∀ k, r.base ≤ k → k ≤ w.base → q.machine.content (chunkFilePath k) = data k := by
    intro k hk hkw
    rw [h.content k hk hkw, hdir.content k hk hkw]
  have hdata : ∀ k, q.chunkData k = q.machine.content (chunkFilePath k) := by
    intro k
    simp only [Queue.chunkData, hwr, ite_self, append_nil]
  have hmem : ∀ p, p ∈ q.machine.files ↔ IsQueueFile g r.base w.base p := by
    intro p
    rw [h.mem p, hdir.mem p, or_iff_right not_mem_nil]
    apply and_iff_right_of_imp
    refine Or.imp_right (Or.imp_right ?_)
    rintro ⟨k, hk, hrest⟩
    exact ⟨k, hdir.first_le.trans hk, hrest⟩
  refine ⟨?_, ?_, ?_⟩
  · rw [checkOpened, if_neg (by rw [hrd]; exact fun hc => by cases hc),
      if_neg (by rw [hwr]; exact fun hc => by cases hc), if_neg]
    rw [hreader.offset, hwriter.offset]
    exact Nat.not_lt.2 hle
  · exact {
      chunkFileSize := h.chunkFileSize
      maxBlockSize := h.maxBlockSize
      name := by rw [h.name]; exact hname
      inChunkReader := hdir.reader.inChunk
      inChunkWriter := hdir.writer.inChunk
      base_le := hrw
      bound := hdir.bound
      mem := hmem
      reader := ⟨_, hrd, rfl, rfl, List.nil_prefix⟩
      readerPath := hreader.path
      readerOffset := hreader.offset
      readerLocalOffset := hreader.localOffset
      readable := by
        rw [hdata, hcontent _ le_rfl hrw]
        exact hdir.readable hrw
      writer := by
        refine ⟨_, hwr, rfl, ?_, ?_, .inl rfl⟩
        · exact (hmem _).2 (.inr (.inr ⟨w.base, hrw, le_rfl, hdir.writer.aligned, rfl⟩))
        · show w.off = (q.machine.content (chunkFilePath w.base)).length
          rw [hcontent _ hrw le_rfl, hdir.written le_rfl]
      writerPath := hwriter.path
      writerOffset := hwriter.offset
      writerLocalOffset := hwriter.localOffset
      written := by rw [hdata, hcontent _ hrw le_rfl, hdir.written le_rfl]
      flushed_ge := by
        rw [hwriter.flushedOffset]
        exact Nat.le_add_right _ _
      flushed_le := by
        rw [hwriter.flushedOffset, hcontent _ hrw le_rfl, hdir.written le_rfl]
        exact le_rfl }
  · intro k hk hkw
    rw [hdata, hcontent k hk hkw]

end Step

/-- There is no chunk for the writer. -/
theorem not_opened (hlast : last < w.base) (h : Scanning g m name limit last r w [] q) :
    ∃ msg m', checkOpened q = .error (msg, m') := by
  have hwriter := h.writer
  rw [if_neg fun hc => Nat.not_lt.2 hc.1 hlast] at hwriter
  by_cases hreader : q.reader = none
  · exact ⟨_, _, if_pos hreader⟩
  · exact ⟨_, _, (if_neg hreader).trans (if_pos hwriter)⟩

end Scanning

section Opening

variable {g : Geometry} {m : Machine} {name : Bytes} {limit first last : Nat} {r w : Pos}
  {data : Nat → Bytes}

theorem ClosedDir.mustCreateFlockFile (h : ClosedDir g m first last r w data) :
    ClosedDir g (mustCreateFlockFile m) first last r w data := by
  refine { h with mem := ?_, content := ?_ }
  · intro p
    rw [PersistentQueue.mustCreateFlockFile, Machine.mem_files_put, h.mem]
    exact ⟨fun hp => hp.elim (fun heq => .inr (.inl heq)) id, .inr⟩
  · intro k hk hkl
    rw [PersistentQueue.mustCreateFlockFile, Machine.content_put_of_ne _ (chunkFilePath_ne_flock k),
      h.content k hk hkl]

/-- The offsets that a closed queue wrote down are read. -/
theorem readMetainfo_eq (hname : Utf8.isValid name = true) (hle : r.offset ≤ w.offset)
    (hbound : w.offset < 2 ^ 64)
    (hmeta : m.files.lookup metainfoFilename = some (Metainfo.marshal ⟨name, r.offset, w.offset⟩)) :
    readMetainfo m = .ok ⟨name, r.offset, w.offset⟩ := by
  have hparse := parseMetainfoJson_marshal ⟨name, r.offset, w.offset⟩ hname
    (Nat.lt_of_le_of_lt hle hbound) hbound
  rw [readMetainfo, hmeta]
  simp only [hparse]
  exact if_neg (Nat.not_lt.2 hle)

/-- Opening a directory with metainfo is the scan. -/
theorem tryOpeningQueue_closed (limit : Nat) (hdir : ClosedDir g m first last r w data)
    (hname : Utf8.isValid name = true) (hle : r.offset ≤ w.offset) (hbound : w.offset < 2 ^ 64)
    (hmeta : m.files.lookup metainfoFilename = some (Metainfo.marshal ⟨name, r.offset, w.offset⟩)) :
    ∃ q, tryOpeningQueue m name g.chunk g.maxBlock limit = .ok (checkOpened q) ∧
      Scanning g (mustCreateFlockFile m) name limit last r w [] q := by
  have hrw := hdir.reader.base_le_of_offset_le hdir.writer hle
  have hmeta' : (mustCreateFlockFile m).files.lookup metainfoFilename =
      some (Metainfo.marshal ⟨name, r.offset, w.offset⟩) := by
    rw [mustCreateFlockFile, Machine.put, AList.lookup_insert_ne (by decide), hmeta]
  obtain ⟨q, hscan, hq⟩ := Scanning.run hdir.mustCreateFlockFile name limit
    ⟨name, r.offset, w.offset⟩ hrw rfl rfl
  refine ⟨q, ?_, hq⟩
  rw [tryOpeningQueue]
  simp only [readMetainfo_eq hname hle hbound hmeta', except_ok_bind]
  rw [hscan]
  rfl

/-- The sizes are those that `must_open_internal` checks. -/
theorem mustOpenInternal_eq (m : Machine) (name : Bytes) (limit : Nat) :
    mustOpenInternal m name g.chunk g.maxBlock limit =
      (tryOpeningQueue m name g.chunk g.maxBlock limit >>= fun
        | .ok q => .ok q
        | .error (_, m') =>
          tryOpeningQueue m'.mustRemoveDirContents name g.chunk g.maxBlock limit >>= fun
            | .ok q => .ok q
            | .error (msg, _) => .error (.panic ("FATAL: " ++ msg))) := by
  have hfits := g.fits
  have hpos := g.maxBlock_pos
  rw [mustOpenInternal, mustHold, if_pos (by omega), except_ok_bind, mustHold, if_pos (by omega),
    except_ok_bind]
  rfl

/-- A directory that was made from scratch. -/
theorem createFromScratch_spec (hbound : g.chunk < 2 ^ 64) (m : Machine) (name : Bytes) :
    ∃ m', createFromScratch m name = .ok (m', ⟨name, 0, 0⟩) ∧
      ClosedDir g m' 0 0 origin origin fun _ => [] := by
  have hpos := g.chunk_pos
  obtain ⟨m₁, hm₁⟩ : ∃ m₁, m₁ = mustCreateFlockFile m.mustRemoveDirContents := ⟨_, rfl⟩
  have hmem₁ : ∀ p, p ∈ m₁.files ↔ p = flockFilename := by
    intro p
    rw [hm₁, mustCreateFlockFile, Machine.mem_files_put]
    refine ⟨fun hp => hp.elim id fun hin => ?_, .inl⟩
    exact absurd hin (AList.notMem_empty p)
  obtain ⟨-, hmem₂, -, -, -⟩ :=
    mustWriteSync_spec m₁ metainfoFilename (Metainfo.marshal ⟨name, 0, 0⟩)
  obtain ⟨m₂, hm₂⟩ : ∃ m₂, m₂ = m₁.mustWriteSync metainfoFilename (Metainfo.marshal ⟨name, 0, 0⟩) :=
    ⟨_, rfl⟩
  rw [← hm₂] at hmem₂
  obtain ⟨hcontent₃, hmem₃, -, -, -⟩ := mustWriteSync_spec m₂ (chunkFilePath 0) []
  have hnew : chunkFilePath 0 ∉ m₂.files := by
    rw [hmem₂, hmem₁]
    rintro (h | h)
    · exact chunkFilePath_ne_metainfo 0 h
    · exact chunkFilePath_ne_flock 0 h
  have hinside : g.InsideChunk origin := ⟨Nat.dvd_zero _, hpos⟩
  refine ⟨m₂.mustWriteSync (chunkFilePath 0) [], ?_, ?_⟩
  · rw [createFromScratch]
    simp only [← hm₁, ← hm₂, Machine.mustWriteAtomic, hnew, if_false, except_ok_bind]
    rfl
  · refine ⟨hinside, hinside, le_rfl, le_rfl, by omega, ?_, ?_, ?_, ?_⟩
    · intro p
      have hchunk : (∃ k, 0 ≤ k ∧ k ≤ 0 ∧ g.chunk ∣ k ∧ p = chunkFilePath k) ↔ p = chunkFilePath 0 := by
        refine ⟨?_, fun h => ⟨0, le_rfl, le_rfl, Nat.dvd_zero _, h⟩⟩
        rintro ⟨k, -, hk, -, h⟩
        rwa [Nat.le_zero.1 hk] at h
      rw [hmem₃, hmem₂, hmem₁, IsQueueFile, hchunk]
      tauto
    · intro k _ hk
      rw [Nat.le_zero.1 hk]
      exact hcontent₃
    · intro _
      exact le_rfl
    · intro _
      rfl

/-- A directory without metainfo becomes an empty queue. -/
theorem tryOpeningQueue_fresh (limit : Nat) (hbound : g.chunk < 2 ^ 64) (hname : Utf8.isValid name = true)
    (hmeta : metainfoFilename ∉ m.files) :
    ∃ q, tryOpeningQueue m name g.chunk g.maxBlock limit = .ok (.ok q) ∧
      Inv g q origin origin [] ∧ q.maxPendingBytes = limit ∧ q.name = name := by
  have hnone : readMetainfo (mustCreateFlockFile m) = .error .notExist := by
    have hlookup : (mustCreateFlockFile m).files.lookup metainfoFilename = none := by
      rw [mustCreateFlockFile, Machine.put, AList.lookup_insert_ne (by decide)]
      exact AList.lookup_eq_none.2 hmeta
    rw [readMetainfo, hlookup]
  obtain ⟨m', hm', hdir⟩ := createFromScratch_spec hbound (mustCreateFlockFile m) name
  obtain ⟨q, hscan, hq⟩ := Scanning.run hdir name limit ⟨name, 0, 0⟩ le_rfl rfl rfl
  obtain ⟨hcheck, hfiles, -⟩ := Scanning.opened hdir hname le_rfl le_rfl hq
  refine ⟨q, ?_, ⟨hfiles, rfl, by simp⟩, hq.maxPendingBytes, hq.name⟩
  rw [tryOpeningQueue]
  simp only [hnone, hm', except_ok_bind]
  rw [hscan, except_ok_bind, hcheck]
  rfl

theorem mustOpenInternal_fresh (limit : Nat) (hbound : g.chunk < 2 ^ 64) (hname : Utf8.isValid name = true)
    (hmeta : metainfoFilename ∉ m.files) :
    ∃ q, mustOpenInternal m name g.chunk g.maxBlock limit = .ok q ∧
      Inv g q origin origin [] ∧ q.maxPendingBytes = limit ∧ q.name = name := by
  obtain ⟨q, hq, hinv⟩ := tryOpeningQueue_fresh limit hbound hname hmeta
  refine ⟨q, ?_, hinv⟩
  rw [mustOpenInternal_eq, hq]
  rfl

end Opening

/-! ### Closing and opening again -/

namespace Inv

variable {g : Geometry} {q : Queue} {r w : Pos} {xs : List Bytes}

/-- What a queue leaves when it is closed. -/
theorem mustClose (h : Inv g q r w xs) :
    ClosedDir g q.mustClose r.base w.base (g.normal r) (g.normal w) q.chunkData ∧
      q.mustClose.files.lookup metainfoFilename =
        some (Metainfo.marshal ⟨q.name, (g.normal r).offset, (g.normal w).offset⟩) := by
  obtain ⟨wr, hwr, hwpath, happends⟩ := h.files.writer
  obtain ⟨hgrows, hcontent⟩ := Writer.mustClose_spec happends
  rw [hwpath] at hgrows hcontent
  have hclose : q.mustClose = (wr.mustClose q.machine).mustWriteSync metainfoFilename
      (Metainfo.marshal ⟨q.name, q.readerOffset, q.writerOffset⟩) := by
    rw [Queue.mustClose, Queue.closeWriter, hwr]
    rfl
  obtain ⟨hmeta, hmem, hother, -, -⟩ := mustWriteSync_spec (wr.mustClose q.machine) metainfoFilename
    (Metainfo.marshal ⟨q.name, q.readerOffset, q.writerOffset⟩)
  rw [← hclose] at hmeta hmem hother
  have hdata : ∀ k ≤ w.base, q.mustClose.content (chunkFilePath k) = q.chunkData k := by
    intro k hk
    rw [hother _ (chunkFilePath_ne_metainfo k)]
    rcases Nat.lt_or_eq_of_le hk with hlt | rfl
    · rw [h.files.chunkData_of_lt hlt, hgrows.other]
      intro heq
      have := (h.files.chunkFilePath_eq_iff hk le_rfl).1 heq
      omega
    · rw [hcontent, h.files.chunkData_writer hwr]
  constructor
  · exact {
      reader := h.files.inChunkReader.normal
      writer := h.files.inChunkWriter.normal
      first_le := Geometry.base_le_normal r
      last_le := Geometry.base_le_normal w
      bound := h.files.bound
      mem := by
        intro p
        rw [hmem, hgrows.mem, h.files.mem]
        exact ⟨fun hp => hp.elim .inl id, .inr⟩
      content := fun k _ hk => hdata k hk
      readable := by
        intro _
        by_cases hend : r.off = g.chunk
        · rw [Geometry.normal_of_eq hend]
          exact Nat.zero_le _
        · rw [Geometry.normal_of_ne hend]
          exact h.files.readable
      written := by
        intro hle
        by_cases hend : w.off = g.chunk
        · rw [Geometry.normal_of_eq hend] at hle
          exact absurd hle (Nat.not_le.2 (Nat.lt_add_of_pos_right g.chunk_pos))
        · rw [Geometry.normal_of_ne hend]
          exact h.files.written }
  · rw [Machine.lookup_of_mem ((hmem _).2 (.inl rfl)), hmeta, h.files.readerOffset,
      h.files.writerOffset, Geometry.normal_offset, Geometry.normal_offset]

theorem normal_offset_le (h : Inv g q r w xs) : (g.normal r).offset ≤ (g.normal w).offset := by
  rw [Geometry.normal_offset, Geometry.normal_offset]
  exact h.laid.offset_le h.files.inChunkReader h.blocks

theorem normal_offset_lt (h : Inv g q r w xs) : (g.normal w).offset < 2 ^ 64 := by
  have hbound := h.files.bound
  have hle := h.files.inChunkWriter.le
  rw [Geometry.normal_offset, Pos.offset]
  omega

/-- A queue whose writer is before the end of its chunk is opened again with its blocks. -/
theorem reopen_inside (h : Inv g q r w xs) (hw : w.off ≠ g.chunk) :
    ∃ q', mustOpenInternal q.mustClose q.name q.chunkFileSize q.maxBlockSize q.maxPendingBytes =
        .ok q' ∧
      Inv g q' (g.normal r) w xs ∧ q'.maxPendingBytes = q.maxPendingBytes ∧ q'.name = q.name := by
  obtain ⟨hdir, hmeta⟩ := h.mustClose
  have hle := h.normal_offset_le
  obtain ⟨q', hq', hscan⟩ := tryOpeningQueue_closed q.maxPendingBytes hdir h.files.name hle
    h.normal_offset_lt hmeta
  rw [Geometry.normal_of_ne hw] at hdir hle hscan
  obtain ⟨hcheck, hfiles, hdata⟩ :=
    Scanning.opened hdir.mustCreateFlockFile h.files.name le_rfl hle hscan
  refine ⟨q', ?_, ⟨hfiles, ?_, h.blocks⟩, hscan.maxPendingBytes, hscan.name⟩
  · rw [h.files.chunkFileSize, h.files.maxBlockSize, mustOpenInternal_eq, hq', hcheck]
    rfl
  · -- a reader at the end of its chunk is opened at the start of the next one
    have hlaid : Laid g q.chunkData (g.normal r) xs w := by
      cases xs with
      | nil =>
        obtain rfl : r = w := h.laid
        rw [Geometry.normal_of_ne hw]
        exact rfl
      | cons b bs => exact h.laid.of_advance (cons_ne_nil _ _) (Geometry.advance_normal r)
    refine hlaid.mono ?_
    intro k hk hkw
    rw [hdata k (Nat.le_trans (Geometry.base_le_advance _) hk) hkw]

/-- A queue whose writer is at the end of its chunk is opened again without blocks. -/
theorem reopen_full (h : Inv g q r w xs) (hw : w.off = g.chunk) :
    ∃ q', mustOpenInternal q.mustClose q.name q.chunkFileSize q.maxBlockSize q.maxPendingBytes =
        .ok q' ∧
      Inv g q' origin origin [] ∧ q'.maxPendingBytes = q.maxPendingBytes ∧ q'.name = q.name := by
  obtain ⟨hdir, hmeta⟩ := h.mustClose
  obtain ⟨q₁, hq₁, hscan⟩ := tryOpeningQueue_closed q.maxPendingBytes hdir h.files.name
    h.normal_offset_le h.normal_offset_lt hmeta
  have hlast : w.base < (g.normal w).base := by
    rw [Geometry.normal_of_eq hw]
    exact Nat.lt_add_of_pos_right g.chunk_pos
  obtain ⟨msg, m', hcheck⟩ := hscan.not_opened hlast
  have hbound : g.chunk < 2 ^ 64 := by
    have := h.files.bound
    omega
  obtain ⟨q', hq', hinv⟩ := tryOpeningQueue_fresh q.maxPendingBytes
    (m := m'.mustRemoveDirContents) hbound h.files.name (AList.notMem_empty _)
  refine ⟨q', ?_, hinv⟩
  rw [h.files.chunkFileSize, h.files.maxBlockSize, mustOpenInternal_eq, hq₁, hcheck, except_ok_bind]
  simp only [hq', except_ok_bind]

end Inv

end EsLogs.PersistentQueue
