import EsLogs.Bytes
import EsLogs.Outcome

/-!
The files of one directory and the buffered streams over them (`fs` and `filestream.rs` of the common
crate). A stream that writes holds back bytes that the file does not have yet, a stream that reads holds
bytes that it has read ahead. Opening, reading, writing and removing do not fail for reasons of the
system here, and a read of the system returns all the bytes it is asked for if the file has them.
-/

namespace EsLogs.FileStream

open List

variable {m : Machine} {r : Reader}

abbrev Files := AList fun _ : Bytes => Bytes

/-- What the process runs on: a directory, the times the clock is going to show, one for each look at
it, and the memory that the process may use. -/
structure Machine where
  files : Files
  clock : Stream' Nat
  memoryAllowed : Nat

def getReadBufferSize (m : Machine) : Nat := max (4 * 1024) (min (m.memoryAllowed / 1024 / 64) (64 * 1024))

def getWriteBufferSize (m : Machine) : Nat := max (4 * 1024) (min (m.memoryAllowed / 1024 / 8) (128 * 1024))

namespace Machine

/-- The bytes of a file; a file that does not exist has none. -/
def content (m : Machine) (path : Bytes) : Bytes := (m.files.lookup path).getD []

def put (m : Machine) (path data : Bytes) : Machine := { m with files := m.files.insert path data }

def unixTimestamp (m : Machine) : Nat × Machine := (m.clock.head, { m with clock := m.clock.tail })

def mustRemovePath (m : Machine) (path : Bytes) : Outcome Machine :=
  if path ∈ m.files then .ok { m with files := m.files.erase path }
  else .error (.panic "FATAL: cannot remove the path")

def mustRemoveDirContents (m : Machine) : Machine := { m with files := ∅ }

/-- `must_read_dir`: the names in the order of their bytes. -/
def mustReadDir (m : Machine) : List Bytes := m.files.keys.mergeSort fun a b => decide (a ≤ b)

def mustFileSize (m : Machine) (path : Bytes) : Outcome Nat :=
  if path ∈ m.files then .ok (m.content path).length else .error (.panic "FATAL: cannot stat the path")

end Machine

/-! ### Reading -/

/-- A buffered reader: the size of its buffer, the place of the next byte that it gets from the file,
and the bytes `buf[pos..filled]` that it got and did not hand out. -/
structure Reader where
  path : Bytes
  size : Nat
  filePos : Nat
  buffered : Bytes
  deriving DecidableEq

def mustOpen (m : Machine) (path : Bytes) : Outcome Reader :=
  if path ∈ m.files then .ok ⟨path, getReadBufferSize m, 0, []⟩
  else .error (.panic "FATAL: cannot open file")

def openReaderAt (m : Machine) (path : Bytes) (offset : Nat) : Outcome Reader := do
  let r ← mustOpen m path
  return { r with filePos := offset }

/-- `read_real`: one read of at most `n` bytes from the file. -/
def readReal (m : Machine) (path : Bytes) (pos n : Nat) : Bytes := ((m.content path).drop pos).take n

/-- What is left of the start of a list, after some of it was taken. -/
theorem drop_length_take_prefix {α : Type} {l data : List α} (h : l <+: data) (n : Nat) :
    l.drop n <+: data.drop (l.take n).length := by
  rw [length_take, drop_eq_drop_min]
  exact h.drop _

namespace Reader

/-- `Reader::read_buffered`: at most one read from the file. -/
def readBuffered (m : Machine) (r : Reader) (n : Nat) : Bytes × Reader :=
  if n = 0 then ([], r)
  else if r.buffered = [] then
    if r.size ≤ n then
      let p := readReal m r.path r.filePos n
      (p, { r with filePos := r.filePos + p.length })
    else
      let buf := readReal m r.path r.filePos r.size
      (buf.take n, { r with filePos := r.filePos + buf.length, buffered := buf.drop n })
  else (r.buffered.take n, { r with buffered := r.buffered.drop n })

/-- The loop of `read_exact`: `n` bytes are missing. -/
def readExactWithin (m : Machine) : Nat → Reader → Nat → Bytes → Option Bytes × Reader
  | 0, r, _, _ => (none, r)
  | fuel + 1, r, n, acc =>
    if n = 0 then (some acc, r)
    else
      let (p, r) := r.readBuffered m n
      if p = [] then (none, r) else readExactWithin m fuel r (n - p.length) (acc ++ p)

/-- `read_exact`: all the bytes that it is asked for, or an error when the file ends before. -/
def readExact (m : Machine) (r : Reader) (n : Nat) : Option Bytes × Reader :=
  readExactWithin m (n + 1) r n []

/-- The reader is at the place `off` of a file with the given bytes. -/
structure At (r : Reader) (data : Bytes) (off : Nat) : Prop where
  pos : r.filePos = off + r.buffered.length
  ahead : r.buffered <+: data.drop off

theorem At.mono {data data' : Bytes} {off : Nat} (h : r.At data off) (hd : data <+: data') : r.At data' off :=
  ⟨h.pos, h.ahead.trans (hd.drop off)⟩

/-- A read that may find bytes finds some, and leaves the reader behind them. -/
theorem readBuffered_spec {off n : Nat} (h : r.At (m.content r.path) off)
    (hn : 0 < n) (hoff : off < (m.content r.path).length) :
    ∃ p r', r.readBuffered m n = (p, r') ∧ p ≠ [] ∧ p.length ≤ n ∧
      p <+: (m.content r.path).drop off ∧ r'.At (m.content r.path) (off + p.length) ∧ r'.path = r.path := by
  have hpos := h.pos
  have hrest : 0 < ((m.content r.path).drop off).length := by
    rw [length_drop]
    omega
  unfold readBuffered
  rw [if_neg (by omega)]
  by_cases hbuf : r.buffered = []
  · have hstart : r.filePos = off := by rw [hpos, hbuf, length_nil, Nat.add_zero]
    rw [if_pos hbuf, hstart]
    by_cases hsize : r.size ≤ n
    · -- a long read bypasses the buffer
      rw [if_pos hsize]
      refine ⟨_, _, rfl, ?_, ?_, take_prefix _ _, ⟨?_, ?_⟩, rfl⟩
      · rw [← length_pos_iff, readReal, length_take]
        omega
      · exact (length_take_le _ _)
      · simp only [hbuf, length_nil, Nat.add_zero]
      · simp only [hbuf, nil_prefix]
    · rw [if_neg hsize]
      have hahead : readReal m r.path off r.size <+: (m.content r.path).drop off :=
        take_prefix _ _
      refine ⟨_, _, rfl, ?_, ?_, ( take_prefix _ _).trans hahead, ⟨?_, ?_⟩, rfl⟩
      · rw [← length_pos_iff, readReal, length_take, length_take]
        omega
      · exact (length_take_le _ _)
      · simp only [length_take, length_drop]
        omega
      · rw [← drop_drop]
        exact drop_length_take_prefix hahead _
  · rw [if_neg hbuf]
    refine ⟨_, _, rfl, ?_, length_take_le _ _, ( take_prefix _ _).trans h.ahead, ⟨?_, ?_⟩,
      rfl⟩
    · rw [← length_pos_iff, length_take]
      have := length_pos_iff.2 hbuf
      omega
    · simp only [hpos, length_take, length_drop]
      omega
    · rw [← drop_drop]
      exact drop_length_take_prefix h.ahead _

theorem readExactWithin_spec {data : Bytes} (fuel : Nat) (r : Reader) (off n : Nat)
    (acc : Bytes) (hdata : m.content r.path = data) (h : r.At data off)
    (hoff : off + n ≤ data.length) (hfuel : n < fuel) :
    ∃ r', r.readExactWithin m fuel n acc = (some (acc ++ (data.drop off).take n), r') ∧
      r'.At data (off + n) ∧ r'.path = r.path := by
  induction fuel generalizing r off n acc with
  | zero => omega
  | succ fuel ih =>
    by_cases hn : n = 0
    · subst hn
      exact ⟨r, by rw [readExactWithin, if_pos rfl, take_zero, append_nil], h, rfl⟩
    · subst hdata
      obtain ⟨p, r', hread, hne, hlen, ⟨rest, hrest⟩, hat, hpath⟩ :=
        readBuffered_spec h (Nat.pos_of_ne_zero hn) (by omega)
      have hpos := length_pos_iff.2 hne
      obtain ⟨r'', hloop, hat', hpath'⟩ := ih r' (off + p.length) (n - p.length) (acc ++ p)
        (by rw [hpath]) hat (by omega) (by omega)
      refine ⟨r'', ?_, by rwa [show off + p.length + (n - p.length) = off + n by omega] at hat',
        hpath'.trans hpath⟩
      rw [readExactWithin, if_neg hn, hread]
      simp only [hne, if_false]
      rw [hloop, ← drop_drop, ← hrest, drop_left, append_assoc,
        take_append, take_of_length_le hlen]

/-- All the bytes are there: they are read, and the reader is behind them. -/
theorem readExact_spec {data : Bytes} {off n : Nat}
    (hdata : m.content r.path = data) (h : r.At data off) (hoff : off + n ≤ data.length) :
    ∃ r', r.readExact m n = (some ((data.drop off).take n), r') ∧ r'.At data (off + n) ∧ r'.path = r.path := by
  obtain ⟨r', hread, hat, hpath⟩ :=
    readExactWithin_spec (n + 1) r off n [] hdata h hoff (Nat.lt_succ_self n)
  exact ⟨r', by rw [readExact, hread, nil_append], hat, hpath⟩

end Reader

/-! ### Writing -/

/-- A buffered writer: the capacity of its buffer, the place of its next write in the file, and the
bytes that it holds back. -/
structure Writer where
  path : Bytes
  cap : Nat
  filePos : Nat
  buffered : Bytes
  deriving DecidableEq

/-- `must_create`: the file exists afterwards and is empty. -/
def mustCreate (m : Machine) (path : Bytes) : Writer × Machine :=
  (⟨path, getWriteBufferSize m, 0, []⟩, m.put path [])

/-- `open_writer_at`: the file is created if it is missing, and it keeps its bytes. -/
def openWriterAt (m : Machine) (path : Bytes) (offset : Nat) : Writer × Machine :=
  (⟨path, getWriteBufferSize m, offset, []⟩, if path ∈ m.files then m else m.put path [])

/-- The bytes of a file after a write at a place of it. -/
def overwrite (data : Bytes) (pos : Nat) (p : Bytes) : Bytes :=
  data.take pos ++ List.replicate (pos - data.length) 0 ++ p ++ data.drop (pos + p.length)

namespace Writer

def writeReal (w : Writer) (m : Machine) (p : Bytes) : Writer × Machine :=
  ({ w with filePos := w.filePos + p.length },
    m.put w.path (overwrite (m.content w.path) w.filePos p))

def flushBuf (w : Writer) (m : Machine) : Writer × Machine :=
  if w.buffered = [] then (w, m)
  else
    let (w', m) := w.writeReal m w.buffered
    ({ w' with buffered := [] }, m)

def writeBufferedWithin : Nat → Writer → Machine → Bytes → Writer × Machine
  | 0, w, m, _ => (w, m)
  | fuel + 1, w, m, rest =>
    if rest = [] then (w, m)
    else if w.buffered = [] ∧ w.cap ≤ rest.length then w.writeReal m rest
    else
      let n := min (w.cap - w.buffered.length) rest.length
      let w := { w with buffered := w.buffered ++ rest.take n }
      let (w, m) := if w.buffered.length = w.cap then w.flushBuf m else (w, m)
      writeBufferedWithin fuel w m (rest.drop n)

def write (w : Writer) (m : Machine) (p : Bytes) : Writer × Machine :=
  writeBufferedWithin (p.length + 1) w m p

def mustFlush (w : Writer) (m : Machine) : Writer × Machine := w.flushBuf m

def mustClose (w : Writer) (m : Machine) : Machine := (w.flushBuf m).2

end Writer

namespace Machine

def mustWriteSync (m : Machine) (path data : Bytes) : Machine :=
  let (w, m) := mustCreate m path
  let (w, m) := w.write m data
  w.mustClose m

/-- `must_write_atomic` where overwriting is not allowed; the temporary file is gone when it
returns. -/
def mustWriteAtomic (m : Machine) (path data : Bytes) : Outcome Machine :=
  if path ∈ m.files then .error (.panic "FATAL: cannot create file, since it already exists")
  else .ok (m.mustWriteSync path data)

/-- Between the two machines only one file changed, and only by bytes added at its end. -/
structure Grows (path : Bytes) (m m' : Machine) : Prop where
  clock : m'.clock = m.clock
  memory : m'.memoryAllowed = m.memoryAllowed
  mem : ∀ p, p ∈ m'.files ↔ p ∈ m.files
  other : ∀ p, p ≠ path → m'.content p = m.content p
  grown : m.content path <+: m'.content path

theorem Grows.refl (path : Bytes) (m : Machine) : m.Grows path m :=
  ⟨rfl, rfl, fun _ => Iff.rfl, fun _ _ => rfl, prefix_rfl⟩

theorem Grows.trans {path : Bytes} {m m' m'' : Machine} (h : m.Grows path m')
    (h' : m'.Grows path m'') : m.Grows path m'' := by
  refine ⟨h'.clock.trans h.clock, h'.memory.trans h.memory, ?_, ?_, h.grown.trans h'.grown⟩
  · intro p
    exact (h'.mem p).trans (h.mem p)
  · intro p hp
    exact (h'.other p hp).trans (h.other p hp)

theorem lookup_of_mem {path : Bytes} (h : path ∈ m.files) : m.files.lookup path = some (m.content path) := by
  obtain ⟨data, hdata⟩ := Option.isSome_iff_exists.1 (AList.lookup_isSome.2 h)
  rw [content, hdata]
  rfl

@[simp]
theorem content_put_self (m : Machine) (path data : Bytes) : (m.put path data).content path = data := by
  simp [content, put]

theorem content_put_of_ne {path p : Bytes} (data : Bytes) (h : p ≠ path) :
    (m.put path data).content p = m.content p := by
  simp [content, put, AList.lookup_insert_ne h]

@[simp]
theorem mem_files_put {path p data : Bytes} :
    p ∈ (m.put path data).files ↔ p = path ∨ p ∈ m.files := AList.mem_insert _

end Machine

namespace Writer

/-- The bytes that were written to the file so far, with those that are held back. -/
def written (w : Writer) (m : Machine) : Bytes := m.content w.path ++ w.buffered

/-- The writer writes at the end of its file. -/
structure Appends (w : Writer) (m : Machine) : Prop where
  mem : w.path ∈ m.files
  pos : w.filePos = (m.content w.path).length
  room : w.buffered = [] ∨ w.buffered.length < w.cap

/-- What writing some bytes does: they follow what was written before, in the file or in the
buffer. -/
structure Wrote (w : Writer) (m : Machine) (p : Bytes) (w' : Writer) (m' : Machine) : Prop where
  path : w'.path = w.path
  appends : w'.Appends m'
  written : w'.written m' = w.written m ++ p
  grows : m.Grows w.path m'

theorem overwrite_length (data p : Bytes) : overwrite data data.length p = data ++ p := by
  simp [overwrite]

variable {m : Machine} {w : Writer}

/-- Bytes go to the file if none are held back. -/
theorem writeReal_spec (hmem : w.path ∈ m.files) (hpos : w.filePos = (m.content w.path).length)
    (hbuf : w.buffered = []) (p : Bytes) : Wrote w m p (w.writeReal m p).1 (w.writeReal m p).2 := by
  have hcontent : (w.writeReal m p).2.content w.path = m.content w.path ++ p := by
    rw [writeReal, Machine.content_put_self, hpos, overwrite_length]
  have hfiles : ∀ q, q ∈ (w.writeReal m p).2.files ↔ q ∈ m.files := by
    intro q
    rw [writeReal, Machine.mem_files_put]
    exact or_iff_right_of_imp fun heq => heq ▸ hmem
  refine ⟨rfl, ⟨(hfiles _).2 hmem, ?_, .inl hbuf⟩, ?_,
    ⟨rfl, rfl, hfiles, fun q hq => Machine.content_put_of_ne _ hq, ?_⟩⟩
  · show w.filePos + p.length = ((w.writeReal m p).2.content w.path).length
    rw [hcontent, hpos, length_append]
  · show (w.writeReal m p).2.content w.path ++ w.buffered = w.written m ++ p
    rw [hcontent, Writer.written, hbuf, append_nil, append_nil]
  · rw [hcontent]
    exact prefix_append _ _

/-- Flushing moves what is held back to the file. -/
theorem flushBuf_spec (hmem : w.path ∈ m.files) (hpos : w.filePos = (m.content w.path).length) :
    ∃ w' m', w.flushBuf m = (w', m') ∧ w'.buffered = [] ∧ w'.cap = w.cap ∧ Wrote w m [] w' m' := by
  unfold flushBuf
  by_cases hbuf : w.buffered = []
  · rw [if_pos hbuf]
    refine ⟨w, m, rfl, hbuf, rfl, rfl, ⟨hmem, hpos, .inl hbuf⟩, ?_, Machine.Grows.refl _ _⟩
    rw [append_nil]
  · rw [if_neg hbuf]
    have hwrote := writeReal_spec (w := { w with buffered := [] }) hmem hpos rfl w.buffered
    refine ⟨_, _, rfl, rfl, rfl, { hwrote with written := hwrote.written.trans ?_ }⟩
    simp [Writer.written]

/-- Filling the buffer, and flushing it when it is full. -/
theorem buffer_spec (h : w.Appends m) {p : Bytes}
    (hp : w.buffered.length + p.length ≤ w.cap) :
    ∃ w' m', (if (w.buffered ++ p).length = w.cap
        then flushBuf { w with buffered := w.buffered ++ p } m
        else ({ w with buffered := w.buffered ++ p }, m)) = (w', m') ∧
      w'.cap = w.cap ∧ Wrote w m p w' m' := by
  have hwritten : written { w with buffered := w.buffered ++ p } m = w.written m ++ p := by
    simp only [Writer.written, append_assoc]
  by_cases hfull : (w.buffered ++ p).length = w.cap
  · rw [if_pos hfull]
    obtain ⟨w', m', hflush, -, hcap, hwrote⟩ :=
      flushBuf_spec (w := { w with buffered := w.buffered ++ p }) h.mem h.pos
    refine ⟨w', m', hflush, hcap, { hwrote with written := ?_ }⟩
    rw [hwrote.written, append_nil, hwritten]
  · rw [if_neg hfull]
    refine ⟨_, m, rfl, rfl, rfl, ⟨h.mem, h.pos, .inr ?_⟩, hwritten, Machine.Grows.refl _ _⟩
    rw [length_append] at hfull ⊢
    exact Nat.lt_of_le_of_ne hp hfull

theorem writeBufferedWithin_spec (fuel : Nat) (w : Writer) (m : Machine) (rest : Bytes)
    (h : w.Appends m) (hfuel : rest.length < fuel) :
    ∃ w' m', writeBufferedWithin fuel w m rest = (w', m') ∧ Wrote w m rest w' m' := by
  induction fuel generalizing w m rest with
  | zero => omega
  | succ fuel ih =>
    rw [writeBufferedWithin]
    by_cases hrest : rest = []
    · subst hrest
      exact ⟨w, m, if_pos rfl, rfl, h, (append_nil _).symm, Machine.Grows.refl _ _⟩
    rw [if_neg hrest]
    have hrestpos := length_pos_iff.2 hrest
    by_cases hlong : w.buffered = [] ∧ w.cap ≤ rest.length
    · -- nothing is held back and the bytes fill the buffer: they go to the file
      rw [if_pos hlong]
      exact ⟨_, _, rfl, writeReal_spec h.mem h.pos hlong.1 rest⟩
    · rw [if_neg hlong]
      have hroom : w.buffered.length < w.cap := by
        rcases h.room with hempty | hroom
        · have hshort : ¬w.cap ≤ rest.length := fun hle => hlong ⟨hempty, hle⟩
          rw [hempty, length_nil]
          omega
        · exact hroom
      generalize hn : min (w.cap - w.buffered.length) rest.length = n
      have hnpos : 0 < n := by omega
      obtain ⟨w', m', hbuffer, -, hwrote⟩ := buffer_spec h (p := rest.take n)
        (by rw [length_take]; omega)
      obtain ⟨w'', m'', hloop, hwrote'⟩ := ih w' m' (rest.drop n) hwrote.appends
        (by rw [length_drop]; omega)
      refine ⟨w'', m'', ?_, hwrote'.path.trans hwrote.path, hwrote'.appends, ?_, ?_⟩
      · simp only [hbuffer]
        exact hloop
      · rw [hwrote'.written, hwrote.written, append_assoc, take_append_drop]
      · have hgrows := hwrote'.grows
        rw [hwrote.path] at hgrows
        exact hwrote.grows.trans hgrows

theorem write_spec (h : w.Appends m) (p : Bytes) :
    ∃ w' m', w.write m p = (w', m') ∧ Wrote w m p w' m' :=
  writeBufferedWithin_spec (p.length + 1) w m p h (Nat.lt_succ_self _)

/-- After a flush the file has everything that was written. -/
theorem mustFlush_spec (h : w.Appends m) :
    ∃ w' m', w.mustFlush m = (w', m') ∧ w'.buffered = [] ∧ Wrote w m [] w' m' ∧
      m'.content w.path = w.written m := by
  obtain ⟨w', m', hflush, hbuf, -, hwrote⟩ := flushBuf_spec h.mem h.pos
  refine ⟨w', m', hflush, hbuf, hwrote, ?_⟩
  have hwritten := hwrote.written
  rw [append_nil] at hwritten
  rw [← hwritten, Writer.written, hbuf, append_nil, hwrote.path]

theorem mustClose_spec (h : w.Appends m) :
    m.Grows w.path (w.mustClose m) ∧ (w.mustClose m).content w.path = w.written m := by
  obtain ⟨w', m', hflush, -, hwrote, hcontent⟩ := mustFlush_spec h
  have hclose : w.mustClose m = m' := congrArg Prod.snd hflush
  rw [hclose]
  exact ⟨hwrote.grows, hcontent⟩

theorem appends_mustCreate (m : Machine) (path : Bytes) :
    (mustCreate m path).1.Appends (mustCreate m path).2 := by
  refine ⟨?_, ?_, .inl rfl⟩
  · exact Machine.mem_files_put.2 (.inl rfl)
  · simp [mustCreate]

end Writer

/-- What `must_write_sync` leaves: the bytes in the file, everything else as it was. -/
theorem mustWriteSync_spec (m : Machine) (path data : Bytes) :
    (m.mustWriteSync path data).content path = data ∧
      (∀ p, p ∈ (m.mustWriteSync path data).files ↔ p = path ∨ p ∈ m.files) ∧
      (∀ p, p ≠ path → (m.mustWriteSync path data).content p = m.content p) ∧
      (m.mustWriteSync path data).clock = m.clock ∧
      (m.mustWriteSync path data).memoryAllowed = m.memoryAllowed := by
  obtain ⟨w, m', hwrite, hwrote⟩ := Writer.write_spec (Writer.appends_mustCreate m path) data
  obtain ⟨hgrows, hcontent⟩ := Writer.mustClose_spec hwrote.appends
  have hsync : m.mustWriteSync path data = w.mustClose m' := by
    simp only [Machine.mustWriteSync, hwrite]
  have hpath : w.path = path := hwrote.path
  have hall := hwrote.grows.trans (hpath ▸ hgrows)
  have hput : (mustCreate m path).2 = m.put path [] := rfl
  rw [hput] at hall
  rw [hsync]
  refine ⟨?_, ?_, ?_, hall.clock, hall.memory⟩
  · rw [← hpath, hcontent, hwrote.written]
    simp [Writer.written, mustCreate]
  · intro p
    rw [hall.mem, Machine.mem_files_put]
  · intro p hp
    rw [hall.other p hp, Machine.content_put_of_ne _ hp]

end EsLogs.FileStream
