import EsLogs.Encoding
import EsLogs.FileStream
import EsLogs.Metainfo

/-!
The queue on disk (`Queue` of `persistentqueue.rs`). Blocks are appended to chunk files, each behind its
length; a chunk file is named by the offset of its first byte, it is created by the first write that
does not fit into the one before, and it is removed by the first read behind it. Offsets are natural
numbers: the `u64` arithmetic of the source agrees with them below `2 ^ 64`.
-/

namespace EsLogs.PersistentQueue

open Encoding FileStream

def maxBlockSizeDefault : Nat := 32 * 1024 * 1024

def defaultChunkFileSize : Nat := (maxBlockSizeDefault + 8) * 16

def metainfoFilename : Bytes := ascii "metainfo.json"

def flockFilename : Bytes := ascii "flock.lock"

def isChunkFileName (name : Bytes) : Bool :=
  name.length = 16 && name.all fun b => isDigit b || (byte 'A' ≤ b && b ≤ byte 'F')

/-- `chunk_file_path`: the offset in 16 hexadecimal digits. -/
def chunkFilePath (offset : Nat) : Bytes :=
  (beBytes 8 offset).flatMap fun b => [hexByte 'A' (b.toNat / 16), hexByte 'A' (b.toNat % 16)]

/-- `Queue`, with the machine that holds its directory. The metrics are left out. -/
structure Queue where
  chunkFileSize : Nat
  maxBlockSize : Nat
  maxPendingBytes : Nat
  name : Bytes
  machine : Machine
  reader : Option Reader
  readerPath : Bytes
  readerOffset : Nat
  readerLocalOffset : Nat
  writer : Option Writer
  writerPath : Bytes
  writerOffset : Nat
  writerLocalOffset : Nat
  writerFlushedOffset : Nat
  lastMetainfoFlushTime : Nat

/-- The failure of a loop that did not end within its fuel. -/
def outOfFuel : Failure := .error "out of fuel"

/-- `panicf!("FATAL: …{err}")` on an error, with the text before the error. -/
def fatal {α : Type} (context : String) (o : Outcome α) : Outcome α :=
  o.mapError fun
    | .error msg => .panic ("FATAL: " ++ context ++ msg)
    | .panic msg => .panic msg

def mustHold (p : Prop) [Decidable p] (msg : String) : Outcome Unit :=
  if p then .ok () else .error (.panic msg)

namespace Queue

def readerMut (q : Queue) : Outcome Reader :=
  match q.reader with
  | some r => .ok r
  | none => .error (.panic "BUG: queue reader is used after MustClose")

def writerMut (q : Queue) : Outcome Writer :=
  match q.writer with
  | some w => .ok w
  | none => .error (.panic "BUG: queue writer is used after MustClose")

def flushMetainfo (q : Queue) : Queue :=
  let data := Metainfo.marshal ⟨q.name, q.readerOffset, q.writerOffset⟩
  { q with machine := q.machine.mustWriteSync metainfoFilename data }

def closeWriter (q : Queue) : Queue :=
  match q.writer with
  | some w => { q with machine := w.mustClose q.machine, writer := none }
  | none => q

def mustResetFiles (q : Queue) : Outcome Queue := do
  mustHold (q.readerPath = q.writerPath) "BUG: readerPath doesn't match writerPath"
  let q := q.closeWriter
  let m ← q.machine.mustRemovePath q.readerPath
  let path := chunkFilePath 0
  let (w, m) := mustCreate m path
  let r ← mustOpen m path
  return flushMetainfo { q with
    machine := m
    writer := some w, writerPath := path
    writerOffset := 0, writerLocalOffset := 0, writerFlushedOffset := 0
    reader := some r, readerPath := path
    readerOffset := 0, readerLocalOffset := 0 }

def resetIfEmpty (q : Queue) : Outcome Queue :=
  if q.readerOffset ≠ q.writerOffset then .ok q
  else if q.readerOffset < 16 * 1024 * 1024 then .ok q
  else q.mustResetFiles

def getPendingBytes (q : Queue) : Outcome Nat := do
  mustHold (q.readerOffset ≤ q.writerOffset) "BUG: readerOffset cannot exceed writerOffset"
  return q.writerOffset - q.readerOffset

/-- `Queue::must_close`: what is left is the directory. -/
def mustClose (q : Queue) : Machine := (flushMetainfo { q.closeWriter with reader := none }).machine

def checkReaderWriterOffsets (q : Queue) : Except String Unit :=
  ensure (q.readerOffset ≤ q.writerOffset)
    ("readerOffset=" ++ toString q.readerOffset ++ " cannot exceed writerOffset=" ++
      toString q.writerOffset ++
      "; it is likely persistent queue files were corrupted on unclean shutdown")

def flushReaderMetainfoIfNeeded (q : Queue) : Queue :=
  let (t, m) := q.machine.unixTimestamp
  if t = q.lastMetainfoFlushTime then { q with machine := m }
  else { flushMetainfo { q with machine := m } with lastMetainfoFlushTime := t }

def flushWriterMetainfoIfNeeded (q : Queue) : Outcome Queue := do
  let (t, m) := q.machine.unixTimestamp
  if t = q.lastMetainfoFlushTime then return { q with machine := m }
  else do
    let w ← q.writerMut
    let (w, m) := w.mustFlush m
    return { flushMetainfo { q with machine := m, writer := some w } with lastMetainfoFlushTime := t }

/-! ### Writing -/

/-- The offset of the chunk behind an offset: `next_chunk_file_for_read` and
`next_chunk_file_for_write` keep an offset that is at the start of a chunk. -/
def nextChunkOffset (chunkFileSize offset : Nat) : Nat :=
  let n := offset % chunkFileSize
  if n > 0 then offset + (chunkFileSize - n) else offset

def nextChunkFileForWrite (q : Queue) : Queue :=
  let q := q.closeWriter
  let offset := nextChunkOffset q.chunkFileSize q.writerOffset
  let (w, m) := mustCreate q.machine (chunkFilePath offset)
  flushMetainfo { q with
    machine := m
    writer := some w, writerPath := chunkFilePath offset
    writerOffset := offset, writerLocalOffset := 0, writerFlushedOffset := offset }

def write (q : Queue) (buf : Bytes) : Outcome Queue := do
  let w ← q.writerMut
  let (w, m) := w.write q.machine buf
  return { q with
    machine := m, writer := some w
    writerLocalOffset := q.writerLocalOffset + buf.length
    writerOffset := q.writerOffset + buf.length }

/-- The start of `write_block_internal`: a chunk file that may be too short for a block is left. -/
def moveWriter (q : Queue) : Queue :=
  if q.writerLocalOffset + q.maxBlockSize + 8 > q.chunkFileSize then q.nextChunkFileForWrite else q

def writeBlock (q : Queue) (block : Bytes) : Outcome Queue := do
  let q := q.moveWriter
  let q ← q.write (marshalUint64 block.length)
  let q ← q.write block
  q.flushWriterMetainfoIfNeeded

/-! ### Reading -/

def nextChunkFileForRead (q : Queue) : Outcome Queue := do
  let m ← q.machine.mustRemovePath q.readerPath
  let offset := nextChunkOffset q.chunkFileSize q.readerOffset
  let q := { q with machine := m, reader := none, readerOffset := offset }
  q.checkReaderWriterOffsets.mapError .error
  let r ← mustOpen m (chunkFilePath offset)
  return flushMetainfo { q with
    readerLocalOffset := 0, readerPath := chunkFilePath offset, reader := some r }

/-- `Queue::skip_broken_chunk_file`; the answer `false` is the error `EmptyQueue`. -/
def skipBrokenChunkFile (q : Queue) : Outcome (Queue × Bool) := do
  let q := { q with
    readerOffset := q.readerOffset + (q.chunkFileSize - q.readerOffset % q.chunkFileSize) }
  if q.readerOffset ≥ q.writerOffset then do
    let q ← q.mustResetFiles
    return (q, false)
  else do
    let q ← q.nextChunkFileForRead
    return (q, true)

/-- The part of `Queue::read_full_slice` that makes the bytes available that the writer holds back. -/
def flushForRead (q : Queue) (n : Nat) : Outcome Queue :=
  if q.readerOffset + n > q.writerFlushedOffset then do
    let w ← q.writerMut
    let (w, m) := w.mustFlush q.machine
    return { q with machine := m, writer := some w, writerFlushedOffset := q.writerOffset }
  else return q

/-- `Queue::read_full_slice`: the bytes, or why they could not be read. -/
def readFull (q : Queue) (n : Nat) : Outcome (Queue × Except String Bytes) := do
  let q ← q.flushForRead n
  let r ← q.readerMut
  match r.readExact q.machine n with
  | (none, r) => return ({ q with reader := some r }, .error "failed to fill whole buffer")
  | (some buf, r) =>
    let q := { q with
      reader := some r
      readerLocalOffset := q.readerLocalOffset + n
      readerOffset := q.readerOffset + n }
    return (q, q.checkReaderWriterOffsets.map fun _ => buf)

/-- What the loop of `read_block_internal` does with a chunk: the block that it reads, or nothing when
the chunk is broken. -/
def readFrame (q : Queue) : Outcome (Queue × Option Bytes) := do
  let (q, header) ← q.readFull 8
  match header with
  | .error _ => return (q, none)
  | .ok header =>
    let blockLen := unmarshalUint64 header
    if blockLen = 0 then return (q, none)
    else if blockLen > q.maxBlockSize then return (q, none)
    else do
      let (q, body) ← q.readFull blockLen
      match body with
      | .error _ => return (q, none)
      | .ok block => return (q.flushReaderMetainfoIfNeeded, some block)

/-- The loop of `read_block_internal`; no block is the error `EmptyQueue`. -/
def readBlockLoop : Nat → Queue → Outcome (Queue × Option Bytes)
  | 0, _ => .error outOfFuel
  | fuel + 1, q => do
    let (q, block) ← q.readFrame
    match block with
    | some block => return (q, some block)
    | none => do
      let (q, more) ← q.skipBrokenChunkFile
      if more then readBlockLoop fuel q else return (q, none)

/-- The start of `read_block_internal`, as for writing. -/
def moveReader (q : Queue) : Outcome Queue :=
  if q.readerLocalOffset + q.maxBlockSize + 8 > q.chunkFileSize then q.nextChunkFileForRead else .ok q

/-- `Queue::read_block_internal`: every chunk that is skipped moves the reader on, so that the loop
ends before the fuel does. -/
def readBlock (q : Queue) : Outcome (Queue × Option Bytes) := do
  let q ← q.moveReader
  readBlockLoop (q.writerOffset + 1) q

def mustReadBlockNonblocking (q : Queue) : Outcome (Queue × Option Bytes) := do
  mustHold (q.readerOffset ≤ q.writerOffset) "BUG: readerOffset cannot exceed writerOffset"
  if q.readerOffset = q.writerOffset then return (q, none)
  else fatal "" q.readBlock

/-- The loop of `must_write_block` that drops the oldest blocks. -/
def dropOldest (maxPendingBytes : Nat) : Nat → Queue → Outcome Queue
  | 0, _ => .error outOfFuel
  | fuel + 1, q =>
    if q.writerOffset - q.readerOffset > maxPendingBytes then do
      let (q, block) ← fatal "cannot read the oldest block " q.readBlock
      match block with
      | some _ => dropOldest maxPendingBytes fuel q
      | none => return q
    else return q

def mustWriteBlock (q : Queue) (block : Bytes) : Outcome Queue := do
  mustHold (block.length ≤ q.maxBlockSize) "BUG: too big block to send"
  mustHold (q.readerOffset ≤ q.writerOffset) "BUG: readerOffset shouldn't exceed writerOffset"
  if q.maxPendingBytes > 0 then do
    let blockSize := block.length + 8
    -- an underflow is cut off at zero, as in the source
    let q ← q.dropOldest (q.maxPendingBytes - blockSize) (q.writerOffset + 1)
    if blockSize > q.maxPendingBytes then return q else fatal "" (q.writeBlock block)
  else fatal "" (q.writeBlock block)

end Queue

/-! ### Opening -/

inductive MetainfoReadError where
  | notExist
  | other (msg : String)
  deriving DecidableEq, Repr

def readMetainfo (m : Machine) : Except MetainfoReadError Metainfo :=
  match m.files.lookup metainfoFilename with
  | none => .error .notExist
  | some data =>
    match parseMetainfoJson data with
    | .error msg => .error (.other ("cannot unmarshal persistent queue metainfo: " ++ msg))
    | .ok mi =>
      if mi.readerOffset > mi.writerOffset then
        .error (.other ("invalid data read: readerOffset=" ++ toString mi.readerOffset ++
          " cannot exceed writerOffset=" ++ toString mi.writerOffset))
      else .ok mi

def mustCreateFlockFile (m : Machine) : Machine := m.put flockFilename []

/-- The contents of the directory are broken or missing: `try_opening_queue` makes them anew. -/
def createFromScratch (m : Machine) (name : Bytes) : Outcome (Machine × Metainfo) := do
  let m := mustCreateFlockFile m.mustRemoveDirContents
  let mi : Metainfo := ⟨name, 0, 0⟩
  let m := m.mustWriteSync metainfoFilename mi.marshal
  let m ← m.mustWriteAtomic (chunkFilePath 0) []
  return (m, mi)

/-- The file is removed, and the scan of `try_opening_queue` goes on. -/
def removeEntry (q : Queue) (fname : Bytes) : Outcome Queue := do
  let m ← q.machine.mustRemovePath fname
  return { q with machine := m }

/-- The chunk file is tried for reading; the answer `false` ends what the scan does with it. -/
def scanReader (mi : Metainfo) (q : Queue) (fname : Bytes) (offset : Nat) : Outcome (Queue × Bool) :=
  if mi.readerOffset ≥ offset ∧ mi.readerOffset < offset + q.chunkFileSize then do
    mustHold (q.reader = none) "BUG: reader is already initialized"
    let q := { q with
      readerPath := fname
      readerOffset := mi.readerOffset
      readerLocalOffset := mi.readerOffset % q.chunkFileSize }
    let fileSize ← q.machine.mustFileSize fname
    if fileSize < q.readerLocalOffset then do
      let q ← removeEntry q fname
      return (q, false)
    else do
      let r ← openReaderAt q.machine fname q.readerLocalOffset
      return ({ q with reader := some r }, true)
  else .ok (q, true)

/-- The chunk file is tried for writing. A file that is longer than the offset says is opened at the
offset. -/
def scanWriter (mi : Metainfo) (q : Queue) (fname : Bytes) (offset : Nat) : Outcome Queue :=
  if mi.writerOffset ≥ offset ∧ mi.writerOffset < offset + q.chunkFileSize then do
    mustHold (q.writer = none) "BUG: writer is already initialized"
    let q := { q with
      writerPath := fname
      writerOffset := mi.writerOffset
      writerLocalOffset := mi.writerOffset % q.chunkFileSize
      writerFlushedOffset := mi.writerOffset }
    let fileSize ← q.machine.mustFileSize fname
    if fileSize < q.writerLocalOffset then removeEntry q fname
    else
      let (w, m) := openWriterAt q.machine fname q.writerLocalOffset
      return { q with machine := m, writer := some w }
  else .ok q

/-- One file of the directory in the scan of `try_opening_queue`. -/
def scanEntry (mi : Metainfo) (q : Queue) (fname : Bytes) : Outcome Queue :=
  if fname = metainfoFilename then .ok q
  else if fname = flockFilename then .ok q
  else if !isChunkFileName fname then .ok q
  else
    match JsonParser.fromStrRadix16 fname with
    | none => .error (.panic "BUG: cannot parse hex")
    | some offset =>
      -- neither between two chunks, nor from the past, nor from the future
      if offset % q.chunkFileSize ≠ 0 then removeEntry q fname
      else if mi.readerOffset ≥ offset + q.chunkFileSize then removeEntry q fname
      else if mi.writerOffset < offset then removeEntry q fname
      else do
        let (q, more) ← scanReader mi q fname offset
        if more then scanWriter mi q fname offset else return q

/-- The end of `try_opening_queue`: the queue, or the error with the directory it leaves. -/
def checkOpened (q : Queue) : Except (String × Machine) Queue :=
  if q.reader = none then
    .error ("couldn't find chunk file for reading", q.closeWriter.machine)
  else if q.writer = none then
    .error ("couldn't find chunk file for writing", q.closeWriter.machine)
  else if q.readerOffset > q.writerOffset then
    .error ("readerOffset=" ++ toString q.readerOffset ++ " cannot exceed writerOffset=" ++
      toString q.writerOffset, q.closeWriter.machine)
  else .ok q

def unopened (m : Machine) (name : Bytes) (chunkFileSize maxBlockSize maxPendingBytes : Nat) : Queue :=
  { chunkFileSize, maxBlockSize, maxPendingBytes, name
    machine := m
    reader := none, readerPath := [], readerOffset := 0, readerLocalOffset := 0
    writer := none, writerPath := [], writerOffset := 0, writerLocalOffset := 0
    writerFlushedOffset := 0, lastMetainfoFlushTime := 0 }

def tryOpeningQueue (m : Machine) (name : Bytes) (chunkFileSize maxBlockSize maxPendingBytes : Nat) :
    Outcome (Except (String × Machine) Queue) := do
  let m := mustCreateFlockFile m
  let (m, mi) ← match readMetainfo m with
    | .ok mi => .ok (m, mi)
    | .error _ => createFromScratch m name
  let q ← m.mustReadDir.foldlM (scanEntry mi)
    (unopened m name chunkFileSize maxBlockSize maxPendingBytes)
  return checkOpened q

/-- `must_open_internal`: a directory from which the queue cannot be opened is cleaned up. -/
def mustOpenInternal (m : Machine) (name : Bytes)
    (chunkFileSize maxBlockSize maxPendingBytes : Nat) : Outcome Queue := do
  mustHold (8 ≤ chunkFileSize ∧ maxBlockSize ≤ chunkFileSize - 8)
    "BUG: too small chunkFileSize; chunkFileSize must fit at least one block"
  mustHold (maxBlockSize ≠ 0) "BUG: maxBlockSize must be greater than 0"
  match ← tryOpeningQueue m name chunkFileSize maxBlockSize maxPendingBytes with
  | .ok q => return q
  | .error (_, m) =>
    match ← tryOpeningQueue m.mustRemoveDirContents name chunkFileSize maxBlockSize
      maxPendingBytes with
    | .ok q => return q
    | .error (msg, _) => .error (.panic ("FATAL: " ++ msg))

def mustOpen (m : Machine) (name : Bytes) (maxPendingBytes : Int) : Outcome Queue :=
  mustOpenInternal m name defaultChunkFileSize maxBlockSizeDefault (max maxPendingBytes 0).toNat

end EsLogs.PersistentQueue
