import EsLogs.PersistentQueue

/-!
The queue that prefers memory (`FastQueue` of `persistentqueue.rs`). Blocks go through a bounded list in
memory while the queue on disk is empty; when the list is full or is not read for a while, its blocks are
moved to disk, and further blocks follow them there until the disk is read empty. Every method holds the
lock from its start to its end, or to the point where a reader goes to sleep, so that what concurrent
callers do is a sequence of the operations below.
-/

namespace EsLogs.PersistentQueue

open FileStream

structure FastQueue where
  pq : Queue
  ch : List Bytes
  chCap : Nat
  pendingInmemoryBytes : Nat
  lastInmemoryBlockReadTime : Nat
  stopDeadline : Nat
  isPqDisabled : Bool

namespace FastQueue

def unixTimestamp (fq : FastQueue) : Nat × FastQueue :=
  let (t, m) := fq.pq.machine.unixTimestamp
  (t, { fq with pq := { fq.pq with machine := m } })

def mustOpenFastQueue (m : Machine) (name : Bytes) (maxInmemoryBlocks : Nat) (maxPendingBytes : Int)
    (isPqDisabled : Bool) : Outcome FastQueue := do
  let pq ← mustOpen m name maxPendingBytes
  let fq : FastQueue := ⟨pq, [], maxInmemoryBlocks, 0, 0, 0, isPqDisabled⟩
  let (t, fq) := fq.unixTimestamp
  return { fq with lastInmemoryBlockReadTime := t }

def unblockAllReaders (fq : FastQueue) : FastQueue :=
  let (t, fq) := fq.unixTimestamp
  { fq with stopDeadline := t + 5 }

/-- The loop of `FastQueue::flush_inmemory_blocks_to_file_locked` over the blocks in memory. -/
def flushBlocks : List Bytes → FastQueue → Outcome FastQueue
  | [], fq => .ok { fq with ch := [] }
  | bb :: ch, fq => do
    let pq ← fq.pq.mustWriteBlock bb
    let fq := { fq with pq := pq, pendingInmemoryBytes := fq.pendingInmemoryBytes - bb.length }
    let (t, fq) := fq.unixTimestamp
    flushBlocks ch { fq with lastInmemoryBlockReadTime := t }

def flushInmemoryBlocksToFileLocked (fq : FastQueue) : Outcome FastQueue := flushBlocks fq.ch fq

def flushInmemoryBlocksToFileIfNeededLocked (fq : FastQueue) : Outcome FastQueue :=
  if fq.ch = [] ∨ fq.isPqDisabled then .ok fq
  else
    let (t, fq) := fq.unixTimestamp
    if t < fq.lastInmemoryBlockReadTime + 5 then .ok fq else fq.flushInmemoryBlocksToFileLocked

/-- `FastQueue::must_close`: what is left is the directory. -/
def mustClose (fq : FastQueue) : Outcome Machine := do
  let fq ← fq.unblockAllReaders.flushInmemoryBlocksToFileLocked
  return fq.pq.mustClose

/-- `FastQueue::try_write_block_internal` after the flush that may be needed. -/
def writeFlushed (fq : FastQueue) (block : Bytes) (isPqWriteAllowed : Bool) :
    Outcome (FastQueue × Bool) := do
  let n ← fq.pq.getPendingBytes
  if n > 0 then do
    mustHold (fq.ch = [])
      "BUG: the in-memory queue must be empty when the file-based queue is non-empty"
    if !isPqWriteAllowed then return (fq, false)
    else do
      let pq ← fq.pq.mustWriteBlock block
      return ({ fq with pq := pq }, true)
  else if fq.ch.length = fq.chCap then
    if !isPqWriteAllowed then return (fq, false)
    else do
      let fq ← fq.flushInmemoryBlocksToFileLocked
      let pq ← fq.pq.mustWriteBlock block
      return ({ fq with pq := pq }, true)
  else
    return ({ fq with
      ch := fq.ch ++ [block]
      pendingInmemoryBytes := fq.pendingInmemoryBytes + block.length }, true)

def tryWriteBlockInternal (fq : FastQueue) (block : Bytes) (ignoreDisabledPq : Bool) :
    Outcome (FastQueue × Bool) := do
  let fq' ← fq.flushInmemoryBlocksToFileIfNeededLocked
  fq'.writeFlushed block (!fq.isPqDisabled || ignoreDisabledPq)

def tryWriteBlock (fq : FastQueue) (block : Bytes) : Outcome (FastQueue × Bool) :=
  fq.tryWriteBlockInternal block false

def mustWriteBlockIgnoreDisabledPq (fq : FastQueue) (block : Bytes) : Outcome FastQueue := do
  let (fq, ok) ← fq.tryWriteBlockInternal block true
  mustHold (ok = true) "BUG: tryWriteBlock must always write data even if persistence is disabled"
  return fq

def mustReadInMemoryBlockLocked (fq : FastQueue) : Outcome (FastQueue × Bytes) :=
  match fq.ch with
  | [] => .error (.panic ("BUG: the function must not be called when in-memory queue is empty. " ++
      "Caller should verify the queue len upfront"))
  | bb :: ch => do
    let n ← fq.pq.getPendingBytes
    mustHold (n = 0)
      "BUG: the file-based queue must be empty when the in-memory queue is non-empty"
    let fq := { fq with ch := ch, pendingInmemoryBytes := fq.pendingInmemoryBytes - bb.length }
    let (t, fq) := fq.unixTimestamp
    return ({ fq with lastInmemoryBlockReadTime := t }, bb)

def mustReadInMemoryBlock (fq : FastQueue) : Outcome (FastQueue × Option Bytes) :=
  if fq.ch ≠ [] then do
    let (fq, bb) ← fq.mustReadInMemoryBlockLocked
    return (fq, some bb)
  else .ok (fq, none)

/-- How a pass through the loop of `FastQueue::must_read_block` ends. -/
inductive ReadResult where
  | block (bb : Bytes)
  | stopped
  | waiting
  deriving DecidableEq, Repr

/-- The test of the stop deadline; the clock is looked at only when there is one. -/
def pastDeadline (fq : FastQueue) : FastQueue × Bool :=
  if fq.stopDeadline > 0 then
    let (t, fq) := fq.unixTimestamp
    (fq, decide (t > fq.stopDeadline))
  else (fq, false)

/-- The loop of `FastQueue::must_read_block`, up to the point where the caller gets a result or goes to
sleep; a reader that wakes up goes through it again. -/
def mustReadBlockLoop : Nat → FastQueue → Outcome (FastQueue × ReadResult)
  | 0, _ => .error outOfFuel
  | fuel + 1, fq => do
    let (fq, past) := fq.pastDeadline
    if past then return (fq, .stopped)
    else if fq.ch ≠ [] then do
      let (fq, bb) ← fq.mustReadInMemoryBlockLocked
      return (fq, .block bb)
    else do
      let n ← fq.pq.getPendingBytes
      if n > 0 then do
        let (pq, block) ← fq.pq.mustReadBlockNonblocking
        match block with
        | some bb => return ({ fq with pq := pq }, .block bb)
        | none => mustReadBlockLoop fuel { fq with pq := pq }
      else if fq.stopDeadline > 0 then return (fq, .stopped)
      else do
        let pq ← fq.pq.resetIfEmpty
        return ({ fq with pq := pq }, .waiting)

/-- `FastQueue::must_read_block`: the loop goes on only after the file-based queue dropped what it
had, which empties it. -/
def mustReadBlock (fq : FastQueue) : Outcome (FastQueue × ReadResult) := mustReadBlockLoop 2 fq

end FastQueue

end EsLogs.PersistentQueue
