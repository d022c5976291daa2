import EsLogs.BlockHeader
import EsLogs.VarInts

/-! The sender of rows to the storage nodes of a cluster (`netinsert.rs`). The rows for a node are
collected in its pending buffer; full or old buffers are exchanged for empty ones of a pool and sent as
blocks, by whichever thread has taken them. A block that its node does not take is offered to all the
nodes, round after round. Threads are interleaved arbitrarily; what happens under the lock of a pending
buffer is one step. -/

namespace EsLogs.NetInsert

open Encoding

def maxInsertBlockSize : Nat := 2 * 1024 * 1024

structure InsertRow where
  tenantId : TenantID
  streamTagsCanonical : Bytes
  timestamp : Int64
  fields : List Field
  deriving DecidableEq

def InsertRow.marshal (r : InsertRow) : Bytes :=
  r.tenantId.marshal ++ (marshalBytes r.streamTagsCanonical ++
    (marshalUint64 r.timestamp.toUInt64.toNat ++
      (marshalVarUint64 r.fields.length ++ r.fields.flatMap fun f => f.marshal true)))

/-- A call of `add_row`. Rows may be equal, so calls have numbers. -/
structure Call where
  number : Nat
  row : InsertRow
  deriving DecidableEq

def Call.fits (c : Call) : Bool := c.row.marshal.length ≤ maxInsertBlockSize

/-- A `ByteBuffer`, together with the calls whose rows were written to it. The latter are not known to
the program, and nothing depends on them. -/
structure Buffer where
  data : Bytes
  rows : List Call
  deriving DecidableEq

def Buffer.empty : Buffer := ⟨[], []⟩

/-- `ByteBuffer::must_write` with the row of a call. -/
def Buffer.mustWrite (b : Buffer) (c : Call) : Buffer := ⟨b.data ++ c.row.marshal, b.rows ++ [c]⟩

/-- How a request ends: there is no authorization header for it, it cannot be sent or is not answered,
or it is answered. -/
inductive Reply where
  | authError
  | ioError
  | response (statusCode : Nat)
  deriving DecidableEq

/-- Why a node does not take a block: it was disabled when the time was `now`, or the request failed. -/
inductive Refusal where
  | temporarilyDisabled (disabledUntil now : Nat)
  | other (reply : Reply)
  deriving DecidableEq

structure Node where
  pending : Buffer
  disabledUntil : Nat
  sendErrors : Nat
  isReachable : Bool

def Node.setDisableTemporarily (nd : Node) (now : Nat) : Node :=
  { nd with
    disabledUntil := now + 10
    sendErrors := nd.sendErrors + 1
    isReachable := false }

/-- `StorageNode::do_request`: why it fails, if it does. -/
def Node.doRequest (nd : Node) (reply : Reply) (now : Nat) : Option Refusal × Node :=
  match reply with
  | .authError => (some (.other reply), { nd with sendErrors := nd.sendErrors + 1 })
  | .ioError => (some (.other reply), nd.setDisableTemporarily now)
  | .response statusCode =>
    if statusCode / 100 = 2 then (none, { nd with isReachable := true })
    else (some (.other reply), nd.setDisableTemporarily now)

/-- What `send_insert_request` comes to before it makes a request. -/
inductive Attempt where
  | nothingToSend
  | refused (refusal : Refusal)
  | post

/-- `StorageNode::send_insert_request` up to the request. -/
def Node.sendInsertRequest (nd : Node) (pendingData : Buffer) (now : Nat) : Attempt × Node :=
  if pendingData.data.length = 0 then (.nothingToSend, nd)
  else if nd.disabledUntil > now then
    (.refused (.temporarilyDisabled nd.disabledUntil now), { nd with sendErrors := nd.sendErrors + 1 })
  else (.post, nd)

/-- Which call of `send_insert_request` a thread is in: the first one of `must_send_insert_request`, or
the one of round `i` in `send_insert_request_to_any_node`, after the refusals of the rounds before. -/
inductive Target where
  | own (node : Nat)
  | any (startIdx i : Nat) (refusals : List (Nat × Refusal))
  deriving DecidableEq

def Target.node (n : Nat) : Target → Nat
  | own node => node
  | any startIdx i _ => (startIdx + i) % n

inductive Task where
  /-- In `add_row`, before the lock of the pending buffer. -/
  | adding (node : Nat) (call : Call)
  | sending (block : Buffer) (target : Target)
  /-- The request is on its way. -/
  | posted (block : Buffer) (target : Target)
  /-- At the begin of `send_insert_request_to_any_node`. -/
  | rerouting (block : Buffer)
  /-- All nodes have refused; in `wait_timeout`. -/
  | waiting (block : Buffer) (refusals : List (Nat × Refusal))
  /-- The buffer is about to be reset and to be put back to the pool. -/
  | releasing (block : Buffer)
  deriving DecidableEq

/-- What follows when the target does not take the block. -/
def Target.refused (n : Nat) (block : Buffer) (refusal : Refusal) : Target → Task
  | own _ => .rerouting block
  | any startIdx i refusals =>
    let refusals := refusals ++ [((startIdx + i) % n, refusal)]
    if i + 1 < n then .sending block (.any startIdx (i + 1) refusals) else .waiting block refusals

structure Delivery where
  node : Nat
  body : Bytes
  block : Buffer

/-- A block that was dropped, with the answers of the last round. -/
structure Discard where
  block : Buffer
  refusals : List (Nat × Refusal)

/-- The fields of `Storage` and of its nodes, the threads, and what has happened so far. -/
structure State where
  nodes : List Node
  pendingDataBuffers : List Buffer
  stopped : Bool
  tasks : List Task
  calls : List Call
  delivered : List Delivery
  discarded : List Discard

structure Config where
  zstd : ZstdLevels
  disableCompression : Bool

def Config.body (cfg : Config) (pendingData : Buffer) : Bytes :=
  if !cfg.disableCompression then cfg.zstd.compressLevel 1 pendingData.data else pendingData.data

/-- The threads are addressed by their positions in `tasks`. The readings of the clocks are arbitrary. -/
inductive Event where
  /-- `add_row` up to the lock. -/
  | addRow (node : Nat) (row : InsertRow)
  /-- What `add_row` does under the lock. -/
  | writePending (task : Nat)
  /-- `flush_pending_data` up to the sending, `elapsed` milliseconds after the last flush. -/
  | flushPendingData (node : Nat) (force : Bool) (elapsed : Nat)
  /-- The request of `debug_flush` that makes the received rows searchable. -/
  | forceFlush (node : Nat) (reply : Reply) (now : Nat)
  | send (task now : Nat)
  | reply (task : Nat) (reply : Reply) (now : Nat)
  /-- `fastrand_uint32n` gives the first index. -/
  | chooseStart (task random : Nat)
  /-- `wait_timeout` returns. -/
  | wakeUp (task : Nat)
  | putBuffer (task : Nat)
  /-- `must_stop`. -/
  | mustStop

namespace State

def setTask (s : State) (i : Nat) (t : Task) : State := { s with tasks := s.tasks.set i t }

def setNode (s : State) (node : Nat) (nd : Node) : State := { s with nodes := s.nodes.set node nd }

def addRow (s : State) (node : Nat) (row : InsertRow) : State :=
  let call : Call := ⟨s.calls.length, row⟩
  -- "skipping too long log entry"
  if call.row.marshal.length > maxInsertBlockSize then { s with calls := s.calls ++ [call] }
  else { s with calls := s.calls ++ [call], tasks := s.tasks ++ [.adding node call] }

/-- `grab_pending_data_for_flush_locked`, where the new buffer gets the given content. There is no such
step while the pool is empty. -/
def grabPendingData (s : State) (node : Nat) (nd : Node) (write : Buffer → Buffer) :
    Option (Buffer × State) :=
  match s.pendingDataBuffers with
  | [] => none
  | fresh :: buffers => some (nd.pending,
      { s.setNode node { nd with pending := write fresh } with pendingDataBuffers := buffers })

def writePending (s : State) (i node : Nat) (nd : Node) (call : Call) : Option State :=
  if nd.pending.data.length + call.row.marshal.length > maxInsertBlockSize then
    (s.grabPendingData node nd fun fresh => fresh.mustWrite call).map fun (pendingData, s) =>
      s.setTask i (.sending pendingData (.own node))
  else
    let s := s.setNode node { nd with pending := nd.pending.mustWrite call }
    some { s with tasks := s.tasks.eraseIdx i }

def flushPendingData (s : State) (node : Nat) (nd : Node) (force : Bool) (elapsed : Nat) :
    Option State :=
  if !force && elapsed < 1000 then some s
  else (s.grabPendingData node nd id).map fun (pendingData, s) =>
    { s with tasks := s.tasks ++ [.sending pendingData (.own node)] }

def send (s : State) (i : Nat) (block : Buffer) (target : Target) (nd : Node) (now : Nat) : State :=
  let (attempt, nd) := nd.sendInsertRequest block now
  let s := s.setNode (target.node s.nodes.length) nd
  match attempt with
  | .nothingToSend => s.setTask i (.releasing block)
  | .refused refusal => s.setTask i (target.refused s.nodes.length block refusal)
  | .post => s.setTask i (.posted block target)

def reply (cfg : Config) (s : State) (i : Nat) (block : Buffer) (target : Target) (nd : Node)
    (reply : Reply) (now : Nat) : State :=
  let (refusal, nd) := nd.doRequest reply now
  let s := s.setNode (target.node s.nodes.length) nd
  match refusal with
  | some refusal => s.setTask i (target.refused s.nodes.length block refusal)
  | none =>
    { s.setTask i (.releasing block) with
      delivered := s.delivered ++ [⟨target.node s.nodes.length, cfg.body block, block⟩] }

/-- "dropping ... bytes of data, since there are no available storage nodes", or another round. -/
def wakeUp (s : State) (i : Nat) (block : Buffer) (refusals : List (Nat × Refusal)) : State :=
  if s.stopped then
    { s.setTask i (.releasing block) with discarded := s.discarded ++ [⟨block, refusals⟩] }
  else s.setTask i (.rerouting block)

def next (cfg : Config) (s : State) : Event → Option State
  | .addRow node row => if node < s.nodes.length then some (s.addRow node row) else none
  | .writePending i =>
    match s.tasks[i]? with
    | some (.adding node call) => do s.writePending i node (← s.nodes[node]?) call
    | _ => none
  | .flushPendingData node force elapsed => do
    s.flushPendingData node (← s.nodes[node]?) force elapsed
  | .forceFlush node reply now => do
    let nd ← s.nodes[node]?
    some (s.setNode node (nd.doRequest reply now).2)
  | .send i now =>
    match s.tasks[i]? with
    | some (.sending block target) => do
      let nd ← s.nodes[target.node s.nodes.length]?
      some (s.send i block target nd now)
    | _ => none
  | .reply i reply now =>
    match s.tasks[i]? with
    | some (.posted block target) => do
      let nd ← s.nodes[target.node s.nodes.length]?
      some (s.reply cfg i block target nd reply now)
    | _ => none
  | .chooseStart i random =>
    match s.tasks[i]? with
    | some (.rerouting block) =>
      some (s.setTask i (.sending block (.any (random % s.nodes.length) 0 [])))
    | _ => none
  | .wakeUp i =>
    match s.tasks[i]? with
    | some (.waiting block refusals) => some (s.wakeUp i block refusals)
    | _ => none
  | .putBuffer i =>
    match s.tasks[i]? with
    | some (.releasing _) => some { s with
        tasks := s.tasks.eraseIdx i
        pendingDataBuffers := Buffer.empty :: s.pendingDataBuffers }
    | _ => none
  | .mustStop => some { s with stopped := true }

/-- No step panics. -/
def step (cfg : Config) (s : State) (e : Event) : Option (Except Empty State) :=
  (s.next cfg e).map .ok

def newStorage (nodesCount concurrency : Nat) : State where
  nodes := List.replicate nodesCount ⟨.empty, 0, 0, true⟩
  pendingDataBuffers := List.replicate (concurrency * nodesCount) .empty
  stopped := false
  tasks := []
  calls := []
  delivered := []
  discarded := []

end State

def Task.unwritten : Task → List Call
  | adding _ call => [call]
  | sending .. | posted .. | rerouting _ | waiting .. | releasing _ => []

def Task.inFlight : Task → List Buffer
  | sending block _ | posted block _ | rerouting block | waiting block _ => [block]
  | adding .. | releasing _ => []

/-- The node has refused for a reason: it was disabled, or it did not answer with success. -/
def Refusal.Justified : Refusal → Prop
  | temporarilyDisabled disabledUntil now => now < disabledUntil
  | other (.response statusCode) => statusCode / 100 ≠ 2
  | other .authError | other .ioError => True

namespace State

/-- The buffers that have rows to be kept: the pending ones, the blocks in flight and those that are
out of the hands of the sender. -/
def pending (s : State) : List Buffer := s.nodes.map Node.pending
def inFlight (s : State) : List Buffer := s.tasks.flatMap Task.inFlight
def deliveredBlocks (s : State) : List Buffer := s.delivered.map Delivery.block
def discardedBlocks (s : State) : List Buffer := s.discarded.map Discard.block
def unwritten (s : State) : List Call := s.tasks.flatMap Task.unwritten

def blocks (s : State) : List Buffer :=
  s.pending ++ s.inFlight ++ s.deliveredBlocks ++ s.discardedBlocks

/-- What the sender promises. -/
structure Conserves (cfg : Config) (s : State) : Prop where
  /-- Each call with a row within the limit has its row in one place: it has not been written yet, or it
  is in a pending buffer, or in a block in flight, delivered or discarded. -/
  distinct : s.calls.Nodup
  oncePlaced : (s.unwritten ++ s.blocks.flatMap Buffer.rows).Perm (s.calls.filter Call.fits)
  /-- Blocks consist of whole rows. -/
  whole : ∀ b ∈ s.blocks, b.data = b.rows.flatMap fun c => c.row.marshal
  bounded : ∀ b ∈ s.blocks, b.data.length ≤ maxInsertBlockSize
  /-- A delivery has brought its block, and nothing else, to a node. -/
  delivered : ∀ d ∈ s.delivered, d.node < s.nodes.length ∧ d.body = cfg.body d.block
  /-- A block is discarded only after the stop, and every node has refused it before. -/
  discarded : ∀ d ∈ s.discarded, s.stopped = true ∧
    ∀ node < s.nodes.length, ∃ refusal, (node, refusal) ∈ d.refusals ∧ refusal.Justified

end State

end EsLogs.NetInsert
