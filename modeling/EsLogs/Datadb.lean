import EsLogs.Outcome

/-!
The parts of a partition and their replacement by merges (`datadb.rs`). The lists of parts and the
`isInMerge` flags of the parts are changed under one lock. A merge takes parts by setting their flags,
puts a new part in their place, and clears the flags again. Which parts are worth merging depends on
their sizes; here it is any choice.
-/

namespace EsLogs.Datadb

variable {α : Type}

/-- `PartWrapper`: its address, and what does not change while it is open. The rows stand for the part. -/
structure PartWrapper (α : Type) where
  id : Nat
  isInmemory : Bool
  name : String
  rows : List α
  deriving DecidableEq, Repr

inductive PartType where
  | inmemory
  | small
  | big
  deriving DecidableEq, Repr

structure PartsState (α : Type) where
  inmemoryParts : List (PartWrapper α)
  smallParts : List (PartWrapper α)
  bigParts : List (PartWrapper α)
  deriving DecidableEq, Repr

namespace PartsState

def ofType (ps : PartsState α) : PartType → List (PartWrapper α)
  | .inmemory => ps.inmemoryParts
  | .small => ps.smallParts
  | .big => ps.bigParts

def push (ps : PartsState α) (pw : PartWrapper α) : PartType → PartsState α
  | .inmemory => { ps with inmemoryParts := ps.inmemoryParts ++ [pw] }
  | .small => { ps with smallParts := ps.smallParts ++ [pw] }
  | .big => { ps with bigParts := ps.bigParts ++ [pw] }

def all (ps : PartsState α) : List (PartWrapper α) := ps.bigParts ++ ps.smallParts ++ ps.inmemoryParts

end PartsState

def ids (pws : List (PartWrapper α)) : List Nat := pws.map PartWrapper.id

def partsToMap (pws : List (PartWrapper α)) : Outcome (List Nat) :=
  let m := (ids pws).dedup
  if m.length ≠ pws.length then
    .error (.panic ("BUG: " ++ toString (pws.length - m.length) ++ " duplicate parts found out of " ++
      toString pws.length ++ " parts"))
  else .ok m

/-- `remove_parts`, without the number of parts that are removed. -/
def removeParts (pws : List (PartWrapper α)) (partsToRemove : List Nat) : List (PartWrapper α) :=
  pws.filter fun pw => !partsToRemove.contains pw.id

def getPartNames (pws : List (PartWrapper α)) : List String :=
  ((pws.filter fun pw => !pw.isInmemory).map PartWrapper.name).insertionSort (· ≤ ·)

/-- What `swap_src_with_dst_parts` leaves: the parts, and the names for the parts file if it is written. -/
structure Swap (α : Type) where
  parts : PartsState α
  partNames : Option (List String)

/-- `swap_src_with_dst_parts`, up to the release of the lock. -/
def swapLocked (ps : PartsState α) (partsToRemove : List Nat) (pwNew : Option (PartWrapper α))
    (dst : PartType) : Swap α × Nat :=
  let small := removeParts ps.smallParts partsToRemove
  let big := removeParts ps.bigParts partsToRemove
  let inmemory := removeParts ps.inmemoryParts partsToRemove
  let removedSmall := ps.smallParts.length - small.length
  let removedBig := ps.bigParts.length - big.length
  let removedInmemory := ps.inmemoryParts.length - inmemory.length
  let ps : PartsState α := ⟨inmemory, small, big⟩
  let ps := match pwNew with
    | some pw => ps.push pw dst
    | none => ps
  let partNames :=
    if removedSmall > 0 ∨ removedBig > 0 ∨ (pwNew.isSome ∧ dst ≠ .inmemory) then
      some (getPartNames ps.smallParts ++ getPartNames ps.bigParts)
    else none
  (⟨ps, partNames⟩, removedInmemory + removedSmall + removedBig)

/-- `swap_src_with_dst_parts`, without the references to the parts. -/
def swapSrcWithDstParts (ps : PartsState α) (pws : List (PartWrapper α))
    (pwNew : Option (PartWrapper α)) (dst : PartType) : Outcome (Swap α) := do
  let partsToRemove ← partsToMap pws
  let (swap, removedParts) := swapLocked ps partsToRemove pwNew dst
  if removedParts ≠ partsToRemove.length then
    .error (.panic ("BUG: unexpected number of parts removed; got " ++ toString removedParts ++
      ", want " ++ toString partsToRemove.length))
  else .ok swap

/-! ### The `isInMerge` flags -/

abbrev Flags := Nat → Bool

def Flags.set (flags : Flags) (pws : List (PartWrapper α)) (value : Bool) : Flags := fun id =>
  if (ids pws).contains id then value else flags id

/-- `get_parts_to_merge_locked`: the chosen ones of the parts that are not in merge. -/
def getPartsToMergeLocked (flags : Flags) (chosen : List Nat) (pws : List (PartWrapper α)) :
    List (PartWrapper α) :=
  (pws.filter fun pw => !flags pw.id).filter fun pw => chosen.contains pw.id

def getPartsForOptimalMerge (chosen : List Nat) (pws : List (PartWrapper α)) :
    List (PartWrapper α) × List (PartWrapper α) :=
  let pwsToMerge := pws.filter fun pw => chosen.contains pw.id
  if pwsToMerge.isEmpty then (pws, [])
  else (pwsToMerge, pws.filter fun pw => !(ids pwsToMerge).contains pw.id)

def assertIsInMerge (flags : Flags) (pws : List (PartWrapper α)) : Outcome Unit :=
  if pws.all fun pw => flags pw.id then .ok ()
  else .error (.panic "BUG: partWrapper.isInMerge unexpectedly set to false")

def releasePartsToMerge : Flags → List (PartWrapper α) → Outcome Flags
  | flags, [] => .ok flags
  | flags, pw :: pws =>
    if flags pw.id then releasePartsToMerge (Function.update flags pw.id false) pws
    else .error (.panic ("BUG: missing isInMerge flag on the part " ++ pw.name))

/-! ### Threads -/

inductive Thread (α : Type) where
  /-- `must_merge_parts_to_files` and `must_force_merge_all_parts`: the parts that are taken and not
  handed to a merge yet. -/
  | grouping (pws : List (PartWrapper α)) (isFinal : Bool)
  /-- `delete_rows`: the parts that are not looked at yet, and the parts that are taken. -/
  | deleting (pso : α → Bool) (pws pwsToMerge : List (PartWrapper α)) (needRepeat : Bool)
  /-- `must_merge_parts_internal`, up to the swap. -/
  | merging (pws : List (PartWrapper α)) (isFinal : Bool) (dropFilter : Option (α → Bool))
  /-- The parts of a merge that has come to its end. -/
  | releasing (pws : List (PartWrapper α))

/-- The database, with the rows that were added to it and the rows that were deleted. -/
structure Db (α : Type) where
  parts : PartsState α
  isInMerge : Flags
  nextId : Nat
  threads : Nat → Option (Thread α)
  added : List α
  deleted : List α

namespace Db

def init : Db α where
  parts := ⟨[], [], []⟩
  isInMerge := fun _ => false
  nextId := 0
  threads := fun _ => none
  added := []
  deleted := []

def setThread (s : Db α) (t : Nat) (th : Option (Thread α)) : Db α :=
  { s with threads := Function.update s.threads t th }

def take (s : Db α) (pws : List (PartWrapper α)) : Db α :=
  { s with isInMerge := s.isInMerge.set pws true }

/-- The beginning of `must_merge_parts_internal`. -/
def startMerge (s : Db α) (t : Nat) (pws : List (PartWrapper α)) (isFinal : Bool)
    (dropFilter : Option (α → Bool)) : Outcome (Db α) :=
  if pws.isEmpty then .ok (s.setThread t none)
  else do
    assertIsInMerge s.isInMerge pws
    return s.setThread t (some (.merging pws isFinal dropFilter))

/-- The rows of a merge that stay, and those that are dropped. -/
def keptRows (pws : List (PartWrapper α)) (dropFilter : Option (α → Bool)) : List α × List α :=
  let rows := pws.flatMap PartWrapper.rows
  match dropFilter with
  | some p => (rows.filter fun r => !p r, rows.filter p)
  | none => (rows, [])

/-- The types that `get_dst_part_type` can return. -/
def canBeDst (pws : List (PartWrapper α)) (isFinal : Bool) (dst : PartType) : Bool :=
  dst ≠ .inmemory || (!isFinal && pws.all fun pw => pw.isInmemory)

end Db

/-- What can happen next, with the choices that are left open. -/
inductive Event (α : Type) where
  /-- `must_flush_log_rows`. -/
  | flushLogRows (rows : List α)
  /-- A background merger takes parts of a type. -/
  | mergeParts (t : Nat) (type : PartType) (chosen : List Nat)
  /-- `must_flush_inmemory_parts_to_files`. -/
  | flushInmemoryParts (t : Nat) (chosen : List Nat)
  /-- `must_force_merge_all_parts`. -/
  | forceMergeAllParts (t : Nat)
  /-- The next group of taken parts is handed to a thread of its own. -/
  | spawnMerge (t t' : Nat) (chosen : List Nat)
  /-- `delete_rows` gets the parts of its time range. -/
  | deleteRows (t : Nat) (pso : α → Bool) (chosen : List Nat)
  /-- `delete_rows` looks at the next part, or merges the parts it has taken. -/
  | deleteNext (t : Nat) (stopped : Bool)
  /-- A merge swaps its parts. -/
  | swap (t : Nat) (dst : PartType) (name : String)
  /-- A merge is stopped, or there is not enough disk space for it. -/
  | giveUp (t : Nat)
  /-- The parts of a merge are released. -/
  | release (t : Nat)

namespace Db

/-- The next step of `delete_rows`; the part is searched without the lock. -/
def deleteStep (s : Db α) (t : Nat) (pso : α → Bool) (pws pwsToMerge : List (PartWrapper α))
    (needRepeat stopped : Bool) : Outcome (Db α) :=
  match pws with
  | [] => s.startMerge t pwsToMerge false (some pso)
  | pw :: pws =>
    if stopped || !pw.rows.any pso then
      .ok (s.setThread t (some (.deleting pso pws pwsToMerge needRepeat)))
    else if !s.isInMerge pw.id then
      .ok ((s.take [pw]).setThread t (some (.deleting pso pws (pwsToMerge ++ [pw]) needRepeat)))
    else .ok (s.setThread t (some (.deleting pso pws pwsToMerge true)))

/-- The swap of a merge; an empty part is not kept. -/
def swapStep (s : Db α) (t : Nat) (pws : List (PartWrapper α)) (dropFilter : Option (α → Bool))
    (dst : PartType) (name : String) : Outcome (Db α) := do
  let (kept, dropped) := keptRows pws dropFilter
  let pwNew : Option (PartWrapper α) :=
    if kept.isEmpty then none else some ⟨s.nextId, dst == .inmemory, name, kept⟩
  let swap ← swapSrcWithDstParts s.parts pws pwNew dst
  return { s with
    parts := swap.parts
    isInMerge := Function.update s.isInMerge s.nextId false
    nextId := s.nextId + 1
    threads := Function.update s.threads t (some (.releasing pws))
    deleted := s.deleted ++ dropped }

def step (s : Db α) : Event α → Option (Outcome (Db α))
  | .flushLogRows rows =>
    some (.ok { s with
      parts := s.parts.push ⟨s.nextId, true, "", rows⟩ .inmemory
      isInMerge := Function.update s.isInMerge s.nextId false
      nextId := s.nextId + 1
      added := s.added ++ rows })
  | .mergeParts t type chosen =>
    match s.threads t with
    | some _ => none
    | none =>
      let pws := getPartsToMergeLocked s.isInMerge chosen (s.parts.ofType type)
      some ((s.take pws).startMerge t pws false none)
  | .flushInmemoryParts t chosen =>
    match s.threads t with
    | some _ => none
    | none =>
      let pws := getPartsToMergeLocked s.isInMerge chosen s.parts.inmemoryParts
      some (.ok ((s.take pws).setThread t (some (.grouping pws true))))
  | .forceMergeAllParts t =>
    match s.threads t with
    | some _ => none
    | none =>
      let pws := (s.parts.smallParts ++ s.parts.bigParts).filter fun pw => !s.isInMerge pw.id
      some (.ok ((s.take pws).setThread t (some (.grouping pws false))))
  | .spawnMerge t t' chosen =>
    match s.threads t, s.threads t' with
    | some (.grouping [] _), _ => some (.ok (s.setThread t none))
    | some (.grouping pws isFinal), none =>
      let (pwsToMerge, pwsRemaining) := getPartsForOptimalMerge chosen pws
      some ((s.setThread t (some (.grouping pwsRemaining isFinal))).startMerge t' pwsToMerge isFinal
        none)
    | _, _ => none
  | .deleteRows t pso chosen =>
    match s.threads t with
    | some _ => none
    | none =>
      let pws := s.parts.all.filter fun pw => chosen.contains pw.id
      some (.ok (s.setThread t (some (.deleting pso pws [] false))))
  | .deleteNext t stopped =>
    match s.threads t with
    | some (.deleting pso pws pwsToMerge needRepeat) =>
      some (s.deleteStep t pso pws pwsToMerge needRepeat stopped)
    | _ => none
  | .swap t dst name =>
    match s.threads t with
    | some (.merging pws isFinal dropFilter) =>
      if canBeDst pws isFinal dst then some (s.swapStep t pws dropFilter dst name) else none
    | _ => none
  | .giveUp t =>
    match s.threads t with
    | some (.merging pws false _) => some (.ok (s.setThread t (some (.releasing pws))))
    | _ => none
  | .release t =>
    match s.threads t with
    | some (.releasing pws) =>
      some do
        let flags ← releasePartsToMerge s.isInMerge pws
        return { s with isInMerge := flags }.setThread t none
    | _ => none

end Db

end EsLogs.Datadb
