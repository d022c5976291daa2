import EsLogs.Datadb
import EsLogs.Ownership
import EsLogs.Runs

/-!
Interleavings of flushes, merges and deletions. A thread owns the parts it has taken until it releases
them. All threads but `delete_rows` take parts from the lists of registered parts, under the lock.
`delete_rows` takes them from a list that it has read before: a part in this list can have been merged and
released in between. The runs in which this does not happen are the ones in which every part that is taken
stays registered up to its swap.
-/

namespace EsLogs.Datadb

open Ownership Runs List

variable {α : Type}

variable {pws : List (PartWrapper α)} {s : Db α} {pw : PartWrapper α} (ps : PartsState α)

/-! ### Lists of parts -/

theorem perm_append_right_comm {β : Type} (a b c : List β) : (a ++ b ++ c).Perm (a ++ c ++ b) := by
  rw [append_assoc, append_assoc]
  exact perm_append_comm.append_left a

theorem PartsState.all_push (pw : PartWrapper α) (type : PartType) : (ps.push pw type).all.Perm (ps.all ++ [pw]) := by
  cases type with
  | inmemory =>
    simp only [PartsState.push, PartsState.all, append_assoc]
    exact List.Perm.refl _
  | small =>
    have h := perm_append_right_comm (ps.bigParts ++ ps.smallParts) [pw] ps.inmemoryParts
    simpa only [PartsState.push, PartsState.all, append_assoc] using h
  | big =>
    have h := perm_append_right_comm ps.bigParts [pw] (ps.smallParts ++ ps.inmemoryParts)
    simpa only [PartsState.push, PartsState.all, append_assoc] using h

def PartsState.without (ps : PartsState α) (partsToRemove : List Nat) : PartsState α :=
  ⟨removeParts ps.inmemoryParts partsToRemove, removeParts ps.smallParts partsToRemove,
    removeParts ps.bigParts partsToRemove⟩

theorem PartsState.all_without (partsToRemove : List Nat) :
    (ps.without partsToRemove).all = removeParts ps.all partsToRemove := by
  simp only [PartsState.without, PartsState.all, removeParts, filter_append]

def PartsState.swapped (ps : PartsState α) (partsToRemove : List Nat) (pwNew : Option (PartWrapper α))
    (dst : PartType) : PartsState α :=
  match pwNew with
  | some pw => (ps.without partsToRemove).push pw dst
  | none => ps.without partsToRemove

theorem PartsState.all_swapped (partsToRemove : List Nat) (pwNew : Option (PartWrapper α)) (dst : PartType) :
    (ps.swapped partsToRemove pwNew dst).all.Perm (removeParts ps.all partsToRemove ++ pwNew.toList) := by
  rw [← ps.all_without]
  cases pwNew with
  | none =>
    rw [PartsState.swapped, Option.toList_none, append_nil]
  | some pw => exact PartsState.all_push _ pw dst

section Registered

variable {all pws : List (PartWrapper α)}

/-- The registered parts with the addresses of some of them are these. -/
theorem filter_ids_perm (hall : (ids all).Nodup) (hsub : ∀ pw ∈ pws, pw ∈ all)
    (hpws : (ids pws).Nodup) : (all.filter fun pw => (ids pws).contains pw.id).Perm pws := by
  apply (perm_ext_iff_of_nodup (hall.of_map.filter _) hpws.of_map).2
  intro pw
  rw [mem_filter, contains_iff_mem]
  constructor
  · rintro ⟨hpw, hid⟩
    obtain ⟨pw', hpw', heq⟩ := mem_map.1 hid
    exact inj_on_of_nodup_map hall (hsub pw' hpw') hpw heq ▸ hpw'
  · intro hpw
    exact ⟨hsub pw hpw, mem_map_of_mem hpw⟩

theorem length_removeParts_add (all : List (PartWrapper α)) (partsToRemove : List Nat) :
    (removeParts all partsToRemove).length +
      (all.filter fun pw => partsToRemove.contains pw.id).length = all.length := by
  have h := (filter_append_perm (fun pw => partsToRemove.contains pw.id) all).length_eq
  rw [length_append, Nat.add_comm] at h
  exact h

theorem rows_removeParts_perm (hall : (ids all).Nodup) (hsub : ∀ pw ∈ pws, pw ∈ all)
    (hpws : (ids pws).Nodup) :
    ((removeParts all (ids pws)).flatMap PartWrapper.rows ++ pws.flatMap PartWrapper.rows).Perm
      (all.flatMap PartWrapper.rows) := by
  have hsplit := filter_append_perm (fun pw => (ids pws).contains pw.id) all
  have hflat := (perm_append_comm.trans hsplit).flatMap_right PartWrapper.rows
  rw [flatMap_append] at hflat
  have hrows := (filter_ids_perm hall hsub hpws).flatMap_right PartWrapper.rows
  exact (hrows.symm.append_left _).trans hflat

/-- Parts that are registered are swapped. -/
theorem swapSrcWithDstParts_eq_ok {ps : PartsState α} (hall : (ids ps.all).Nodup)
    (hsub : ∀ pw ∈ pws, pw ∈ ps.all) (hpws : (ids pws).Nodup) (pwNew : Option (PartWrapper α))
    (dst : PartType) :
    ∃ partNames, swapSrcWithDstParts ps pws pwNew dst =
      .ok ⟨ps.swapped (ids pws) pwNew dst, partNames⟩ := by
  have hmap : partsToMap pws = .ok (ids pws) := by
    rw [partsToMap, hpws.dedup, ids, length_map, if_neg (not_not.2 rfl)]
  have hcount : (swapLocked ps (ids pws) pwNew dst).2 = (ids pws).length := by
    have h1 := length_removeParts_add ps.smallParts (ids pws)
    have h2 := length_removeParts_add ps.bigParts (ids pws)
    have h3 := length_removeParts_add ps.inmemoryParts (ids pws)
    have hperm := (filter_ids_perm hall hsub hpws).length_eq
    rw [PartsState.all, filter_append, filter_append, length_append,
      length_append] at hperm
    rw [ids, length_map] at *
    simp only [swapLocked]
    omega
  have hparts : (swapLocked ps (ids pws) pwNew dst).1.parts = ps.swapped (ids pws) pwNew dst := by
    cases pwNew <;> rfl
  refine ⟨(swapLocked ps (ids pws) pwNew dst).1.partNames, ?_⟩
  rw [swapSrcWithDstParts, hmap, except_ok_bind]
  simp only [hcount]
  rw [if_neg (not_not.2 rfl), ← hparts]

end Registered

/-! ### The invariant -/

/-- The parts that a thread has taken and not swapped yet. -/
def Thread.taken : Thread α → List (PartWrapper α)
  | .grouping pws _ => pws
  | .deleting _ _ pwsToMerge _ => pwsToMerge
  | .merging pws _ _ => pws
  | .releasing _ => []

/-- The parts whose flags a thread has to clear. -/
def Thread.owned : Thread α → List (PartWrapper α)
  | .releasing pws => pws
  | th => th.taken

namespace Db

def takenBy (s : Db α) (t : Nat) : List (PartWrapper α) := (s.threads t).elim [] Thread.taken

def ownedBy (s : Db α) (t : Nat) : List (PartWrapper α) := (s.threads t).elim [] Thread.owned

def rows (s : Db α) : List α := s.parts.all.flatMap PartWrapper.rows

/-- Every part that is taken for merging is registered, and every row that was added and not deleted is in
one registered part. -/
structure Sound (s : Db α) : Prop where
  registered : ∀ t, ∀ pw ∈ s.takenBy t, pw ∈ s.parts.all
  rows_perm : (s.rows ++ s.deleted).Perm s.added

structure Inv (s : Db α) : Prop extends s.Sound where
  exclusive : Exclusive s.isInMerge fun t => ids (s.ownedBy t)
  nodup : (ids s.parts.all).Nodup
  lt : ∀ pw ∈ s.parts.all, pw.id < s.nextId
  owned_lt : ∀ t, ∀ pw ∈ s.ownedBy t, pw.id < s.nextId

theorem inv_init : (init : Db α).Inv where
  registered := by simp [init, takenBy]
  rows_perm := List.Perm.refl _
  exclusive := ⟨by simp [init, ownedBy, ids], by simp [init, ownedBy, ids], by simp [init, ownedBy, ids]⟩
  nodup := nodup_nil
  lt := by simp [init, PartsState.all]
  owned_lt := by simp [init, ownedBy]

section Threads

variable {s : Db α} {t : Nat} {th : Option (Thread α)}

theorem takenBy_setThread : (s.setThread t th).takenBy =
    Function.update s.takenBy t (th.elim [] Thread.taken) := by
  funext u
  exact Function.apply_update (fun _ th => th.elim [] Thread.taken) s.threads t th u

theorem ownedBy_setThread : (s.setThread t th).ownedBy =
    Function.update s.ownedBy t (th.elim [] Thread.owned) := by
  funext u
  exact Function.apply_update (fun _ th => th.elim [] Thread.owned) s.threads t th u

theorem ids_update (own : Nat → List (PartWrapper α)) (t : Nat) (pws : List (PartWrapper α)) :
    (fun u => ids (Function.update own t pws u)) = Function.update (fun u => ids (own u)) t (ids pws) := by
  funext u
  exact Function.apply_update (fun _ => ids) own t pws u

theorem forall_update {P : PartWrapper α → Prop} {own : Nat → List (PartWrapper α)}
    (h : ∀ u, ∀ pw ∈ own u, P pw) (hpws : ∀ pw ∈ pws, P pw) :
    ∀ u, ∀ pw ∈ Function.update own t pws u, P pw :=
  (Function.forall_update_iff own fun _ pws => ∀ pw ∈ pws, P pw).2 ⟨hpws, fun u _ => h u⟩

/-- A thread goes on with the parts it has. -/
theorem Inv.setThread (h : s.Inv) (howned : th.elim [] Thread.owned = s.ownedBy t)
    (htaken : ∀ pw ∈ th.elim [] Thread.taken, pw ∈ s.takenBy t) : (s.setThread t th).Inv where
  registered := by
    rw [takenBy_setThread]
    exact forall_update h.registered fun pw hpw => h.registered t pw (htaken pw hpw)
  rows_perm := h.rows_perm
  exclusive := by
    rw [ownedBy_setThread, howned, Function.update_eq_self]
    exact h.exclusive
  nodup := h.nodup
  lt := h.lt
  owned_lt := by
    rw [ownedBy_setThread, howned, Function.update_eq_self]
    exact h.owned_lt

/-- A thread takes registered parts that are not in merge. -/
theorem Inv.take (h : s.Inv) {pws : List (PartWrapper α)} (hsub : ∀ pw ∈ pws, pw ∈ s.parts.all)
    (hnodup : (ids pws).Nodup) (hfree : ∀ pw ∈ pws, s.isInMerge pw.id = false)
    (howned : th.elim [] Thread.owned = s.ownedBy t ++ pws)
    (htaken : th.elim [] Thread.taken = s.takenBy t ++ pws) :
    ((s.take pws).setThread t th).Inv where
  registered := by
    rw [takenBy_setThread, htaken]
    exact forall_update h.registered (forall_mem_append.2 ⟨h.registered t, hsub⟩)
  rows_perm := h.rows_perm
  exclusive := by
    have hids : ids (s.ownedBy t ++ pws) = ids (s.ownedBy t) ++ ids pws := map_append
    rw [ownedBy_setThread, howned, ids_update, hids]
    apply h.exclusive.take hnodup
    · intro id hid
      obtain ⟨pw, hpw, rfl⟩ := mem_map.1 hid
      exact hfree pw hpw
    · intro id hid
      simp only [Db.setThread, Db.take, Flags.set, contains_iff_mem, if_pos hid]
    · intro id hid
      simp only [Db.setThread, Db.take, Flags.set, contains_iff_mem, if_neg hid]
  nodup := h.nodup
  lt := h.lt
  owned_lt := by
    rw [ownedBy_setThread, howned]
    exact forall_update h.owned_lt
      (forall_mem_append.2 ⟨h.owned_lt t, fun pw hpw => h.lt pw (hsub pw hpw)⟩)

/-- A thread hands parts it has taken to a new thread. -/
theorem Inv.handOver (h : s.Inv) {t' : Nat} {th' : Option (Thread α)}
    (hsplit : (th.elim [] Thread.owned ++ th'.elim [] Thread.owned).Perm (s.ownedBy t))
    (htaken : ∀ pw ∈ th.elim [] Thread.taken ++ th'.elim [] Thread.taken, pw ∈ s.takenBy t) :
    ((s.setThread t th).setThread t' th').Inv where
  registered := by
    rw [takenBy_setThread, takenBy_setThread]
    refine forall_update (forall_update h.registered ?_) ?_
    · intro pw hpw
      exact h.registered t pw (htaken pw (mem_append_left _ hpw))
    · intro pw hpw
      exact h.registered t pw (htaken pw (mem_append_right _ hpw))
  rows_perm := h.rows_perm
  exclusive := by
    have hids := hsplit.map PartWrapper.id
    rw [map_append] at hids
    rw [ownedBy_setThread, ownedBy_setThread, ids_update, ids_update]
    exact h.exclusive.handOver t' hids
  nodup := h.nodup
  lt := h.lt
  owned_lt := by
    rw [ownedBy_setThread, ownedBy_setThread]
    refine forall_update (forall_update h.owned_lt ?_) ?_
    · intro pw hpw
      exact h.owned_lt t pw (hsplit.mem_iff.1 (mem_append_left _ hpw))
    · intro pw hpw
      exact h.owned_lt t pw (hsplit.mem_iff.1 (mem_append_right _ hpw))

theorem takenBy_subset (s : Db α) (t : Nat) : ∀ pw ∈ s.takenBy t, pw ∈ s.ownedBy t := by
  unfold takenBy ownedBy
  cases s.threads t with
  | none => exact fun _ => id
  | some th =>
    cases th with
    | releasing pws => exact nofun
    | grouping | deleting | merging => exact fun _ => id

theorem by_thread {th : Thread α} (hth : s.threads t = some th) : s.takenBy t = th.taken ∧ s.ownedBy t = th.owned := by
  rw [takenBy, ownedBy, hth]
  exact ⟨rfl, rfl⟩

def mergeThread (pws : List (PartWrapper α)) (isFinal : Bool) (dropFilter : Option (α → Bool)) :
    Option (Thread α) :=
  if pws.isEmpty then none else some (.merging pws isFinal dropFilter)

theorem owned_mergeThread (pws : List (PartWrapper α)) (isFinal : Bool)
    (dropFilter : Option (α → Bool)) :
    (mergeThread pws isFinal dropFilter).elim [] Thread.owned = pws ∧
      (mergeThread pws isFinal dropFilter).elim [] Thread.taken = pws := by
  rw [mergeThread]
  split_ifs with hempty
  · rw [List.isEmpty_iff] at hempty
    rw [hempty]
    exact ⟨rfl, rfl⟩
  · exact ⟨rfl, rfl⟩

theorem startMerge_eq_ok (hflag : ∀ pw ∈ pws, s.isInMerge pw.id = true)
    (isFinal : Bool) (dropFilter : Option (α → Bool)) : s.startMerge t pws isFinal dropFilter =
      .ok (s.setThread t (mergeThread pws isFinal dropFilter)) := by
  rw [startMerge, mergeThread]
  split_ifs with hempty
  · rfl
  · rw [assertIsInMerge, if_pos (all_eq_true.2 hflag)]
    rfl

theorem flagged_of_owned (h : s.Inv) (hpw : pw ∈ s.ownedBy t) : s.isInMerge pw.id = true :=
  h.exclusive.flagged t pw.id (mem_map_of_mem hpw)

/-- A thread that is new takes the chosen ones of registered parts. -/
theorem Inv.takeNew (h : s.Inv) (hnew : s.threads t = none) {all chosen : List (PartWrapper α)}
    (hall : all.Subperm s.parts.all)
    (hchosen : chosen.Sublist (all.filter fun pw => !s.isInMerge pw.id))
    (howned : th.elim [] Thread.owned = chosen) (htaken : th.elim [] Thread.taken = chosen) :
    ((s.take chosen).setThread t th).Inv := by
  have hnone : s.ownedBy t = [] ∧ s.takenBy t = [] := by
    rw [ownedBy, takenBy, hnew]
    exact ⟨rfl, rfl⟩
  have hsub : ∀ pw ∈ chosen, pw ∈ all := fun pw hpw => (mem_filter.1 (hchosen.subset hpw)).1
  apply h.take (fun pw hpw => hall.subset (hsub pw hpw))
  · obtain ⟨l, hperm, hl⟩ := hall
    have hnodup : (ids all).Nodup :=
      ((hperm.map PartWrapper.id).nodup_iff).1 (h.nodup.sublist (hl.map PartWrapper.id))
    exact hnodup.sublist ((hchosen.trans filter_sublist).map PartWrapper.id)
  · intro pw hpw
    simpa using (mem_filter.1 (hchosen.subset hpw)).2
  · rw [hnone.1, howned, nil_append]
  · rw [hnone.2, htaken, nil_append]

theorem flagged_take (hpw : pw ∈ pws) : (s.take pws).isInMerge pw.id = true := by
  have hmem : pw.id ∈ ids pws := mem_map_of_mem hpw
  simp only [Db.take, Flags.set, contains_iff_mem, if_pos hmem]

end Threads

/-! ### The steps -/

/-- A new part that is not in merge, with an address that was not used before. -/
theorem exclusive_nextId (h : s.Inv) :
    Exclusive (Function.update s.isInMerge s.nextId false) fun t => ids (s.ownedBy t) := by
  apply h.exclusive.congr_flag
  intro t id hid
  obtain ⟨pw, hpw, rfl⟩ := mem_map.1 hid
  exact Function.update_of_ne (h.owned_lt t pw hpw).ne _ _

/-- Parts with the new address join some of the registered ones. -/
theorem Inv.nodup_join (h : s.Inv) {all kept new : List (PartWrapper α)} (hperm : all.Perm (kept ++ new))
    (hkept : kept.Sublist s.parts.all) (hnew : (ids new).Nodup) (hid : ∀ pw ∈ new, pw.id = s.nextId) :
    (ids all).Nodup ∧ ∀ pw ∈ all, pw.id < s.nextId + 1 := by
  constructor
  · refine (hperm.map PartWrapper.id).nodup_iff.2 ?_
    rw [map_append]
    refine nodup_append'.2 ⟨h.nodup.sublist (hkept.map _), hnew, ?_⟩
    intro id hid₁ hid₂
    obtain ⟨pw, hpw, rfl⟩ := mem_map.1 hid₁
    obtain ⟨pw', hpw', heq⟩ := mem_map.1 hid₂
    rw [hid pw' hpw'] at heq
    exact (h.lt pw (hkept.subset hpw)).ne heq.symm
  · intro pw hpw
    rcases mem_append.1 (hperm.mem_iff.1 hpw) with hpw | hpw
    · exact (h.lt pw (hkept.subset hpw)).trans (Nat.lt_succ_self _)
    · rw [hid pw hpw]
      exact Nat.lt_succ_self _

theorem Inv.flushLogRows {s : Db α} (h : s.Inv) (rows : List α) :
    Inv { s with
      parts := s.parts.push ⟨s.nextId, true, "", rows⟩ .inmemory
      isInMerge := Function.update s.isInMerge s.nextId false
      nextId := s.nextId + 1
      added := s.added ++ rows } where
  registered := by
    intro t pw hpw
    exact (s.parts.all_push _ _).mem_iff.2 (mem_append_left _ (h.registered t pw hpw))
  rows_perm := by
    have hrows := (s.parts.all_push ⟨s.nextId, true, "", rows⟩ .inmemory).flatMap_right PartWrapper.rows
    rw [flatMap_append, flatMap_singleton] at hrows
    have hadded : (s.rows ++ rows ++ s.deleted).Perm (s.added ++ rows) := by
      exact (perm_append_right_comm _ _ _).trans (h.rows_perm.append_right rows)
    exact (hrows.append_right s.deleted).trans hadded
  exclusive := exclusive_nextId h
  nodup := (h.nodup_join (s.parts.all_push _ _) (.refl _) (nodup_singleton _) (by simp)).1
  lt := (h.nodup_join (s.parts.all_push _ _) (.refl _) (nodup_singleton _) (by simp)).2
  owned_lt := fun t pw hpw => (h.owned_lt t pw hpw).trans (Nat.lt_succ_self _)

theorem subperm_ofType (type : PartType) : (ps.ofType type).Subperm ps.all := by
  rw [PartsState.all]
  cases type with
  | inmemory => exact (sublist_append_right _ _).subperm
  | small => exact ((sublist_append_right _ _).trans (sublist_append_left _ _)).subperm
  | big => exact ((sublist_append_left _ _).trans (sublist_append_left _ _)).subperm

theorem getPartsForOptimalMerge_perm (hnodup : (ids pws).Nodup) (chosen : List Nat) :
    ((getPartsForOptimalMerge chosen pws).2 ++ (getPartsForOptimalMerge chosen pws).1).Perm pws := by
  rw [getPartsForOptimalMerge]
  split_ifs with hempty
  · exact List.Perm.refl _
  · have hsub : (pws.filter fun pw => chosen.contains pw.id).Sublist pws := filter_sublist
    have hgroup := filter_ids_perm hnodup hsub.subset (hnodup.sublist (hsub.map PartWrapper.id))
    refine (hgroup.symm.append_left _).trans (perm_append_comm.trans ?_)
    exact filter_append_perm _ pws

theorem keptRows_perm (pws : List (PartWrapper α)) (dropFilter : Option (α → Bool)) :
    ((keptRows pws dropFilter).1 ++ (keptRows pws dropFilter).2).Perm
      (pws.flatMap PartWrapper.rows) := by
  cases dropFilter with
  | none =>
    rw [keptRows, append_nil]
  | some p =>
    refine perm_append_comm.trans ?_
    exact filter_append_perm p _

def newPart (s : Db α) (kept : List α) (dst : PartType) (name : String) : Option (PartWrapper α) :=
  if kept.isEmpty then none else some ⟨s.nextId, dst == .inmemory, name, kept⟩

theorem newPart_spec (s : Db α) (kept : List α) (dst : PartType) (name : String) :
    (s.newPart kept dst name).toList.flatMap PartWrapper.rows = kept ∧
      (∀ pw ∈ (s.newPart kept dst name).toList, pw.id = s.nextId) ∧
      (ids (s.newPart kept dst name).toList).Nodup := by
  rw [newPart]
  split_ifs with hempty
  · exact ⟨(List.isEmpty_iff.1 hempty).symm, forall_mem_nil _, nodup_nil⟩
  · exact ⟨flatMap_singleton _ _, forall_mem_singleton.2 rfl, nodup_singleton _⟩

variable {t : Nat}

/-- A merge whose parts are registered swaps them. -/
theorem Inv.swapStep (h : s.Inv) {isFinal : Bool}
    {dropFilter : Option (α → Bool)} (hth : s.threads t = some (.merging pws isFinal dropFilter))
    (dst : PartType) (name : String) : ∃ s', s.swapStep t pws dropFilter dst name = .ok s' ∧ s'.Inv := by
  obtain ⟨htaken, howned⟩ : s.takenBy t = pws ∧ s.ownedBy t = pws := by_thread hth
  have hsub : ∀ pw ∈ pws, pw ∈ s.parts.all := fun pw hpw => h.registered t pw (htaken ▸ hpw)
  have hnodup : (ids pws).Nodup := howned ▸ h.exclusive.nodup t
  have hsame : (s.setThread t (some (.releasing pws))).ownedBy = s.ownedBy := by
    rw [ownedBy_setThread, Option.elim_some]
    change Function.update s.ownedBy t pws = s.ownedBy
    rw [← howned, Function.update_eq_self]
  set kept := (keptRows pws dropFilter).1
  set dropped := (keptRows pws dropFilter).2
  obtain ⟨partNames, hswap⟩ :=
    swapSrcWithDstParts_eq_ok h.nodup hsub hnodup (s.newPart kept dst name) dst
  have hperm := s.parts.all_swapped (ids pws) (s.newPart kept dst name) dst
  obtain ⟨hkept, hid, hnew⟩ := s.newPart_spec kept dst name
  obtain ⟨hids, hlt⟩ := h.nodup_join hperm filter_sublist hnew hid
  refine ⟨{ s with
    parts := s.parts.swapped (ids pws) (s.newPart kept dst name) dst
    isInMerge := Function.update s.isInMerge s.nextId false
    nextId := s.nextId + 1
    threads := Function.update s.threads t (some (.releasing pws))
    deleted := s.deleted ++ dropped }, ?_, ⟨⟨?_, ?_⟩, ?_, hids, hlt, ?_⟩⟩
  · rw [Db.swapStep]
    change (swapSrcWithDstParts s.parts pws (s.newPart kept dst name) dst >>= _) = _
    rw [hswap, except_ok_bind]
    rfl
  · -- the parts of the other threads have other addresses
    intro u pw hpw
    change pw ∈ (s.setThread t (some (.releasing pws))).takenBy u at hpw
    rw [takenBy_setThread] at hpw
    rcases eq_or_ne u t with rfl | hne
    · rw [Function.update_self] at hpw
      cases hpw
    · rw [Function.update_of_ne hne] at hpw
      refine hperm.mem_iff.2 (mem_append_left _ (mem_filter.2 ⟨h.registered u pw hpw, ?_⟩))
      rw [Bool.not_eq_true', ← Bool.not_eq_true, contains_iff_mem]
      intro hid
      refine h.exclusive.disjoint u t hne (mem_map_of_mem (s.takenBy_subset u pw hpw)) ?_
      rw [howned]
      exact hid
  · -- the rows of the merged parts are in the new part, or deleted
    have hrows := hperm.flatMap_right PartWrapper.rows
    rw [flatMap_append, hkept] at hrows
    have hold := rows_removeParts_perm h.nodup hsub hnodup
    set rest := (removeParts s.parts.all (ids pws)).flatMap PartWrapper.rows
    have hnew : (rest ++ kept ++ dropped).Perm s.rows := by
      rw [append_assoc]
      exact ((keptRows_perm pws dropFilter).append_left rest).trans hold
    refine (hrows.append_right _).trans ?_
    rw [← append_assoc]
    refine (perm_append_right_comm _ _ _).trans ?_
    exact (hnew.append_right s.deleted).trans h.rows_perm
  · change Exclusive _ fun u => ids ((s.setThread t (some (.releasing pws))).ownedBy u)
    rw [hsame]
    exact exclusive_nextId h
  · intro u pw hpw
    change pw ∈ (s.setThread t (some (.releasing pws))).ownedBy u at hpw
    rw [hsame] at hpw
    exact (h.owned_lt u pw hpw).trans (Nat.lt_succ_self _)

theorem releasePartsToMerge_eq_ok {flags : Flags} (hflag : ∀ pw ∈ pws, flags pw.id = true) (hnodup : (ids pws).Nodup) :
    ∃ flags', releasePartsToMerge flags pws = .ok flags' ∧ ∀ id ∉ ids pws, flags' id = flags id := by
  induction pws generalizing flags with
  | nil => exact ⟨flags, rfl, fun id _ => rfl⟩
  | cons pw pws ih =>
    rw [ids, map_cons, nodup_cons] at hnodup
    have hrest : ∀ pw' ∈ pws, Function.update flags pw.id false pw'.id = true := by
      intro pw' hpw'
      have hne : pw'.id ≠ pw.id := fun heq => hnodup.1 (heq ▸ mem_map_of_mem hpw')
      rw [Function.update_of_ne hne]
      exact hflag pw' (mem_cons_of_mem _ hpw')
    obtain ⟨flags', heq, hkeep⟩ := ih hrest hnodup.2
    refine ⟨flags', ?_, ?_⟩
    · rw [releasePartsToMerge, if_pos (hflag pw mem_cons_self)]
      exact heq
    · intro id hid
      rw [ids, map_cons, mem_cons, not_or] at hid
      rw [hkeep id hid.2, Function.update_of_ne hid.1]

theorem Inv.release (h : s.Inv) (hth : s.threads t = some (.releasing pws)) :
    ∃ flags, releasePartsToMerge s.isInMerge pws = .ok flags ∧
      ({ s with isInMerge := flags }.setThread t none).Inv := by
  have howned : s.ownedBy t = pws := (by_thread hth).2
  have hflag : ∀ pw ∈ pws, s.isInMerge pw.id = true := fun pw hpw => flagged_of_owned h (howned ▸ hpw)
  obtain ⟨flags, heq, hkeep⟩ := releasePartsToMerge_eq_ok hflag (howned ▸ h.exclusive.nodup t)
  refine ⟨flags, heq, ⟨⟨?_, h.rows_perm⟩, ?_, h.nodup, h.lt, ?_⟩⟩
  · rw [takenBy_setThread]
    exact forall_update h.registered fun pw hpw => nomatch hpw
  · rw [ownedBy_setThread, ids_update]
    exact h.exclusive.giveBack fun id hid => hkeep id (howned ▸ hid)
  · rw [ownedBy_setThread]
    exact forall_update h.owned_lt fun pw hpw => nomatch hpw

/-- A part that `delete_rows` takes is registered at this time. -/
def MarksRegistered (s : Db α) : Event α → Prop
  | .deleteNext t stopped =>
    match s.threads t with
    | some (.deleting pso (pw :: _) _ _) =>
      (stopped || !pw.rows.any pso) = false → s.isInMerge pw.id = false → pw ∈ s.parts.all
    | _ => True
  | _ => True

theorem Inv.startMerge (h : s.Inv) (isFinal : Bool)
    (dropFilter : Option (α → Bool)) (howned : s.ownedBy t = pws) (htaken : s.takenBy t = pws) :
    ∃ s', s.startMerge t pws isFinal dropFilter = .ok s' ∧ s'.Inv := by
  have hthread := owned_mergeThread pws isFinal dropFilter
  refine ⟨s.setThread t (mergeThread pws isFinal dropFilter), ?_, h.setThread ?_ ?_⟩
  · exact startMerge_eq_ok (fun pw hpw => flagged_of_owned h (howned ▸ hpw)) isFinal dropFilter
  · rw [hthread.1, howned]
  · rw [hthread.2, htaken]
    exact fun _ => id

theorem Inv.deleteStep (h : s.Inv) {pso : α → Bool}
    {pws pwsToMerge : List (PartWrapper α)} {needRepeat : Bool} {stopped : Bool}
    (hth : s.threads t = some (.deleting pso pws pwsToMerge needRepeat))
    (hmark : s.MarksRegistered (.deleteNext t stopped)) :
    ∃ s', s.deleteStep t pso pws pwsToMerge needRepeat stopped = .ok s' ∧ s'.Inv := by
  obtain ⟨htaken, howned⟩ : s.takenBy t = pwsToMerge ∧ s.ownedBy t = pwsToMerge := by_thread hth
  cases pws with
  | nil => exact h.startMerge false (some pso) howned htaken
  | cons pw pws =>
    simp only [MarksRegistered, hth] at hmark
    -- the thread keeps what it has when the part is passed over
    have hkeep : ∀ needRepeat, (s.setThread t (some (.deleting pso pws pwsToMerge needRepeat))).Inv := by
      intro needRepeat
      refine h.setThread howned.symm ?_
      rw [htaken]
      exact fun _ => id
    rw [Db.deleteStep]
    split_ifs with hskip hfree
    · exact ⟨_, rfl, hkeep needRepeat⟩
    · rw [Bool.not_eq_true'] at hfree
      rw [Bool.not_eq_true] at hskip
      refine ⟨_, rfl, h.take (forall_mem_singleton.2 (hmark hskip hfree)) (nodup_singleton _)
        (forall_mem_singleton.2 hfree) ?_ ?_⟩
      · rw [howned]
        rfl
      · rw [htaken]
        rfl
    · exact ⟨_, rfl, hkeep true⟩

/-- A thread that is new takes registered parts and merges them. -/
theorem Inv.mergeParts (h : s.Inv) (hnew : s.threads t = none) (type : PartType) (chosen : List Nat) :
    ∃ s', (s.take (getPartsToMergeLocked s.isInMerge chosen (s.parts.ofType type))).startMerge t
      (getPartsToMergeLocked s.isInMerge chosen (s.parts.ofType type)) false none = .ok s' ∧ s'.Inv := by
  have hthread := owned_mergeThread
    (getPartsToMergeLocked s.isInMerge chosen (s.parts.ofType type)) false none
  refine ⟨_, startMerge_eq_ok (fun pw hpw => flagged_take hpw) false none, ?_⟩
  exact h.takeNew hnew (subperm_ofType s.parts type) filter_sublist hthread.1 hthread.2

theorem Inv.spawnMerge (h : s.Inv) {isFinal : Bool}
    (hth : s.threads t = some (.grouping pws isFinal)) (t' : Nat) (chosen : List Nat) :
    ∃ s', (s.setThread t (some (.grouping (getPartsForOptimalMerge chosen pws).2 isFinal))).startMerge t'
      (getPartsForOptimalMerge chosen pws).1 isFinal none = .ok s' ∧ s'.Inv := by
  obtain ⟨htaken, howned⟩ : s.takenBy t = pws ∧ s.ownedBy t = pws := by_thread hth
  have hperm := getPartsForOptimalMerge_perm (howned ▸ h.exclusive.nodup t) chosen
  have hthread := owned_mergeThread (getPartsForOptimalMerge chosen pws).1 isFinal none
  refine ⟨_, startMerge_eq_ok ?_ isFinal none, h.handOver ?_ ?_⟩
  · intro pw hpw
    apply flagged_of_owned h (t := t)
    rw [howned]
    exact hperm.mem_iff.1 (mem_append_right _ hpw)
  · rw [hthread.1, howned]
    exact hperm
  · rw [hthread.2, htaken]
    exact fun pw => hperm.mem_iff.1

theorem subperm_smallParts_bigParts : (ps.smallParts ++ ps.bigParts).Subperm ps.all :=
  perm_append_comm.subperm.trans (sublist_append_left _ _).subperm

/-- No step fails, and the invariant is kept. -/
theorem Inv.step {s : Db α} (h : s.Inv) {e : Event α} (hmark : s.MarksRegistered e)
    {r : Outcome (Db α)} (hr : s.step e = some r) : ∃ s', r = .ok s' ∧ s'.Inv := by
  -- a thread that gives its parts up, or has none
  have hdrop : ∀ {t th}, th.elim [] Thread.owned = s.ownedBy t → th.elim [] Thread.taken = [] →
      (s.setThread t th).Inv := by
    intro t th howned htaken
    refine h.setThread howned ?_
    rw [htaken]
    exact forall_mem_nil _
  cases e <;> simp only [Db.step] at hr
  case flushLogRows rows =>
    cases hr
    exact ⟨_, rfl, h.flushLogRows rows⟩
  case mergeParts t type chosen =>
    split at hr <;> cases hr
    next hth => exact h.mergeParts hth type chosen
  case flushInmemoryParts t chosen =>
    split at hr <;> cases hr
    next hth => exact ⟨_, rfl, h.takeNew hth (subperm_ofType s.parts .inmemory) filter_sublist rfl rfl⟩
  case forceMergeAllParts t =>
    split at hr <;> cases hr
    next hth => exact ⟨_, rfl, h.takeNew hth (subperm_smallParts_bigParts s.parts) (.refl _) rfl rfl⟩
  case spawnMerge t t' chosen =>
    split at hr <;> cases hr
    next isFinal hth => exact ⟨_, rfl, hdrop (by rw [ownedBy, hth]; rfl) rfl⟩
    next pws isFinal _ hth _ => exact h.spawnMerge hth t' chosen
  case deleteRows t pso chosen =>
    split at hr <;> cases hr
    next hth => exact ⟨_, rfl, hdrop (by rw [ownedBy, hth]; rfl) rfl⟩
  case deleteNext t stopped =>
    split at hr <;> cases hr
    next pso pws pwsToMerge needRepeat hth => exact h.deleteStep hth hmark
  case swap t dst name =>
    split at hr
    · split_ifs at hr
      cases hr
      next pws isFinal dropFilter hth _ => exact h.swapStep hth dst name
    · cases hr
  case giveUp t =>
    split at hr <;> cases hr
    next pws _ hth => exact ⟨_, rfl, hdrop (by rw [ownedBy, hth]; rfl) rfl⟩
  case release t =>
    split at hr <;> cases hr
    next pws hth =>
      obtain ⟨flags, heq, hinv⟩ := h.release hth
      rw [heq, except_ok_bind]
      exact ⟨_, rfl, hinv⟩

/-- A part that is taken and not registered stays so. -/
theorem not_sound_of_not_marksRegistered {e : Event α} (hmark : ¬s.MarksRegistered e) :
    ∃ s', s.step e = some (.ok s') ∧ ¬s'.Sound := by
  cases e with
  | deleteNext t stopped =>
    simp only [MarksRegistered] at hmark
    split at hmark
    · next pso pw pws pwsToMerge needRepeat hth =>
        rw [Classical.not_imp, Classical.not_imp] at hmark
        obtain ⟨hskip, hfree, hmissing⟩ := hmark
        refine ⟨(s.take [pw]).setThread t (some (.deleting pso pws (pwsToMerge ++ [pw]) needRepeat)),
          ?_, ?_⟩
        · simp only [Db.step, hth, Db.deleteStep, hskip, hfree, Bool.not_false, if_true,
            Bool.false_eq_true, if_false]
        · intro hsound
          have hreg := hsound.registered t pw
          rw [takenBy_setThread, Function.update_self] at hreg
          exact hmissing (hreg (mem_append_right _ (mem_singleton_self _)))
    · exact absurd trivial hmark
  | _ => exact absurd trivial hmark

/-- Along a run, no merge fails and every part that is taken is registered exactly as long as
`delete_rows` takes registered parts only. -/
theorem always_sound_iff_along_marksRegistered (es : List (Event α)) :
    Always Db.step Sound (init : Db α) es ↔ Along Db.step MarksRegistered (init : Db α) es := by
  apply always_iff_along (I := Inv)
  · exact fun s h => h.toSound
  · exact fun s e r h hmark hr => h.step hmark hr
  · exact fun s e _ hmark => not_sound_of_not_marksRegistered hmark
  · exact inv_init

/-- No part is taken by two threads, each one that is taken is flagged, and no part is registered twice. -/
def TakesApart (s : Db α) : Prop :=
  Exclusive s.isInMerge (fun t => ids (s.ownedBy t)) ∧ (ids s.parts.all).Nodup

theorem takesApart_of_marksRegistered {es : List (Event α)} (hes : Along Db.step MarksRegistered init es) :
    Always Db.step TakesApart init es :=
  always_of_along (fun _ h => ⟨h.exclusive, h.nodup⟩) (fun _ _ _ h hmark hr => Inv.step h hmark hr) init es
    inv_init hes

/-- Thread 1 deletes all rows while thread 0 merges the first of the two parts. -/
def mergeAndDelete : List (Event Nat) :=
  [.flushLogRows [7], .flushLogRows [8], .mergeParts 0 .inmemory [0], .deleteRows 1 (fun _ => true) [0, 1],
    .deleteNext 1 false, .deleteNext 1 false, .swap 0 .small "00", .release 0, .deleteNext 1 false,
    .swap 1 .small "01", .release 1]

theorem takesApart_mergeAndDelete :
    (∃ s, run Db.step (init : Db Nat) mergeAndDelete = some (.ok s) ∧ s.rows = [7]) ∧
      Always Db.step TakesApart (init : Db Nat) mergeAndDelete := by
  refine ⟨⟨_, rfl, rfl⟩, takesApart_of_marksRegistered ?_⟩
  -- the first part is in merge when thread 1 comes to it, and the second one is registered
  refine ⟨trivial, trivial, trivial, trivial, fun _ hfree => absurd hfree (by decide), fun _ _ => ?_,
    trivial, trivial, trivial, trivial, trivial, trivial⟩
  exact mem_append_right _ (mem_cons_of_mem _ (mem_singleton_self _))

/-- Thread 0 deletes all rows, and looks at the part of its list after it was flushed to a file. -/
def lateDeletion : List (Event Nat) :=
  [.flushLogRows [7], .deleteRows 0 (fun _ => true) [0],
    .flushInmemoryParts 1 [0], .spawnMerge 1 2 [0], .swap 2 .small "00", .release 2,
    .deleteNext 0 false, .deleteNext 0 false, .swap 0 .small "01"]

theorem run_lateDeletion :
    run Db.step (init : Db Nat) lateDeletion =
      some (.error (.panic "BUG: unexpected number of parts removed; got 0, want 1")) := by
  rfl

end Db

end EsLogs.Datadb
