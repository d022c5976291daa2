import EsLogs.PartitionRefs
import EsLogs.StorageDays

/-!
In every interleaving the counter of a partition is the number of the references to it, in the list and in
the threads. From this follows that a partition is closed once, after its last reference was released.
-/

namespace EsLogs.LogStorage

open PartitionDay References List

variable {ptw : PartitionWrapper} {ptws : List PartitionWrapper} {th' : RefThread}

/-- The partitions that a thread is going to mark for dropping. -/
def RefThread.drops : RefThread → List PartitionWrapper
  | .dropping ptws _ => ptws
  | .closing _ next => next.drops
  | _ => []

namespace Refs

structure Inv (s : Refs) : Prop where
  counted : Counted s.refCount s.holders
  once : ∀ ptw ∈ s.created, s.closes ptw.id + s.toClose.count ptw.id = if ptw.id ∈ s.holders then 0 else 1
  ids : s.created.map PartitionWrapper.id = List.range s.created.length
  fresh : ∀ id, s.created.length ≤ id → s.closes id = 0 ∧ s.mustDrop id = false
  sorted : Sorted s.st.partitions
  listed : ∀ ptw ∈ s.st.partitions, ptw ∈ s.created
  hot : ∀ ptw, s.st.ptwHot = some ptw → ptw ∈ s.st.partitions
  held : ∀ th ∈ s.threads, ∀ ptw ∈ th.held ++ th.toClose, ptw ∈ s.created
  drops : ∀ th ∈ s.threads, ∀ ptw ∈ th.drops, ptw.day ∈ s.st.deletedPartitions
  isDay : ∀ ptw ∈ s.created, IsDay ptw.day
  name : ∀ ptw ∈ s.created, ptw.name = getPartitionNameFromDay ptw.day
  days : (s.created.map PartitionWrapper.day).Nodup
  removed : ∀ ptw ∈ s.created, ptw.name ∉ s.dirs → s.mustDrop ptw.id = true
  dropped : ∀ ptw ∈ s.created, s.mustDrop ptw.id = true → ptw.day ∈ s.st.deletedPartitions

section Basic

variable {s : Refs}

theorem Inv.lt_of_mem (h : s.Inv) (hptw : ptw ∈ s.created) : ptw.id < s.created.length := by
  have hmem : ptw.id ∈ s.created.map PartitionWrapper.id := mem_map_of_mem hptw
  rw [h.ids, mem_range] at hmem
  exact hmem

theorem Inv.lt_of_mem_toClose (h : s.Inv) {id : Nat} (hid : id ∈ s.toClose) : id < s.created.length := by
  obtain ⟨th, hth, hid⟩ := mem_flatMap.1 hid
  obtain ⟨ptw, hptw, rfl⟩ := mem_map.1 hid
  exact h.lt_of_mem (h.held th hth ptw (mem_append_right _ hptw))

theorem Inv.eq_of_id_eq (h : s.Inv) {a b : PartitionWrapper} (ha : a ∈ s.created) (hb : b ∈ s.created)
    (heq : a.id = b.id) : a = b := by
  have hnodup : (s.created.map PartitionWrapper.id).Nodup := by
    rw [h.ids]
    exact nodup_range
  exact inj_on_of_nodup_map hnodup ha hb heq

/-- Whether a partition is closed depends on which references there are. -/
theorem Inv.once_congr (h : s.Inv) {holders close : List Nat} (hholders : ∀ id, id ∈ holders ↔ id ∈ s.holders)
    (hclose : close.Perm s.toClose) (ptw : PartitionWrapper) (hptw : ptw ∈ s.created) :
    s.closes ptw.id + close.count ptw.id = if ptw.id ∈ holders then 0 else 1 := by
  rw [hclose.count_eq]
  simp only [hholders]
  exact h.once ptw hptw

theorem mem_holders_of_listed (h : ptw ∈ s.st.partitions) : ptw.id ∈ s.holders :=
  mem_append_left _ (mem_map_of_mem h)

end Basic

/-! ### One thread changes -/

section Threads

variable {s : Refs} {t : Nat} {th : RefThread}

/-- A property of the threads is kept when the new thread has it. -/
theorem forall_set {P : RefThread → Prop} (h : ∀ th ∈ s.threads, P th) (hth' : P th') :
    ∀ th ∈ s.threads.set t th', P th := by
  intro u hu
  rcases mem_or_eq_of_mem_set hu with hu | rfl
  · exact h u hu
  · exact hth'

/-- The references and the partitions to close, without those of a thread. -/
theorem exists_rest (hth : s.threads[t]? = some th) :
    ∃ rest close : List Nat,
      s.holders.Perm (th.held.map PartitionWrapper.id ++ rest) ∧
      s.toClose.Perm (th.toClose.map PartitionWrapper.id ++ close) ∧
      ∀ th', (s.setThread t th').holders.Perm (th'.held.map PartitionWrapper.id ++ rest) ∧
        (s.setThread t th').toClose.Perm (th'.toClose.map PartitionWrapper.id ++ close) := by
  obtain ⟨others, hperm, hset⟩ := exists_others (fun th : RefThread => th.held.map PartitionWrapper.id) hth
  obtain ⟨close, hclose, hcloseSet⟩ :=
    exists_others (fun th : RefThread => th.toClose.map PartitionWrapper.id) hth
  refine ⟨s.st.partitions.map PartitionWrapper.id ++ others, close, ?_, hclose, fun th' => ⟨?_, hcloseSet th'⟩⟩
  · exact (hperm.append_left _).trans (perm_append_comm_assoc _ _ _)
  · exact ((hset th').append_left _).trans (perm_append_comm_assoc _ _ _)

/-- The thread goes on with the same references. -/
theorem Inv.setThread (h : s.Inv) (hth : s.threads[t]? = some th)
    (hheld : th'.held = th.held) (hclose : th'.toClose = th.toClose)
    (hdrops : ∀ ptw ∈ th'.drops, ptw.day ∈ s.st.deletedPartitions) : (s.setThread t th').Inv := by
  obtain ⟨rest, close, hholders, htoClose, hset⟩ := exists_rest hth
  obtain ⟨hholders', htoClose'⟩ := hset th'
  rw [hheld] at hholders'
  rw [hclose] at htoClose'
  have hsame := hholders'.trans hholders.symm
  have hmem := mem_of_getElem? hth
  refine { h with
    counted := h.counted.perm hsame
    once := h.once_congr (fun _ => hsame.mem_iff) (htoClose'.trans htoClose.symm)
    held := forall_set h.held ?_
    drops := forall_set h.drops hdrops }
  rw [hheld, hclose]
  exact h.held th hmem

/-- A user takes references to partitions of the list. -/
theorem Inv.acquire (h : s.Inv) {ptws new : List PartitionWrapper} (hth : s.threads[t]? = some (.user ptws))
    (hnew : ∀ ptw ∈ new, ptw ∈ s.st.partitions) : (s.acquire t ptws new).Inv := by
  obtain ⟨rest, close, hholders, htoClose, hset⟩ := exists_rest hth
  obtain ⟨hholders', htoClose'⟩ := hset (.user (new ++ ptws))
  have hmem := mem_of_getElem? hth
  have hperm : (s.acquire t ptws new).holders.Perm (new.map PartitionWrapper.id ++ s.holders) := by
    refine hholders'.trans ?_
    change ((new ++ ptws).map PartitionWrapper.id ++ rest).Perm _
    rw [map_append, append_assoc]
    exact hholders.symm.append_left _
  -- the partitions of the list have references already
  have hiff : ∀ id, id ∈ (s.acquire t ptws new).holders ↔ id ∈ s.holders := by
    intro id
    rw [hperm.mem_iff, mem_append, or_iff_right_iff_imp]
    intro hid
    obtain ⟨ptw, hptw, rfl⟩ := mem_map.1 hid
    exact mem_holders_of_listed (hnew ptw hptw)
  refine { h with
    counted := (h.counted.acquireAll _).perm hperm
    once := h.once_congr hiff (htoClose'.trans htoClose.symm)
    held := forall_set h.held (forall_mem_append.2 ⟨forall_mem_append.2 ⟨?_, ?_⟩, forall_mem_nil _⟩)
    drops := forall_set h.drops (forall_mem_nil _) }
  · exact fun ptw hptw => h.listed ptw (hnew ptw hptw)
  · exact fun ptw hptw => h.held _ hmem ptw (mem_append_left _ hptw)

/-- A thread releases a reference; when it was the last one, the partition is about to be closed. -/
theorem Inv.release (h : s.Inv) (hth : s.threads[t]? = some th) {next : RefThread}
    (hheld : th.held.Perm (ptw :: next.held)) (hclose : th.toClose = []) (hnext : next.toClose = [])
    (hdrops : ∀ ptw ∈ next.drops, ptw ∈ th.drops) : (s.release t ptw next).Inv := by
  obtain ⟨rest, close, hholders, htoClose, hset⟩ := exists_rest hth
  have hmem := mem_of_getElem? hth
  set th' : RefThread := if s.refCount ptw.id - 1 > 0 then next else .closing ptw next with hth'
  obtain ⟨hholders', htoClose'⟩ := hset th'
  have hheld' : th'.held = next.held := by
    rw [hth']
    split_ifs <;> rfl
  have hdrops' : th'.drops = next.drops := by
    rw [hth']
    split_ifs <;> rfl
  have hperm : s.holders.Perm (ptw.id :: (s.release t ptw next).holders) := by
    have hmap := hheld.map PartitionWrapper.id
    rw [hheld'] at hholders'
    refine hholders.trans ((hmap.append_right rest).trans ?_)
    exact hholders'.symm.cons ptw.id
  have hcounted : Counted (s.release t ptw next).refCount (s.release t ptw next).holders :=
    (h.counted.perm hperm.symm).release
  have hptw : ptw ∈ s.created :=
    h.held th hmem ptw (mem_append_left _ (hheld.mem_iff.2 mem_cons_self))
  have hlast : s.refCount ptw.id - 1 > 0 ↔ ptw.id ∈ (s.release t ptw next).holders := by
    rw [← hcounted.pos_iff]
    change _ ↔ 0 < Function.update s.refCount ptw.id (s.refCount ptw.id - 1) ptw.id
    rw [Function.update_self]
  have htoCloseEq : (s.release t ptw next).toClose.Perm
      ((if s.refCount ptw.id - 1 > 0 then [] else [ptw.id]) ++ s.toClose) := by
    rw [hclose] at htoClose
    refine htoClose'.trans (List.Perm.append ?_ htoClose.symm)
    rw [hth']
    split_ifs
    · rw [hnext]
      rfl
    · change ((ptw :: next.toClose).map PartitionWrapper.id).Perm _
      rw [hnext]
      rfl
  refine { h with counted := hcounted, once := ?_, held := forall_set h.held ?_, drops := forall_set h.drops ?_ }
  · intro p hp
    have honce := h.once p hp
    rw [htoCloseEq.count_eq, count_append]
    simp only [hperm.mem_iff, mem_cons] at honce
    change s.closes p.id + _ = _
    rcases eq_or_ne p.id ptw.id with heq | hne
    · rw [heq] at honce ⊢
      simp only [true_or, if_true] at honce
      simp only [← hlast]
      split_ifs with hn
      · rw [count_nil]
        omega
      · rw [count_singleton_self]
        omega
    · simp only [hne, false_or] at honce
      have hcount : (if s.refCount ptw.id - 1 > 0 then [] else [ptw.id]).count p.id = 0 := by
        split_ifs
        · exact count_nil
        · exact count_eq_zero.2 (by simpa using hne)
      rw [hcount, Nat.zero_add]
      exact honce
  · intro p hp
    have hold : p ∈ next.held ∨ p = ptw := by
      rcases mem_append.1 hp with hp | hp
      · rw [hheld'] at hp
        exact .inl hp
      · split_ifs at hp
        · rw [hnext] at hp
          cases hp
        · change p ∈ ptw :: next.toClose at hp
          rw [hnext, mem_singleton] at hp
          exact .inr hp
    rcases hold with hp | rfl
    · exact h.held th hmem p (mem_append_left _ (hheld.mem_iff.2 (mem_cons_of_mem _ hp)))
    · exact hptw
  · rw [hdrops']
    exact fun p hp => h.drops th hmem p (hdrops p hp)

/-- The partition is closed. -/
theorem Inv.close (h : s.Inv) {next : RefThread}
    (hth : s.threads[t]? = some (.closing ptw next)) : (s.close t ptw next).Inv := by
  obtain ⟨rest, close, hholders, htoClose, hset⟩ := exists_rest hth
  obtain ⟨hholders', htoClose'⟩ := hset next
  have hmem := mem_of_getElem? hth
  have hsame : (s.close t ptw next).holders.Perm s.holders := hholders'.trans hholders.symm
  have hclose : s.toClose.Perm (ptw.id :: (s.close t ptw next).toClose) :=
    htoClose.trans (htoClose'.symm.cons ptw.id)
  have hptw : ptw ∈ s.created := h.held _ hmem ptw (mem_append_right _ mem_cons_self)
  refine { h with
    counted := h.counted.perm hsame, once := ?_, fresh := ?_, held := forall_set h.held ?_
    drops := forall_set h.drops (h.drops (.closing ptw next) hmem), removed := ?_ }
  · intro p hp
    have honce := h.once p hp
    rw [hclose.count_eq] at honce
    simp only [hsame.mem_iff]
    change Function.update s.closes ptw.id (s.closes ptw.id + 1) p.id + _ = _
    rcases eq_or_ne p.id ptw.id with heq | hne
    · rw [heq] at honce ⊢
      rw [count_cons_self] at honce
      rw [Function.update_self]
      omega
    · rw [count_cons_of_ne hne.symm] at honce
      rw [Function.update_of_ne hne]
      exact honce
  · intro id hid
    refine ⟨?_, (h.fresh id hid).2⟩
    have hne : id ≠ ptw.id := fun heq => absurd (h.lt_of_mem hptw) (not_lt.2 (heq ▸ hid))
    change Function.update s.closes ptw.id (s.closes ptw.id + 1) id = 0
    rw [Function.update_of_ne hne]
    exact (h.fresh id hid).1
  · intro p hp
    refine h.held _ hmem p ?_
    rcases mem_append.1 hp with hp | hp
    · exact mem_append_left _ hp
    · exact mem_append_right _ (mem_cons_of_mem _ hp)
  · -- the only directory that is removed is that of the partition
    intro p hp hname
    by_cases hdir : p.name ∈ s.dirs
    · change p.name ∉ (if s.mustDrop ptw.id then s.dirs.filter (· ≠ ptw.name) else s.dirs) at hname
      split_ifs at hname with hdrop
      · have heq : p.name = ptw.name := by
          by_contra hne
          exact hname (mem_filter.2 ⟨hdir, decide_eq_true hne⟩)
        have hday : p.day = ptw.day := by
          rw [h.name p hp, h.name ptw hptw] at heq
          exact getPartitionNameFromDay_injective (h.isDay p hp) (h.isDay ptw hptw) heq
        rw [inj_on_of_nodup_map h.days hp hptw hday]
        exact hdrop
      · exact absurd hdir hname
    · exact h.removed p hp hdir

/-- A partition is marked for dropping. -/
theorem Inv.markDrop (h : s.Inv) (hth : s.threads[t]? = some (.dropping (ptw :: ptws) false)) :
    ({ s with mustDrop := Function.update s.mustDrop ptw.id true }.setThread t
      (.dropping (ptw :: ptws) true)).Inv := by
  have hmem := mem_of_getElem? hth
  have hptw : ptw ∈ s.created := h.held _ hmem ptw (mem_append_left _ mem_cons_self)
  have hset : (s.setThread t (.dropping (ptw :: ptws) true)).Inv :=
    h.setThread hth rfl rfl (h.drops (.dropping (ptw :: ptws) false) hmem)
  refine { hset with fresh := ?_, removed := ?_, dropped := ?_ }
  · intro id hid
    refine ⟨(h.fresh id hid).1, ?_⟩
    have hne : id ≠ ptw.id := fun heq => absurd (h.lt_of_mem hptw) (not_lt.2 (heq ▸ hid))
    change Function.update s.mustDrop ptw.id true id = false
    rw [Function.update_of_ne hne]
    exact (h.fresh id hid).2
  · intro p hp hname
    change Function.update s.mustDrop ptw.id true p.id = true
    rcases eq_or_ne p.id ptw.id with heq | hne
    · rw [heq, Function.update_self]
    · rw [Function.update_of_ne hne]
      exact h.removed p hp hname
  · intro p hp hdrop
    change Function.update s.mustDrop ptw.id true p.id = true at hdrop
    rcases eq_or_ne p.id ptw.id with heq | hne
    · rw [h.eq_of_id_eq hp hptw heq]
      exact h.drops _ hmem ptw mem_cons_self
    · rw [Function.update_of_ne hne] at hdrop
      exact h.dropped p hp hdrop

/-- Partitions are taken out of the list; their references go to the thread. -/
theorem Inv.takeOut (h : s.Inv) (hth : s.threads[t]? = some (.user [])) {st : PartitionsState} (hperm : s.st.partitions.Perm (ptws ++ st.partitions))
    (hsorted : Sorted st.partitions) (hhot : ∀ ptw, st.ptwHot = some ptw → ptw ∈ st.partitions)
    (hdeleted : ∀ day ∈ s.st.deletedPartitions, day ∈ st.deletedPartitions) (hheld : th'.held = ptws)
    (hclose : th'.toClose = []) (hdrops : ∀ ptw ∈ th'.drops, ptw.day ∈ st.deletedPartitions) :
    ({ s with st := st }.setThread t th').Inv := by
  obtain ⟨others, hothers, hset⟩ :=
    exists_others (fun th : RefThread => th.held.map PartitionWrapper.id) hth
  obtain ⟨close, htoClose, hcloseSet⟩ :=
    exists_others (fun th : RefThread => th.toClose.map PartitionWrapper.id) hth
  have hmem := mem_of_getElem? hth
  have hsame : ({ s with st := st }.setThread t th').holders.Perm s.holders := by
    have hset' := hset th'
    simp only [hheld] at hset'
    refine (hset'.append_left _).trans ?_
    have hids := hperm.map PartitionWrapper.id
    rw [map_append] at hids
    refine (perm_append_comm_assoc _ _ _).trans ?_
    rw [← append_assoc]
    exact hids.symm.append hothers.symm
  have hcloseSame : ({ s with st := st }.setThread t th').toClose.Perm s.toClose := by
    have hset' := hcloseSet th'
    simp only [hclose] at hset'
    exact hset'.trans htoClose.symm
  have hsub : ∀ ptw ∈ ptws ++ st.partitions, ptw ∈ s.created := fun ptw hptw =>
    h.listed ptw (hperm.mem_iff.2 hptw)
  refine { h with
    counted := h.counted.perm hsame
    once := h.once_congr (fun _ => hsame.mem_iff) hcloseSame
    sorted := hsorted
    listed := fun ptw hptw => hsub ptw (mem_append_right _ hptw)
    hot := hhot
    held := forall_set h.held ?_
    drops := forall_set (fun th hth ptw hptw => hdeleted _ (h.drops th hth ptw hptw)) hdrops
    dropped := fun p hp hdrop => hdeleted _ (h.dropped p hp hdrop) }
  rw [hheld, hclose, append_nil]
  exact fun ptw hptw => hsub ptw (mem_append_left _ hptw)

/-- A partition is made for a day. -/
theorem Inv.create (h : s.Inv) {day : Int64} (hday : IsDay day) (hfind : s.st.find? day = none)
    (hdeleted : day ∉ s.st.deletedPartitions) (hdir : getPartitionNameFromDay day ∉ s.dirs) :
    Inv { s with
      st := { s.st.insert ⟨s.created.length, day, getPartitionNameFromDay day⟩ with
        ptwHot := some ⟨s.created.length, day, getPartitionNameFromDay day⟩ }
      dirs := s.dirs ++ [getPartitionNameFromDay day]
      created := s.created ++ [⟨s.created.length, day, getPartitionNameFromDay day⟩]
      refCount := incRefs s.refCount [s.created.length] } := by
  set newPtw : PartitionWrapper := ⟨s.created.length, day, getPartitionNameFromDay day⟩ with hnewPtw
  have hnew : ∀ ptw ∈ s.st.partitions, ptw.day ≠ day := (find?_eq_none_iff h.sorted).1 hfind
  -- the directory of an earlier partition of the day would be there, or the day would be deleted
  have hday' : day ∉ s.created.map PartitionWrapper.day := by
    intro hin
    obtain ⟨ptw, hptw, heq⟩ := mem_map.1 hin
    have hname : ptw.name ∉ s.dirs := by
      rw [h.name ptw hptw, heq]
      exact hdir
    have hdropped := h.dropped ptw hptw (h.removed ptw hptw hname)
    rw [heq] at hdropped
    exact hdeleted hdropped
  set s' : Refs := { s with
    st := { s.st.insert newPtw with ptwHot := some newPtw }
    dirs := s.dirs ++ [getPartitionNameFromDay day]
    created := s.created ++ [newPtw]
    refCount := incRefs s.refCount [s.created.length] }
  have hperm : s'.holders.Perm (s.created.length :: s.holders) :=
    ((insert_perm s.st newPtw).map PartitionWrapper.id).append_right _
  have hne : ∀ ptw ∈ s.created, ptw.id ≠ s.created.length := fun ptw hptw => (h.lt_of_mem hptw).ne
  refine ⟨(h.counted.acquireAll [s.created.length]).perm hperm, ?_, ?_, ?_, sorted_insert h.sorted hnew, ?_,
    ?_, ?_, h.drops, ?_, ?_, ?_, ?_, ?_⟩
  · refine forall_mem_append.2 ⟨fun ptw hptw => ?_, forall_mem_singleton.2 ?_⟩
    · have honce := h.once ptw hptw
      simp only [hperm.mem_iff, mem_cons, hne ptw hptw, false_or]
      exact honce
    · have hcloses := (h.fresh s.created.length le_rfl).1
      have hcount : s.toClose.count s.created.length = 0 :=
        count_eq_zero.2 fun hin => lt_irrefl _ (h.lt_of_mem_toClose hin)
      simp only [hperm.mem_iff, hnewPtw, mem_cons_self, if_true]
      change s.closes s.created.length + s.toClose.count s.created.length = 0
      omega
  · rw [map_append, h.ids, length_append, length_singleton, range_succ]
    rfl
  · intro id hid
    rw [length_append, length_singleton] at hid
    exact h.fresh id (by omega)
  · intro ptw hptw
    rcases mem_insert.1 hptw with rfl | hptw
    · exact mem_append_right _ (mem_singleton_self _)
    · exact mem_append_left _ (h.listed ptw hptw)
  · rintro ptw ⟨⟩
    exact mem_insert.2 (.inl rfl)
  · exact fun th hth ptw hptw => mem_append_left _ (h.held th hth ptw hptw)
  · exact forall_mem_append.2 ⟨h.isDay, forall_mem_singleton.2 hday⟩
  · exact forall_mem_append.2 ⟨h.name, forall_mem_singleton.2 rfl⟩
  · rw [map_append]
    exact nodup_append'.2 ⟨h.days, nodup_singleton _, disjoint_singleton.2 hday'⟩
  · refine forall_mem_append.2 ⟨fun ptw hptw hname => ?_, forall_mem_singleton.2 fun hname => ?_⟩
    · exact h.removed ptw hptw fun hin => hname (mem_append_left _ hin)
    · exact absurd (mem_append_right _ (mem_singleton_self _)) hname
  · refine forall_mem_append.2 ⟨h.dropped, forall_mem_singleton.2 fun hdrop => ?_⟩
    change s.mustDrop s.created.length = true at hdrop
    rw [(h.fresh s.created.length le_rfl).2] at hdrop
    cases hdrop

theorem Inv.getForWriting (h : s.Inv) {day : Int64} (hday : IsDay day)
    (hth : s.threads[t]? = some (.user ptws)) : (s.getForWriting t ptws day).Inv := by
  rw [Refs.getForWriting]
  cases hfind : s.st.find? day with
  | some ptw =>
    obtain ⟨hptw, -⟩ := (find?_eq_some_iff h.sorted).1 hfind
    have hinv : ({ s with st := { s.st with ptwHot := some ptw } } : Refs).Inv := by
      refine { h with hot := ?_ }
      rintro hot ⟨⟩
      exact hptw
    exact hinv.acquire hth (forall_mem_singleton.2 hptw)
  | none =>
    simp only [contains_iff_mem]
    split_ifs with hdeleted hdir
    · exact h
    · exact h
    · exact (h.create hday hfind hdeleted hdir).acquire hth (forall_mem_singleton.2 (mem_insert.2 (.inl rfl)))

end Threads

/-! ### Whole runs -/

theorem Inv.goOn {s : Refs} (h : s.Inv) {t : Nat} {th : RefThread} (hth : s.threads[t]? = some th) :
    (s.goOn t th).Inv := by
  have hmem := mem_of_getElem? hth
  cases th with
  | user ptws | panicked ptws => exact h
  | dropping ptws marked =>
    cases ptws with
    | nil => exact h.setThread hth rfl rfl (forall_mem_nil _)
    | cons ptw ptws =>
      cases marked with
      | false => exact h.markDrop hth
      | true =>
        exact h.release hth (List.Perm.refl _) rfl rfl fun p hp => mem_cons_of_mem _ hp
  | detaching ptw => exact h.release hth (List.Perm.refl _) rfl rfl (forall_mem_nil _)
  | waiting ptw =>
    simp only [Refs.goOn]
    split_ifs
    · exact h.setThread hth rfl rfl (forall_mem_nil _)
    · exact h
  | closingStorage ptws check =>
    cases check with
    | none =>
      cases ptws with
      | nil => exact h.setThread hth rfl rfl (forall_mem_nil _)
      | cons ptw ptws => exact h.release hth (List.Perm.refl _) rfl rfl (forall_mem_nil _)
    | some ptw =>
      simp only [Refs.goOn]
      split_ifs
      · exact h.setThread hth rfl rfl (forall_mem_nil _)
      · exact h.setThread hth rfl rfl (forall_mem_nil _)
  | closing ptw next => exact h.close hth

theorem Inv.step {s : Refs} (h : s.Inv) (e : RefEvent) : (s.step e).Inv := by
  -- an event that does not fit its thread changes nothing
  cases e <;> simp only [Refs.step] <;> split <;> try exact h
  · next ptws hth => exact h.acquire hth fun ptw hptw => mem_of_mem_filter hptw
  · next ptws hot hth hhot => exact h.acquire hth (forall_mem_singleton.2 (h.hot hot hhot))
  · next ptws hth => exact h.getForWriting (isDay_div _) hth
  · next ptw ptws hth =>
    split_ifs with hptw
    · exact h.release hth (perm_cons_erase hptw) rfl rfl (forall_mem_nil _)
    · exact h
  · next hth =>
    refine h.takeOut hth (perm_drainFront _) ?_ (hot_mem_drainFront h.hot) ?_ rfl rfl ?_
    · rw [partitions_drainFront]
      exact h.sorted.sublist (drop_sublist _ _)
    · exact fun day hday => mem_deletedPartitions_drainFront.2 (.inl hday)
    · intro ptw hptw
      exact mem_deletedPartitions_drainFront.2 (.inr (mem_map_of_mem hptw))
  · next name _ _ st ptw hth hdetach =>
    have hst : (s.st.detach name).1 = st := by rw [hdetach]
    have hptw : (s.st.detach name).2 = some ptw := by rw [hdetach]
    rw [← hst]
    refine h.takeOut hth (perm_detach hptw) ?_ (hot_mem_detach h.hot) ?_ rfl rfl (forall_mem_nil _)
    · rw [partitions_detach]
      exact h.sorted.sublist eraseP_sublist
    · intro day hday
      rw [PartitionsState.detach]
      split
      · rw [deletedPartitions_clearHot]
        exact hday
      · exact hday
  · next hth =>
    have hperm : s.st.partitions.Perm (s.st.partitions ++ []) := by rw [append_nil]
    exact h.takeOut hth hperm List.Pairwise.nil (fun _ hhot => by cases hhot) (fun _ => id) rfl rfl (forall_mem_nil _)
  · next th hth => exact h.goOn hth

theorem inv_init (threads : Nat) (timestamps : List Int64) : (init threads timestamps).Inv := by
  have hthreads : ∀ th ∈ List.replicate threads (RefThread.user []), th = .user [] :=
    fun th hth => eq_of_mem_replicate hth
  have hheld : (List.replicate threads (RefThread.user [])).flatMap
      (fun th => th.held.map PartitionWrapper.id) = [] := by
    rw [flatMap_eq_nil_iff]
    intro th hth
    rw [hthreads th hth]
    rfl
  have hclose : (init threads timestamps).toClose = [] := by
    rw [toClose, flatMap_eq_nil_iff]
    intro th hth
    rw [hthreads th hth]
    rfl
  have hids : (openedPartitions timestamps).map PartitionWrapper.id =
      List.range (openedPartitions timestamps).length := by
    rw [openedPartitions, map_map, length_map, length_zipIdx, range_eq_range',
      ← zipIdx_map_snd 0]
    exact map_congr_left fun p _ => rfl
  have hdays : (openedPartitions timestamps).map PartitionWrapper.day =
      (timestamps.map (· / nsecsPerDay)).dedup := by
    rw [openedPartitions, map_map]
    nth_rewrite 2 [← zipIdx_map_fst 0 (timestamps.map (· / nsecsPerDay)).dedup]
    exact map_congr_left fun p _ => rfl
  have hholders : (init threads timestamps).holders.Perm
      (List.range (openedPartitions timestamps).length) := by
    rw [holders, ← hids]
    change ((sortPartitions _).map _ ++ (List.replicate threads (RefThread.user [])).flatMap _).Perm _
    rw [hheld, append_nil]
    exact (perm_insertionSort _ _).map _
  have hmem : ∀ id, id ∈ (init threads timestamps).holders ↔ id < (openedPartitions timestamps).length := by
    intro id
    rw [hholders.mem_iff, mem_range]
  have hnodup : ((openedPartitions timestamps).map PartitionWrapper.day).Nodup := by
    rw [hdays]
    exact nodup_dedup _
  refine ⟨?_, ?_, hids, fun id _ => ⟨rfl, rfl⟩, sorted_sortPartitions hnodup,
    fun ptw => mem_sortPartitions.1, fun ptw hptw => (nomatch hptw), ?_, ?_, ?_, ?_, hnodup, ?_,
    fun ptw _ hdrop => (nomatch hdrop)⟩
  · intro id
    rw [hholders.count_eq]
    change (if id < (openedPartitions timestamps).length then (1 : Int) else 0) = _
    split_ifs with hid
    · rw [count_eq_one_of_mem nodup_range (mem_range.2 hid)]
      rfl
    · rw [count_eq_zero.2 fun hin => hid (mem_range.1 hin)]
      rfl
  · intro ptw hptw
    have hid : ptw.id < (openedPartitions timestamps).length := by
      rw [← mem_range, ← hids]
      exact mem_map_of_mem hptw
    rw [hclose, count_nil, if_pos ((hmem ptw.id).2 hid)]
    rfl
  · intro th hth ptw hptw
    rw [hthreads th hth] at hptw
    cases hptw
  · intro th hth ptw hptw
    rw [hthreads th hth] at hptw
    cases hptw
  · intro ptw hptw
    have hday : ptw.day ∈ (timestamps.map (· / nsecsPerDay)).dedup := by
      rw [← hdays]
      exact mem_map_of_mem hptw
    obtain ⟨ts, -, heq⟩ := mem_map.1 (mem_dedup.1 hday)
    rw [← heq]
    exact isDay_div ts
  · intro ptw hptw
    obtain ⟨p, -, rfl⟩ := mem_map.1 hptw
    rfl
  · intro ptw hptw hname
    exact absurd (mem_map_of_mem hptw) hname

/-- A partition is closed at most once, and not while there is a reference to it; when there is none any
more, it is closed or about to be closed by one thread. Its directory is removed only if it is marked for
dropping. -/
structure ReleasedOnce (s : Refs) (ptw : PartitionWrapper) : Prop where
  in_use : ptw.id ∈ s.holders → s.closes ptw.id = 0 ∧ ptw.id ∉ s.toClose
  released : ptw.id ∉ s.holders → s.closes ptw.id + s.toClose.count ptw.id = 1
  removed : ptw.name ∉ s.dirs → s.mustDrop ptw.id = true

/-- In every interleaving of any number of threads, every partition is released once. -/
theorem releasedOnce_of_run (threads : Nat) (timestamps : List Int64) (es : List RefEvent) :
    ∀ ptw ∈ (es.foldl step (init threads timestamps)).created,
      ReleasedOnce (es.foldl step (init threads timestamps)) ptw := by
  have hinv : (es.foldl step (init threads timestamps)).Inv := by
    induction es using List.reverseRecOn with
    | nil => exact inv_init threads timestamps
    | append_singleton es e ih =>
      rw [foldl_append]
      exact ih.step e
  intro ptw hptw
  have honce := hinv.once ptw hptw
  refine ⟨?_, ?_, hinv.removed ptw hptw⟩
  · intro hheld
    rw [if_pos hheld] at honce
    refine ⟨by omega, count_eq_zero.1 (by omega)⟩
  · intro hheld
    rw [if_neg hheld] at honce
    exact honce

/-- In every interleaving the counters are the numbers of the references, a day has one partition only, the hot
partition is listed, and a directory that is gone was that of a deleted day. -/
theorem counted_of_run (threads : Nat) (timestamps : List Int64) (es : List RefEvent) :
    let s := es.foldl step (init threads timestamps)
    Counted s.refCount s.holders ∧ (s.created.map PartitionWrapper.day).Nodup ∧
      (∀ ptw, s.st.ptwHot = some ptw → ptw ∈ s.st.partitions) ∧
      ∀ ptw ∈ s.created, ptw.name ∉ s.dirs → ptw.day ∈ s.st.deletedPartitions := by
  have h : (es.foldl step (init threads timestamps)).Inv :=
    foldlRecOn es step (inv_init threads timestamps) fun _ hs e _ => hs.step e
  exact ⟨h.counted, h.days, h.hot, fun ptw hptw hgone => h.dropped ptw hptw (h.removed ptw hptw hgone)⟩

/-- The retention drops the only partition of a storage while a query has a reference to it. -/
def droppedInUse : List RefEvent :=
  [.getPartitions 0 (fun _ => true), .drain 1 1, .goOn 1, .goOn 1, .goOn 1]

theorem releasedOnce_droppedInUse :
    (⟨0, 0, getPartitionNameFromDay 0⟩ : PartitionWrapper) ∈
        (droppedInUse.foldl step (init 2 [0])).created ∧
      0 ∈ (droppedInUse.foldl step (init 2 [0])).holders ∧
      ReleasedOnce (droppedInUse.foldl step (init 2 [0])) ⟨0, 0, getPartitionNameFromDay 0⟩ :=
  ⟨by decide +kernel, by decide +kernel, releasedOnce_of_run 2 [0] droppedInUse _ (by decide +kernel)⟩

end Refs

end EsLogs.LogStorage
