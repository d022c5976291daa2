import EsLogs.PartitionDay

/-!
The list of the per-day partitions of a storage, as it is changed and read under its lock. The list is
sorted by days; one of its partitions may be the hot one, to which the last rows were written; the days of
the partitions that were dropped are remembered.
-/

namespace EsLogs.LogStorage

open PartitionDay List

variable {ptw : PartitionWrapper} {st : PartitionsState} {name : Bytes} {n : Nat} (ptws : List PartitionWrapper)

/-- `PartitionWrapper`, without its references; the number stands for its address. -/
structure PartitionWrapper where
  id : Nat
  day : Int64
  name : Bytes
  deriving DecidableEq, Repr

def PartitionWrapper.canAddAllRows (ptw : PartitionWrapper) (timestamps : List Int64) : Bool :=
  let minTimestamp := ptw.day * nsecsPerDay
  let maxTimestamp := minTimestamp + nsecsPerDay - 1
  timestamps.all fun ts => !(decide (ts < minTimestamp) || decide (ts > maxTimestamp))

structure PartitionsState where
  partitions : List PartitionWrapper
  ptwHot : Option PartitionWrapper
  deletedPartitions : List Int64

def sortPartitions (ptws : List PartitionWrapper) : List PartitionWrapper :=
  ptws.insertionSort fun a b => a.day ≤ b.day

def partitionPoint (ptws : List PartitionWrapper) (day : Int64) : Nat :=
  (ptws.takeWhile fun ptw => ptw.day < day).length

namespace PartitionsState

def find? (st : PartitionsState) (day : Int64) : Option PartitionWrapper :=
  match st.partitions[partitionPoint st.partitions day]? with
  | some ptw => if ptw.day = day then some ptw else none
  | none => none

def insert (st : PartitionsState) (ptw : PartitionWrapper) : PartitionsState :=
  let n := partitionPoint st.partitions ptw.day
  { st with partitions := st.partitions.take n ++ ptw :: st.partitions.drop n }

def attach (st : PartitionsState) (ptw : PartitionWrapper) : PartitionsState :=
  { st with partitions := sortPartitions (st.partitions ++ [ptw]) }

def updateDeletedPartitions (st : PartitionsState) (ptws : List PartitionWrapper) : PartitionsState :=
  { st with
    deletedPartitions := ptws.foldl
      (fun deleted ptw => if deleted.contains ptw.day then deleted else deleted ++ [ptw.day])
      st.deletedPartitions }

/-- The hot partition is forgotten when it is one of the given partitions. -/
def clearHot (st : PartitionsState) (ptws : List PartitionWrapper) : PartitionsState :=
  match st.ptwHot with
  | some hot => if ptws.any fun ptw => ptw.id = hot.id then { st with ptwHot := none } else st
  | none => st

/-- Takes the first `n` partitions out of the list, for dropping them. -/
def drainFront (st : PartitionsState) (n : Nat) : PartitionsState × List PartitionWrapper :=
  let ptws := st.partitions.take n
  let st := { st with partitions := st.partitions.drop n }
  ((st.updateDeletedPartitions ptws).clearHot ptws, ptws)

def detach (st : PartitionsState) (name : Bytes) : PartitionsState × Option PartitionWrapper :=
  match st.partitions.find? fun ptw => ptw.name = name with
  | some ptw =>
    ({ st with partitions := st.partitions.eraseP fun ptw => ptw.name = name }.clearHot [ptw], some ptw)
  | none => (st, none)

def getPartitionsForTimeRange (st : PartitionsState) (minTimestamp maxTimestamp : Int64) :
    List PartitionWrapper :=
  let minDay := minTimestamp / nsecsPerDay
  let maxDay := maxTimestamp / nsecsPerDay
  st.partitions.filter fun ptw => decide (minDay ≤ ptw.day) && decide (ptw.day ≤ maxDay)

/-- The number of the oldest partitions that `watch_max_disk_space_usage` drops: it adds up the sizes
from the newest partition on, and the last two partitions are kept. -/
def drainPoint (size : PartitionWrapper → Nat) (limitBytes : Nat) (ptws : List PartitionWrapper) : Nat :=
  go ptws.reverse 0
where
  go : List PartitionWrapper → Nat → Nat
    | [], _ => 0
    | ptw :: older, n =>
      let n := n + size ptw
      if n ≤ limitBytes then go older n
      else if older.length ≥ ptws.length - 2 then go older n
      else older.length + 1

end PartitionsState

/-! ### Sorted lists of partitions -/

/-- The partitions are sorted by days, and no two have the same day. -/
def Sorted (ptws : List PartitionWrapper) : Prop :=
  ptws.Pairwise fun a b => a.day.toInt < b.day.toInt

section Sorted

variable {ptws : List PartitionWrapper} {day : Int64}

theorem takeWhile_day_lt (h : ptw ∈ ptws.takeWhile fun ptw => ptw.day < day) : ptw.day.toInt < day.toInt := by
  have hlt := mem_takeWhile_imp h
  rw [decide_eq_true_eq] at hlt
  exact Int64.lt_iff_toInt_lt.1 hlt

/-- The partitions from the search position on are not before the day. -/
theorem Sorted.le_of_mem_drop (h : Sorted ptws)
    (hptw : ptw ∈ ptws.drop (partitionPoint ptws day)) : day.toInt ≤ ptw.day.toInt := by
  have hdrop : ptws.drop (partitionPoint ptws day) = ptws.dropWhile fun ptw => ptw.day < day := by
    rw [partitionPoint]
    nth_rewrite 2 [← takeWhile_append_dropWhile (p := fun ptw => ptw.day < day) (l := ptws)]
    rw [drop_left]
  rw [hdrop] at hptw
  cases hrest : ptws.dropWhile fun ptw => ptw.day < day with
  | nil =>
    rw [hrest] at hptw
    cases hptw
  | cons first rest =>
    have hfirst : day.toInt ≤ first.day.toInt := by
      have hnot := List.head?_dropWhile_not (fun ptw : PartitionWrapper => decide (ptw.day < day)) ptws
      rw [hrest, List.head?_cons] at hnot
      simp only [decide_eq_false_iff_not, Int64.lt_iff_toInt_lt] at hnot
      omega
    have hsorted : Sorted (first :: rest) := by
      rw [← hrest]
      exact h.sublist (dropWhile_sublist _)
    rw [hrest] at hptw
    rcases mem_cons.1 hptw with rfl | hmem
    · exact hfirst
    · exact hfirst.trans (rel_of_pairwise_cons hsorted hmem).le

theorem Sorted.nodup (h : Sorted ptws) : (ptws.map PartitionWrapper.day).Nodup := by
  apply pairwise_map.2
  apply h.imp
  intro a b hlt heq
  rw [heq] at hlt
  exact lt_irrefl _ hlt

theorem take_partitionPoint (day : Int64) :
    ptws.take (partitionPoint ptws day) = ptws.takeWhile fun ptw => ptw.day < day := by
  rw [partitionPoint]
  nth_rewrite 2 [← takeWhile_append_dropWhile (p := fun ptw => ptw.day < day) (l := ptws)]
  rw [take_left]

/-- The search finds the partition of the day. -/
theorem find?_eq_some_iff (h : Sorted st.partitions) :
    st.find? day = some ptw ↔ ptw ∈ st.partitions ∧ ptw.day = day := by
  constructor
  · intro hfind
    rw [PartitionsState.find?] at hfind
    split at hfind
    · next found hget =>
        split_ifs at hfind with hday
        cases hfind
        exact ⟨mem_of_getElem? hget, hday⟩
    · cases hfind
  · rintro ⟨hmem, rfl⟩
    -- the partition is not before the search position, so that it is there
    rw [← take_append_drop (partitionPoint st.partitions ptw.day) st.partitions,
      mem_append, take_partitionPoint] at hmem
    have hdrop : ptw ∈ st.partitions.drop (partitionPoint st.partitions ptw.day) := by
      rcases hmem with hmem | hmem
      · exact absurd (takeWhile_day_lt hmem) (lt_irrefl _)
      · exact hmem
    cases hrest : st.partitions.drop (partitionPoint st.partitions ptw.day) with
    | nil =>
      rw [hrest] at hdrop
      cases hdrop
    | cons first rest =>
      have hget : st.partitions[partitionPoint st.partitions ptw.day]? = some first := by
        rw [← List.head?_drop, hrest, List.head?_cons]
      have hfirst : first = ptw := by
        have hle : ptw.day.toInt ≤ first.day.toInt := by
          apply h.le_of_mem_drop
          rw [hrest]
          exact mem_cons_self
        have hsorted : Sorted (first :: rest) := by
          rw [← hrest]
          exact h.sublist (drop_sublist _ _)
        rw [hrest] at hdrop
        rcases mem_cons.1 hdrop with rfl | hmem
        · rfl
        · exact absurd (rel_of_pairwise_cons hsorted hmem) (not_lt.2 hle)
      rw [PartitionsState.find?, hget, hfirst]
      exact if_pos rfl

theorem find?_eq_none_iff (h : Sorted st.partitions) : st.find? day = none ↔ ∀ ptw ∈ st.partitions, ptw.day ≠ day := by
  constructor
  · intro hnone ptw hptw hday
    rw [(find?_eq_some_iff h).2 ⟨hptw, hday⟩] at hnone
    cases hnone
  · intro hall
    cases hfind : st.find? day with
    | none => rfl
    | some ptw =>
      obtain ⟨hptw, hday⟩ := (find?_eq_some_iff h).1 hfind
      exact absurd hday (hall ptw hptw)

theorem insert_perm (st : PartitionsState) (ptw : PartitionWrapper) :
    (st.insert ptw).partitions.Perm (ptw :: st.partitions) := by
  rw [PartitionsState.insert]
  refine perm_middle.trans ?_
  rw [take_append_drop]

theorem mem_insert {ptw a : PartitionWrapper} : a ∈ (st.insert ptw).partitions ↔ a = ptw ∨ a ∈ st.partitions := by
  rw [(insert_perm st ptw).mem_iff, mem_cons]

theorem sorted_insert (h : Sorted st.partitions)
    (hnew : ∀ a ∈ st.partitions, a.day ≠ ptw.day) : Sorted (st.insert ptw).partitions := by
  rw [PartitionsState.insert]
  have hbefore : ∀ a ∈ st.partitions.take (partitionPoint st.partitions ptw.day),
      a.day.toInt < ptw.day.toInt := by
    intro a ha
    rw [take_partitionPoint] at ha
    exact takeWhile_day_lt ha
  have hafter : ∀ a ∈ st.partitions.drop (partitionPoint st.partitions ptw.day),
      ptw.day.toInt < a.day.toInt := by
    intro a ha
    have hle := h.le_of_mem_drop ha
    have hne : a.day.toInt ≠ ptw.day.toInt := fun heq =>
      hnew a (mem_of_mem_drop ha) (Int64.toInt_inj.1 heq)
    omega
  refine pairwise_append.2 ⟨h.sublist (take_sublist _ _),
    pairwise_cons.2 ⟨hafter, h.sublist (drop_sublist _ _)⟩, ?_⟩
  intro a ha b hb
  rcases mem_cons.1 hb with rfl | hb
  · exact hbefore a ha
  · exact (hbefore a ha).trans (hafter b hb)

theorem mem_sortPartitions {a : PartitionWrapper} : a ∈ sortPartitions ptws ↔ a ∈ ptws :=
  (perm_insertionSort _ ptws).mem_iff

/-- Partitions of different days are sorted. -/
theorem sorted_sortPartitions (h : (ptws.map PartitionWrapper.day).Nodup) :
    Sorted (sortPartitions ptws) := by
  have htotal : Std.Total fun a b : PartitionWrapper => a.day ≤ b.day :=
    ⟨fun a b => Int64.le_total a.day b.day⟩
  have htrans : IsTrans PartitionWrapper fun a b => a.day ≤ b.day :=
    ⟨fun a b c => Int64.le_trans⟩
  have hle : (sortPartitions ptws).Pairwise fun a b => a.day ≤ b.day :=
    pairwise_insertionSort _ ptws
  have hne : (sortPartitions ptws).Pairwise fun a b => a.day ≠ b.day := by
    apply pairwise_map.1
    exact ((perm_insertionSort _ ptws).map PartitionWrapper.day).nodup_iff.2 h
  apply (hle.and hne).imp
  rintro a b ⟨hab, hab'⟩
  have hint : a.day.toInt ≠ b.day.toInt := fun heq => hab' (Int64.toInt_inj.1 heq)
  rw [Int64.le_iff_toInt_le] at hab
  omega

end Sorted

/-! ### What the operations leave in the list -/

section Operations

variable {st : PartitionsState}

@[simp]
theorem partitions_clearHot : (st.clearHot ptws).partitions = st.partitions := by
  rw [PartitionsState.clearHot]
  split
  · split_ifs <;> rfl
  · rfl

/-- A partition that is hot afterwards was hot and is none of the given ones. -/
theorem ptwHot_clearHot (st : PartitionsState) (ptws : List PartitionWrapper) {hot : PartitionWrapper}
    (h : (st.clearHot ptws).ptwHot = some hot) :
    st.ptwHot = some hot ∧ ∀ ptw ∈ ptws, ptw.id ≠ hot.id := by
  rw [PartitionsState.clearHot] at h
  cases hhot : st.ptwHot with
  | none =>
    rw [hhot] at h
    simp only [hhot] at h
    cases h
  | some hot' =>
    simp only [hhot] at h
    split_ifs at h with hany
    · rw [hhot] at h
      cases h
      refine ⟨rfl, fun ptw hptw heq => hany ?_⟩
      exact any_eq_true.2 ⟨ptw, hptw, decide_eq_true heq⟩

@[simp]
theorem partitions_drainFront (n : Nat) : (st.drainFront n).1.partitions = st.partitions.drop n := by
  rw [PartitionsState.drainFront, partitions_clearHot, PartitionsState.updateDeletedPartitions]

theorem ptwHot_drainFront {hot : PartitionWrapper} (h : (st.drainFront n).1.ptwHot = some hot) :
    st.ptwHot = some hot ∧ ∀ ptw ∈ st.partitions.take n, ptw.id ≠ hot.id := by
  have hclear : (({ st with partitions := st.partitions.drop n }.updateDeletedPartitions
      (st.partitions.take n)).clearHot (st.partitions.take n)).ptwHot = some hot := h
  obtain ⟨hhot, hne⟩ := ptwHot_clearHot _ _ hclear
  exact ⟨hhot, hne⟩

theorem partitions_detach (name : Bytes) :
    (st.detach name).1.partitions = st.partitions.eraseP fun ptw => ptw.name = name := by
  rw [PartitionsState.detach]
  split
  · rw [partitions_clearHot]
  · next hnone =>
      rw [List.find?_eq_none] at hnone
      exact (eraseP_of_forall_not hnone).symm

theorem ptwHot_detach {hot : PartitionWrapper} (h : (st.detach name).1.ptwHot = some hot) :
    st.ptwHot = some hot ∧ ∀ ptw, (st.detach name).2 = some ptw → ptw.id ≠ hot.id := by
  rw [PartitionsState.detach] at h ⊢
  split at h
  · next ptw hfind =>
      obtain ⟨hhot, hne⟩ := ptwHot_clearHot _ _ h
      refine ⟨hhot, ?_⟩
      rintro _ ⟨⟩
      exact hne ptw (mem_singleton_self _)
  · exact ⟨h, fun ptw heq => nomatch heq⟩

@[simp]
theorem deletedPartitions_clearHot : (st.clearHot ptws).deletedPartitions = st.deletedPartitions := by
  rw [PartitionsState.clearHot]
  split
  · split_ifs <;> rfl
  · rfl

theorem mem_updateDeletedPartitions {ptws : List PartitionWrapper} {day : Int64} :
    day ∈ (st.updateDeletedPartitions ptws).deletedPartitions ↔
      day ∈ st.deletedPartitions ∨ day ∈ ptws.map PartitionWrapper.day := by
  rw [PartitionsState.updateDeletedPartitions]
  simp only
  generalize st.deletedPartitions = deleted
  induction ptws generalizing deleted with
  | nil => simp
  | cons ptw ptws ih =>
    rw [foldl_cons, ih, map_cons, mem_cons, ← or_assoc]
    refine or_congr ?_ Iff.rfl
    simp only [contains_iff_mem]
    split_ifs with hin
    · exact ⟨.inl, fun h => h.elim id fun heq => heq ▸ hin⟩
    · rw [mem_append, mem_singleton]

/-- The days of the partitions that are taken out are remembered. -/
theorem mem_deletedPartitions_drainFront {day : Int64} : day ∈ (st.drainFront n).1.deletedPartitions ↔
      day ∈ st.deletedPartitions ∨ day ∈ (st.partitions.take n).map PartitionWrapper.day := by
  rw [PartitionsState.drainFront, deletedPartitions_clearHot]
  exact mem_updateDeletedPartitions

theorem perm_drainFront (n : Nat) :
    st.partitions.Perm ((st.drainFront n).2 ++ (st.drainFront n).1.partitions) := by
  rw [partitions_drainFront]
  change st.partitions.Perm (st.partitions.take n ++ st.partitions.drop n)
  rw [take_append_drop]

theorem perm_detach (h : (st.detach name).2 = some ptw) :
    st.partitions.Perm (ptw :: (st.detach name).1.partitions) := by
  rw [partitions_detach]
  rw [PartitionsState.detach] at h
  split at h
  · next found hfind =>
      cases h
      obtain ⟨hname, before, after, heq, hbefore⟩ := List.find?_eq_some_iff_append.1 hfind
      have herase : st.partitions.eraseP (fun ptw => ptw.name = name) = before ++ after := by
        have hnot : ∀ b ∈ before, ¬(decide (b.name = name)) = true := by
          intro b hb
          simpa using hbefore b hb
        rw [heq, eraseP_append_right _ hnot, eraseP_cons_of_pos (p := fun b : PartitionWrapper => decide (b.name = name)) hname]
      rw [herase, heq]
      exact perm_middle
  · cases h

/-- The hot partition is one of the list, after partitions were taken out. -/
theorem hot_mem_drainFront (h : ∀ ptw, st.ptwHot = some ptw → ptw ∈ st.partitions) :
    ∀ ptw, (st.drainFront n).1.ptwHot = some ptw → ptw ∈ (st.drainFront n).1.partitions := by
  intro hot hhot
  obtain ⟨hold, hne⟩ := ptwHot_drainFront hhot
  rcases mem_append.1 ((perm_drainFront n).mem_iff.1 (h hot hold)) with hmem | hmem
  · exact absurd rfl (hne hot hmem)
  · exact hmem

theorem hot_mem_detach (h : ∀ ptw, st.ptwHot = some ptw → ptw ∈ st.partitions) :
    ∀ ptw, (st.detach name).1.ptwHot = some ptw → ptw ∈ (st.detach name).1.partitions := by
  intro hot hhot
  obtain ⟨hold, hne⟩ := ptwHot_detach hhot
  have hmem := h hot hold
  cases hptw : (st.detach name).2 with
  | some ptw =>
    rcases mem_cons.1 ((perm_detach hptw).mem_iff.1 hmem) with rfl | hmem
    · exact absurd rfl (hne hot hptw)
    · exact hmem
  | none =>
    rw [PartitionsState.detach] at hptw ⊢
    split at hptw
    · cases hptw
    · exact hmem

end Operations

end EsLogs.LogStorage
