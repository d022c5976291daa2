import EsLogs.Storage

/-!
Every partition of a storage has the name of its day, and the list of the attached partitions is sorted
without duplicate days. A row is in the partition of the day that its timestamp has when it is rounded
towards zero (when it was added one by one) or rounded down (when it was added with a batch for the hot
partition).
-/

namespace EsLogs.LogStorage

open PartitionDay List

variable {α : Type}

variable {ptw : PartitionWrapper} {lr : List (Row α)} {r : Row α}

/-! ### Days -/

def calendarDay (ts : Int64) : Int := ts.toInt / 86400000000000

/-- The two ways of rounding agree on the timestamps that are not negative, and at the beginning of a
day. -/
theorem toInt_day_eq_calendarDay_iff (ts : Int64) :
    (ts / nsecsPerDay).toInt = calendarDay ts ↔ 0 ≤ ts.toInt ∨ (86400000000000 : Int) ∣ ts.toInt := by
  rw [toInt_div_nsecsPerDay, calendarDay]
  rcases tdiv_day ts.toInt with ⟨hsign, hdiv⟩ | ⟨hsign, hdiv⟩
  · rw [hdiv]
    exact ⟨fun _ => .inl hsign, fun _ => rfl⟩
  · rw [hdiv]
    omega

theorem tdiv_day_mono {a b : Int} (h : a ≤ b) :
    a.tdiv 86400000000000 ≤ b.tdiv 86400000000000 := by
  have ha := tdiv_day a
  have hb := tdiv_day b
  omega

theorem day_mono {a b : Int64} (h : a ≤ b) : a / nsecsPerDay ≤ b / nsecsPerDay := by
  rw [Int64.le_iff_toInt_le, toInt_div_nsecsPerDay, toInt_div_nsecsPerDay]
  exact tdiv_day_mono (Int64.le_iff_toInt_le.1 h)

theorem getPartitionNameFromDay_injective {a b : Int64} (ha : IsDay a) (hb : IsDay b)
    (h : getPartitionNameFromDay a = getPartitionNameFromDay b) : a = b := by
  have hday := getPartitionDayFromName_getPartitionNameFromDay ha
  rw [h, getPartitionDayFromName_getPartitionNameFromDay hb] at hday
  cases hday
  rfl

/-- The timestamps of a batch that fits a partition have its day as their calendar day. On the last day of
the 64-bit timestamps the upper bound overflows, and no batch with a row fits. -/
theorem calendarDay_of_canAddAllRows (hday : IsDay ptw.day)
    {timestamps : List Int64} (h : ptw.canAddAllRows timestamps = true) :
    ∀ ts ∈ timestamps, calendarDay ts = ptw.day.toInt := by
  intro ts hts
  have hin := all_eq_true.1 h ts hts
  simp only [Bool.not_eq_true', Bool.or_eq_false_iff, decide_eq_false_iff_not, gt_iff_lt,
    Int64.lt_iff_toInt_lt, not_lt] at hin
  obtain ⟨hmin, hmax⟩ := hin
  rw [toInt_mul_nsecsPerDay hday] at hmin
  have hle := hday.2
  have hge := hday.1
  rw [calendarDay]
  rcases hle.lt_or_eq with hlt | heq
  · have hnext : (ptw.day * nsecsPerDay + nsecsPerDay - 1).toInt =
        ptw.day.toInt * 86400000000000 + 86400000000000 - 1 := by
      have hadd : (ptw.day * nsecsPerDay + nsecsPerDay).toInt =
          ptw.day.toInt * 86400000000000 + 86400000000000 := by
        rw [Int64.toInt_add, toInt_mul_nsecsPerDay hday, toInt_nsecsPerDay]
        apply bmod_of_range
        · omega
        · omega
      have hone : (1 : Int64).toInt = 1 := by decide
      rw [Int64.toInt_sub, hadd, hone]
      apply bmod_of_range
      · omega
      · omega
    rw [hnext] at hmax
    omega
  · have hlast : ptw.day = 106751 := Int64.toInt_inj.1 heq
    have hwrapped : ((106751 : Int64) * nsecsPerDay + nsecsPerDay - 1).toInt < 0 := by decide
    rw [hlast] at hmax
    omega

/-! ### The invariant -/

/-- A row with this timestamp belongs to a partition of the day. -/
def BelongsTo (ts day : Int64) : Prop := day = ts / nsecsPerDay ∨ day.toInt = calendarDay ts

namespace Storage

/-- What holds between the operations on a storage. -/
structure Inv (s : Storage α) : Prop where
  sorted : Sorted s.st.partitions
  isDay : ∀ ptw ∈ s.st.partitions, IsDay ptw.day
  name : ∀ ptw ∈ s.st.partitions, ptw.name = getPartitionNameFromDay ptw.day
  mem_dirs : ∀ ptw ∈ s.st.partitions, ptw.name ∈ s.dirs
  hot : ∀ ptw, s.st.ptwHot = some ptw → ptw ∈ s.st.partitions
  dirs_nodup : s.dirs.Nodup
  dirs_name : ∀ name ∈ s.dirs, ∃ day, IsDay day ∧ name = getPartitionNameFromDay day
  rows : ∀ day, IsDay day → ∀ r ∈ s.data (getPartitionNameFromDay day), BelongsTo r.timestamp day

theorem inv_init (settings : Settings) : (init settings : Storage α).Inv where
  sorted := List.Pairwise.nil
  isDay := by simp [init]
  name := by simp [init]
  mem_dirs := by simp [init]
  hot := by simp [init]
  dirs_nodup := nodup_nil
  dirs_name := by simp [init]
  rows := by simp [init]

variable {s : Storage α}

/-- The rows that a partition gets belong to it. -/
theorem Inv.addTo (h : s.Inv) (hptw : ptw ∈ s.st.partitions)
    {rows : List (Row α)} (hrows : ∀ r ∈ rows, BelongsTo r.timestamp ptw.day) : (s.addTo ptw rows).Inv := by
  refine { h with rows := ?_ }
  intro day hday r hr
  simp only [Storage.addTo] at hr
  rcases eq_or_ne (getPartitionNameFromDay day) ptw.name with heq | hne
  · have hsame : day = ptw.day :=
      getPartitionNameFromDay_injective hday (h.isDay ptw hptw) (heq.trans (h.name ptw hptw))
    rw [heq, Function.update_self] at hr
    rcases mem_append.1 hr with hold | hnew
    · rw [← heq] at hold
      exact h.rows day hday r hold
    · rw [hsame]
      exact hrows r hnew
  · rw [Function.update_of_ne hne] at hr
    exact h.rows day hday r hr

/-- What holds of the partitions of a list and of another one. -/
theorem forall_of_mem_iff {ptws ptws' : List PartitionWrapper} {new : PartitionWrapper}
    (hmem : ∀ ptw, ptw ∈ ptws' ↔ ptw = new ∨ ptw ∈ ptws) {P : PartitionWrapper → Prop} (hnew : P new)
    (h : ∀ ptw ∈ ptws, P ptw) : ∀ ptw ∈ ptws', P ptw := by
  intro ptw hptw
  rcases (hmem ptw).1 hptw with rfl | hptw
  · exact hnew
  · exact h ptw hptw

/-- A partition that is got for writing is attached and has the day. -/
theorem Inv.getPartitionForWriting (h : s.Inv) {day : Int64} (hday : IsDay day) :
    (s.getPartitionForWriting day).1.Inv ∧
      ∀ ptw, (s.getPartitionForWriting day).2 = some ptw →
        ptw ∈ (s.getPartitionForWriting day).1.st.partitions ∧ ptw.day = day := by
  rw [Storage.getPartitionForWriting]
  cases hfind : s.st.find? day with
  | some ptw =>
    obtain ⟨hmem, hptw⟩ := (find?_eq_some_iff h.sorted).1 hfind
    refine ⟨{ h with hot := ?_ }, ?_⟩
    · rintro hot ⟨⟩
      exact hmem
    · rintro _ ⟨⟩
      exact ⟨hmem, hptw⟩
  | none =>
    have hnew := (find?_eq_none_iff h.sorted).1 hfind
    simp only
    split_ifs with hdeleted hexists
    · exact ⟨h, fun ptw heq => nomatch heq⟩
    · exact ⟨h, fun ptw heq => nomatch heq⟩
    · rw [contains_iff_mem] at hexists
      refine ⟨⟨sorted_insert h.sorted hnew, ?_, ?_, ?_, ?_, ?_, ?_, ?_⟩, ?_⟩
      · exact forall_of_mem_iff (fun _ => mem_insert) hday h.isDay
      · exact forall_of_mem_iff (fun _ => mem_insert) rfl h.name
      · exact forall_of_mem_iff (fun _ => mem_insert) (mem_append_right _ (mem_singleton_self _))
          fun ptw hptw => mem_append_left _ (h.mem_dirs ptw hptw)
      · rintro hot ⟨⟩
        exact mem_insert.2 (.inl rfl)
      · exact nodup_append'.2 ⟨h.dirs_nodup, nodup_singleton _, disjoint_singleton.2 hexists⟩
      · exact forall_mem_append.2 ⟨h.dirs_name, forall_mem_singleton.2 ⟨day, hday, rfl⟩⟩
      · intro day' hday' r hr
        rcases eq_or_ne (getPartitionNameFromDay day') (getPartitionNameFromDay day) with heq | hne
        · simp only [heq, Function.update_self] at hr
          cases hr
        · simp only [Function.update_of_ne hne] at hr
          exact h.rows day' hday' r hr
      · rintro _ ⟨⟩
        exact ⟨mem_insert.2 (.inl rfl), rfl⟩

/-! ### Adding rows -/

/-- The partitions stay attached, and keep their rows. -/
structure Grows (s s' : Storage α) : Prop where
  partitions : ∀ ptw ∈ s.st.partitions, ptw ∈ s'.st.partitions
  data : ∀ ptw ∈ s.st.partitions, ∀ r ∈ s.data ptw.name, r ∈ s'.data ptw.name

theorem Grows.refl (s : Storage α) : s.Grows s := ⟨fun _ h => h, fun _ _ _ h => h⟩

theorem Grows.trans {s s' s'' : Storage α} (h : s.Grows s') (h' : s'.Grows s'') : s.Grows s'' where
  partitions := fun ptw hptw => h'.partitions ptw (h.partitions ptw hptw)
  data := fun ptw hptw r hr => h'.data ptw (h.partitions ptw hptw) r (h.data ptw hptw r hr)

theorem data_addTo (s : Storage α) (ptw : PartitionWrapper) (rows : List (Row α)) {name : Bytes}
    (hr : r ∈ s.data name) : r ∈ (s.addTo ptw rows).data name := by
  rw [Storage.addTo]
  rcases eq_or_ne name ptw.name with rfl | hne
  · simp only [Function.update_self]
    exact mem_append_left _ hr
  · simp only [Function.update_of_ne hne]
    exact hr

theorem mem_data_addTo (s : Storage α) (ptw : PartitionWrapper) {rows : List (Row α)}
    (hr : r ∈ rows) : r ∈ (s.addTo ptw rows).data ptw.name := by
  simp only [Storage.addTo, Function.update_self]
  exact mem_append_right _ hr

theorem grows_addTo (s : Storage α) (ptw : PartitionWrapper) (rows : List (Row α)) :
    s.Grows (s.addTo ptw rows) :=
  ⟨fun _ h => h, fun _ _ _ hr => data_addTo s ptw rows hr⟩

/-- The directory of a new partition was not there before. -/
theorem Inv.grows_getPartitionForWriting (h : s.Inv) (day : Int64) :
    s.Grows (s.getPartitionForWriting day).1 := by
  rw [Storage.getPartitionForWriting]
  cases s.st.find? day with
  | some ptw => exact ⟨fun _ h => h, fun _ _ _ hr => hr⟩
  | none =>
    simp only
    split_ifs with hdeleted hexists
    · exact Grows.refl s
    · exact Grows.refl s
    · rw [contains_iff_mem] at hexists
      refine ⟨fun ptw hptw => mem_insert.2 (.inr hptw), ?_⟩
      intro ptw hptw r hr
      have hne : ptw.name ≠ getPartitionNameFromDay day := by
        intro heq
        rw [← heq] at hexists
        exact hexists (h.mem_dirs ptw hptw)
      simp only [Function.update_of_ne hne]
      exact hr

/-- The rows that were handed to partitions are there. -/
def Stored (s : Storage α) (writes : List (PartitionWrapper × List (Row α))) : Prop :=
  ∀ w ∈ writes, w.1 ∈ s.st.partitions ∧ ∀ r ∈ w.2, r ∈ s.data w.1.name

/-- The groups of the slow path. -/
def Grouped (m : Groups α) : Prop :=
  ∀ g ∈ m, IsDay g.1 ∧ ∀ r ∈ g.2, r.timestamp / nsecsPerDay = g.1

theorem Inv.writeGroups (h : s.Inv) {m : Groups α} (hm : Grouped m) :
    (s.writeGroups m).1.Inv ∧ s.Grows (s.writeGroups m).1 ∧
      (s.writeGroups m).1.Stored (s.writeGroups m).2 := by
  induction m generalizing s with
  | nil =>
    exact ⟨h, Grows.refl s, forall_mem_nil _⟩
  | cons g m ih =>
    obtain ⟨day, rows⟩ := g
    obtain ⟨hday, hrows⟩ := hm (day, rows) mem_cons_self
    have hrest : Grouped m := fun g hg => hm g (mem_cons_of_mem _ hg)
    obtain ⟨hinv, hgot⟩ := h.getPartitionForWriting hday
    have hgrows := h.grows_getPartitionForWriting day
    rw [Storage.writeGroups]
    cases hget : s.getPartitionForWriting day with
    | mk s' ptw =>
      rw [hget] at hinv hgot hgrows
      cases ptw with
      | some ptw =>
        obtain ⟨hptw, hsame⟩ := hgot ptw rfl
        have hbelongs : ∀ r ∈ rows, BelongsTo r.timestamp ptw.day := by
          intro r hr
          rw [hsame]
          exact .inl (hrows r hr).symm
        obtain ⟨hinv', hgrows', hstored⟩ := ih (hinv.addTo hptw hbelongs) hrest
        refine ⟨hinv', hgrows.trans ((grows_addTo s' ptw rows).trans hgrows'), ?_⟩
        refine forall_mem_cons.2 ⟨⟨hgrows'.partitions ptw hptw, fun r hr => ?_⟩, hstored⟩
        exact hgrows'.data ptw hptw r (mem_data_addTo s' ptw hr)
      | none =>
        cases rows with
        | nil =>
          exact ⟨hinv, hgrows, forall_mem_nil _⟩
        | cons r rows =>
          obtain ⟨hinv', hgrows', hstored⟩ := ih hinv hrest
          exact ⟨hinv', hgrows.trans hgrows', hstored⟩

theorem grouped_groups (mustAddInsertRow : α → Bool) (cfg : Settings) (now : Int64) (lr : List (Row α)) :
    Grouped (groups mustAddInsertRow cfg now lr) := by
  intro g hg
  obtain ⟨day, hday, rfl⟩ := mem_map.1 hg
  rw [mem_dedup] at hday
  obtain ⟨r, -, rfl⟩ := mem_map.1 hday
  refine ⟨isDay_div r.timestamp, ?_⟩
  intro r' hr'
  have hboth := (mem_filter.1 hr').2
  rw [Bool.and_eq_true, decide_eq_true_eq] at hboth
  exact hboth.1

theorem Grouped.perm {m m' : Groups α} (h : Grouped m) (hperm : m'.Perm m) : Grouped m' :=
  fun g hg => h g (hperm.mem_iff.1 hg)

theorem mustAddRows_of_fitsHot {mustAddInsertRow : α → Bool} {drain : Drain α} {now : Int64} {hot : PartitionWrapper} (hhot : s.st.ptwHot = some hot)
    (hfits : hot.canAddAllRows (lr.map Row.timestamp) = true) :
    s.mustAddRows mustAddInsertRow drain now lr = (s.addTo hot lr, [(hot, lr)]) := by
  rw [mustAddRows, hhot]
  simp only [hfits, if_true]

/-- The counters of the rows that are dropped do not matter. -/
theorem Inv.setDropped (h : s.Inv) (small big : Nat) : ({ s with
    rowsDroppedTooSmallTimestamp := small, rowsDroppedTooBigTimestamp := big } : Storage α).Inv :=
  { h with }

theorem mustAddRows_of_not_fitsHot {mustAddInsertRow : α → Bool} {drain : Drain α} {now : Int64} (hfits : s.fitsHot lr = false) :
    s.mustAddRows mustAddInsertRow drain now lr = mustAddRows.slowPath mustAddInsertRow drain s now lr := by
  rw [fitsHot] at hfits
  rw [mustAddRows]
  cases hhot : s.st.ptwHot with
  | none => rfl
  | some hot =>
    rw [hhot] at hfits
    simp only at hfits
    simp only [hfits, Bool.false_eq_true, if_false]

theorem fitsHot_eq_true_iff : s.fitsHot lr = true ↔
      ∃ hot, s.st.ptwHot = some hot ∧ hot.canAddAllRows (lr.map Row.timestamp) = true := by
  rw [fitsHot]
  cases s.st.ptwHot with
  | none | some hot => simp

theorem Inv.mustAddRows (h : s.Inv) (mustAddInsertRow : α → Bool) (drain : Drain α) (now : Int64)
    (lr : List (Row α)) :
    (s.mustAddRows mustAddInsertRow drain now lr).1.Inv ∧
      (s.mustAddRows mustAddInsertRow drain now lr).1.Stored
        (s.mustAddRows mustAddInsertRow drain now lr).2 := by
  cases hfits : s.fitsHot lr with
  | true =>
    obtain ⟨hot, hhot, hcan⟩ := fitsHot_eq_true_iff.1 hfits
    have hmem := h.hot hot hhot
    have hcalendar := calendarDay_of_canAddAllRows (h.isDay hot hmem) hcan
    rw [mustAddRows_of_fitsHot hhot hcan]
    refine ⟨h.addTo hmem ?_, ?_⟩
    · intro r hr
      exact .inr (hcalendar r.timestamp (mem_map_of_mem hr)).symm
    · exact forall_mem_singleton.2 ⟨hmem, fun r hr => mem_data_addTo s hot hr⟩
  | false =>
    rw [mustAddRows_of_not_fitsHot hfits]
    have hgrouped := (grouped_groups mustAddInsertRow s.settings now lr).perm (drain.perm _)
    exact ⟨((h.setDropped _ _).writeGroups hgrouped).1, ((h.setDropped _ _).writeGroups hgrouped).2.2⟩

/-! ### The other operations -/

/-- Partitions are taken out of the list. -/
theorem Inv.sublist (h : s.Inv) (st : PartitionsState) (hsub : st.partitions.Sublist s.st.partitions)
    (hhot : ∀ ptw, st.ptwHot = some ptw → ptw ∈ st.partitions) : ({ s with st := st } : Storage α).Inv :=
  { h with
    sorted := h.sorted.sublist hsub
    isDay := fun ptw hptw => h.isDay ptw (hsub.subset hptw)
    name := fun ptw hptw => h.name ptw (hsub.subset hptw)
    mem_dirs := fun ptw hptw => h.mem_dirs ptw (hsub.subset hptw)
    hot := hhot }

/-- Directories of partitions that are not attached are removed. -/
theorem Inv.removeDirs (h : s.Inv) {ptws : List PartitionWrapper}
    (hne : ∀ ptw ∈ s.st.partitions, ∀ ptw' ∈ ptws, ptw.name ≠ ptw'.name) : (s.removeDirs ptws).Inv := by
  refine { h with
    mem_dirs := fun ptw hptw => mem_filter.2 ⟨h.mem_dirs ptw hptw, ?_⟩
    dirs_nodup := h.dirs_nodup.filter _
    dirs_name := fun name hname => h.dirs_name name (mem_filter.1 hname).1
    rows := fun day hday r hr => ?_ }
  · rw [Bool.not_eq_true', ← Bool.not_eq_true, contains_iff_mem]
    intro hmem
    obtain ⟨ptw', hptw', heq⟩ := mem_map.1 hmem
    exact hne ptw hptw ptw' hptw' heq.symm
  · simp only [Storage.removeDirs] at hr
    split_ifs at hr
    · cases hr
    · exact h.rows day hday r hr

theorem Inv.name_injective (h : s.Inv) {a b : PartitionWrapper} (ha : a ∈ s.st.partitions)
    (hb : b ∈ s.st.partitions) (heq : a.name = b.name) : a = b := by
  apply inj_on_of_nodup_map h.sorted.nodup ha hb
  rw [h.name a ha, h.name b hb] at heq
  exact getPartitionNameFromDay_injective (h.isDay a ha) (h.isDay b hb) heq

theorem Inv.dropFront (h : s.Inv) (n : Nat) : (s.dropFront n).Inv := by
  have hdisjoint := disjoint_take_drop (h.sorted.nodup.of_map _) (le_refl n)
  have hinv : ({ s with st := (s.st.drainFront n).1 } : Storage α).Inv := by
    apply h.sublist
    · rw [partitions_drainFront]
      exact drop_sublist _ _
    · exact hot_mem_drainFront h.hot
  apply hinv.removeDirs
  intro ptw hptw ptw' hptw' heq
  simp only [partitions_drainFront] at hptw
  have hsame := h.name_injective (mem_of_mem_drop hptw) (mem_of_mem_take hptw') heq
  exact hdisjoint hptw' (hsame ▸ hptw)

theorem Inv.partitionDetach (h : s.Inv) (name : Bytes) : (s.partitionDetach name).Inv := by
  apply h.sublist
  · rw [partitions_detach]
    exact eraseP_sublist
  · exact hot_mem_detach h.hot

theorem Inv.partitionAttach (h : s.Inv) (name : Bytes) : (s.partitionAttach name).Inv := by
  rw [Storage.partitionAttach]
  cases hparse : getPartitionDayFromName name with
  | error e => exact h
  | ok day =>
    simp only
    split_ifs with hdeleted hattached hmissing
    · exact h
    · exact h
    · exact h
    · rw [Bool.not_eq_true', ← Bool.not_eq_true, not_not, contains_iff_mem] at hmissing
      -- the directory was made for the day that its name is parsed to
      obtain ⟨day', hday', hname⟩ := h.dirs_name name hmissing
      have hday : day = day' := by
        rw [hname, getPartitionDayFromName_getPartitionNameFromDay hday'] at hparse
        cases hparse
        rfl
      rw [hday]
      have hmem : ∀ ptw, ptw ∈ (s.st.attach ⟨s.nextId, day', name⟩).partitions ↔
          ptw = ⟨s.nextId, day', name⟩ ∨ ptw ∈ s.st.partitions := by
        intro ptw
        rw [PartitionsState.attach, mem_sortPartitions, mem_append, mem_singleton, or_comm]
      have hnew : day' ∉ s.st.partitions.map PartitionWrapper.day := by
        intro hin
        obtain ⟨ptw, hptw, heq⟩ := mem_map.1 hin
        refine hattached (any_eq_true.2 ⟨ptw, hptw, decide_eq_true ?_⟩)
        rw [h.name ptw hptw, heq, hname]
      refine { h with
        sorted := ?_
        isDay := forall_of_mem_iff hmem hday' h.isDay
        name := forall_of_mem_iff hmem hname h.name
        mem_dirs := forall_of_mem_iff hmem hmissing h.mem_dirs
        hot := fun ptw hptw => (hmem ptw).2 (.inr (h.hot ptw hptw)) }
      apply sorted_sortPartitions
      rw [map_append]
      exact nodup_append'.2 ⟨h.sorted.nodup, nodup_singleton _, disjoint_singleton.2 hnew⟩

/-- The days of the partitions are recovered from the names of the directories. -/
theorem openPartitions_eq_ok {names : List Bytes}
    (h : ∀ name ∈ names, ∃ day, IsDay day ∧ name = getPartitionNameFromDay day) (id : Nat) :
    ∃ ptws, openPartitions id names = .ok ptws ∧ ptws.map PartitionWrapper.name = names ∧
      ∀ ptw ∈ ptws, IsDay ptw.day ∧ ptw.name = getPartitionNameFromDay ptw.day := by
  induction names generalizing id with
  | nil => exact ⟨[], rfl, rfl, fun ptw hptw => nomatch hptw⟩
  | cons name names ih =>
    obtain ⟨day, hday, hname⟩ := h name mem_cons_self
    obtain ⟨ptws, hopen, hmap, hall⟩ := ih (fun n hn => h n (mem_cons_of_mem _ hn)) (id + 1)
    refine ⟨⟨id, day, name⟩ :: ptws, ?_, ?_, ?_⟩
    · rw [openPartitions, hname, getPartitionDayFromName_getPartitionNameFromDay hday]
      simp only [hopen, except_ok_bind]
      rfl
    · rw [map_cons, hmap]
    · exact forall_mem_cons.2 ⟨⟨hday, hname⟩, hall⟩

/-- All directories are opened again, and the partitions from the future are dropped. -/
theorem Inv.reopen (h : s.Inv) (settings : Settings) (now : Int64) :
    ∃ s', s.reopen settings now = .ok s' ∧ s'.Inv := by
  obtain ⟨ptws, hopen, hmap, hall⟩ := openPartitions_eq_ok h.dirs_name s.nextId
  rw [Storage.reopen, hopen, except_ok_bind]
  refine ⟨_, rfl, ?_⟩
  set all := sortPartitions ptws
  have hmem : ∀ ptw ∈ all, ptw ∈ ptws := fun ptw => mem_sortPartitions.1
  have hdays : (ptws.map PartitionWrapper.day).Nodup := by
    have hnames : (ptws.map PartitionWrapper.name).Nodup := by
      rw [hmap]
      exact h.dirs_nodup
    apply pairwise_map.2
    apply (pairwise_map.1 hnames).imp_of_mem
    intro a b ha hb hne heq
    rw [(hall a ha).2, (hall b hb).2, heq] at hne
    exact hne rfl
  have hopened : ({ s with
      settings := settings
      st := ⟨all, none, []⟩
      nextId := s.nextId + all.length
      rowsDroppedTooSmallTimestamp := 0
      rowsDroppedTooBigTimestamp := 0 } : Storage α).Inv := by
    refine ⟨sorted_sortPartitions hdays, ?_, ?_, ?_, ?_, h.dirs_nodup, h.dirs_name, h.rows⟩
    · exact fun ptw hptw => (hall ptw (hmem ptw hptw)).1
    · exact fun ptw hptw => (hall ptw (hmem ptw hptw)).2
    · intro ptw hptw
      rw [← hmap]
      exact mem_map_of_mem (hmem ptw hptw)
    · rintro ptw ⟨⟩
  set dropped := all.reverse.takeWhile fun ptw => settings.getMaxAllowedDay now < ptw.day
  have hdropped : dropped = (all.drop (all.length - dropped.length)).reverse := by
    rw [← take_reverse]
    exact prefix_iff_eq_take.1 (List.takeWhile_prefix _)
  have hkept := hopened.sublist ⟨all.take (all.length - dropped.length), none, []⟩
    (take_sublist _ _) (fun ptw heq => nomatch heq)
  apply hkept.removeDirs
  intro ptw hptw ptw' hptw' heq
  rw [hdropped, mem_reverse] at hptw'
  have hsame := hopened.name_injective (mem_of_mem_take hptw) (mem_of_mem_drop hptw') heq
  exact disjoint_take_drop (hopened.sorted.nodup.of_map _) le_rfl hptw (hsame ▸ hptw')

/-- No step fails, and the invariant is kept. -/
theorem Inv.step (h : s.Inv) (mustAddInsertRow : α → Bool) (e : Event α) :
    ∃ s', s.step mustAddInsertRow e = .ok s' ∧ s'.Inv := by
  cases e with
  | addRows drain now lr => exact ⟨_, rfl, (h.mustAddRows mustAddInsertRow drain now lr).1⟩
  | dropStalePartitions now => exact ⟨_, rfl, h.dropFront _⟩
  | watchMaxDiskSpaceUsage size limitBytes =>
    refine ⟨_, rfl, ?_⟩
    rw [watchMaxDiskSpaceUsage]
    split_ifs
    · exact h
    · exact h.dropFront _
  | partitionDetach name => exact ⟨_, rfl, h.partitionDetach name⟩
  | partitionAttach name => exact ⟨_, rfl, h.partitionAttach name⟩
  | reopen settings now => exact h.reopen settings now

theorem Inv.run (h : s.Inv) (mustAddInsertRow : α → Bool) (es : List (Event α)) :
    ∃ s', s.run mustAddInsertRow es = .ok s' ∧ s'.Inv := by
  induction es generalizing s with
  | nil => exact ⟨s, rfl, h⟩
  | cons e es ih =>
    obtain ⟨s', hstep, hinv⟩ := h.step mustAddInsertRow e
    obtain ⟨s'', hrun, hinv'⟩ := ih hinv
    refine ⟨s'', ?_, hinv'⟩
    rw [Storage.run, foldlM_cons, hstep, except_ok_bind]
    exact hrun

/-! ### Rows by time -/

/-- A row is in the partition of its calendar day, and this partition is searched for every time range that
contains the row. -/
structure Findable (s : Storage α) (ptw : PartitionWrapper) (r : Row α) : Prop where
  calendar : ptw.day.toInt = calendarDay r.timestamp
  found : ∀ minTimestamp maxTimestamp, minTimestamp ≤ r.timestamp → r.timestamp ≤ maxTimestamp →
    ptw ∈ s.st.getPartitionsForTimeRange minTimestamp maxTimestamp

/-- A row of an attached partition can be found by its time exactly if its timestamp is not negative, or is
the beginning of a day. -/
theorem Inv.findable_iff (h : s.Inv) (hptw : ptw ∈ s.st.partitions) (hr : r ∈ s.data ptw.name) :
    s.Findable ptw r ↔ 0 ≤ r.timestamp.toInt ∨ (86400000000000 : Int) ∣ r.timestamp.toInt := by
  rw [← toInt_day_eq_calendarDay_iff]
  constructor
  · -- the row is found at its own time
    rintro ⟨hcalendar, hfound⟩
    have hself := hfound r.timestamp r.timestamp (Int64.le_rfl) (Int64.le_rfl)
    rw [PartitionsState.getPartitionsForTimeRange, mem_filter, Bool.and_eq_true,
      decide_eq_true_eq, decide_eq_true_eq, Int64.le_iff_toInt_le, Int64.le_iff_toInt_le] at hself
    omega
  · intro hsame
    have hday : ptw.day = r.timestamp / nsecsPerDay := by
      rw [h.name ptw hptw] at hr
      rcases h.rows ptw.day (h.isDay ptw hptw) r hr with hday | hday
      · exact hday
      · exact Int64.toInt_inj.1 (hday.trans hsame.symm)
    refine ⟨?_, ?_⟩
    · rw [hday, hsame]
    · intro minTimestamp maxTimestamp hmin hmax
      refine mem_filter.2 ⟨hptw, ?_⟩
      rw [Bool.and_eq_true, decide_eq_true_eq, decide_eq_true_eq, hday]
      exact ⟨day_mono hmin, day_mono hmax⟩

/-- After every history, the attached partitions are sorted without duplicate days, each day is recovered
from the name of the directory, a row of a partition can be found by its time exactly if its timestamp is
not negative or is the beginning of a day, and all rows that are accepted next are stored. -/
theorem findable_iff_of_history (mustAddInsertRow : α → Bool) (settings : Settings)
    (es : List (Event α)) :
    ∃ s, (init settings).run mustAddInsertRow es = .ok s ∧
      Sorted s.st.partitions ∧
      (∀ ptw ∈ s.st.partitions, getPartitionDayFromName ptw.name = .ok ptw.day) ∧
      (∀ ptw ∈ s.st.partitions, ∀ r ∈ s.data ptw.name,
        s.Findable ptw r ↔ 0 ≤ r.timestamp.toInt ∨ (86400000000000 : Int) ∣ r.timestamp.toInt) ∧
      ∀ drain now lr, (s.mustAddRows mustAddInsertRow drain now lr).1.Stored
        (s.mustAddRows mustAddInsertRow drain now lr).2 := by
  obtain ⟨s, hrun, hinv⟩ := (inv_init (α := α) settings).run mustAddInsertRow es
  refine ⟨s, hrun, hinv.sorted, ?_, ?_, ?_⟩
  · intro ptw hptw
    rw [hinv.name ptw hptw]
    exact getPartitionDayFromName_getPartitionNameFromDay (hinv.isDay ptw hptw)
  · exact fun ptw hptw r hr => hinv.findable_iff hptw hr
  · exact fun drain now lr => (hinv.mustAddRows mustAddInsertRow drain now lr).2

/-- After every history each partition has a directory of its own, the hot one is attached, and a row is in a
partition that it belongs to. -/
theorem rows_of_history (mustAddInsertRow : α → Bool) (settings : Settings) (es : List (Event α)) :
    ∃ s, (init settings).run mustAddInsertRow es = .ok s ∧ (s.st.partitions.map PartitionWrapper.name).Nodup ∧
      (∀ ptw, s.st.ptwHot = some ptw → ptw ∈ s.st.partitions) ∧
      ∀ ptw ∈ s.st.partitions, ptw.name ∈ s.dirs ∧ ∀ r ∈ s.data ptw.name, BelongsTo r.timestamp ptw.day := by
  obtain ⟨s, hrun, h⟩ := (inv_init (α := α) settings).run mustAddInsertRow es
  have hnodup := Nodup.of_map _ h.sorted.nodup
  refine ⟨s, hrun, hnodup.map_on fun _ ha _ hb => h.name_injective ha hb, h.hot, fun ptw hptw => ?_⟩
  exact ⟨h.mem_dirs ptw hptw, h.name ptw hptw ▸ h.rows ptw.day (h.isDay ptw hptw)⟩

/-- The entries in the order in which they were added. -/
def Drain.inOrder (α : Type) : Drain α := ⟨id, fun _ => List.Perm.refl _⟩

/-- Settings that keep 100 years. -/
def longRetention : Settings := Settings.ofConfig 3153600000000000000 0 0

/-- In 2023, a row of the noon of December 30, 1969 is added, and then one of the last nanosecond of
December 31, 1969. -/
def rowsBeforeEpoch : List (Event Unit) :=
  [.addRows (Drain.inOrder Unit) 1700000000000000000 [⟨-129600000000000, ()⟩],
    .addRows (Drain.inOrder Unit) 1700000000000000000 [⟨-1, ()⟩]]

/-- The first row is in the partition of December 31; the second one is in the same partition and is not
searched for at its own time. -/
theorem rowsBeforeEpoch_not_findable :
    ((init longRetention).run (fun _ => true) rowsBeforeEpoch).toOption.map (fun s =>
      (s.st.partitions.map fun ptw =>
        (ptw.day.toInt, (s.data ptw.name).map fun r => (r.timestamp.toInt, calendarDay r.timestamp)),
      s.st.getPartitionsForTimeRange (-1) (-1))) =
    some ([(-1, [(-129600000000000, -2), (-1, -1)])], []) := by
  decide +kernel

end Storage

end EsLogs.LogStorage
