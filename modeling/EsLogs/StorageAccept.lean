import EsLogs.StorageDays

/-!
Which rows of a batch are accepted. A row that is added alone to an empty storage is accepted if it passes
the checks of the slow path. In any storage and any batch the decision is the same exactly if the fast path
is taken for rows that pass these checks only, and if the slow path does not meet a deleted partition or an
empty group that ends the call.
-/

namespace EsLogs.LogStorage.Storage

open PartitionDay List

variable {α : Type}

def Accepts (mustAddInsertRow : α → Bool) (drain : Drain α) (s : Storage α) (now : Int64)
    (lr : List (Row α)) (r : Row α) : Prop :=
  ∃ w ∈ (s.mustAddRows mustAddInsertRow drain now lr).2, r ∈ w.2

/-- The partition of the day is not attached, and is not made. -/
def Inactive (s : Storage α) (day : Int64) : Prop :=
  s.st.find? day = none ∧ (day ∈ s.st.deletedPartitions ∨ getPartitionNameFromDay day ∈ s.dirs)

/-- The partition of the day is detached: its directory is there. -/
def Detached (s : Storage α) (day : Int64) : Prop :=
  s.st.find? day = none ∧ day ∉ s.st.deletedPartitions ∧ getPartitionNameFromDay day ∈ s.dirs

def Deleted (s : Storage α) (day : Int64) : Prop :=
  s.st.find? day = none ∧ day ∈ s.st.deletedPartitions

theorem inactive_iff_deleted {s : Storage α} {day : Int64} (h : ¬s.Detached day) :
    s.Inactive day ↔ s.Deleted day := by
  unfold Inactive Deleted
  unfold Detached at h
  tauto

/-! ### Walking over a list -/

section Walking

variable {β : Type} {P P' Q Q' : β → Prop}

/-- A walk over the list reaches an element with `P` if all elements before it have `Q`. -/
def Reaches (P Q : β → Prop) (l : List β) : Prop :=
  ∃ l₁ b l₂, l = l₁ ++ b :: l₂ ∧ P b ∧ ∀ b' ∈ l₁, Q b'

theorem not_reaches_nil : ¬Reaches P Q [] := by
  rintro ⟨l₁, b, l₂, heq, -⟩
  cases l₁ <;> cases heq

theorem reaches_cons (b : β) (l : List β) : Reaches P Q (b :: l) ↔ P b ∨ Q b ∧ Reaches P Q l := by
  constructor
  · rintro ⟨l₁, b', l₂, heq, hP, hQ⟩
    cases l₁ with
    | nil =>
      rw [nil_append, List.cons.injEq] at heq
      rw [heq.1]
      exact .inl hP
    | cons b₁ l₁ =>
      rw [cons_append, List.cons.injEq] at heq
      rw [heq.1]
      obtain ⟨hb₁, hQ⟩ := forall_mem_cons.1 hQ
      exact .inr ⟨hb₁, l₁, b', l₂, heq.2, hP, hQ⟩
  · rintro (hP | ⟨hb, l₁, b', l₂, rfl, hP, hQ⟩)
    · exact ⟨[], b, l, rfl, hP, fun b' hb' => nomatch hb'⟩
    · exact ⟨b :: l₁, b', l₂, rfl, hP, forall_mem_cons.2 ⟨hb, hQ⟩⟩

theorem reaches_congr {l : List β} (hP : ∀ b ∈ l, (P b ↔ P' b)) (hQ : ∀ b ∈ l, (Q b ↔ Q' b)) :
    Reaches P Q l ↔ Reaches P' Q' l := by
  induction l with
  | nil => exact ⟨fun h => absurd h not_reaches_nil, fun h => absurd h not_reaches_nil⟩
  | cons b l ih =>
    rw [reaches_cons, reaches_cons, hP b mem_cons_self, hQ b mem_cons_self,
      ih (fun b' hb' => hP b' (mem_cons_of_mem _ hb'))
        (fun b' hb' => hQ b' (mem_cons_of_mem _ hb'))]

end Walking

section Writing

variable {s : Storage α} {day : Int64}

theorem getPartitionForWriting_of_inactive (h : s.Inactive day) :
    s.getPartitionForWriting day = (s, none) := by
  obtain ⟨hfind, hreason⟩ := h
  rw [getPartitionForWriting, hfind]
  simp only [contains_iff_mem]
  split_ifs with hdeleted hexists
  · rfl
  · rfl
  · exact absurd hreason (not_or.2 ⟨hdeleted, hexists⟩)

theorem getPartitionForWriting_of_not_inactive (h : ¬s.Inactive day) :
    ∃ s' ptw, s.getPartitionForWriting day = (s', some ptw) := by
  rw [getPartitionForWriting]
  cases hfind : s.st.find? day with
  | some ptw => exact ⟨_, _, rfl⟩
  | none =>
    have hreason := not_or.1 fun hreason => h ⟨hfind, hreason⟩
    simp only [contains_iff_mem, if_neg hreason.1, if_neg hreason.2]
    exact ⟨_, _, rfl⟩

/-- Getting the partition of a day for writing changes nothing for the other days. -/
theorem Inv.inactive_getPartitionForWriting (h : s.Inv) (hday : IsDay day) {day' : Int64}
    (hday' : IsDay day') (hne : day' ≠ day) :
    (s.getPartitionForWriting day).1.Inactive day' ↔ s.Inactive day' := by
  have hsorted := (h.getPartitionForWriting hday).1.sorted
  rw [Storage.getPartitionForWriting] at hsorted ⊢
  cases hfind : s.st.find? day with
  | some ptw => exact Iff.rfl
  | none =>
    rw [hfind] at hsorted
    simp only at hsorted ⊢
    split_ifs at hsorted ⊢ with hdeleted hexists
    · exact Iff.rfl
    · exact Iff.rfl
    · have hname : getPartitionNameFromDay day' ≠ getPartitionNameFromDay day :=
        fun heq => hne (getPartitionNameFromDay_injective hday' hday heq)
      unfold Inactive
      rw [find?_eq_none_iff hsorted, find?_eq_none_iff h.sorted]
      simp only [mem_insert, mem_append, mem_singleton, hname, or_false, forall_eq_or_imp]
      constructor
      · rintro ⟨⟨-, hrest⟩, hreason⟩
        exact ⟨hrest, hreason⟩
      · rintro ⟨hrest, hreason⟩
        exact ⟨⟨hne.symm, hrest⟩, hreason⟩

/-- The row is in the group, and the partition of the group is active. -/
def Lands (s : Storage α) (r : Row α) (g : Int64 × List (Row α)) : Prop := r ∈ g.2 ∧ ¬s.Inactive g.1

/-- The group does not end the call. -/
def Passes (s : Storage α) (g : Int64 × List (Row α)) : Prop := g.2 = [] → ¬s.Inactive g.1

/-- A row of the groups is handed to a partition if the partition of its group is active, and no empty group
before it has an inactive one. -/
theorem Inv.mem_writeGroups (h : s.Inv) {m : Groups α} (hm : Grouped m)
    (hnodup : (m.map Prod.fst).Nodup) (r : Row α) :
    (∃ w ∈ (s.writeGroups m).2, r ∈ w.2) ↔ Reaches (s.Lands r) s.Passes m := by
  induction m generalizing s with
  | nil =>
    refine ⟨?_, fun hreach => absurd hreach not_reaches_nil⟩
    rintro ⟨w, hw, -⟩
    cases hw
  | cons g₀ m ih =>
    obtain ⟨day, rows⟩ := g₀
    obtain ⟨hday, hrows⟩ := hm (day, rows) mem_cons_self
    have hrest : Grouped m := fun g hg => hm g (mem_cons_of_mem _ hg)
    rw [map_cons, nodup_cons] at hnodup
    rw [reaches_cons]
    by_cases hinactive : s.Inactive day
    · have hland : ¬s.Lands r (day, rows) := fun hland => hland.2 hinactive
      rw [Storage.writeGroups, getPartitionForWriting_of_inactive hinactive]
      cases rows with
      | nil =>
        have hpass : ¬s.Passes (day, []) := fun hpass => hpass rfl hinactive
        simp [hland, hpass]
      | cons r₀ rows =>
        have hpass : s.Passes (day, r₀ :: rows) := fun hempty => absurd hempty (cons_ne_nil _ _)
        simp only [hland, hpass, true_and, false_or]
        exact ih h hrest hnodup.2
    · obtain ⟨s', ptw, hget⟩ := getPartitionForWriting_of_not_inactive hinactive
      obtain ⟨hinv, hgot⟩ := h.getPartitionForWriting hday
      rw [hget] at hinv hgot
      obtain ⟨hptw, hsame⟩ := hgot ptw rfl
      have hbelongs : ∀ r ∈ rows, BelongsTo r.timestamp ptw.day := by
        intro r hr
        rw [hsame]
        exact .inl (hrows r hr).symm
      -- the partitions of the other groups are active or not as they were
      have hothers : ∀ g ∈ m, ((s'.addTo ptw rows).Inactive g.1 ↔ s.Inactive g.1) := by
        intro g hg
        have hne : g.1 ≠ day := by
          intro heq
          have hmem : g.1 ∈ m.map Prod.fst := mem_map_of_mem hg
          rw [heq] at hmem
          exact hnodup.1 hmem
        have hiff := h.inactive_getPartitionForWriting hday (hrest g hg).1 hne
        rw [hget] at hiff
        exact hiff
      have hreach : Reaches ((s'.addTo ptw rows).Lands r) (s'.addTo ptw rows).Passes m ↔
          Reaches (s.Lands r) s.Passes m := by
        apply reaches_congr
        · exact fun g hg => and_congr Iff.rfl (not_congr (hothers g hg))
        · exact fun g hg => imp_congr Iff.rfl (not_congr (hothers g hg))
      have hland : s.Lands r (day, rows) ↔ r ∈ rows := ⟨fun hland => hland.1, fun hr => ⟨hr, hinactive⟩⟩
      have hpass : s.Passes (day, rows) := fun _ => hinactive
      rw [hland, ← hreach, ← ih (hinv.addTo hptw hbelongs) hrest hnodup.2, Storage.writeGroups, hget]
      simp only [hpass, true_and, exists_mem_cons_iff]

end Writing

/-! ### The slow path -/

section Slow

variable {mustAddInsertRow : α → Bool} {s : Storage α} {now : Int64} {lr : List (Row α)} {r : Row α}

/-- The row passes the checks of the slow path, when it is added alone. -/
def PassesChecks (mustAddInsertRow : α → Bool) (cfg : Settings) (now : Int64) (r : Row α) : Prop :=
  cfg.check now r.timestamp = .allowed ∧ mustAddInsertRow r.entry = true

/-- A group of the batch has no rows left, and an inactive partition. -/
def Poisoned (mustAddInsertRow : α → Bool) (s : Storage α) (now : Int64) (lr : List (Row α)) : Prop :=
  ∃ g ∈ groups mustAddInsertRow s.settings now lr, g.2 = [] ∧ s.Inactive g.1

theorem nodup_groups (cfg : Settings) :
    ((groups mustAddInsertRow cfg now lr).map Prod.fst).Nodup := by
  rw [groups, map_map]
  exact (map_id _).symm ▸ nodup_dedup _

/-- The rows of the groups are those that pass the checks. -/
theorem mem_groups_iff {cfg : Settings} :
    (∃ g ∈ groups mustAddInsertRow cfg now lr, r ∈ g.2 ∧ g.1 = r.timestamp / nsecsPerDay) ↔
      r ∈ lr ∧ PassesChecks mustAddInsertRow cfg now r := by
  constructor
  · rintro ⟨g, hg, hr, -⟩
    obtain ⟨day, -, rfl⟩ := mem_map.1 hg
    obtain ⟨hr, hboth⟩ := mem_filter.1 hr
    obtain ⟨hlr, hcheck⟩ := mem_filter.1 hr
    rw [Bool.and_eq_true] at hboth
    exact ⟨hlr, of_decide_eq_true hcheck, hboth.2⟩
  · rintro ⟨hlr, hcheck, hkeep⟩
    have hmem : r ∈ lr.filter fun r => cfg.check now r.timestamp = .allowed :=
      mem_filter.2 ⟨hlr, decide_eq_true hcheck⟩
    refine ⟨_, mem_map.2 ⟨r.timestamp / nsecsPerDay, ?_, rfl⟩, ?_, rfl⟩
    · exact mem_dedup.2 (mem_map.2 ⟨r, hmem, rfl⟩)
    · refine mem_filter.2 ⟨hmem, ?_⟩
      rw [Bool.and_eq_true]
      exact ⟨decide_eq_true rfl, hkeep⟩

theorem Inv.accepts_slow_iff (h : s.Inv) (hfits : s.fitsHot lr = false) (drain : Drain α) :
    Accepts mustAddInsertRow drain s now lr r ↔
      Reaches (s.Lands r) s.Passes (drain.order (groups mustAddInsertRow s.settings now lr)) := by
  have hperm := drain.perm (groups mustAddInsertRow s.settings now lr)
  rw [Accepts, mustAddRows_of_not_fitsHot hfits]
  exact (h.setDropped _ _).mem_writeGroups ((grouped_groups mustAddInsertRow s.settings now lr).perm hperm)
    ((hperm.map Prod.fst).nodup_iff.2 (nodup_groups s.settings)) r

/-- An order that begins with a given entry. -/
theorem exists_drain_head {m : Groups α} {g : Int64 × List (Row α)} (hg : g ∈ m) :
    ∃ drain : Drain α, ∃ m', drain.order m = g :: m' := by
  classical
  refine ⟨⟨fun m' => if m' = m then g :: m.erase g else m', ?_⟩, m.erase g, if_pos rfl⟩
  intro m'
  split_ifs with heq
  · rw [heq]
    exact (perm_cons_erase hg).symm
  · exact List.Perm.refl _

/-- The slow path decides by the checks, in every order, if the partition is active and no group ends the
call. -/
theorem Inv.accepts_slow_iff_passesChecks (h : s.Inv) (hfits : s.fitsHot lr = false) (hr : r ∈ lr) :
    (∀ drain, Accepts mustAddInsertRow drain s now lr r ↔
        PassesChecks mustAddInsertRow s.settings now r) ↔
      (PassesChecks mustAddInsertRow s.settings now r →
        ¬s.Inactive (r.timestamp / nsecsPerDay) ∧ ¬Poisoned mustAddInsertRow s now lr) := by
  have hgrouped := grouped_groups mustAddInsertRow s.settings now lr
  constructor
  · intro hall hpass
    refine ⟨?_, ?_⟩
    · obtain ⟨m₁, g, m₂, heq, ⟨hrg, hactive⟩, -⟩ :=
        (h.accepts_slow_iff hfits (Drain.inOrder α)).1 ((hall _).2 hpass)
      have hg : g ∈ groups mustAddInsertRow s.settings now lr := by
        have hsplit : groups mustAddInsertRow s.settings now lr = m₁ ++ g :: m₂ := heq
        rw [hsplit]
        exact mem_append_right _ mem_cons_self
      rw [(hgrouped g hg).2 r hrg]
      exact hactive
    · -- the group that ends the call is handed out first
      rintro ⟨g, hg, hempty, hinactive⟩
      obtain ⟨drain, m', horder⟩ := exists_drain_head hg
      have hreach := (h.accepts_slow_iff hfits drain).1 ((hall drain).2 hpass)
      rw [horder, reaches_cons] at hreach
      rcases hreach with hland | ⟨hpass, -⟩
      · exact hland.2 hinactive
      · exact hpass hempty hinactive
  · intro hcond drain
    have hperm := drain.perm (groups mustAddInsertRow s.settings now lr)
    rw [h.accepts_slow_iff hfits drain]
    constructor
    · rintro ⟨m₁, g, m₂, heq, ⟨hrg, -⟩, -⟩
      have hg : g ∈ groups mustAddInsertRow s.settings now lr := by
        rw [← hperm.mem_iff, heq]
        exact mem_append_right _ mem_cons_self
      exact (mem_groups_iff.1 ⟨g, hg, hrg, ((hgrouped g hg).2 r hrg).symm⟩).2
    · intro hpass
      obtain ⟨hactive, hclean⟩ := hcond hpass
      obtain ⟨g, hg, hrg, hday⟩ := mem_groups_iff.2 ⟨hr, hpass⟩
      obtain ⟨m₁, m₂, heq⟩ := append_of_mem (hperm.mem_iff.2 hg)
      refine ⟨m₁, g, m₂, heq, ⟨hrg, ?_⟩, ?_⟩
      · rw [hday]
        exact hactive
      · intro g' hg' hempty hinactive
        refine hclean ⟨g', ?_, hempty, hinactive⟩
        rw [← hperm.mem_iff, heq]
        exact mem_append_left _ hg'

theorem accepts_of_fitsHot (hfits : s.fitsHot lr = true) (hr : r ∈ lr) (drain : Drain α) :
    Accepts mustAddInsertRow drain s now lr r := by
  obtain ⟨hot, hhot, hcan⟩ := fitsHot_eq_true_iff.1 hfits
  rw [Accepts, mustAddRows_of_fitsHot hhot hcan]
  exact ⟨(hot, lr), mem_singleton_self _, hr⟩

theorem not_inactive_init (settings : Settings) (day : Int64) :
    ¬(init settings : Storage α).Inactive day := by
  rintro ⟨-, hdeleted | hdir⟩
  · cases hdeleted
  · cases hdir

/-- A row that is added alone to an empty storage is accepted if it passes the checks. -/
theorem accepts_alone_iff (settings : Settings) (drain : Drain α) :
    Accepts mustAddInsertRow drain (init settings) now [r] r ↔
      PassesChecks mustAddInsertRow settings now r := by
  have hfits : (init settings : Storage α).fitsHot [r] = false := rfl
  refine ((inv_init settings).accepts_slow_iff_passesChecks hfits (mem_singleton_self r)).2 ?_ drain
  intro _
  refine ⟨not_inactive_init settings _, ?_⟩
  rintro ⟨g, -, -, hinactive⟩
  exact not_inactive_init settings g.1 hinactive

end Slow

/-! ### The decision -/

/-- The decision about the row does not depend on the storage: the fast path is taken only if the row passes
the checks, and on the slow path a row that passes them has no deleted partition, and no group ends the
call. -/
def DecidesByRow (mustAddInsertRow : α → Bool) (s : Storage α) (now : Int64) (lr : List (Row α))
    (r : Row α) : Prop :=
  (s.fitsHot lr = true → PassesChecks mustAddInsertRow s.settings now r) ∧
    (s.fitsHot lr = false → PassesChecks mustAddInsertRow s.settings now r →
      ¬s.Deleted (r.timestamp / nsecsPerDay) ∧ ¬Poisoned mustAddInsertRow s now lr)

theorem Inv.accepts_iff_passesChecks {mustAddInsertRow : α → Bool} {s : Storage α} (h : s.Inv)
    {now : Int64} {lr : List (Row α)} {r : Row α} (hr : r ∈ lr)
    (hdetached : ¬s.Detached (r.timestamp / nsecsPerDay)) :
    (∀ drain, Accepts mustAddInsertRow drain s now lr r ↔
        PassesChecks mustAddInsertRow s.settings now r) ↔
      DecidesByRow mustAddInsertRow s now lr r := by
  rw [DecidesByRow]
  cases hfits : s.fitsHot lr with
  | true =>
    have haccepts : ∀ drain, Accepts mustAddInsertRow drain s now lr r := accepts_of_fitsHot hfits hr
    constructor
    · intro hall
      exact ⟨fun _ => (hall (Drain.inOrder α)).1 (haccepts _), fun heq => nomatch heq⟩
    · rintro ⟨hpass, -⟩ drain
      exact ⟨fun _ => hpass rfl, fun _ => haccepts drain⟩
  | false =>
    rw [h.accepts_slow_iff_passesChecks hfits hr, inactive_iff_deleted hdetached]
    constructor
    · intro hcond
      exact ⟨fun heq => (nomatch heq), fun _ => hcond⟩
    · rintro ⟨-, hcond⟩
      exact hcond rfl

/-- In two histories that end with the same settings, a row gets the same decision if each of them decides
by the row; and a history decides by the row exactly if it decides as an empty storage does about the row
alone. -/
theorem accepts_iff_of_decidesByRow {mustAddInsertRow : α → Bool} {settings₁ settings₂ : Settings}
    {es₁ es₂ : List (Event α)} {s₁ s₂ : Storage α}
    (hrun₁ : (init settings₁).run mustAddInsertRow es₁ = .ok s₁)
    (hrun₂ : (init settings₂).run mustAddInsertRow es₂ = .ok s₂)
    (hsettings : s₁.settings = s₂.settings) (now : Int64) {lr₁ lr₂ : List (Row α)} {r : Row α}
    (hr₁ : r ∈ lr₁) (hr₂ : r ∈ lr₂) (hdetached₁ : ¬s₁.Detached (r.timestamp / nsecsPerDay))
    (hdetached₂ : ¬s₂.Detached (r.timestamp / nsecsPerDay)) (drain₁ drain₂ : Drain α) :
    (DecidesByRow mustAddInsertRow s₁ now lr₁ r → DecidesByRow mustAddInsertRow s₂ now lr₂ r →
      (Accepts mustAddInsertRow drain₁ s₁ now lr₁ r ↔ Accepts mustAddInsertRow drain₂ s₂ now lr₂ r)) ∧
    ((∀ drain, Accepts mustAddInsertRow drain s₁ now lr₁ r ↔
        Accepts mustAddInsertRow drain₂ (init s₁.settings) now [r] r) ↔
      DecidesByRow mustAddInsertRow s₁ now lr₁ r) := by
  obtain ⟨s₁', hrun₁', hinv₁⟩ := (inv_init settings₁).run mustAddInsertRow es₁
  obtain ⟨s₂', hrun₂', hinv₂⟩ := (inv_init settings₂).run mustAddInsertRow es₂
  rw [hrun₁] at hrun₁'
  rw [hrun₂] at hrun₂'
  cases hrun₁'
  cases hrun₂'
  constructor
  · intro hdecides₁ hdecides₂
    rw [(hinv₁.accepts_iff_passesChecks hr₁ hdetached₁).2 hdecides₁ drain₁,
      (hinv₂.accepts_iff_passesChecks hr₂ hdetached₂).2 hdecides₂ drain₂, hsettings]
  · simp only [accepts_alone_iff]
    exact hinv₁.accepts_iff_passesChecks hr₁ hdetached₁

/-- Settings that accept the rows of the last hour only. -/
def hourOfBackfill : Settings := Settings.ofConfig 0 0 3600000000000

def eveningRow : Row Unit := ⟨1700000000000000000, ()⟩

def lateRow : Row Unit := ⟨1699992800000000000, ()⟩

/-- A storage to which the row of the evening was added at its time. -/
def eveningStorage : Storage Unit :=
  ((init hourOfBackfill).mustAddRows (fun _ => true) (Drain.inOrder Unit) 1700000000000000000
    [eveningRow]).1

theorem accepts_eveningRow :
    Accepts (fun _ => true) (Drain.inOrder Unit) (init hourOfBackfill) 1700000000000000000 [eveningRow]
      eveningRow ↔
    Accepts (fun _ => true) (Drain.inOrder Unit) eveningStorage 1700000000000000000 [eveningRow]
      eveningRow := by
  have hrun₁ : (init hourOfBackfill).run (fun _ => true) ([] : List (Event Unit)) =
      .ok (init hourOfBackfill) := rfl
  have hrun₂ : (init hourOfBackfill).run (fun _ => true)
      [.addRows (Drain.inOrder Unit) 1700000000000000000 [eveningRow]] = .ok eveningStorage := rfl
  have hpass : PassesChecks (fun _ => true) hourOfBackfill 1700000000000000000 eveningRow :=
    ⟨by decide, rfl⟩
  have hdetached : ¬eveningStorage.Detached (eveningRow.timestamp / nsecsPerDay) := by
    rintro ⟨hfind, -⟩
    revert hfind
    decide +kernel
  have hfits : eveningStorage.fitsHot [eveningRow] = true := by decide +kernel
  refine (accepts_iff_of_decidesByRow hrun₁ hrun₂ rfl _ (mem_singleton_self _)
    (mem_singleton_self _) ?_ hdetached _ _).1 ?_ ?_
  · rintro ⟨-, -, hdir⟩
    cases hdir
  · refine ⟨fun heq => (nomatch heq), fun _ _ => ⟨?_, ?_⟩⟩
    · rintro ⟨-, hdeleted⟩
      cases hdeleted
    · rintro ⟨g, -, -, hinactive⟩
      exact not_inactive_init _ _ hinactive
  · refine ⟨fun _ => hpass, fun hslow => ?_⟩
    rw [hfits] at hslow
    cases hslow

/-- The older row is accepted by the storage whose hot partition has its day, and is not accepted by an
empty storage. -/
theorem accepts_lateRow :
    Accepts (fun _ => true) (Drain.inOrder Unit) eveningStorage 1700000000000000000 [lateRow] lateRow ∧
    ¬Accepts (fun _ => true) (Drain.inOrder Unit) (init hourOfBackfill) 1700000000000000000 [lateRow]
      lateRow := by
  constructor
  · apply accepts_of_fitsHot
    · decide +kernel
    · exact mem_singleton_self _
  · rw [accepts_alone_iff]
    rintro ⟨hcheck, -⟩
    revert hcheck
    decide +kernel

end EsLogs.LogStorage.Storage
