import Mathlib

/-!
Binary heaps over lists, in the form in which index heaps are kept next to the data they compare:
the order is an arbitrary strict weak order on the elements. Sifting down from a position repairs
the heap below it, building a heap sifts every inner position from the last to the first, and the
root of a heap is one of its smallest elements.
-/

namespace EsLogs.BinaryHeap

open List

variable {α : Type}

variable {i j : Nat} {x y : α}

/-- The smaller child of position `i`, the left one when they are equal. -/
def smallerChild (less : α → α → Bool) (h : List α) (i : Nat) : Option (Nat × α) :=
  match h[2 * i + 1]?, h[2 * i + 2]? with
  | some l, some r => if less r l then some (2 * i + 2, r) else some (2 * i + 1, l)
  | some l, none => some (2 * i + 1, l)
  | none, _ => none

/-- One pass of sifting: the element at `i` is exchanged with its smaller child as long as that child
is smaller. -/
def siftDown (less : α → α → Bool) : Nat → List α → Nat → List α
  | 0, h, _ => h
  | fuel + 1, h, i =>
    match h[i]?, smallerChild less h i with
    | some x, some (j, y) =>
      if less y x then siftDown less fuel ((h.set i y).set j x) j else h
    | _, _ => h

def buildFrom (less : α → α → Bool) (h : List α) : Nat → List α
  | 0 => h
  | k + 1 => buildFrom less (siftDown less h.length h k) k

def heapInit (less : α → α → Bool) (h : List α) : List α := buildFrom less h (h.length / 2)

def heapFixRoot (less : α → α → Bool) (h : List α) : List α := siftDown less h.length h 0

/-- Removing the root: the last element takes its place. -/
def heapPop (less : α → α → Bool) (h : List α) : List α :=
  match h.getLast? with
  | none => []
  | some x => heapFixRoot less (h.set 0 x).dropLast

/-- The orders a heap can be kept by. -/
structure StrictWeak (less : α → α → Bool) : Prop where
  asymm : ∀ {a b}, less a b = true → less b a = false
  trans : ∀ {a b c}, less a b = false → less b c = false → less a c = false

variable {less : α → α → Bool} {h : List α}

theorem StrictWeak.irrefl (hless : StrictWeak less) (a : α) :
    less a a = false := by
  cases h : less a a with
  | false => rfl
  | true => exact h.symm.trans (hless.asymm h)

theorem strictWeak_of_key {β : Type} [LinearOrder β] (key : α → β) :
    StrictWeak fun a b => decide (key a < key b) := by
  refine ⟨fun {a b} h => ?_, fun {a b c} h h' => ?_⟩
  · rw [decide_eq_true_eq] at h
    exact decide_eq_false (not_lt.2 h.le)
  · rw [decide_eq_false_iff_not, not_lt] at h h' ⊢
    exact h'.trans h

/-- The element at `c` is not smaller than the one at `p`. -/
def InOrder (less : α → α → Bool) (h : List α) (p c : Nat) : Prop :=
  ∀ a b, h[p]? = some a → h[c]? = some b → less b a = false

/-- Every child of a position from `s` on is in order with it. -/
def HeapFrom (less : α → α → Bool) (s : Nat) (h : List α) : Prop :=
  ∀ p c, s ≤ p → (c = 2 * p + 1 ∨ c = 2 * p + 2) → InOrder less h p c

def IsHeap (less : α → α → Bool) (h : List α) : Prop := HeapFrom less 0 h

/-! ### Sifting -/

/-- A pass that started at `s` and stands at `i`: only the children of `i` may be out of order, and
they are in order with the parent of `i`. -/
structure Sifting (less : α → α → Bool) (s : Nat) (h : List α) (i : Nat) : Prop where
  start : s ≤ i
  others : ∀ p c, s ≤ p → p ≠ i → (c = 2 * p + 1 ∨ c = 2 * p + 2) → InOrder less h p c
  above : ∀ p c, s ≤ p → (i = 2 * p + 1 ∨ i = 2 * p + 2) → (c = 2 * i + 1 ∨ c = 2 * i + 2) →
    InOrder less h p c

theorem getElem?_exchange (hi : h[i]? = some x) (hj : h[j]? = some y) (hij : i ≠ j) (k : Nat) :
    ((h.set i y).set j x)[k]? = if k = j then some x else if k = i then some y else h[k]? := by
  have hilt : i < h.length := (List.getElem?_eq_some_iff.1 hi).1
  have hjlt : j < h.length := (List.getElem?_eq_some_iff.1 hj).1
  rw [List.getElem?_set, List.getElem?_set, List.length_set]
  by_cases hkj : k = j
  · subst hkj
    simp [hjlt]
  · rw [if_neg (Ne.symm hkj), if_neg hkj]
    by_cases hki : k = i
    · subst hki
      simp [hilt]
    · rw [if_neg (Ne.symm hki), if_neg hki]

theorem exchange_perm (hi : h[i]? = some x) (hj : h[j]? = some y) : ((h.set i y).set j x).Perm h := by
  obtain ⟨hilt, rfl⟩ := List.getElem?_eq_some_iff.1 hi
  obtain ⟨hjlt, rfl⟩ := List.getElem?_eq_some_iff.1 hj
  exact List.set_set_perm hilt hjlt

/-- One exchange moves the disorder from `i` to the smaller child `j`. -/
theorem Sifting.exchange (hless : StrictWeak less) {s i j : Nat} (hs : Sifting less s h i) (hx : h[i]? = some x) (hy : h[j]? = some y)
    (hj : j = 2 * i + 1 ∨ j = 2 * i + 2) (hlt : less y x = true)
    (hmin : ∀ c z, (c = 2 * i + 1 ∨ c = 2 * i + 2) → h[c]? = some z → less z y = false) :
    Sifting less s ((h.set i y).set j x) j := by
  have hij : i ≠ j := by omega
  have hget := getElem?_exchange hx hy hij
  refine ⟨by have := hs.start; omega, fun p c hp hpj hc => ?_, fun p c hp hpj hc => ?_⟩
  · intro a b ha hb
    rw [hget] at ha hb
    rw [if_neg hpj] at ha
    by_cases hpi : p = i
    -- the children of `i` are in order with the child that moved up
    · subst hpi
      rw [if_pos rfl] at ha
      cases ha
      by_cases hcj : c = j
      · rw [if_pos hcj] at hb
        cases hb
        exact hless.asymm hlt
      · rw [if_neg hcj, if_neg (by omega)] at hb
        exact hmin c b hc hb
    · rw [if_neg hpi] at ha
      by_cases hci : c = i
      · rw [if_neg (by omega), if_pos hci] at hb
        cases hb
        exact hs.above p j hp (by omega) hj a y ha hy
      · rw [if_neg (by omega), if_neg hci] at hb
        exact hs.others p c hp hpi hc a b ha hb
  · intro a b ha hb
    have hpi : p = i := by omega
    subst hpi
    rw [hget, if_neg (by omega), if_pos rfl] at ha
    rw [hget, if_neg (by omega), if_neg (by omega)] at hb
    cases ha
    exact hs.others j c (by omega) (by omega) hc y b hy hb

/-- When the smaller child is not smaller than the element at `i`, the heap is repaired. -/
theorem Sifting.finish {s i : Nat} (hs : Sifting less s h i)
    (hstop : ∀ c, (c = 2 * i + 1 ∨ c = 2 * i + 2) → InOrder less h i c) : HeapFrom less s h := by
  intro p c hp hc
  by_cases hpi : p = i
  · subst hpi
    exact hstop c hc
  · exact hs.others p c hp hpi hc

theorem smallerChild_eq_some (hless : StrictWeak less) {y : α} (hc : smallerChild less h i = some (j, y)) :
    (j = 2 * i + 1 ∨ j = 2 * i + 2) ∧ h[j]? = some y ∧
      ∀ c z, (c = 2 * i + 1 ∨ c = 2 * i + 2) → h[c]? = some z → less z y = false := by
  have hirr := hless.irrefl
  unfold smallerChild at hc
  cases hl : h[2 * i + 1]? with
  | none => simp [hl] at hc
  | some l =>
    cases hr : h[2 * i + 2]? with
    | none =>
      simp only [hl, hr, Option.some.injEq, Prod.mk.injEq] at hc
      obtain ⟨rfl, rfl⟩ := hc
      refine ⟨.inl rfl, hl, fun c z hcz hz => ?_⟩
      rcases hcz with rfl | rfl
      · rw [hl] at hz
        cases hz
        exact hirr _
      · rw [hr] at hz
        cases hz
    | some r =>
      simp only [hl, hr] at hc
      split at hc <;> rename_i hrl <;>
        (simp only [Option.some.injEq, Prod.mk.injEq] at hc; obtain ⟨rfl, rfl⟩ := hc)
      · refine ⟨.inr rfl, hr, fun c z hcz hz => ?_⟩
        rcases hcz with rfl | rfl
        · rw [hl] at hz
          cases hz
          exact hless.asymm hrl
        · rw [hr] at hz
          cases hz
          exact hirr _
      · refine ⟨.inl rfl, hl, fun c z hcz hz => ?_⟩
        rcases hcz with rfl | rfl
        · rw [hl] at hz
          cases hz
          exact hirr _
        · rw [hr] at hz
          cases hz
          simpa using hrl

theorem smallerChild_eq_none {i : Nat}
    (hc : smallerChild less h i = none) : h.length ≤ 2 * i + 1 := by
  unfold smallerChild at hc
  cases hl : h[2 * i + 1]? with
  | none => exact getElem?_eq_none_iff.1 hl
  | some l =>
    cases hr : h[2 * i + 2]? with
    | none => simp [hl, hr] at hc
    | some r =>
      simp only [hl, hr] at hc
      split at hc <;> cases hc

/-- A pass repairs the heap from its start on. -/
theorem siftDown_heap (hless : StrictWeak less) (fuel s : Nat) (h : List α)
    (i : Nat) (hs : Sifting less s h i) (hfuel : h.length ≤ i + fuel) :
    HeapFrom less s (siftDown less fuel h i) := by
  induction fuel generalizing h i with
  | zero =>
    refine hs.finish fun c hc a b ha => ?_
    have := (List.getElem?_eq_some_iff.1 ha).1
    omega
  | succ fuel ih =>
    unfold siftDown
    cases hx : h[i]? with
    | none =>
      refine hs.finish fun c hc a b ha => ?_
      rw [hx] at ha
      cases ha
    | some x =>
      cases hc : smallerChild less h i with
      | none =>
        have hlen := smallerChild_eq_none hc
        refine hs.finish fun c hc a b _ hb => ?_
        have := (List.getElem?_eq_some_iff.1 hb).1
        omega
      | some jy =>
        obtain ⟨j, y⟩ := jy
        obtain ⟨hj, hy, hmin⟩ := smallerChild_eq_some hless hc
        by_cases hlt : less y x = true
        · simp only [hlt, if_true]
          refine ih _ j (hs.exchange hless hx hy hj hlt hmin) ?_
          simp only [List.length_set]
          omega
        · simp only [hlt, Bool.false_eq_true, if_false]
          refine hs.finish fun c hcc a b ha hb => ?_
          rw [hx] at ha
          cases ha
          exact hless.trans (hmin c b hcc hb) (by simpa using hlt)

theorem siftDown_perm (less : α → α → Bool) (fuel : Nat) (h : List α) (i : Nat)
    (hless : StrictWeak less) : (siftDown less fuel h i).Perm h := by
  induction fuel generalizing h i with
  | zero => exact List.Perm.refl _
  | succ fuel ih =>
    unfold siftDown
    split
    · rename_i x j y hx hc
      split
      · exact (ih _ j).trans (exchange_perm hx (smallerChild_eq_some hless hc).2.1)
      · exact List.Perm.refl _
    · exact List.Perm.refl _

/-- Sifting position `i` extends a heap from `i + 1` on to `i`. -/
theorem HeapFrom.siftDown (hless : StrictWeak less) {i : Nat}
    (hh : HeapFrom less (i + 1) h) : HeapFrom less i (siftDown less h.length h i) := by
  refine siftDown_heap hless h.length i h i ⟨le_rfl, fun p c hp hpi hc => ?_, fun p c hp hi => ?_⟩
    (by omega)
  · exact hh p c (by omega) hc
  · omega

/-! ### The operations -/

theorem buildFrom_heap (hless : StrictWeak less) (k : Nat) (h : List α)
    (hh : HeapFrom less k h) : IsHeap less (buildFrom less h k) := by
  induction k generalizing h with
  | zero => exact hh
  | succ k ih => exact ih _ (hh.siftDown hless)

theorem buildFrom_perm (hless : StrictWeak less) (k : Nat) (h : List α) :
    (buildFrom less h k).Perm h := by
  induction k generalizing h with
  | zero => exact List.Perm.refl _
  | succ k ih => exact (ih _).trans (siftDown_perm less _ _ _ hless)

theorem heapInit_heap (hless : StrictWeak less) (h : List α) :
    IsHeap less (heapInit less h) := by
  refine buildFrom_heap hless _ h fun p c hp hc a b _ hb => ?_
  have := (List.getElem?_eq_some_iff.1 hb).1
  omega

theorem heapInit_perm (hless : StrictWeak less) (h : List α) :
    (heapInit less h).Perm h := buildFrom_perm hless _ h

theorem heapFixRoot_heap (hless : StrictWeak less)
    (hh : HeapFrom less 1 h) : IsHeap less (heapFixRoot less h) := hh.siftDown hless

theorem heapFixRoot_perm (hless : StrictWeak less) (h : List α) :
    (heapFixRoot less h).Perm h := siftDown_perm less _ _ _ hless

/-- The order of the positions below the root does not involve the root. -/
theorem heapFrom_one_of_tail {less less' : α → α → Bool} {r r' : α} {t : List α}
    (hh : HeapFrom less 1 (r :: t)) (hsame : ∀ a ∈ t, ∀ b ∈ t, less' a b = less a b) :
    HeapFrom less' 1 (r' :: t) := by
  intro p c hp hc a b ha hb
  obtain ⟨p, rfl⟩ : ∃ q, p = q + 1 := ⟨p - 1, by omega⟩
  obtain ⟨c, rfl⟩ : ∃ q, c = q + 1 := ⟨c - 1, by omega⟩
  rw [getElem?_cons_succ] at ha hb
  rw [hsame b (mem_of_getElem? hb) a (mem_of_getElem? ha)]
  exact hh (p + 1) (c + 1) hp hc a b (by simpa using ha) (by simpa using hb)

theorem HeapFrom.dropLast {s : Nat} (hh : HeapFrom less s h) :
    HeapFrom less s h.dropLast := by
  intro p c hp hc a b ha hb
  have hsub : ∀ {k : Nat} {z : α}, h.dropLast[k]? = some z → h[k]? = some z := fun {k z} hk => by
    rw [getElem?_dropLast] at hk
    split at hk
    · exact hk
    · cases hk
  exact hh p c hp hc a b (hsub ha) (hsub hb)

theorem HeapFrom.mono {s s' : Nat} (hh : HeapFrom less s h)
    (hs : s ≤ s') : HeapFrom less s' h := fun p c hp hc => hh p c (hs.trans hp) hc

theorem heapPop_cons (hless : StrictWeak less) (r : α) (t : List α)
    (hh : HeapFrom less 1 (r :: t)) :
    IsHeap less (heapPop less (r :: t)) ∧ (heapPop less (r :: t)).Perm t := by
  unfold heapPop
  rcases eq_nil_or_concat t with rfl | ⟨init, x, rfl⟩
  · refine ⟨?_, by simp [heapFixRoot, siftDown]⟩
    intro p c _ _ a b ha
    simp [heapFixRoot, siftDown] at ha
  · have hlast : (r :: (init ++ [x])).getLast? = some x := by
      rw [← cons_append, getLast?_append]
      rfl
    have hset : ((r :: (init ++ [x])).set 0 x).dropLast = x :: init := by
      rw [set_cons_zero, ← cons_append, dropLast_concat]
    simp only [concat_eq_append, hlast, hset]
    refine ⟨heapFixRoot_heap hless ?_, (heapFixRoot_perm hless _).trans ?_⟩
    · have htail : HeapFrom less 1 (r :: init) := by
        have hdrop := hh.dropLast
        rwa [concat_eq_append, ← cons_append, dropLast_concat] at hdrop
      exact heapFrom_one_of_tail htail fun _ _ _ _ => rfl
    · exact (perm_append_singleton x init).symm

/-- No element of a heap is smaller than its root. -/
theorem IsHeap.root_min (hless : StrictWeak less) {r : α} {t : List α}
    (hh : IsHeap less (r :: t)) {a : α} (ha : a ∈ r :: t) : less a r = false := by
  obtain ⟨k, hk⟩ := List.mem_iff_getElem?.1 ha
  -- up the path from `a` to the root
  induction k using Nat.strong_induction_on generalizing a with
  | _ k ih =>
    cases k with
    | zero =>
      rw [List.getElem?_cons_zero] at hk
      cases hk
      exact hless.irrefl _
    | succ k =>
      have hlt := (List.getElem?_eq_some_iff.1 hk).1
      obtain ⟨p, hp⟩ : ∃ p, (r :: t)[k / 2]? = some p :=
        ⟨_, List.getElem?_eq_getElem (by omega)⟩
      have hpr := ih (k / 2) (by omega) (List.mem_of_getElem? hp) hp
      exact hless.trans (hh (k / 2) (k + 1) (Nat.zero_le _) (by omega) p a hp hk) hpr

end EsLogs.BinaryHeap
