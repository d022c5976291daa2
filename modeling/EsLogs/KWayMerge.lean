import EsLogs.BinaryHeap

/-!
Merging sorted sequences through a heap of reader indexes. A reader is the list of the items it
still has to deliver, its first item being the current one; the heap holds the indexes of the
readers that have a current item. Whatever is done with the items, they are seen in an order that
is sorted and contains every item of every reader exactly once.
-/

namespace EsLogs.KWayMerge

open BinaryHeap List

variable {α σ : Type}

def current (readers : List (List α)) (i : Nat) : Option α := readers[i]?.bind List.head?

def advance (readers : List (List α)) (i : Nat) : List (List α) := readers.modify i List.tail

def headLess (less : α → α → Bool) (readers : List (List α)) (i j : Nat) : Bool :=
  match current readers i, current readers j with
  | some a, some b => less a b
  | some _, none => true
  | none, _ => false

def startHeap (less : α → α → Bool) (readers : List (List α)) : List Nat :=
  heapInit (headLess less readers)
    ((List.range readers.length).filter fun i => (current readers i).isSome)

/-- The heap after the reader at its root has moved. -/
def nextHeap (less : α → α → Bool) (readers : List (List α)) (idx : Nat) (heap : List Nat) :
    List Nat :=
  if (current readers idx).isSome then heapFixRoot (headLess less readers) heap
  else heapPop (headLess less readers) heap

/-- The merge loop: the current item of the reader at the root is passed to `step`, then that reader
moves on. -/
def mergeLoop {m : Type → Type} [Monad m] (less : α → α → Bool) (step : σ → α → m σ) :
    Nat → List (List α) → List Nat → σ → m σ
  | fuel + 1, readers, idx :: t, s =>
    match current readers idx with
    | some item => do
      let s' ← step s item
      let readers' := advance readers idx
      mergeLoop less step fuel readers' (nextHeap less readers' idx (idx :: t)) s'
    | none => pure s
  | _, _, _, s => pure s

/-- The items in the order in which the loop sees them. -/
def popOrder (less : α → α → Bool) : Nat → List (List α) → List Nat → List α
  | fuel + 1, readers, idx :: t =>
    match current readers idx with
    | some item =>
      let readers' := advance readers idx
      item :: popOrder less fuel readers' (nextHeap less readers' idx (idx :: t))
    | none => []
  | _, _, _ => []

theorem mergeLoop_eq_foldlM {m : Type → Type} [Monad m] [LawfulMonad m] (less : α → α → Bool)
    (step : σ → α → m σ) (fuel : Nat) (readers : List (List α)) (heap : List Nat) (s : σ) :
    mergeLoop less step fuel readers heap s = (popOrder less fuel readers heap).foldlM step s := by
  induction fuel generalizing readers heap s with
  | zero => simp [mergeLoop, popOrder]
  | succ fuel ih =>
    cases heap with
    | nil => simp [mergeLoop, popOrder]
    | cons idx t =>
      cases hc : current readers idx with
      | none => simp [mergeLoop, popOrder, hc]
      | some item => simp [mergeLoop, popOrder, hc, ih]

/-! ### What the heap says about the readers -/

variable {readers : List (List α)} {less : α → α → Bool}

theorem headLess_strictWeak (hless : StrictWeak less)
    (readers : List (List α)) : StrictWeak (headLess less readers) := by
  refine ⟨fun {i j} h => ?_, fun {i j k} h h' => ?_⟩
  · unfold headLess at h ⊢
    cases hi : current readers i <;> cases hj : current readers j <;> simp_all
    exact hless.asymm h
  · unfold headLess at h h' ⊢
    cases hi : current readers i <;> cases hj : current readers j <;>
      cases hk : current readers k <;> simp_all
    exact hless.trans h h'

/-- The state of the loop between two items. -/
structure Merging (less : α → α → Bool) (readers : List (List α)) (heap : List Nat) : Prop where
  heap_ok : IsHeap (headLess less readers) heap
  nodup : heap.Nodup
  mem_iff : ∀ i, i ∈ heap ↔ (current readers i).isSome = true
  sorted : ∀ r ∈ readers, r.Pairwise fun a b => less b a = false

theorem current_eq_some_iff {i : Nat} {a : α} :
    current readers i = some a ↔ ∃ t, readers[i]? = some (a :: t) := by
  unfold current
  cases h : readers[i]? with
  | none => simp
  | some r => cases r <;> simp

theorem current_lt_length {i : Nat}
    (h : (current readers i).isSome = true) : i < readers.length := by
  obtain ⟨a, ha⟩ := Option.isSome_iff_exists.1 h
  obtain ⟨t, ht⟩ := current_eq_some_iff.1 ha
  exact (List.getElem?_eq_some_iff.1 ht).1

theorem merging_start (hless : StrictWeak less) (readers : List (List α))
    (hsorted : ∀ r ∈ readers, r.Pairwise fun a b => less b a = false) :
    Merging less readers (startHeap less readers) := by
  have hw := headLess_strictWeak hless readers
  have hperm := heapInit_perm hw
    ((List.range readers.length).filter fun i => (current readers i).isSome)
  refine ⟨heapInit_heap hw _, ?_, fun i => ?_, hsorted⟩
  · exact hperm.nodup_iff.2 (nodup_range.filter _)
  · rw [startHeap, hperm.mem_iff, mem_filter, mem_range]
    exact ⟨fun h => h.2, fun h => ⟨current_lt_length h, h⟩⟩

theorem current_advance_of_ne {i j : Nat} (h : i ≠ j) :
    current (advance readers i) j = current readers j := by
  unfold current advance
  rw [List.getElem?_modify]
  simp [h]

theorem nextHeap_spec (hless : StrictWeak less)
    {idx : Nat} {t : List Nat} (h : Merging less readers (idx :: t)) :
    Merging less (advance readers idx) (nextHeap less (advance readers idx) idx (idx :: t)) := by
  have hw := headLess_strictWeak hless (advance readers idx)
  obtain ⟨hidx, hnt⟩ := nodup_cons.1 h.nodup
  have hne : ∀ i ∈ t, idx ≠ i := fun i hi he => hidx (he ▸ hi)
  have htail : HeapFrom (headLess less (advance readers idx)) 1 (idx :: t) :=
    heapFrom_one_of_tail (h.heap_ok.mono (Nat.zero_le 1)) fun a ha b hb => by
      -- items of other readers are compared as before
      unfold headLess
      rw [current_advance_of_ne (hne a ha), current_advance_of_ne (hne b hb)]
  have hsorted : ∀ r ∈ advance readers idx, r.Pairwise fun a b => less b a = false := by
    intro r hr
    obtain ⟨k, hk⟩ := mem_iff_getElem?.1 hr
    rw [advance, List.getElem?_modify] at hk
    cases hrk : readers[k]? with
    | none => simp [hrk] at hk
    | some r' =>
      have hr' := h.sorted r' (mem_of_getElem? hrk)
      by_cases hik : idx = k
      · simp only [hrk, hik, if_true, Option.map_eq_map, Option.map_some,
          Option.some.injEq] at hk
        subst hk
        exact hr'.sublist (tail_sublist r')
      · simp only [hrk, hik, if_false, Option.map_eq_map, Option.map_some,
          Option.some.injEq] at hk
        exact hk ▸ hr'
  have hmem : ∀ i, idx ≠ i → (i ∈ t ↔ (current (advance readers idx) i).isSome = true) := by
    intro i hi
    rw [current_advance_of_ne hi, ← h.mem_iff, mem_cons]
    exact ⟨.inr, fun hm => hm.resolve_left (Ne.symm hi)⟩
  unfold nextHeap
  by_cases hmore : (current (advance readers idx) idx).isSome = true
  · rw [if_pos hmore]
    have hperm := heapFixRoot_perm hw (idx :: t)
    refine ⟨heapFixRoot_heap hw htail, hperm.nodup_iff.2 h.nodup, fun i => ?_, hsorted⟩
    rw [hperm.mem_iff, mem_cons]
    by_cases hi : idx = i
    · subst hi
      simpa using hmore
    · rw [← hmem i hi]
      exact ⟨fun hm => hm.resolve_left (Ne.symm hi), .inr⟩
  · rw [if_neg hmore]
    obtain ⟨hheap, hperm⟩ := heapPop_cons hw idx t htail
    refine ⟨hheap, hperm.nodup_iff.2 hnt, fun i => ?_, hsorted⟩
    rw [hperm.mem_iff]
    by_cases hi : idx = i
    · subst hi
      exact ⟨fun hm => (hidx hm).elim, fun hm => (hmore hm).elim⟩
    · exact hmem i hi

theorem flatten_advance {idx : Nat} {item : α} {rest : List α}
    (h : readers[idx]? = some (item :: rest)) :
    readers.flatten.Perm (item :: (advance readers idx).flatten) := by
  induction readers generalizing idx with
  | nil => simp at h
  | cons r readers ih =>
    cases idx with
    | zero =>
      rw [List.getElem?_cons_zero, Option.some.injEq] at h
      subst h
      simp [advance]
    | succ idx =>
      rw [List.getElem?_cons_succ] at h
      have := (ih h).append_left r
      rw [advance, modify_succ_cons, flatten_cons, flatten_cons]
      exact this.trans perm_middle

/-- The item at the root is a smallest one of all that are left. -/
theorem Merging.root_min (hless : StrictWeak less)
    {idx : Nat} {t : List Nat} (h : Merging less readers (idx :: t)) {item : α}
    (hitem : current readers idx = some item) {x : α} (hx : x ∈ readers.flatten) :
    less x item = false := by
  obtain ⟨r, hr, hxr⟩ := mem_flatten.1 hx
  obtain ⟨k, hk⟩ := mem_iff_getElem?.1 hr
  cases r with
  | nil => cases hxr
  | cons y rest =>
    have hcur : current readers k = some y := current_eq_some_iff.2 ⟨rest, hk⟩
    have hkmem : k ∈ idx :: t := (h.mem_iff k).2 (by rw [hcur]; rfl)
    have hroot := h.heap_ok.root_min (headLess_strictWeak hless readers) hkmem
    simp only [headLess, hcur, hitem] at hroot
    cases mem_cons.1 hxr with
    | inl he => exact he ▸ hroot
    | inr hrest =>
      exact hless.trans ((pairwise_cons.1 (h.sorted _ hr)).1 x hrest) hroot

theorem Merging.flatten_eq_nil
    (h : Merging less readers []) : readers.flatten = [] := by
  rw [flatten_eq_nil_iff]
  intro r hr
  obtain ⟨k, hk⟩ := mem_iff_getElem?.1 hr
  cases r with
  | nil => rfl
  | cons y rest =>
    have hcur : current readers k = some y := current_eq_some_iff.2 ⟨rest, hk⟩
    have := (h.mem_iff k).2 (by rw [hcur]; rfl)
    cases this

/-! ### Whole runs -/

/-- The loop sees every item exactly once, in order. -/
theorem popOrder_spec (hless : StrictWeak less) (fuel : Nat)
    (readers : List (List α)) (heap : List Nat) (h : Merging less readers heap)
    (hfuel : readers.flatten.length ≤ fuel) :
    (popOrder less fuel readers heap).Perm readers.flatten ∧
      (popOrder less fuel readers heap).Pairwise fun a b => less b a = false := by
  induction fuel generalizing readers heap with
  | zero =>
    have hnil := length_eq_zero_iff.1 (Nat.le_zero.1 hfuel)
    simp [popOrder, hnil]
  | succ fuel ih =>
    cases heap with
    | nil => simp [popOrder, h.flatten_eq_nil]
    | cons idx t =>
      obtain ⟨item, hitem⟩ :=
        Option.isSome_iff_exists.1 ((h.mem_iff idx).1 mem_cons_self)
      obtain ⟨rest, hrest⟩ := current_eq_some_iff.1 hitem
      have hperm := flatten_advance hrest
      have hlen := hperm.length_eq
      rw [length_cons] at hlen
      obtain ⟨ihperm, ihsorted⟩ := ih _ _ (nextHeap_spec hless h) (by omega)
      simp only [popOrder, hitem]
      refine ⟨(ihperm.cons item).trans hperm.symm,
        pairwise_cons.2 ⟨fun x hx => ?_, ihsorted⟩⟩
      refine h.root_min hless hitem (hperm.mem_iff.2 (mem_cons_of_mem _ ?_))
      exact ihperm.mem_iff.1 hx

end EsLogs.KWayMerge
