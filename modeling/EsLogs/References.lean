import Mathlib

/-!
Counted references. The counter of a thing is the number of the references to it that are held anywhere.
The holders are a list of owners, each of which holds a list of references; an owner is changed in place.
-/

namespace EsLogs.References

open List

variable {ι θ : Type}

/-- What an owner holds, beside what all the others hold. -/
theorem exists_others (held : θ → List ι) {owners : List θ} {t : Nat} {th : θ} (h : owners[t]? = some th) :
    ∃ others : List ι, (owners.flatMap held).Perm (held th ++ others) ∧
      ∀ th', ((owners.set t th').flatMap held).Perm (held th' ++ others) := by
  induction owners generalizing t with
  | nil => cases h
  | cons o owners ih =>
    cases t with
    | zero =>
      rw [getElem?_cons_zero, Option.some.injEq] at h
      refine ⟨owners.flatMap held, ?_, fun th' => ?_⟩
      · rw [flatMap_cons, h]
      · rw [set_cons_zero, flatMap_cons]
    | succ t =>
      rw [getElem?_cons_succ] at h
      obtain ⟨others, hperm, hset⟩ := ih h
      refine ⟨held o ++ others, ?_, fun th' => ?_⟩
      · rw [flatMap_cons]
        exact (hperm.append_left _).trans (perm_append_comm_assoc _ _ _)
      · rw [set_cons_succ, flatMap_cons]
        exact ((hset th').append_left _).trans (perm_append_comm_assoc _ _ _)

variable [DecidableEq ι]

/-- Each counter is the number of references. -/
def Counted (refs : ι → Int) (holders : List ι) : Prop := ∀ i, refs i = holders.count i

def incRefs (refs : ι → Int) (things : List ι) : ι → Int :=
  things.foldl (fun refs i => Function.update refs i (refs i + 1)) refs

section Counted

variable {refs : ι → Int} {holders holders' : List ι} {i : ι}

theorem Counted.perm (h : Counted refs holders) (hperm : holders'.Perm holders) : Counted refs holders' := by
  intro j
  rw [h j, hperm.count_eq]

theorem Counted.acquire (h : Counted refs holders) (i : ι) :
    Counted (Function.update refs i (refs i + 1)) (i :: holders) := by
  intro j
  rcases eq_or_ne j i with rfl | hne
  · rw [Function.update_self, count_cons_self, h j]
    push_cast
    rfl
  · rw [Function.update_of_ne hne, count_cons_of_ne hne.symm, h j]

theorem Counted.acquireAll (h : Counted refs holders) (things : List ι) :
    Counted (incRefs refs things) (things ++ holders) := by
  induction things generalizing refs holders with
  | nil => exact h
  | cons i things ih =>
    have hrest := ih (h.acquire i)
    exact hrest.perm perm_middle.symm

theorem Counted.release (h : Counted refs (i :: holders)) :
    Counted (Function.update refs i (refs i - 1)) holders := by
  intro j
  rcases eq_or_ne j i with rfl | hne
  · rw [Function.update_self, h j, count_cons_self]
    push_cast
    ring
  · rw [Function.update_of_ne hne, h j, count_cons_of_ne hne.symm]

/-- The counter is positive as long as there is a reference. -/
theorem Counted.pos_iff (h : Counted refs holders) : 0 < refs i ↔ i ∈ holders := by
  rw [h i, ← count_pos_iff]
  exact Int.natCast_pos

end Counted

end EsLogs.References
