import Mathlib.Data.List.Basic
import Mathlib.Data.List.TakeWhile

/-!
Binary search for the first position where a predicate holds. What the search returns is a border of
the predicate whatever the predicate is; where the predicate stays true once it is true, there is one
border only, and the search cuts a list where a linear scan would.
-/

namespace EsLogs.BinarySearch

open List

def sortSearchFrom (f : Nat → Bool) (lo hi : Nat) : Nat :=
  if lo < hi then
    let mid := lo + (hi - lo) / 2
    if f mid then sortSearchFrom f lo mid else sortSearchFrom f (mid + 1) hi
  else lo
termination_by hi - lo

def sortSearch (n : Nat) (f : Nat → Bool) : Nat := sortSearchFrom f 0 n

/-- The position found is between the two, the predicate is true there unless it is the upper end, and
false right before it unless it is the lower end. -/
theorem sortSearchFrom_border (f : Nat → Bool) (lo hi : Nat) (h : lo ≤ hi) :
    lo ≤ sortSearchFrom f lo hi ∧ sortSearchFrom f lo hi ≤ hi ∧
      (sortSearchFrom f lo hi < hi → f (sortSearchFrom f lo hi) = true) ∧
      (lo < sortSearchFrom f lo hi → f (sortSearchFrom f lo hi - 1) = false) := by
  fun_induction sortSearchFrom f lo hi with
  | case1 lo hi hlt mid hmid ih =>
    obtain ⟨hlo, hle, htrue, hfalse⟩ := ih (by omega)
    refine ⟨hlo, by omega, ?_, hfalse⟩
    intro _
    rcases hle.lt_or_eq with hlt' | heq
    · exact htrue hlt'
    · rw [heq]
      exact hmid
  | case2 lo hi hlt mid hmid ih =>
    obtain ⟨hlo, hle, htrue, hfalse⟩ := ih (by omega)
    refine ⟨by omega, hle, htrue, ?_⟩
    intro _
    rcases hlo.lt_or_eq with hlt' | heq
    · exact hfalse hlt'
    · rw [← heq, Nat.add_sub_cancel]
      exact Bool.eq_false_iff.2 hmid
  | case3 lo hi hge => exact ⟨le_rfl, h, fun hlt => absurd hlt hge, fun hlt => absurd hlt (lt_irrefl _)⟩

section List

variable {α : Type} (p : α → Bool) (l : List α)

/-- The search in a list for the first item with the property. -/
def searchList : Nat := sortSearch l.length fun i => l[i]?.any p

variable {p l}

theorem searchList_le : searchList p l ≤ l.length :=
  (sortSearchFrom_border _ 0 l.length (Nat.zero_le _)).2.1

/-- The item that is found has the property, in whatever order the items are. -/
theorem head_drop_searchList {a : α} {rest : List α} (h : l.drop (searchList p l) = a :: rest) :
    p a = true := by
  obtain ⟨-, -, htrue, -⟩ := sortSearchFrom_border (fun i => l[i]?.any p) 0 l.length (Nat.zero_le _)
  have hget : l[searchList p l]? = some a := by
    rw [← List.head?_drop, h]
    rfl
  have hany := htrue (List.getElem?_eq_some_iff.1 hget).1
  change l[searchList p l]?.any p = true at hany
  rwa [hget] at hany

/-- The first item is skipped when it does not have the property. -/
theorem searchList_pos {a : α} {rest : List α} (h : p a = false) : 0 < searchList p (a :: rest) := by
  rcases Nat.eq_zero_or_pos (searchList p (a :: rest)) with hzero | hpos
  · have htrue : p a = true := head_drop_searchList (by rw [hzero, drop_zero])
    rw [h] at htrue
    cases htrue
  · exact hpos

/-- The items before the one that is found do not have the property. -/
theorem not_of_mem_take_searchList (hmono : l.Pairwise fun a b => p a = true → p b = true) {a : α}
    (ha : a ∈ l.take (searchList p l)) : p a = false := by
  obtain ⟨-, hle, -, hfalse⟩ :=
    sortSearchFrom_border (fun i => l[i]?.any p) 0 l.length (Nat.zero_le _)
  obtain ⟨i, hi, rfl⟩ := getElem_of_mem ha
  rw [length_take] at hi
  rw [getElem_take]
  have hlast : l[searchList p l - 1]?.any p = false := hfalse (by change 0 < searchList p l; omega)
  have hbound : searchList p l - 1 < l.length := by
    change searchList p l ≤ l.length at hle
    omega
  rw [getElem?_eq_getElem hbound] at hlast
  -- the property is false at the last of these items, and so it is at the ones before
  rcases (Nat.le_sub_one_of_lt (lt_of_lt_of_le hi (Nat.min_le_left _ _))).lt_or_eq with hlt | heq
  · apply Bool.eq_false_iff.2
    intro htrue
    have hlater := pairwise_iff_getElem.1 hmono i _ (by omega) hbound hlt htrue
    rw [Option.any_some, hlater] at hlast
    cases hlast
  · simp only [heq]
    exact hlast

end List

end EsLogs.BinarySearch
