import Mathlib.Data.List.Sort
import Mathlib.Data.List.Perm.Subperm

/-!
The largest items of a list, by a key. Which of the items with equal keys are among the largest is left
open; their keys are not. The largest keys of two lists are the same exactly if, from every bound on, both
have as many keys, as far as so many are asked for.
-/

namespace EsLogs.Largest

open List

variable {α κ : Type} [LinearOrder κ] {key : α → κ}

def descending (keys : List κ) : List κ := keys.insertionSort (· ≥ ·)

theorem descending_perm (keys : List κ) : (descending keys).Perm keys :=
  perm_insertionSort _ _

theorem pairwise_descending (keys : List κ) : (descending keys).Pairwise (· ≥ ·) :=
  pairwise_insertionSort _ _

/-- There is one order of the keys only. -/
theorem eq_descending {keys sorted : List κ} (hperm : sorted.Perm keys)
    (hsorted : sorted.Pairwise (· ≥ ·)) : sorted = descending keys :=
  (hperm.trans (descending_perm keys).symm).eq_of_pairwise' hsorted (pairwise_descending keys)

/-! ### Counting from a bound on -/

theorem countP_eq_zero_of_gt {x bound : κ} {keys : List κ} (hx : ∀ y ∈ keys, x ≥ y) (hbound : ¬bound ≤ x) :
    keys.countP (bound ≤ ·) = 0 := by
  apply countP_eq_zero.2
  intro y hy
  rw [decide_eq_true_eq]
  exact fun hle => hbound (hle.trans (hx y hy))

/-- The keys from a bound on come first. -/
theorem countP_take {keys : List κ} (h : keys.Pairwise (· ≥ ·)) (n : Nat) (bound : κ) :
    (keys.take n).countP (bound ≤ ·) = min n (keys.countP (bound ≤ ·)) := by
  induction keys generalizing n with
  | nil => simp
  | cons x keys ih =>
    obtain ⟨hx, hkeys⟩ := pairwise_cons.1 h
    cases n with
    | zero => exact (Nat.zero_min _).symm
    | succ n =>
      rw [take_succ_cons, countP_cons, countP_cons, ih hkeys]
      by_cases hbound : bound ≤ x
      · rw [if_pos (decide_eq_true hbound)]
        omega
      · rw [countP_eq_zero_of_gt hx hbound, if_neg (by simpa using hbound)]
        omega

/-- Descending keys are known by how many there are from every bound on. -/
theorem eq_of_countP_eq {a b : List κ} (ha : a.Pairwise (· ≥ ·)) (hb : b.Pairwise (· ≥ ·))
    (h : ∀ bound, a.countP (bound ≤ ·) = b.countP (bound ≤ ·)) : a = b := by
  have hself : ∀ (x : κ) (keys : List κ), 0 < (x :: keys).countP (x ≤ ·) := fun x keys =>
    countP_pos_iff.2 ⟨x, mem_cons_self, decide_eq_true le_rfl⟩
  have hle : ∀ {x y : κ} {keys keys' : List κ}, (∀ z ∈ keys', y ≥ z) →
      (x :: keys).countP (x ≤ ·) = (y :: keys').countP (x ≤ ·) → x ≤ y := by
    intro x y keys keys' hy heq
    by_contra hlt
    have hpos := hself x keys
    rw [heq, countP_eq_zero_of_gt (by simpa using hy) hlt] at hpos
    exact absurd hpos (lt_irrefl 0)
  induction a generalizing b with
  | nil =>
    cases b with
    | nil => rfl
    | cons y keys => exact absurd (h y) (hself y keys).ne
  | cons x keys ih =>
    cases b with
    | nil => exact absurd (h x) (hself x keys).ne'
    | cons y keys' =>
      obtain ⟨hx, hkeys⟩ := pairwise_cons.1 ha
      obtain ⟨hy, hkeys'⟩ := pairwise_cons.1 hb
      obtain rfl : x = y := le_antisymm (hle hy (h x)) (hle hx (h y).symm)
      rw [ih hkeys hkeys' fun bound => ?_]
      have hbound := h bound
      rw [countP_cons, countP_cons] at hbound
      exact Nat.add_right_cancel hbound

theorem take_descending_eq_iff {n : Nat} {a b : List κ} :
    (descending a).take n = (descending b).take n ↔
      ∀ bound, min n (a.countP (bound ≤ ·)) = min n (b.countP (bound ≤ ·)) := by
  have hcount : ∀ (keys : List κ) (bound : κ),
      ((descending keys).take n).countP (bound ≤ ·) = min n (keys.countP (bound ≤ ·)) := by
    intro keys bound
    rw [countP_take (pairwise_descending keys), (descending_perm keys).countP_eq]
  constructor
  · intro h bound
    rw [← hcount a, ← hcount b, h]
  · intro h
    apply eq_of_countP_eq ((pairwise_descending a).sublist (take_sublist _ _))
      ((pairwise_descending b).sublist (take_sublist _ _))
    intro bound
    rw [hcount a, hcount b, h bound]

/-! ### The largest items -/

/-- The given items are `n` largest ones of a list, or all of them, from the largest one on. -/
structure IsLargest (key : α → κ) (n : Nat) (l r : List α) : Prop where
  subperm : r.Subperm l
  keys_eq : r.map key = (descending (l.map key)).take n

theorem isLargest_take {n : Nat} {l sorted : List α} (hperm : sorted.Perm l)
    (hsorted : sorted.Pairwise fun a b => key b ≤ key a) : IsLargest key n l (sorted.take n) where
  subperm := (take_sublist n sorted).subperm.trans hperm.subperm
  keys_eq := by
    rw [map_take, eq_descending (hperm.map key) (pairwise_map.2 hsorted)]

theorem countP_map_le (l : List α) (bound : κ) :
    (l.map key).countP (bound ≤ ·) = l.countP fun x => bound ≤ key x := countP_map

theorem IsLargest.length_eq {n : Nat} {l r : List α} (h : IsLargest key n l r) : r.length = min n l.length := by
  have hlen := congrArg List.length h.keys_eq
  rwa [length_map, length_take, (descending_perm _).length_eq, length_map] at hlen

theorem IsLargest.countP_eq {n : Nat} {l r : List α} (h : IsLargest key n l r) (bound : κ) :
    r.countP (fun x => bound ≤ key x) = min n (l.countP fun x => bound ≤ key x) := by
  rw [← countP_map_le, h.keys_eq, countP_take (pairwise_descending _), (descending_perm _).countP_eq,
    countP_map_le]

/-- Whether the largest items of a part are those of the list. -/
theorem IsLargest.keys_eq_iff {n : Nat} {l part r : List α} (h : IsLargest key n part r) :
    r.map key = (descending (l.map key)).take n ↔ ∀ bound,
      min n (part.countP fun x => bound ≤ key x) = min n (l.countP fun x => bound ≤ key x) := by
  rw [h.keys_eq, take_descending_eq_iff]
  simp only [countP_map_le]

end EsLogs.Largest
