import Mathlib

/-!
Tallies: finite maps from keys to numbers that only grow by additions, as a hash map that counts is. The
entries are listed in the order in which their keys came first; who goes through a tally in another order
goes through a permutation of its keys.
-/

namespace EsLogs

open List

/-- A map from keys to numbers. -/
structure Tally (κ : Type) where
  entries : List (κ × Nat)
  nodup : (entries.map Prod.fst).Nodup

namespace Tally

variable {κ : Type}

def keys (t : Tally κ) : List κ := t.entries.map Prod.fst

def empty : Tally κ := ⟨[], nodup_nil⟩

theorem nodup_keys (t : Tally κ) : t.keys.Nodup := t.nodup

variable [DecidableEq κ]

/-- The number of a key; zero for a key that is absent. -/
def get (t : Tally κ) (k : κ) : Nat := ((t.entries.filter fun e => e.1 = k).map Prod.snd).sum

/-- Adds to the entry of a key, or appends one. -/
def addEntry (k : κ) (n : Nat) : List (κ × Nat) → List (κ × Nat)
  | [] => [(k, n)]
  | e :: es => if e.1 = k then (e.1, e.2 + n) :: es else e :: addEntry k n es

theorem map_fst_addEntry (k : κ) (n : Nat) (es : List (κ × Nat)) :
    (addEntry k n es).map Prod.fst =
      if k ∈ es.map Prod.fst then es.map Prod.fst else es.map Prod.fst ++ [k] := by
  induction es with
  | nil => rfl
  | cons e es ih =>
    by_cases he : e.1 = k
    · simp [addEntry, he]
    · have hk : k ≠ e.1 := fun h => he h.symm
      simp only [addEntry, if_neg he, map_cons, ih, mem_cons, hk, false_or]
      split_ifs <;> simp

def add (t : Tally κ) (k : κ) (n : Nat) : Tally κ where
  entries := addEntry k n t.entries
  nodup := by
    rw [map_fst_addEntry]
    split_ifs with hk
    · exact t.nodup
    · exact nodup_append'.2 ⟨t.nodup, nodup_singleton k, disjoint_singleton.2 hk⟩

def merge (t other : Tally κ) : Tally κ := other.entries.foldl (fun t e => t.add e.1 e.2) t

def remove (t : Tally κ) (k : κ) : Tally κ where
  entries := t.entries.filter fun e => e.1 ≠ k
  nodup := t.nodup.sublist (filter_sublist.map Prod.fst)

@[simp]
theorem mem_keys_add {t : Tally κ} {k k' : κ} {n : Nat} : k' ∈ (t.add k n).keys ↔ k' ∈ t.keys ∨ k' = k := by
  rw [show (t.add k n).keys = _ from map_fst_addEntry k n t.entries]
  split_ifs with hk
  · constructor
    · exact .inl
    · rintro (h | rfl)
      · exact h
      · exact hk
  · rw [mem_append, mem_singleton]
    rfl

@[simp]
theorem get_add (t : Tally κ) (k k' : κ) (n : Nat) :
    (t.add k n).get k' = t.get k' + if k' = k then n else 0 := by
  obtain ⟨es, hes⟩ := t
  have hsum : ∀ es : List (κ × Nat), (((addEntry k n es).filter fun e => e.1 = k').map Prod.snd).sum =
      ((es.filter fun e => e.1 = k').map Prod.snd).sum + if k' = k then n else 0 := by
    intro es
    induction es with
    | nil =>
      by_cases hk : k' = k
      · simp [addEntry, hk]
      · simp [addEntry, hk, Ne.symm hk]
    | cons e es ih =>
      by_cases he : e.1 = k
      · by_cases hk : k' = k
        · simp only [addEntry, he, hk, if_true, filter_cons, decide_true, map_cons, sum_cons]
          omega
        · have hk' : ¬k = k' := fun h => hk h.symm
          simp [addEntry, he, hk, hk']
      · simp only [addEntry, if_neg he, filter_cons]
        by_cases hk : e.1 = k'
        · simp only [hk, decide_true, if_true, map_cons, sum_cons, ih, Nat.add_assoc]
        · simp only [hk, decide_false, Bool.false_eq_true, if_false, ih]
  exact hsum es

theorem get_foldl_add (es : List (κ × Nat)) (t : Tally κ) (k : κ) :
    (es.foldl (fun t e => t.add e.1 e.2) t).get k =
      t.get k + ((es.filter fun e => e.1 = k).map Prod.snd).sum := by
  induction es generalizing t with
  | nil => rfl
  | cons e es ih =>
    rw [foldl_cons, ih, get_add]
    by_cases he : e.1 = k
    · simp only [filter_cons, he, decide_true, if_true, map_cons, sum_cons, Nat.add_assoc]
    · have hk : ¬k = e.1 := fun h => he h.symm
      simp [he, hk]

theorem mem_keys_foldl_add (es : List (κ × Nat)) (t : Tally κ) (k : κ) :
    k ∈ (es.foldl (fun t e => t.add e.1 e.2) t).keys ↔ k ∈ t.keys ∨ k ∈ es.map Prod.fst := by
  induction es generalizing t with
  | nil => simp
  | cons e es ih =>
    rw [foldl_cons, ih, mem_keys_add, map_cons, mem_cons, or_assoc]

@[simp]
theorem get_merge (t other : Tally κ) (k : κ) : (t.merge other).get k = t.get k + other.get k :=
  get_foldl_add other.entries t k

@[simp]
theorem mem_keys_merge {t other : Tally κ} {k : κ} : k ∈ (t.merge other).keys ↔ k ∈ t.keys ∨ k ∈ other.keys :=
  mem_keys_foldl_add other.entries t k

@[simp]
theorem keys_remove (t : Tally κ) (k : κ) : (t.remove k).keys = t.keys.filter fun k' => k' ≠ k := by
  rw [keys, keys, remove, filter_map]
  rfl

end Tally

end EsLogs
