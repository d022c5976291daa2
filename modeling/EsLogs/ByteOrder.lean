import EsLogs.Bytes

/-!
The lexicographic order of byte strings: prefixes in sorted lists, sorting, and the longest common
prefix of two strings. What lies between two strings with a common prefix has this prefix.
-/

namespace EsLogs

open List

variable (a b : Bytes)

namespace ByteOrder

theorem cons_le_cons_iff {x y : UInt8} {a b : Bytes} : x :: a ≤ y :: b ↔ x < y ∨ x = y ∧ a ≤ b := by
  rw [← not_lt, cons_lt_cons_iff, not_or, not_and, not_lt]
  constructor
  · rintro ⟨hle, h⟩
    rcases hle.lt_or_eq with hlt | rfl
    · exact .inl hlt
    · exact .inr ⟨rfl, not_lt.1 (h rfl)⟩
  · rintro (hlt | ⟨rfl, h⟩)
    · exact ⟨hlt.le, fun heq => absurd heq hlt.ne'⟩
    · exact ⟨le_rfl, fun _ => not_lt.2 h⟩

theorem nil_le (a : Bytes) : ([] : Bytes) ≤ a := not_lt.1 (not_lt_nil a)

/-- What lies between two strings with a common prefix has this prefix. -/
theorem prefix_of_le_of_le {p a b c : Bytes} (hab : a ≤ b) (hbc : b ≤ c) (ha : p <+: a)
    (hc : p <+: c) : p <+: b := by
  induction p generalizing a b c with
  | nil => exact nil_prefix
  | cons x p ih =>
    obtain ⟨s, rfl⟩ := ha
    obtain ⟨t, rfl⟩ := hc
    cases b with
    | nil =>
      rw [cons_append] at hab
      exact absurd (le_antisymm hab (nil_le _)) (cons_ne_nil _ _)
    | cons y b =>
      rw [cons_append, cons_le_cons_iff] at hab hbc
      -- the first byte is squeezed between two equal ones
      have hxy : x = y := by
        rcases hab with hlt | ⟨heq, -⟩
        · rcases hbc with hlt' | ⟨heq', -⟩
          · exact absurd (hlt.trans hlt') (lt_irrefl x)
          · exact heq'.symm
        · exact heq
      subst hxy
      have hab' := hab.resolve_left (lt_irrefl x)
      have hbc' := hbc.resolve_left (lt_irrefl x)
      exact cons_prefix_cons.2
        ⟨rfl, ih hab'.2 hbc'.2 (prefix_append p s) (prefix_append p t)⟩

def Sorted (l : List Bytes) : Prop := l.Pairwise (· ≤ ·)

theorem Sorted.prefix_of_ends {l : List Bytes} {p first last : Bytes} (h : Sorted l)
    (hfirst : l.head? = some first) (hlast : l.getLast? = some last) (hpf : p <+: first)
    (hpl : p <+: last) : ∀ b ∈ l, p <+: b := by
  intro b hb
  have hle : first ≤ b := by
    cases l with
    | nil => cases hb
    | cons a l =>
      cases hfirst
      rcases mem_cons.1 hb with rfl | hb
      · exact le_rfl
      · exact (pairwise_cons.1 h).1 b hb
  have hge : b ≤ last := by
    obtain ⟨l', rfl⟩ := getLast?_eq_some_iff.1 hlast
    rcases mem_append.1 hb with hb | hb
    · exact (pairwise_append.1 h).2.2 b hb last mem_cons_self
    · exact (mem_singleton.1 hb).le
  exact prefix_of_le_of_le hle hge hpf hpl

/-- Items sorted by the string that each stands for. -/
theorem sorted_mergeSort {α : Type} (key : α → Bytes) (l : List α) :
    Sorted ((l.mergeSort fun a b => decide (key a ≤ key b)).map key) := by
  rw [Sorted, pairwise_map]
  refine (pairwise_mergeSort (fun a b c hab hbc => ?_) (fun a b => ?_) l).imp
    fun h => of_decide_eq_true h
  · exact decide_eq_true (le_trans (of_decide_eq_true hab) (of_decide_eq_true hbc))
  · rw [Bool.or_eq_true, decide_eq_true_iff, decide_eq_true_iff]
    exact le_total _ _

/-! ### The longest common prefix -/

def commonPrefixLen : Bytes → Bytes → Nat
  | a :: as, b :: bs => if a = b then commonPrefixLen as bs + 1 else 0
  | _, _ => 0

theorem commonPrefixLen_le_left : commonPrefixLen a b ≤ a.length := by
  induction a generalizing b with
  | nil => exact Nat.zero_le _
  | cons x a ih =>
    cases b with
    | nil => exact Nat.zero_le _
    | cons y b =>
      rw [commonPrefixLen]
      split_ifs
      · exact Nat.succ_le_succ (ih b)
      · exact Nat.zero_le _

theorem take_commonPrefixLen : b.take (commonPrefixLen a b) = a.take (commonPrefixLen a b) := by
  induction a generalizing b with
  | nil => rfl
  | cons x a ih =>
    cases b with
    | nil => rfl
    | cons y b =>
      rw [commonPrefixLen]
      split_ifs with h
      · rw [take_succ_cons, take_succ_cons, ih, h]
      · rfl

theorem commonPrefixLen_comm : commonPrefixLen a b = commonPrefixLen b a := by
  induction a generalizing b with
  | nil => cases b <;> rfl
  | cons x a ih =>
    cases b with
    | nil => rfl
    | cons y b => simp only [commonPrefixLen, ih, eq_comm]

theorem commonPrefixLen_le_right : commonPrefixLen a b ≤ b.length := by
  rw [commonPrefixLen_comm]
  exact commonPrefixLen_le_left b a

theorem take_prefix_right : a.take (commonPrefixLen a b) <+: b := by
  rw [← take_commonPrefixLen]
  exact take_prefix _ _

end ByteOrder

end EsLogs
