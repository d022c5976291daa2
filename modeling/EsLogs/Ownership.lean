import Mathlib.Data.List.Nodup
import Mathlib.Logic.Function.Basic

/-!
Exclusive ownership of things that carry a flag. An owner has a list of things; a thing is in one list at
most, and its flag is set while it is. Things whose flags are not set can be taken, and things can be
handed over to another owner and be given back.
-/

namespace EsLogs.Ownership

open List

variable {τ ι : Type}

/-- Nothing is owned twice, and what is owned has its flag set. -/
structure Exclusive (flag : ι → Bool) (own : τ → List ι) : Prop where
  nodup : ∀ t, (own t).Nodup
  disjoint : ∀ t t', t ≠ t' → (own t).Disjoint (own t')
  flagged : ∀ t, ∀ i ∈ own t, flag i = true

variable {flag flag' : ι → Bool} {own own' : τ → List ι}

/-- The other flags do not matter. -/
theorem Exclusive.congr_flag (h : Exclusive flag own) (hflag : ∀ t, ∀ i ∈ own t, flag' i = flag i) :
    Exclusive flag' own :=
  ⟨h.nodup, h.disjoint, fun t i hi => (hflag t i hi).trans (h.flagged t i hi)⟩

variable [DecidableEq τ]

/-- An owner has other things from now on. -/
theorem Exclusive.update (h : Exclusive flag own) {t : τ} {things : List ι} (hnodup : things.Nodup)
    (hdisjoint : ∀ t' ≠ t, things.Disjoint (own t')) (hset : ∀ i ∈ things, flag' i = true)
    (hkeep : ∀ t' ≠ t, ∀ i ∈ own t', flag' i = flag i) :
    Exclusive flag' (Function.update own t things) where
  nodup := (Function.forall_update_iff own fun _ l => l.Nodup).2 ⟨hnodup, fun t' _ => h.nodup t'⟩
  disjoint := by
    intro t1 t2 hne
    rcases eq_or_ne t1 t with rfl | h1
    · rw [Function.update_self, Function.update_of_ne hne.symm]
      exact hdisjoint t2 hne.symm
    · rw [Function.update_of_ne h1]
      rcases eq_or_ne t2 t with rfl | h2
      · rw [Function.update_self]
        exact disjoint_symm (hdisjoint t1 h1)
      · rw [Function.update_of_ne h2]
        exact h.disjoint t1 t2 hne
  flagged := (Function.forall_update_iff own fun _ l => ∀ i ∈ l, flag' i = true).2
    ⟨hset, fun t' hne i hi => (hkeep t' hne i hi).trans (h.flagged t' i hi)⟩

/-- An owner takes things that nobody has. -/
theorem Exclusive.take (h : Exclusive flag own) {t : τ} {things : List ι} (hnodup : things.Nodup)
    (hfree : ∀ i ∈ things, flag i = false) (hset : ∀ i ∈ things, flag' i = true)
    (hkeep : ∀ i, i ∉ things → flag' i = flag i) :
    Exclusive flag' (Function.update own t (own t ++ things)) := by
  have hnew : ∀ t', ∀ i ∈ own t', i ∉ things := by
    intro t' i hi hthing
    have hfalse := hfree i hthing
    rw [h.flagged t' i hi] at hfalse
    cases hfalse
  refine h.update (nodup_append'.2 ⟨h.nodup t, hnodup, fun i hi hi' => hnew t i hi hi'⟩) ?_ ?_ ?_
  · intro t' hne i hi hi'
    rcases mem_append.1 hi with hi | hi
    · exact h.disjoint t t' hne.symm hi hi'
    · exact hnew t' i hi' hi
  · exact forall_mem_append.2 ⟨fun i hi => (hkeep i (hnew t i hi)).trans (h.flagged t i hi), hset⟩
  · exact fun t' _ i hi => hkeep i (hnew t' i hi)

/-- An owner hands some of its things to another one. -/
theorem Exclusive.handOver (h : Exclusive flag own) {t : τ} (t' : τ) {kept given : List ι}
    (hsplit : (kept ++ given).Perm (own t)) :
    Exclusive flag (Function.update (Function.update own t kept) t' given) := by
  have hnodup := nodup_append'.1 (hsplit.nodup_iff.2 (h.nodup t))
  have hkept : ∀ i ∈ kept, i ∈ own t := fun i hi => hsplit.mem_iff.1 (mem_append_left _ hi)
  have hgiven : ∀ i ∈ given, i ∈ own t := fun i hi => hsplit.mem_iff.1 (mem_append_right _ hi)
  have hleft : Exclusive flag (Function.update own t kept) :=
    h.update hnodup.1 (fun u hu i hi => h.disjoint t u hu.symm (hkept i hi))
      (fun i hi => h.flagged t i (hkept i hi)) fun _ _ _ _ => rfl
  refine hleft.update hnodup.2.1 ?_ (fun i hi => h.flagged t i (hgiven i hi)) fun _ _ _ _ => rfl
  intro u _ i hi
  rcases eq_or_ne u t with rfl | hu
  · rw [Function.update_self]
    exact fun hi' => hnodup.2.2 hi' hi
  · rw [Function.update_of_ne hu]
    exact h.disjoint t u hu.symm (hgiven i hi)

/-- An owner gives everything back. -/
theorem Exclusive.giveBack (h : Exclusive flag own) {t : τ}
    (hkeep : ∀ i, i ∉ own t → flag' i = flag i) :
    Exclusive flag' (Function.update own t []) :=
  h.update nodup_nil (fun _ _ => disjoint_nil_left _) (forall_mem_nil _)
    fun t' hne i hi => hkeep i fun hi' => h.disjoint t' t hne hi hi'

end EsLogs.Ownership
