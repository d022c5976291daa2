import Mathlib

/-!
Computations that may fail, with an error value or with a panic, and the inversion lemmas of their
sequencing: what a successful bind, guard or `mapM` says about its parts.
-/

namespace EsLogs

open List

/-- The two ways in which a computation fails. -/
inductive Failure where
  | error (msg : String)
  | panic (msg : String)
  deriving DecidableEq, Repr

/-- A result, or the failure that prevented it. -/
abbrev Outcome (α : Type) := Except Failure α

@[simp]
theorem except_ok_bind {ε α β : Type} (a : α) (k : α → Except ε β) :
    ((Except.ok a : Except ε α) >>= k) = k a := rfl

@[simp]
theorem except_mapError_ok {ε ε' α : Type} (f : ε → ε') (a : α) :
    (Except.ok a : Except ε α).mapError f = .ok a := rfl

theorem forM_eq_ok {ε α : Type} {f : α → Except ε PUnit} {l : List α}
    (h : ∀ a ∈ l, f a = .ok ⟨⟩) : l.forM f = .ok ⟨⟩ := by
  induction l with
  | nil => rfl
  | cons a l ih =>
    show (f a >>= fun _ => l.forM f) = _
    rw [h a mem_cons_self]
    exact ih fun b hb => h b (mem_cons_of_mem _ hb)

theorem option_bind_eq_some_iff {α β : Type} {o : Option α} {k : α → Option β} {b : β} :
    (o >>= k) = some b ↔ ∃ a, o = some a ∧ k a = some b :=
  Option.bind_eq_some_iff

/-- Fails with the message unless the condition holds. -/
def ensure (p : Prop) [Decidable p] (msg : String) : Except String Unit :=
  if p then .ok () else .error msg

@[simp]
theorem ensure_true (msg : String) : ensure True msg = .ok () := rfl

theorem except_bind_eq_ok_iff {ε α β : Type} {o : Except ε α} {k : α → Except ε β} {b : β} :
    (o >>= k) = .ok b ↔ ∃ a, o = .ok a ∧ k a = .ok b := by
  cases o with
  | error e | ok a => simp [bind, Except.bind]

theorem except_mapError_eq_ok_iff {ε ε' α : Type} {o : Except ε α} {f : ε → ε'} {a : α} :
    o.mapError f = .ok a ↔ o = .ok a := by
  cases o with
  | error e | ok b => simp [Except.mapError]

/-- Mapping succeeds with a list if it succeeds with each of its elements. -/
theorem mapM_eq_pure_iff {m : Type → Type} [Monad m] [LawfulMonad m]
    (hinj : ∀ {α : Type} {a b : α}, (pure a : m α) = pure b → a = b)
    (hbind : ∀ {α β : Type} {o : m α} {k : α → m β} {b : β},
      (o >>= k) = pure b ↔ ∃ a, o = pure a ∧ k a = pure b)
    {α β : Type} {f : α → m β} {l : List α} {r : List β} : l.mapM f = pure r ↔ l.map f = r.map pure := by
  induction l generalizing r with
  | nil =>
    rw [mapM_nil, map_nil, nil_eq, map_eq_nil_iff]
    exact ⟨fun h => (hinj h).symm, fun h => by rw [h]⟩
  | cons a l ih =>
    rw [mapM_cons, hbind]
    constructor
    · rintro ⟨b, hb, h⟩
      obtain ⟨bs, hbs, h⟩ := hbind.1 h
      rw [← hinj h, map_cons, map_cons, hb, ih.1 hbs]
    · intro h
      cases r with
      | nil => cases h
      | cons b bs =>
        rw [map_cons, map_cons, List.cons.injEq] at h
        exact ⟨b, h.1, hbind.2 ⟨bs, ih.2 h.2, rfl⟩⟩

theorem option_mapM_eq_some_iff {α β : Type} {f : α → Option β} {l : List α} {r : List β} :
    l.mapM f = some r ↔ l.map f = r.map some := mapM_eq_pure_iff Option.some.inj option_bind_eq_some_iff

theorem outcome_mapM_eq_ok_iff {α β : Type} {f : α → Outcome β} {l : List α} {r : List β} :
    l.mapM f = .ok r ↔ l.map f = r.map .ok := mapM_eq_pure_iff Except.ok.inj except_bind_eq_ok_iff

/-- Running a step over a list: when the step succeeds from every state that satisfies the invariant
of the items that are left, so does the run. -/
theorem foldlM_invariant {ε σ α : Type} {f : σ → α → Except ε σ} (I : List α → σ → Prop)
    (step : ∀ a rest s, I (a :: rest) s → ∃ s', f s a = .ok s' ∧ I rest s') (l : List α) (s : σ)
    (h : I l s) : ∃ s', l.foldlM f s = .ok s' ∧ I [] s' := by
  induction l generalizing s with
  | nil => exact ⟨s, rfl, h⟩
  | cons a l ih =>
    obtain ⟨s', hs', h'⟩ := step a l s h
    obtain ⟨s'', hs'', h''⟩ := ih s' h'
    exact ⟨s'', by rw [foldlM_cons, hs', except_ok_bind, hs''], h''⟩

end EsLogs
