/-!
Runs of a system whose steps may be impossible in a state, may fail, or lead to the next state. A
property of the states is exactly as good as a condition on the steps when the condition keeps an
invariant that has the property, and a step without the condition loses the property.
-/

namespace EsLogs.Runs

variable {σ ε φ : Type} (step : σ → ε → Option (Except φ σ))

/-- The state after the events; an event that is not possible makes the whole run impossible. -/
def run : σ → List ε → Option (Except φ σ)
  | s, [] => some (.ok s)
  | s, e :: es =>
    match step s e with
    | some (.ok s') => run s' es
    | r => r

/-- Every state on the way has the property, and no step fails. -/
def Always (P : σ → Prop) : σ → List ε → Prop
  | s, [] => P s
  | s, e :: es => P s ∧
      match step s e with
      | none => True
      | some (.error _) => False
      | some (.ok s') => Always P s' es

/-- Every step on the way meets the condition. -/
def Along (C : σ → ε → Prop) : σ → List ε → Prop
  | _, [] => True
  | s, e :: es => C s e ∧
      match step s e with
      | some (.ok s') => Along C s' es
      | _ => True

variable {step} {P I : σ → Prop} {C : σ → ε → Prop}

theorem Always.head {s : σ} {es : List ε} (h : Always step P s es) : P s := by
  cases es with
  | nil => exact h
  | cons e es => exact h.1

/-- Steps that meet the condition keep the invariant, so the property holds all the way. -/
theorem always_of_along (hP : ∀ s, I s → P s)
    (hstep : ∀ s e r, I s → C s e → step s e = some r → ∃ s', r = .ok s' ∧ I s') (s : σ) (es : List ε)
    (hs : I s) (hes : Along step C s es) : Always step P s es := by
  induction es generalizing s with
  | nil => exact hP s hs
  | cons e es ih =>
    rw [Along] at hes
    rw [Always]
    refine ⟨hP s hs, ?_⟩
    cases hr : step s e with
    | none => exact trivial
    | some r =>
      obtain ⟨s', rfl, hs'⟩ := hstep s e r hs hes.1 hr
      rw [hr] at hes
      exact ih s' hs' hes.2

/-- Every step keeps the invariant, so the property holds all the way. -/
theorem always_of_inv (hP : ∀ s, I s → P s)
    (hstep : ∀ s e r, I s → step s e = some r → ∃ s', r = .ok s' ∧ I s') (s : σ) (es : List ε)
    (hs : I s) : Always step P s es := by
  induction es generalizing s with
  | nil => exact hP s hs
  | cons e es ih =>
    rw [Always]
    refine ⟨hP s hs, ?_⟩
    cases hr : step s e with
    | none => exact trivial
    | some r =>
      obtain ⟨s', rfl, hs'⟩ := hstep s e r hs hr
      exact ih s' hs'

theorem always_iff_along (hP : ∀ s, I s → P s)
    (hstep : ∀ s e r, I s → C s e → step s e = some r → ∃ s', r = .ok s' ∧ I s')
    (hlost : ∀ s e, I s → ¬C s e → ∃ s', step s e = some (.ok s') ∧ ¬P s') (s : σ) (es : List ε)
    (hs : I s) : Always step P s es ↔ Along step C s es := by
  induction es generalizing s with
  | nil => exact ⟨fun _ => trivial, fun _ => hP s hs⟩
  | cons e es ih =>
    by_cases hC : C s e
    · rw [Always, Along]
      cases hr : step s e with
      | none => exact ⟨fun _ => ⟨hC, trivial⟩, fun _ => ⟨hP s hs, trivial⟩⟩
      | some r =>
        obtain ⟨s', rfl, hs'⟩ := hstep s e r hs hC hr
        have ih := ih s' hs'
        exact ⟨fun h => ⟨hC, ih.1 h.2⟩, fun h => ⟨hP s hs, ih.2 h.2⟩⟩
    · obtain ⟨s', hr, hbad⟩ := hlost s e hs hC
      rw [Always, Along, hr]
      exact ⟨fun h => absurd h.2.head hbad, fun h => absurd h.1 hC⟩

end EsLogs.Runs
