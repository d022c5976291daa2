import EsLogs.Utf8

/-!
Where a valid text may be cut. A rune never starts with a continuation byte, so a valid part of a valid text
lies between runes, and what is before it and behind it is valid as well.
-/

namespace EsLogs.Utf8

open List

variable {v : Nat} {s : Bytes} {b : UInt8} {r : Bytes}

theorem isValid_cases (h : isValid s = true) (hne : s ≠ []) : ∃ r t v, s = r ++ t ∧ IsRune r v ∧ isValid t = true := by
  induction h using isValid_induction with
  | nil => exact absurd rfl hne
  | rune r t v hr ht _ => exact ⟨r, t, v, rfl, hr, ht⟩

/-- The rune at the start of a text is determined by the text. -/
theorem IsRune.append_inj {r r' t t' : Bytes} {v v' : Nat} (hr : IsRune r v) (hr' : IsRune r' v')
    (h : r ++ t = r' ++ t') : r = r' ∧ t = t' ∧ v = v' := by
  have hstart := hr.runeAt_append t
  rw [h, hr'.runeAt_append t', Option.some.injEq, Prod.mk.injEq] at hstart
  obtain ⟨hrr, htt⟩ := List.append_inj h hstart.2.symm
  exact ⟨hrr, htt, hstart.1.symm⟩

theorem isValid_of_rune_append {r s : Bytes} (hr : IsRune r v) (h : isValid (r ++ s) = true) : isValid s = true := by
  have hne : r ++ s ≠ [] := append_ne_nil_of_left_ne_nil hr.ne_nil s
  obtain ⟨r', t, v', heq, hr', ht⟩ := isValid_cases h hne
  obtain ⟨-, rfl, -⟩ := hr.append_inj hr' heq
  exact ht

/-- What follows a valid beginning is valid. -/
theorem isValid_of_append_left {s t : Bytes} (hs : isValid s = true) (h : isValid (s ++ t) = true) :
    isValid t = true := by
  induction hs using isValid_induction with
  | nil => exact h
  | rune r s v hr _ ih =>
    rw [append_assoc] at h
    exact ih (isValid_of_rune_append hr h)

theorem IsRune.not_isCont_head (h : IsRune (b :: r) v) : isCont b = false := by
  have hfirst : seqLen b = _ := Option.some.inj (startsRune_of_runeAt h).first
  have hall : ∀ b : UInt8, 0 < seqLen b → isCont b = false := by decide +kernel
  exact hall b (hfirst ▸ (startsRune_of_runeAt h).pos)

theorem IsRune.isCont_tail (h : IsRune (b :: r) v) : ∀ c ∈ r, isCont c = true := by
  have hrest := (startsRune_of_runeAt h).rest
  rwa [take_of_length_le le_rfl] at hrest

theorem IsRune.length_le_four (h : IsRune r v) : r.length ≤ 4 := by
  cases h.sequence <;> simp

theorem not_isCont_head (h : isValid (b :: s) = true) : isCont b = false := by
  obtain ⟨r, t, v, heq, hr, -⟩ := isValid_cases h (cons_ne_nil b s)
  cases r with
  | nil => exact absurd rfl hr.ne_nil
  | cons c r =>
    obtain rfl : b = c := (List.cons.inj heq).1
    exact hr.not_isCont_head

/-- What is before a byte that is no continuation is valid. -/
theorem isValid_of_append_right {s t : Bytes} (h : isValid (s ++ t) = true)
    (ht : ∀ b ∈ t.head?, isCont b = false) : isValid s = true := by
  generalize hst : s ++ t = u at h
  induction h using isValid_induction generalizing s with
  | nil =>
    rw [(append_eq_nil_iff.1 hst).1]
    rfl
  | rune r u v hr _ ih =>
    rcases Nat.lt_or_ge s.length r.length with hshort | hlong
    · -- the cut would be inside the first rune
      cases s with
      | nil => rfl
      | cons b s =>
        have htake : (b :: s) <+: r := prefix_of_prefix_length_le ⟨t, hst⟩ ⟨u, rfl⟩ hshort.le
        obtain ⟨r', rfl⟩ := htake
        rw [append_assoc, append_cancel_left_eq] at hst
        cases r' with
        | nil =>
          rw [append_nil] at hshort
          exact absurd hshort (Nat.lt_irrefl _)
        | cons c r' =>
          rw [hst] at ht
          have hc := ht c (by rw [cons_append, head?_cons]; rfl)
          rw [cons_append] at hr
          rw [hr.isCont_tail c (by simp)] at hc
          cases hc
    · obtain ⟨s', rfl⟩ : r <+: s := prefix_of_prefix_length_le ⟨u, rfl⟩ ⟨t, hst⟩ hlong
      rw [append_assoc, append_cancel_left_eq] at hst
      exact isValid_rune_append hr (ih hst)

/-- A valid part of a valid text lies between runes. -/
theorem isValid_around {a p c : Bytes} (h : isValid (a ++ (p ++ c)) = true) (hp : isValid p = true)
    (hne : p ≠ []) : isValid a = true ∧ isValid c = true := by
  have ha : isValid a = true := by
    apply isValid_of_append_right h
    intro b hb
    cases p with
    | nil => exact absurd rfl hne
    | cons b' p =>
      obtain rfl : b' = b := Option.some.inj hb
      exact not_isCont_head hp
  exact ⟨ha, isValid_of_append_left hp (isValid_of_append_left ha h)⟩

/-- A valid text that is not empty ends with a rune. -/
theorem exists_last_rune (h : isValid s = true) (hne : s ≠ []) :
    ∃ a r v, s = a ++ r ∧ IsRune r v ∧ isValid a = true := by
  induction h using isValid_induction with
  | nil => exact absurd rfl hne
  | rune r t v hr ht ih =>
    by_cases htnil : t = []
    · subst htnil
      exact ⟨[], r, v, by rw [append_nil, nil_append], hr, rfl⟩
    · obtain ⟨a, r', v', rfl, hr', ha⟩ := ih htnil
      exact ⟨r ++ a, r', v', (append_assoc r a r').symm, hr', isValid_rune_append hr ha⟩

/-- The rune at the end of a text is determined by the text. -/
theorem IsRune.append_inj_right {r r' a a' : Bytes} {v v' : Nat} (hr : IsRune r v) (hr' : IsRune r' v')
    (h : a ++ r = a' ++ r') : a = a' ∧ r = r' ∧ v = v' := by
  -- of two runes at the end the shorter one starts inside the longer one, unless they are the same
  have key : ∀ {r r' a a' : Bytes} {v v' : Nat}, IsRune r v → IsRune r' v' → a ++ r = a' ++ r' →
      ¬a.length < a'.length := by
    intro r r' a a' v v' hr hr' h hlt
    obtain ⟨b, rfl⟩ : a <+: a' := List.prefix_of_prefix_length_le ⟨r, h⟩ ⟨r', rfl⟩ hlt.le
    rw [List.append_assoc, List.append_cancel_left_eq] at h
    cases b with
    | nil =>
      rw [List.append_nil] at hlt
      exact absurd hlt (Nat.lt_irrefl _)
    | cons c b =>
      cases r' with
      | nil => exact absurd rfl hr'.ne_nil
      | cons c' r' =>
        rw [List.cons_append] at h
        rw [h] at hr
        have hcont := hr.isCont_tail c' (by simp)
        rw [hr'.not_isCont_head] at hcont
        cases hcont
  have hlen : a.length = a'.length :=
    Nat.le_antisymm (Nat.not_lt.1 (key hr' hr h.symm)) (Nat.not_lt.1 (key hr hr' h))
  obtain ⟨haa, hrr⟩ := List.append_inj h hlen
  subst hrr
  have hv := Option.some.inj (hr.symm.trans hr')
  exact ⟨haa, rfl, (Prod.mk.inj hv).1⟩

end EsLogs.Utf8
