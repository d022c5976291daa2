import EsLogs.PhraseMatch
import EsLogs.Utf8Cut

/-!
What the search for phrases finds in a valid text. A valid phrase lies between runes there, so the runes
around it are those of the text, and a sequence of phrases is found by taking the first place for each one:
a phrase that is found earlier leaves more of the text for the others. That the search goes on in the rest
of the text only, and does not look back over the seam, makes no difference, because two parts of a word
never meet at a seam.
-/

namespace EsLogs.PhraseMatch

open Tokenizer Utf8 List

variable {v : Nat} {start : Nat}

/-! ### The runes around a place -/

theorem runeAtOffset_eq {b t r : Bytes} {offset v : Nat} (hr : IsRune r v) (h : b.drop offset = r ++ t) :
    runeAtOffset b offset = v := by
  cases r with
  | nil => exact absurd rfl hr.ne_nil
  | cons c r =>
    have hc : b.getD offset 0 = c := by
      have hget := congrArg (fun l => l[0]?) h
      simp only [List.getElem?_drop, Nat.add_zero, cons_append, List.getElem?_cons_zero] at hget
      rw [getD_eq_getElem?_getD, hget, Option.getD_some]
    rw [runeAtOffset, hc]
    split
    case isTrue hascii =>
      have hrune := (runeAt_cons_of_ascii hascii r).symm.trans hr
      exact (Prod.mk.inj (Option.some.inj hrune)).1
    case isFalse => rw [decodeRuneAtStart, decodeRune, h, hr.runeAt_append t, Option.getD_some]

theorem lastRune_eq {s : Bytes} (h : isValid s = true) (hne : s ≠ []) :
    ∃ a r v, s = a ++ r ∧ IsRune r v ∧ lastRune s = some v := by
  induction h using isValid_induction with
  | nil => exact absurd rfl hne
  | rune r t v hr ht ih =>
    rw [lastRune]
    split
    case h_1 hnone => exact absurd ((hr.runeAt_append t).symm.trans hnone) (by simp)
    case h_2 v' n hsome =>
      obtain ⟨rfl, rfl⟩ := Prod.mk.inj (Option.some.inj ((hr.runeAt_append t).symm.trans hsome))
      by_cases htnil : t = []
      · subst htnil
        rw [append_nil, if_pos le_rfl]
        exact ⟨[], r, v, rfl, hr, rfl⟩
      · obtain ⟨a, r', v', rfl, hr', hlast⟩ := ih htnil
        have hpos := length_pos_iff.2 htnil
        rw [length_append, if_neg (by omega), drop_left]
        exact ⟨r ++ a, r', v', (append_assoc r a r').symm, hr', hlast⟩

/-- Whatever valid end of the text is decoded, its last rune is the last rune of the text. -/
theorem decodeRuneAtEnd_eq {a r : Bytes} (hr : IsRune r v) : decodeRuneAtEnd (a ++ r) = v := by
  have hlen : 0 < r.length := length_pos_iff.2 hr.ne_nil
  have hfour := hr.length_le_four
  have hvalue : ∀ i < (a ++ r).length, ∀ w,
      (if isValid ((a ++ r).drop i) then lastRune ((a ++ r).drop i) else none) = some w → w = v := by
    intro i hi w hw
    split at hw
    case isFalse => cases hw
    case isTrue hvalid =>
      have hne : (a ++ r).drop i ≠ [] := by
        rw [Ne, drop_eq_nil_iff]
        omega
      obtain ⟨a', r', v', heq, hr', hlast⟩ := lastRune_eq hvalid hne
      have hwhole : a ++ r = ((a ++ r).take i ++ a') ++ r' := by
        rw [append_assoc, ← heq, take_append_drop]
      obtain ⟨-, -, rfl⟩ := hr.append_inj_right hr' hwhole
      rw [hlast, Option.some.injEq] at hw
      exact hw.symm
  rw [decodeRuneAtEnd]
  cases hfound : List.findSome? _ _ with
  | none =>
    rw [List.findSome?_eq_none_iff] at hfound
    have hmem : a.length ∈ List.range' ((a ++ r).length - 4)
        ((a ++ r).length - ((a ++ r).length - 4)) := by
      rw [mem_range'_1, length_append]
      omega
    obtain ⟨a', r', v', -, -, hlast⟩ := lastRune_eq hr.isValid hr.ne_nil
    have hnone := hfound a.length hmem
    rw [drop_left, if_pos hr.isValid, hlast] at hnone
    cases hnone
  | some w =>
    obtain ⟨i, hi, hw⟩ := exists_of_findSome?_eq_some hfound
    rw [mem_range'_1] at hi
    exact hvalue i (by omega) w hw

theorem runeBefore_eq {b a r : Bytes} {offset v : Nat} (hr : IsRune r v) (hoffset : offset ≤ b.length)
    (h : b.take offset = a ++ r) : runeBefore b offset = v := by
  have hlen : a.length + r.length = offset := by
    rw [← length_append, ← h, length_take_of_le hoffset]
  have hpos : 0 < r.length := length_pos_iff.2 hr.ne_nil
  have hlast : b.getD (offset - 1) 0 = r.getD (r.length - 1) 0 := by
    have hget := congrArg (fun l => l[offset - 1]?) h
    simp only [List.getElem?_take_of_lt (show offset - 1 < offset by omega),
      List.getElem?_append_right (show a.length ≤ offset - 1 by omega)] at hget
    rw [getD_eq_getElem?_getD, hget, show offset - 1 - a.length = r.length - 1 by omega,
      getD_eq_getElem?_getD]
  rw [runeBefore, hlast]
  split
  case isFalse => rw [h, decodeRuneAtEnd_eq hr]
  case isTrue hascii =>
    -- a continuation byte is not ASCII, so the rune is this one byte
    cases r with
    | nil => exact absurd rfl hr.ne_nil
    | cons c r =>
      cases r with
      | nil =>
        have hrune := (runeAt_cons_of_ascii hascii []).symm.trans hr
        exact (Prod.mk.inj (Option.some.inj hrune)).1
      | cons d r =>
        have hmem : (c :: d :: r).getD ((c :: d :: r).length - 1) 0 ∈ d :: r := by
          rw [getD_eq_getElem _ _ (by simp)]
          simp
        have hcont := toNat_of_isCont (hr.isCont_tail _ hmem)
        rw [UInt8.lt_iff_toNat_lt, show (0x80 : UInt8).toNat = 128 from rfl] at hascii
        omega

/-! ### Words at the ends of a text -/

def StartsWithToken (rc : RuneClasses) (s : Bytes) : Prop :=
  ∃ r t v, s = r ++ t ∧ IsRune r v ∧ isTokenRune rc v = true

def EndsWithToken (rc : RuneClasses) (s : Bytes) : Prop :=
  ∃ a r v, s = a ++ r ∧ IsRune r v ∧ isTokenRune rc v = true

variable {rc : RuneClasses} {s phrase : Bytes} {pos : Nat}

theorem not_startsWithToken_nil : ¬StartsWithToken rc [] := by
  rintro ⟨r, t, v, h, hr, -⟩
  exact hr.ne_nil (append_eq_nil_iff.1 h.symm).1

theorem not_endsWithToken_nil : ¬EndsWithToken rc [] := by
  rintro ⟨a, r, v, h, hr, -⟩
  exact hr.ne_nil (append_eq_nil_iff.1 h.symm).2

theorem startsWithToken_iff {r t : Bytes} (hr : IsRune r v) :
    StartsWithToken rc (r ++ t) ↔ isTokenRune rc v = true := by
  constructor
  · rintro ⟨r', t', v', h, hr', htoken⟩
    obtain ⟨-, -, rfl⟩ := hr.append_inj hr' h
    exact htoken
  · intro htoken
    exact ⟨r, t, v, rfl, hr, htoken⟩

theorem endsWithToken_iff {a r : Bytes} (hr : IsRune r v) : EndsWithToken rc (a ++ r) ↔ isTokenRune rc v = true := by
  constructor
  · rintro ⟨a', r', v', h, hr', htoken⟩
    obtain ⟨-, -, rfl⟩ := hr.append_inj_right hr' h
    exact htoken
  · intro htoken
    exact ⟨a, r, v, rfl, hr, htoken⟩

theorem StartsWithToken.append (h : StartsWithToken rc s) (t : Bytes) : StartsWithToken rc (s ++ t) := by
  obtain ⟨r, u, v, rfl, hr, htoken⟩ := h
  exact ⟨r, u ++ t, v, append_assoc r u t, hr, htoken⟩

/-- The end of a text is the end of its last part. -/
theorem endsWithToken_append (a : Bytes) (hs : isValid s = true) (hne : s ≠ []) :
    EndsWithToken rc (a ++ s) ↔ EndsWithToken rc s := by
  obtain ⟨b, r, v, rfl, hr, -⟩ := exists_last_rune hs hne
  rw [← append_assoc, endsWithToken_iff hr, endsWithToken_iff hr]

/-! ### Places of a phrase -/

/-- The phrase is at `pos`, and a word does not go on before it or behind it. -/
structure OccursAt (rc : RuneClasses) (s phrase : Bytes) (pos : Nat) : Prop where
  here : IsAt s phrase pos
  before : StartsWithToken rc phrase → ¬EndsWithToken rc (s.take pos)
  behind : EndsWithToken rc phrase → ¬StartsWithToken rc (s.drop (pos + phrase.length))

/-- A valid text without the replacement character. -/
structure CleanText (s : Bytes) : Prop where
  valid : isValid s = true
  clean : ¬encode runeError <:+: s

theorem CleanText.rune_ne (h : CleanText s) {a r t : Bytes} (hs : s = a ++ (r ++ t))
    (hr : IsRune r v) : v ≠ runeError := by
  rintro rfl
  apply h.clean
  rw [hr.encode_eq, hs]
  exact ⟨a, t, append_assoc a r t⟩

theorem joins_eq {r : Nat} (h : r ≠ runeError) : joins rc r = isTokenRune rc r := by
  rw [joins, beq_eq_false_iff_ne.2 h, Bool.false_or]

/-- The test for what is before the phrase. -/
theorem joined_before_iff {a c : Bytes} (hs : CleanText (a ++ (phrase ++ c)))
    (hphrase : isValid phrase = true) (hne : phrase ≠ []) :
    (isTokenRune rc (runeAtOffset phrase 0) && a.length > 0 &&
        joins rc (runeBefore (a ++ (phrase ++ c)) a.length)) = true ↔
      StartsWithToken rc phrase ∧ EndsWithToken rc a := by
  obtain ⟨r, t, v, rfl, hr, -⟩ := isValid_cases hphrase hne
  have hfirst : runeAtOffset (r ++ t) 0 = v := runeAtOffset_eq hr rfl
  rw [hfirst, startsWithToken_iff hr, Bool.and_assoc, Bool.and_eq_true]
  apply and_congr_right
  intro _
  by_cases hanil : a = []
  · subst hanil
    simp [not_endsWithToken_nil]
  · have hpos : 0 < a.length := length_pos_iff.2 hanil
    have ha := (isValid_around hs.valid hphrase hne).1
    obtain ⟨b, r', v', rfl, hr', -⟩ := exists_last_rune ha hanil
    have hbefore : runeBefore ((b ++ r') ++ ((r ++ t) ++ c)) (b ++ r').length = v' := by
      apply runeBefore_eq hr' (a := b)
      · simp only [length_append]
        omega
      · exact take_left
    have hclean : v' ≠ runeError := hs.rune_ne (append_assoc b r' _) hr'
    rw [hbefore, joins_eq hclean, endsWithToken_iff hr', decide_eq_true hpos, Bool.true_and]

/-- The test for what is behind the phrase. -/
theorem joined_behind_iff {a c : Bytes} (hs : CleanText (a ++ (phrase ++ c)))
    (hphrase : isValid phrase = true) (hne : phrase ≠ []) :
    (isTokenRune rc (runeBefore phrase phrase.length) &&
        a.length + phrase.length < (a ++ (phrase ++ c)).length &&
        joins rc (runeAtOffset (a ++ (phrase ++ c)) (a.length + phrase.length))) = true ↔
      EndsWithToken rc phrase ∧ StartsWithToken rc c := by
  obtain ⟨b, r, v, rfl, hr, -⟩ := exists_last_rune hphrase hne
  have hlast : runeBefore (b ++ r) (b ++ r).length = v :=
    runeBefore_eq hr le_rfl take_length
  rw [hlast, endsWithToken_iff hr, Bool.and_assoc, Bool.and_eq_true]
  apply and_congr_right
  intro _
  by_cases hcnil : c = []
  · subst hcnil
    simp [not_startsWithToken_nil]
  · have hpos : 0 < c.length := length_pos_iff.2 hcnil
    have hc := (isValid_around hs.valid hphrase hne).2
    obtain ⟨r', t, v', rfl, hr', -⟩ := isValid_cases hc hcnil
    have hbehind : runeAtOffset (a ++ ((b ++ r) ++ (r' ++ t))) (a.length + (b ++ r).length) = v' := by
      apply runeAtOffset_eq hr' (t := t)
      rw [← append_assoc a, ← length_append, drop_left]
    have hclean : v' ≠ runeError :=
      hs.rune_ne (a := a ++ (b ++ r)) (append_assoc a (b ++ r) _).symm hr'
    have hlt : a.length + (b ++ r).length < (a ++ ((b ++ r) ++ (r' ++ t))).length := by
      simp only [length_append] at hpos ⊢
      omega
    rw [hbehind, joins_eq hclean, startsWithToken_iff hr', decide_eq_true hlt, Bool.true_and]

theorem IsAt.exists_append (h : IsAt s phrase pos) (hne : phrase ≠ []) :
    ∃ a c, s = a ++ (phrase ++ c) ∧ a.length = pos := by
  have hle := h.add_le hne
  obtain ⟨c, hc⟩ := h
  refine ⟨s.take pos, c, ?_, length_take_of_le (by omega)⟩
  rw [hc, take_append_drop]

/-- In a valid text the search looks for the places of the phrase. -/
theorem standsAlone_iff (hs : CleanText s) (hphrase : isValid phrase = true) (hne : phrase ≠ []) :
    StandsAlone rc s phrase pos ↔ OccursAt rc s phrase pos := by
  have hjoined : IsAt s phrase pos → (isJoined rc s phrase pos = false ↔
      (StartsWithToken rc phrase → ¬EndsWithToken rc (s.take pos)) ∧
        (EndsWithToken rc phrase → ¬StartsWithToken rc (s.drop (pos + phrase.length)))) := by
    intro hat
    obtain ⟨a, c, rfl, rfl⟩ := hat.exists_append hne
    have hdrop : (a ++ (phrase ++ c)).drop (a.length + phrase.length) = c := by
      rw [← append_assoc, ← length_append, drop_left]
    rw [take_left, hdrop, isJoined, Bool.or_eq_false_iff, Bool.eq_false_iff, Bool.eq_false_iff, Ne, Ne,
      joined_before_iff hs hphrase hne, joined_behind_iff hs hphrase hne, not_and, not_and]
  constructor
  · rintro ⟨hat, halone⟩
    obtain ⟨hbefore, hbehind⟩ := (hjoined hat).1 halone
    exact ⟨hat, hbefore, hbehind⟩
  · rintro ⟨hat, hbefore, hbehind⟩
    exact ⟨hat, (hjoined hat).2 ⟨hbefore, hbehind⟩⟩

/-! ### Sequences -/

/-- The phrases have places one behind the other, from `start` on. -/
def InOrder (rc : RuneClasses) (s : Bytes) : Nat → List Bytes → Prop
  | _, [] => True
  | start, phrase :: phrases =>
    ∃ pos, start ≤ pos ∧ pos + phrase.length ≤ s.length ∧ OccursAt rc s phrase pos ∧
      InOrder rc s (pos + phrase.length) phrases

/-- More of the text leaves more places. -/
theorem InOrder.mono {start start' : Nat} {phrases : List Bytes} (h : InOrder rc s start' phrases)
    (hle : start ≤ start') : InOrder rc s start phrases := by
  cases phrases with
  | nil => exact trivial
  | cons phrase phrases =>
    obtain ⟨pos, hpos, hrest⟩ := h
    exact ⟨pos, hle.trans hpos, hrest⟩

theorem occursAt_nil (rc : RuneClasses) (s : Bytes) (pos : Nat) : OccursAt rc s [] pos where
  here := List.nil_prefix
  before := fun h => absurd h not_startsWithToken_nil
  behind := fun h => absurd h not_endsWithToken_nil

/-- The rest of a text after a cut that no word goes over. -/
structure Rest (rc : RuneClasses) (s : Bytes) (start : Nat) : Prop where
  le : start ≤ s.length
  clean : CleanText (s.drop start)
  seam : EndsWithToken rc (s.take start) → ¬StartsWithToken rc (s.drop start)

/-- Places in the rest are places in the text. -/
theorem occursAt_rest (h : Rest rc s start) (hphrase : isValid phrase = true) (hne : phrase ≠ []) :
    OccursAt rc (s.drop start) phrase pos ↔ OccursAt rc s phrase (start + pos) := by
  have hhere : IsAt (s.drop start) phrase pos ↔ IsAt s phrase (start + pos) := by
    rw [IsAt, IsAt, drop_drop]
  have hbehind : (s.drop start).drop (pos + phrase.length) = s.drop (start + pos + phrase.length) := by
    rw [drop_drop, Nat.add_assoc]
  have htake : s.take (start + pos) = s.take start ++ (s.drop start).take pos := by
    rw [take_add]
  have hbefore : IsAt (s.drop start) phrase pos → StartsWithToken rc phrase →
      (EndsWithToken rc ((s.drop start).take pos) ↔ EndsWithToken rc (s.take (start + pos))) := by
    intro hat htoken
    obtain ⟨a, c, heq, rfl⟩ := hat.exists_append hne
    rw [htake, heq, take_left]
    by_cases hanil : a = []
    · subst hanil
      -- the phrase is right at the seam
      rw [append_nil]
      refine iff_of_false not_endsWithToken_nil ?_
      intro hends
      apply h.seam hends
      rw [heq]
      exact htoken.append c
    · have ha := (isValid_around (heq ▸ h.clean.valid) hphrase hne).1
      rw [endsWithToken_append _ ha hanil]
  constructor
  · rintro ⟨hat, hfront, hback⟩
    refine ⟨hhere.1 hat, ?_, hbehind ▸ hback⟩
    intro htoken
    rw [← hbefore hat htoken]
    exact hfront htoken
  · rintro ⟨hat, hfront, hback⟩
    refine ⟨hhere.2 hat, ?_, hbehind ▸ hback⟩
    intro htoken
    rw [hbefore (hhere.2 hat) htoken]
    exact hfront htoken

/-- After a place of a phrase there is a rest again. -/
theorem Rest.behind (h : Rest rc s start) (hphrase : isValid phrase = true)
    (hne : phrase ≠ []) (hocc : OccursAt rc (s.drop start) phrase pos) :
    Rest rc s (start + (pos + phrase.length)) := by
  obtain ⟨a, c, heq, rfl⟩ := hocc.here.exists_append hne
  have hdrop : s.drop (start + (a.length + phrase.length)) = c := by
    rw [← drop_drop, heq, ← append_assoc, ← length_append, drop_left]
  have htake : s.take (start + (a.length + phrase.length)) = s.take start ++ a ++ phrase := by
    rw [take_add, heq, ← append_assoc a, ← length_append, take_left, append_assoc]
  have hlen := hocc.here.add_le hne
  rw [length_drop] at hlen
  have hle := h.le
  refine ⟨by omega, ?_, ?_⟩
  · rw [hdrop]
    refine ⟨(isValid_around (heq ▸ h.clean.valid) hphrase hne).2, ?_⟩
    intro hinfix
    apply h.clean.clean
    rw [heq]
    exact hinfix.trans ((suffix_append phrase c).trans (suffix_append a _)).isInfix
  · rw [htake, endsWithToken_append _ hphrase hne, ← Nat.add_assoc]
    have hback := ((occursAt_rest h hphrase hne).1 hocc).behind
    exact hback

theorem matchSequence_rest (h : Rest rc s start) {phrases : List Bytes} (hphrases : ∀ p ∈ phrases, isValid p = true) :
    matchSequence rc (s.drop start) phrases = true ↔ InOrder rc s start phrases := by
  induction phrases generalizing start with
  | nil => exact iff_of_true rfl trivial
  | cons phrase phrases ih =>
    obtain ⟨hphrase, hothers⟩ := forall_mem_cons.1 hphrases
    rw [matchSequence, InOrder]
    by_cases hne : phrase = []
    · subst hne
      have hget : getPhrasePos rc (s.drop start) [] = some 0 := rfl
      simp only [hget, length_nil, Nat.add_zero, drop_zero]
      rw [ih h hothers]
      constructor
      · intro hrest
        exact ⟨start, le_rfl, h.le, occursAt_nil rc s start, hrest⟩
      · rintro ⟨pos, hpos, -, -, hrest⟩
        exact hrest.mono hpos
    · obtain ⟨hsome, hnone⟩ := getPhrasePos_spec rc (s := s.drop start) hne
      have halone : ∀ j, StandsAlone rc (s.drop start) phrase j ↔ OccursAt rc s phrase (start + j) := by
        intro j
        rw [standsAlone_iff h.clean hphrase hne, occursAt_rest h hphrase hne]
      cases hget : getPhrasePos rc (s.drop start) phrase with
      | none =>
        refine iff_of_false Bool.false_ne_true ?_
        rintro ⟨pos, hpos, -, hocc, -⟩
        apply hnone hget (pos - start)
        rw [halone, Nat.add_sub_cancel' hpos]
        exact hocc
      | some i =>
        obtain ⟨hi, hfirst⟩ := hsome i hget
        have hocc := (standsAlone_iff h.clean hphrase hne).1 hi
        have hrest := h.behind hphrase hne hocc
        show matchSequence rc ((s.drop start).drop (i + phrase.length)) phrases = true ↔ _
        rw [drop_drop, ih hrest hothers]
        constructor
        · intro hin
          have hle := hrest.le
          refine ⟨start + i, Nat.le_add_right _ _, by omega, (halone i).1 hi, ?_⟩
          rwa [Nat.add_assoc]
        · -- the first place ends no later than the one that is given
          rintro ⟨pos, hpos, -, hocc', hin⟩
          apply hin.mono
          have hle : i ≤ pos - start := by
            by_contra hlt
            apply hfirst (pos - start) (by omega)
            rw [halone, Nat.add_sub_cancel' hpos]
            exact hocc'
          omega

/-- Taking the first place for each phrase finds the sequence if it is there. -/
theorem matchSequence_iff (rc : RuneClasses) {s : Bytes} (hs : CleanText s) {phrases : List Bytes}
    (hphrases : ∀ p ∈ phrases, isValid p = true) :
    matchSequence rc s phrases = true ↔ InOrder rc s 0 phrases := by
  have hrest : Rest rc s 0 := by
    refine ⟨Nat.zero_le _, hs, ?_⟩
    intro h
    exact absurd h not_endsWithToken_nil
  exact matchSequence_rest hrest hphrases

/-- Nothing beyond ASCII is a letter. -/
def asciiOnly : RuneClasses := ⟨fun _ => false, rfl⟩

theorem matchSequence_sample :
    matchSequence asciiOnly (ascii "ab b-ab a") [ascii "b-", ascii "a"] = true ∧
      InOrder asciiOnly (ascii "ab b-ab a") 0 [ascii "b-", ascii "a"] :=
  ⟨by decide +kernel, (matchSequence_iff asciiOnly ⟨by decide +kernel, by decide +kernel⟩
    (by decide +kernel)).1 (by decide +kernel)⟩

end EsLogs.PhraseMatch
