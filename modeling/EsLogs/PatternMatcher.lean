import EsLogs.Bytes

/-!
Patterns such as `user <N> from <IP4>` (`pattern_matcher.rs`): literal texts with placeholders between them. The
scanner pairs a `<` with the first `>` after it, so that a `<` without a `>` of its own takes the one of the
placeholder after it.
-/

namespace EsLogs

open List

inductive PatternMatcherPlaceholder where
  | unknown | num | uuid | ip4 | time | date | dateTime | word
  deriving DecidableEq, Repr

def getPatternMatcherPlaceholder (s : Bytes) : PatternMatcherPlaceholder :=
  if s = ascii "<N>" then .num
  else if s = ascii "<UUID>" then .uuid
  else if s = ascii "<IP4>" then .ip4
  else if s = ascii "<TIME>" then .time
  else if s = ascii "<DATE>" then .date
  else if s = ascii "<DATETIME>" then .dateTime
  else if s = ascii "<W>" then .word
  else .unknown

def PatternMatcherPlaceholder.text : PatternMatcherPlaceholder → Bytes
  | unknown => ascii "<UNKNOWN>"
  | num => ascii "<N>"
  | uuid => ascii "<UUID>"
  | ip4 => ascii "<IP4>"
  | time => ascii "<TIME>"
  | date => ascii "<DATE>"
  | dateTime => ascii "<DATETIME>"
  | word => ascii "<W>"

structure PatternMatcher where
  separators : List Bytes
  placeholders : List PatternMatcherPlaceholder

namespace PatternMatcher

/-- The loop of `new_pattern_matcher`, from the rest of the pattern on. -/
def scan (separator s : Bytes) : PatternMatcher :=
  match hopen : s.idxOf? (byte '<') with
  | none => ⟨[separator ++ s], []⟩
  | some n =>
    match (s.drop n).idxOf? (byte '>') with
    | none => ⟨[separator ++ s.take n ++ s.drop n], []⟩
    | some k =>
      have : ((s.drop n).drop (k + 1)).length < s.length := by
        obtain ⟨u, v, rfl, rfl, -⟩ := idxOf?_eq_some_iff_append.1 hopen
        simp
        omega
      let placeholder := (s.drop n).take (k + 1)
      let ph := getPatternMatcherPlaceholder placeholder
      if ph = .unknown then scan (separator ++ s.take n ++ placeholder) ((s.drop n).drop (k + 1))
      else
        let pm := scan [] ((s.drop n).drop (k + 1))
        ⟨(separator ++ s.take n) :: pm.separators, ph :: pm.placeholders⟩
termination_by s.length

def newPatternMatcher (s : Bytes) : PatternMatcher := scan [] s

/-- The loop of `fmt`. -/
def displayLoop : List Bytes → List PatternMatcherPlaceholder → Bytes
  | [], _ => []
  | sep :: seps, [] => sep ++ displayLoop seps []
  | sep :: seps, p :: ps => sep ++ p.text ++ displayLoop seps ps

def display (pm : PatternMatcher) : Bytes := displayLoop pm.separators pm.placeholders

theorem text_getPatternMatcherPlaceholder {s : Bytes} (h : getPatternMatcherPlaceholder s ≠ .unknown) :
    (getPatternMatcherPlaceholder s).text = s := by
  unfold getPatternMatcherPlaceholder at h ⊢
  split_ifs at h ⊢ with h1 h2 h3 h4 h5 h6 h7
  all_goals first | exact absurd rfl h | (subst_vars; rfl)

theorem scan_spec (separator s : Bytes) :
    (scan separator s).separators.length = (scan separator s).placeholders.length + 1 ∧
      (scan separator s).display = separator ++ s := by
  fun_induction scan separator s with
  | case1 | case2 => simp [display, displayLoop]
  | case3 separator s n _ k _ _ placeholder _ _ ih =>
    refine ⟨ih.1, ih.2.trans ?_⟩
    simp only [placeholder, append_assoc, take_append_drop]
  | case4 separator s n _ k _ _ placeholder ph hknown pm ih =>
    rw [nil_append] at ih
    have htext : ph.text = placeholder := text_getPatternMatcherPlaceholder hknown
    refine ⟨congrArg (· + 1) ih.1, ?_⟩
    show separator ++ s.take n ++ ph.text ++ pm.display = _
    rw [ih.2, htext]
    simp only [placeholder, append_assoc, take_append_drop]

/-- There is a separator before, between and after the placeholders, and they make up the pattern. -/
theorem newPatternMatcher_display (s : Bytes) :
    (newPatternMatcher s).separators.length = (newPatternMatcher s).placeholders.length + 1 ∧
      (newPatternMatcher s).display = s := scan_spec [] s

/-! ### Placeholders that are not recognised -/

/-- A `<` has no `>` behind it. -/
def Open (x : Bytes) : Prop := ∃ u v, x = u ++ byte '<' :: v ∧ byte '>' ∉ v

/-- A `<` with the first `>` behind it. -/
def Bracketed (w : Bytes) : Prop := ∃ m, w = byte '<' :: (m ++ [byte '>']) ∧ byte '>' ∉ m

def Known (w : Bytes) : Prop := getPatternMatcherPlaceholder w ≠ .unknown

/-- A known placeholder behind a `<`, with no `>` between them. -/
def Hidden (w : Bytes) : Prop := ∃ v p, w = byte '<' :: (v ++ p) ∧ byte '>' ∉ v ∧ Known p

def Has (L : Bytes → Prop) (x : Bytes) : Prop := ∃ w, L w ∧ w <:+: x

section Has

variable {L : Bytes → Prop} {w x y : Bytes}

theorem not_open_of_notMem (h : byte '<' ∉ x) : ¬Open x := by
  rintro ⟨u, v, rfl, -⟩
  exact h mem_append_cons_self

theorem not_open_append (hx : ¬Open x) (hy : ¬Open y) : ¬Open (x ++ y) := by
  rintro ⟨u, v, h, hv⟩
  rcases append_eq_append_iff.1 h with ⟨c, rfl, rfl⟩ | ⟨_ | ⟨d, c⟩, rfl, hc⟩
  · exact hy ⟨c, v, rfl, hv⟩
  · exact hy ⟨[], v, hc.symm, hv⟩
  · obtain ⟨rfl, rfl⟩ := List.cons.inj hc
    exact hx ⟨u, c, rfl, fun hc => hv (mem_append_left _ hc)⟩

theorem Bracketed.not_open (h : Bracketed w) : ¬Open w := by
  obtain ⟨m, rfl, -⟩ := h
  rintro ⟨u, v, h, hv⟩
  rcases eq_nil_or_concat' v with rfl | ⟨v, z, rfl⟩
  · rw [← cons_append] at h
    cases (append_inj' h rfl).2
  · rw [← cons_append, ← cons_append, ← append_assoc] at h
    cases (append_inj' h rfl).2
    exact hv mem_concat_self

theorem Known.eq (h : Known w) : ∃ m, w = byte '<' :: (m ++ [byte '>']) ∧ byte '<' ∉ m ∧ byte '>' ∉ m := by
  refine ⟨w.tail.dropLast, ?_⟩
  unfold Known getPatternMatcherPlaceholder at h
  split_ifs at h with h1 h2 h3 h4 h5 h6 h7
  all_goals first | exact absurd rfl h | (subst_vars; decide)

theorem Known.bracketed (h : Known w) : Bracketed w := by
  obtain ⟨m, rfl, -, hm⟩ := h.eq
  exact ⟨m, rfl, hm⟩

theorem Hidden.bracketed (h : Hidden w) : Bracketed w := by
  obtain ⟨v, p, rfl, hv, hp⟩ := h
  obtain ⟨m, rfl, hm⟩ := hp.bracketed
  refine ⟨v ++ byte '<' :: m, by simp, ?_⟩
  rw [mem_append, not_or]
  exact ⟨hv, not_mem_cons_of_ne_of_not_mem (by decide) hm⟩

theorem Has.known (h : Has Hidden x) : Has Known x := by
  obtain ⟨_, ⟨v, p, rfl, -, hp⟩, hx⟩ := h
  exact ⟨p, hp, (suffix_append (byte '<' :: v) p).isInfix.trans hx⟩

theorem not_has_of_notMem {c : UInt8} (hc : c = byte '<' ∨ c = byte '>') (h : c ∉ x) : ¬Has Known x := by
  rintro ⟨w, hw, hx⟩
  obtain ⟨m, rfl, -⟩ := hw.eq
  apply h
  apply hx.subset
  rcases hc with rfl | rfl <;> simp

/-- Nothing in brackets goes across the end of a text in which every `<` has its `>`. -/
theorem has_append (hL : ∀ w, L w → Bracketed w) (hx : ¬Open x) : Has L (x ++ y) ↔ Has L x ∨ Has L y := by
  constructor
  · rintro ⟨w, hw, a, b, h⟩
    obtain ⟨m, hwm, hm⟩ := hL w hw
    rcases append_eq_append_iff.1 h with ⟨c, rfl, rfl⟩ | ⟨c, hc, rfl⟩
    · exact .inl ⟨w, hw, a, c, rfl⟩
    rcases append_eq_append_iff.1 hc with ⟨d, rfl, hd⟩ | ⟨d, rfl, rfl⟩
    · rcases d with _ | ⟨e, d⟩
      · exact .inr ⟨w, hw, [], b, by rw [hd]; rfl⟩
      rw [hwm, cons_append] at hd
      obtain ⟨rfl, htail⟩ := List.cons.inj hd
      -- the `>` is at the end of the word
      rcases eq_nil_or_concat' c with rfl | ⟨c, z, rfl⟩
      · exact .inl ⟨w, hw, a, [], by rw [hwm, htail, append_nil, append_nil]⟩
      · rw [← append_assoc] at htail
        obtain ⟨rfl, -⟩ := append_inj' htail rfl
        exact absurd ⟨a, d, rfl, fun hd => hm (mem_append_left _ hd)⟩ hx
    · exact .inr ⟨w, hw, d, b, rfl⟩
  · rintro (⟨w, hw, hx⟩ | ⟨w, hw, hy⟩)
    · exact ⟨w, hw, hx.trans (prefix_append x y).isInfix⟩
    · exact ⟨w, hw, hy.trans (suffix_append x y).isInfix⟩

/-- A placeholder in brackets is hidden unless it is all there is. -/
theorem Bracketed.has_hidden_iff (h : Bracketed w) : Has Hidden w ↔ Has Known w ∧ ¬Known w := by
  obtain ⟨m, hwm, hm⟩ := h
  constructor
  · rintro ⟨_, ⟨v, p, rfl, hv, hp⟩, a, b, rfl⟩
    refine ⟨Has.known ⟨_, ⟨v, p, rfl, hv, hp⟩, a, b, rfl⟩, fun hw => ?_⟩
    obtain ⟨m, heq, hopen, -⟩ := hw.eq
    obtain ⟨m', rfl, -⟩ := hp.eq
    have hrest : byte '<' ∉ m ++ [byte '>'] := by
      rw [mem_append, not_or]
      exact ⟨hopen, by decide⟩
    have hsplit : [] ++ byte '<' :: (m ++ [byte '>']) =
        (a ++ byte '<' :: v) ++ byte '<' :: (m' ++ [byte '>'] ++ b) := by
      rw [nil_append, ← heq]
      simp
    have hnil := ((append_cons_inj_of_notMem not_mem_nil hrest).1 hsplit).1
    cases a <;> cases hnil
  · rintro ⟨⟨p, hp, a, b, h⟩, hw⟩
    obtain ⟨m', hpm, -⟩ := hp.eq
    have hclose : byte '>' ∉ byte '<' :: m := not_mem_cons_of_ne_of_not_mem (by decide) hm
    have hsplit : (byte '<' :: m) ++ byte '>' :: [] = (a ++ byte '<' :: m') ++ byte '>' :: b := by
      rw [cons_append, ← hwm, ← h, hpm]
      simp
    obtain ⟨hfront, -, rfl⟩ := (append_cons_inj_of_notMem hclose not_mem_nil).1 hsplit
    rw [append_nil] at h
    rcases a with _ | ⟨c, a⟩
    · exact absurd (h ▸ hp) hw
    · obtain ⟨rfl, rfl⟩ := List.cons.inj hfront
      exact ⟨w, ⟨a, p, h.symm, fun ha => hm (mem_append_left _ ha), hp⟩, infix_rfl⟩

/-- A round of the loop goes over a text without a `<` and over a text in brackets. -/
theorem round_spec {s : Bytes} {n k : Nat} (hopen : s.idxOf? (byte '<') = some n)
    (hclose : (s.drop n).idxOf? (byte '>') = some k) :
    byte '<' ∉ s.take n ∧ Bracketed ((s.drop n).take (k + 1)) := by
  obtain ⟨u, v, rfl, rfl, hu⟩ := idxOf?_eq_some_iff_append.1 hopen
  rw [drop_left] at hclose ⊢
  rw [take_left]
  obtain ⟨_ | ⟨c, m⟩, rest, hv, rfl, hm⟩ := idxOf?_eq_some_iff_append.1 hclose
  · cases (List.cons.inj hv).1
  · obtain ⟨rfl, -⟩ := List.cons.inj hv
    refine ⟨hu, m, ?_, fun h => hm (mem_cons_of_mem _ h)⟩
    rw [hv, take_length_add_append]
    rfl

theorem has_hidden_round {s : Bytes} {n k : Nat} (hu : byte '<' ∉ s.take n)
    (hw : Bracketed ((s.drop n).take (k + 1))) :
    Has Hidden s ↔ Has Hidden ((s.drop n).take (k + 1)) ∨ Has Hidden ((s.drop n).drop (k + 1)) := by
  have hfront := has_append (y := s.drop n) (fun _ => Hidden.bracketed) (not_open_of_notMem hu)
  rw [take_append_drop, or_iff_right fun h => not_has_of_notMem (.inl rfl) hu h.known] at hfront
  rw [hfront, ← has_append (fun _ => Hidden.bracketed) hw.not_open, take_append_drop]

end Has

/-- The separators that the loop leaves have a placeholder in them if the one it starts with has, or if one is
hidden in the rest of the pattern. -/
theorem has_scan_iff (separator s : Bytes) (hsep : ¬Open separator) :
    (∃ x ∈ (scan separator s).separators, Has Known x) ↔ Has Known separator ∨ Has Hidden s := by
  have happend : ∀ {x y : Bytes}, ¬Open x → (Has Known (x ++ y) ↔ Has Known x ∨ Has Known y) :=
    has_append fun _ => Known.bracketed
  fun_induction scan separator s with
  | case1 separator s h =>
    have hs := not_has_of_notMem (.inl rfl) (List.idxOf?_eq_none_iff.1 h)
    simp [happend hsep, hs, mt Has.known hs]
  | case2 separator s n h hclose =>
    obtain ⟨u, v, rfl, rfl, hu⟩ := idxOf?_eq_some_iff_append.1 h
    have hv := not_has_of_notMem (.inr rfl) (List.idxOf?_eq_none_iff.1 hclose)
    have hs : ¬Has Known (u ++ byte '<' :: v) := by
      rw [drop_left] at hv
      rw [happend (not_open_of_notMem hu), not_or]
      exact ⟨not_has_of_notMem (.inl rfl) hu, hv⟩
    rw [append_assoc, take_append_drop]
    simp [happend hsep, hs, mt Has.known hs]
  | case3 separator s n h k hclose _ placeholder _ hunknown ih =>
    obtain ⟨hu, hw⟩ := round_spec h hclose
    have hclosed := not_open_append hsep (not_open_of_notMem hu)
    refine (ih (not_open_append hclosed hw.not_open)).trans ?_
    have hiff := hw.has_hidden_iff.trans (and_iff_left (not_not.2 hunknown))
    rw [has_hidden_round hu hw, hiff, happend hclosed, happend hsep,
      or_iff_left (not_has_of_notMem (.inl rfl) hu), or_assoc]
  | case4 separator s n h k hclose _ placeholder ph hknown pm ih =>
    obtain ⟨hu, hw⟩ := round_spec h hclose
    have hrest := ih (not_open_of_notMem not_mem_nil)
    rw [or_iff_right (not_has_of_notMem (.inl rfl) not_mem_nil)] at hrest
    have hno : ¬Has Hidden ((s.drop n).take (k + 1)) := fun h => (hw.has_hidden_iff.1 h).2 hknown
    rw [has_hidden_round hu hw, or_iff_right hno, exists_mem_cons_iff, happend hsep,
      or_iff_left (not_has_of_notMem (.inl rfl) hu)]
    exact or_congr_right hrest

/-- No separator has a known placeholder in it exactly if the pattern has none behind a `<` that has no `>` before
it. -/
theorem separators_clean_iff (s : Bytes) :
    (∀ sep ∈ (newPatternMatcher s).separators, ∀ w, Known w → ¬w <:+: sep) ↔ ∀ w, Hidden w → ¬w <:+: s := by
  have hscan := has_scan_iff [] s (not_open_of_notMem not_mem_nil)
  rw [or_iff_right (not_has_of_notMem (.inl rfl) not_mem_nil)] at hscan
  have h := hscan.not
  simp only [Has, not_exists, not_and] at h
  exact h

/-- The first `<` takes the `>` of the placeholder. -/
theorem not_separators_clean : ascii "<<N>" ∈ (newPatternMatcher (ascii "<<N>")).separators ∧
    PatternMatcherPlaceholder.num.text <:+: ascii "<<N>" := by
  decide +kernel

end PatternMatcher

end EsLogs
