import EsLogs.Tokenizer

/-!
Phrases in a text (`filter_phrase.rs`, `filter_generic.rs`, `filter_sequence.rs`). A phrase that begins or
ends with a word may not be continued by a word there. The search takes the first place where the phrase
stands alone; a sequence of phrases is looked for one behind the other.
-/

namespace EsLogs.PhraseMatch

open Tokenizer List

variable {s phrase : Bytes} {pos : Nat} (rc : RuneClasses)

def indexBytes (haystack needle : Bytes) : Option Nat :=
  if needle = [] then some 0
  else if needle.length > haystack.length then none
  else (List.range (haystack.length - needle.length + 1)).find? fun i =>
    (haystack.drop i).take needle.length == needle

def decodeRuneAtStart (b : Bytes) : Nat := (decodeRune b).1

def lastRune (s : Bytes) : Option Nat :=
  match _h : Utf8.runeAt s with
  | none => none
  | some (v, n) => if s.length ≤ n then some v else lastRune (s.drop n)
termination_by s.length
decreasing_by
  have hpos := (Utf8.startsRune_of_runeAt ‹Utf8.runeAt s = some (v, n)›).pos
  rw [List.length_drop]
  omega

def decodeRuneAtEnd (b : Bytes) : Nat :=
  ((List.range' (b.length - 4) (b.length - (b.length - 4))).findSome? fun i =>
    if Utf8.isValid (b.drop i) then lastRune (b.drop i) else none).getD runeError

def runeBefore (b : Bytes) (offset : Nat) : Nat :=
  if b.getD (offset - 1) 0 < 0x80 then (b.getD (offset - 1) 0).toNat else decodeRuneAtEnd (b.take offset)

def runeAtOffset (b : Bytes) (offset : Nat) : Nat :=
  if b.getD offset 0 < 0x80 then (b.getD offset 0).toNat else decodeRuneAtStart (b.drop offset)

/-- A rune that continues a word, or cannot be told. -/
def joins (rc : RuneClasses) (r : Nat) : Bool := r == runeError || isTokenRune rc r

/-- The phrase is found at `pos`, but is a part of a longer word there. -/
def isJoined (rc : RuneClasses) (sb pb : Bytes) (pos : Nat) : Bool :=
  (isTokenRune rc (runeAtOffset pb 0) && pos > 0 && joins rc (runeBefore sb pos)) ||
    (isTokenRune rc (runeBefore pb pb.length) && pos + pb.length < sb.length &&
      joins rc (runeAtOffset sb (pos + pb.length)))

theorem take_drop_of_indexBytes {haystack needle : Bytes} {n : Nat} (h : indexBytes haystack needle = some n) :
    (haystack.drop n).take needle.length = needle := by
  unfold indexBytes at h
  split at h
  case isTrue hnil =>
    rw [hnil]
    rfl
  case isFalse =>
    split at h
    case isTrue => cases h
    case isFalse =>
      have hfound := find?_some h
      exact eq_of_beq hfound

def phraseLoop (rc : RuneClasses) (sb pb : Bytes) (hpb : pb ≠ []) (pos : Nat) : Option Nat :=
  match _h : indexBytes (sb.drop pos) pb with
  | none => none
  | some n =>
    if isJoined rc sb pb (pos + n) then phraseLoop rc sb pb hpb (pos + n + 1)
    else some (pos + n)
termination_by sb.length - pos
decreasing_by
  have hfound := congrArg List.length (take_drop_of_indexBytes ‹indexBytes (sb.drop pos) pb = some n›)
  have hpos := List.length_pos_iff.2 hpb
  rw [List.length_take, List.length_drop, List.length_drop] at hfound
  omega

def getPhrasePos (rc : RuneClasses) (s phrase : Bytes) : Option Nat :=
  if hphrase : phrase = [] then some 0
  else if phrase.length > s.length then none
  else phraseLoop rc s phrase hphrase 0

def matchPhrase (rc : RuneClasses) (s phrase : Bytes) : Bool :=
  if phrase = [] then s.isEmpty else (getPhrasePos rc s phrase).isSome

def matchSequence (rc : RuneClasses) : Bytes → List Bytes → Bool
  | _, [] => true
  | s, phrase :: phrases =>
    match getPhrasePos rc s phrase with
    | some n => matchSequence rc (s.drop (n + phrase.length)) phrases
    | none => false

/-! ### The first place -/

/-- The bytes of the phrase are at `pos`. -/
def IsAt (s phrase : Bytes) (pos : Nat) : Prop := phrase <+: s.drop pos

theorem isAt_iff : IsAt s phrase pos ↔ (s.drop pos).take phrase.length = phrase := by
  rw [IsAt, prefix_iff_eq_take]
  exact eq_comm

theorem IsAt.add_le (h : IsAt s phrase pos) (hne : phrase ≠ []) : pos + phrase.length ≤ s.length := by
  have hlen := h.length_le
  have hpos := length_pos_iff.2 hne
  rw [length_drop] at hlen
  omega

/-- `index_bytes` finds the first place. -/
theorem indexBytes_spec {haystack needle : Bytes} (hne : needle ≠ []) :
    (∀ n, indexBytes haystack needle = some n →
        IsAt haystack needle n ∧ ∀ j < n, ¬IsAt haystack needle j) ∧
      (indexBytes haystack needle = none → ∀ j, ¬IsAt haystack needle j) := by
  unfold indexBytes
  rw [if_neg hne]
  by_cases hlen : needle.length > haystack.length
  · rw [if_pos hlen]
    refine ⟨fun n h => (nomatch h), ?_⟩
    intro _ j hj
    have hle := hj.add_le hne
    omega
  · rw [if_neg hlen]
    have hat : ∀ j, ((haystack.drop j).take needle.length == needle) = true ↔ IsAt haystack needle j := by
      intro j
      rw [beq_iff_eq, isAt_iff]
    constructor
    · intro n h
      rw [find?_range_eq_some] at h
      refine ⟨(hat n).1 h.1, ?_⟩
      intro j hj hj'
      have hno := h.2.2 j hj
      rw [(hat j).2 hj'] at hno
      cases hno
    · intro h j hj
      rw [find?_eq_none] at h
      refine h j ?_ ((hat j).2 hj)
      have hle := hj.add_le hne
      rw [mem_range]
      omega

/-- The phrase is at `pos`, and is no part of a longer word. -/
def StandsAlone (rc : RuneClasses) (s phrase : Bytes) (pos : Nat) : Prop :=
  IsAt s phrase pos ∧ isJoined rc s phrase pos = false

theorem phraseLoop_of_none {rc : RuneClasses} {sb pb : Bytes} {hpb : pb ≠ []}
    (h : indexBytes (sb.drop pos) pb = none) : phraseLoop rc sb pb hpb pos = none := by
  rw [phraseLoop]
  split
  case h_1 => rfl
  case h_2 n hsome => cases h.symm.trans hsome

theorem phraseLoop_of_some {rc : RuneClasses} {sb pb : Bytes} {hpb : pb ≠ []} {pos n : Nat}
    (h : indexBytes (sb.drop pos) pb = some n) :
    phraseLoop rc sb pb hpb pos =
      if isJoined rc sb pb (pos + n) then phraseLoop rc sb pb hpb (pos + n + 1) else some (pos + n) := by
  rw [phraseLoop]
  split
  case h_1 hnone => cases h.symm.trans hnone
  case h_2 n' hsome =>
    cases h.symm.trans hsome
    rfl

/-- The loop finds the first place from `pos` on where the phrase stands alone. -/
theorem phraseLoop_spec (sb pb : Bytes) (hpb : pb ≠ []) (pos : Nat) : (∀ i, phraseLoop rc sb pb hpb pos = some i →
        pos ≤ i ∧ StandsAlone rc sb pb i ∧ ∀ j, pos ≤ j → j < i → ¬StandsAlone rc sb pb j) ∧
      (phraseLoop rc sb pb hpb pos = none → ∀ j, pos ≤ j → ¬StandsAlone rc sb pb j) := by
  have hshift : ∀ pos j, pos ≤ j → IsAt sb pb j → IsAt (sb.drop pos) pb (j - pos) := by
    intro pos j hj hat
    rwa [IsAt, drop_drop, Nat.add_sub_cancel' hj]
  induction pos using phraseLoop.induct rc sb pb hpb with
  | case1 pos hnone =>
    rw [phraseLoop_of_none hnone]
    refine ⟨fun i h => (nomatch h), ?_⟩
    rintro - j hj ⟨hat, -⟩
    exact (indexBytes_spec hpb).2 hnone (j - pos) (hshift pos j hj hat)
  | case2 pos n hsome hjoined ih =>
    have hfirst := ((indexBytes_spec hpb).1 n hsome).2
    -- the place that was found is no good, and there is none before it
    have hskip : ∀ j, pos ≤ j → j < pos + n + 1 → ¬StandsAlone rc sb pb j := by
      rintro j hj hlt ⟨hat, halone⟩
      rcases Nat.lt_or_ge j (pos + n) with hbefore | hge
      · exact hfirst (j - pos) (by omega) (hshift pos j hj hat)
      · obtain rfl : j = pos + n := by omega
        rw [hjoined] at halone
        cases halone
    rw [phraseLoop_of_some hsome, if_pos hjoined]
    constructor
    · intro i hi
      obtain ⟨hle, halone, hno⟩ := ih.1 i hi
      refine ⟨by omega, halone, ?_⟩
      intro j hj hlt
      rcases Nat.lt_or_ge j (pos + n + 1) with hbefore | hge
      · exact hskip j hj hbefore
      · exact hno j hge hlt
    · intro hnone j hj
      rcases Nat.lt_or_ge j (pos + n + 1) with hbefore | hge
      · exact hskip j hj hbefore
      · exact ih.2 hnone j hge
  | case3 pos n hsome hjoined =>
    obtain ⟨hat, hfirst⟩ := (indexBytes_spec hpb).1 n hsome
    rw [phraseLoop_of_some hsome, if_neg hjoined]
    refine ⟨?_, fun h => (nomatch h)⟩
    intro i hi
    cases hi
    rw [IsAt, drop_drop] at hat
    refine ⟨Nat.le_add_right pos n, ⟨hat, Bool.eq_false_iff.2 hjoined⟩, ?_⟩
    rintro j hj hlt ⟨hat', -⟩
    exact hfirst (j - pos) (by omega) (hshift pos j hj hat')

/-- `get_phrase_pos` finds the first place where the phrase stands alone. -/
theorem getPhrasePos_spec (hne : phrase ≠ []) : (∀ i, getPhrasePos rc s phrase = some i →
        StandsAlone rc s phrase i ∧ ∀ j < i, ¬StandsAlone rc s phrase j) ∧
      (getPhrasePos rc s phrase = none → ∀ j, ¬StandsAlone rc s phrase j) := by
  unfold getPhrasePos
  rw [dif_neg hne]
  split
  case isTrue hlong =>
    refine ⟨fun i h => (nomatch h), ?_⟩
    rintro - j ⟨hat, -⟩
    have hle := hat.add_le hne
    omega
  case isFalse =>
    obtain ⟨hsome, hnone⟩ := phraseLoop_spec rc s phrase hne 0
    constructor
    · intro i hi
      obtain ⟨-, halone, hno⟩ := hsome i hi
      exact ⟨halone, fun j hj => hno j (Nat.zero_le j) hj⟩
    · intro h j
      exact hnone h j (Nat.zero_le j)

/-- A phrase is matched when it stands alone somewhere. -/
theorem matchPhrase_iff (hne : phrase ≠ []) : matchPhrase rc s phrase = true ↔ ∃ pos, StandsAlone rc s phrase pos := by
  rw [matchPhrase, if_neg hne, Option.isSome_iff_exists]
  obtain ⟨hsome, hnone⟩ := getPhrasePos_spec rc (s := s) hne
  constructor
  · rintro ⟨i, hi⟩
    exact ⟨i, (hsome i hi).1⟩
  · rintro ⟨pos, hpos⟩
    cases hget : getPhrasePos rc s phrase with
    | none => exact absurd hpos (hnone hget pos)
    | some i => exact ⟨i, rfl⟩

theorem matchPhrase_word :
    let rc : RuneClasses := ⟨fun _ => false, rfl⟩
    ascii "error" ≠ [] ∧ ∃ pos, StandsAlone rc (ascii "an error") (ascii "error") pos :=
  ⟨by decide, (matchPhrase_iff _ (by decide)).1 (by decide +kernel)⟩

end EsLogs.PhraseMatch
