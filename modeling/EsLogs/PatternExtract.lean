import EsLogs.FilterTree
import EsLogs.GoQuote
import EsLogs.PhraseMatch

/-!
Patterns such as `user=<name>, ip=<ip>` (`pattern.rs`), by which the `extract` pipe takes fields out of a
text. A pattern is a list of literals, each followed by a field; a literal is looked for behind the place
where the one before it was found, and the text up to it is the value of the field before it.
-/

namespace EsLogs

open Utf8 Strconv PhraseMatch List

/-! ### HTML entities -/

/-- The tables of `html_entities.rs`, with characters as code points. No entity takes more bytes than its
reference, so that writing in place never reaches what is still to be read. -/
structure HtmlEntities where
  lookupEntity : Bytes → Option Nat
  lookupEntity2 : Bytes → Option (Nat × Nat)

namespace HtmlEntities

def longestEntityWithoutSemicolon : Nat := 6

def replacementTable : List Nat :=
  [0x20AC, 0x81, 0x201A, 0x192, 0x201E, 0x2026, 0x2020, 0x2021, 0x2C6, 0x2030, 0x160, 0x2039, 0x152, 0x8D, 0x17D,
    0x8F, 0x90, 0x2018, 0x2019, 0x201C, 0x201D, 0x2022, 0x2013, 0x2014, 0x2DC, 0x2122, 0x161, 0x203A, 0x153, 0x9D,
    0x17E, 0x178]

/-- The loop over the digits of a numeric reference, in the arithmetic of `i32`: the number, and the position
behind the reference. -/
def numericLoop (hex : Bool) : Bytes → Int → Nat → Int × Nat
  | [], x, i => (x, i)
  | c :: s, x, i =>
    match if hex then unhex c else if isDigit c then some (c.toNat - 48) else none with
    | some d => numericLoop hex s (Int.bmod (x * (if hex then 16 else 10) + d) (2 ^ 32)) (i + 1)
    | none => (x, if c = byte ';' then i + 1 else i)

/-- The character of a numeric reference. A number below zero is no character either. -/
def numericChar (x : Int) : Nat :=
  if 0x80 ≤ x ∧ x ≤ 0x9F then replacementTable.getD (x - 0x80).toNat 0xFFFD
  else if x ≤ 0 then 0xFFFD
  else (charFromU32 x.toNat).getD 0xFFFD

def isAsciiAlphanumeric (c : UInt8) : Bool :=
  isDigit c || (byte 'a' ≤ c && c ≤ byte 'z') || (byte 'A' ≤ c && c ≤ byte 'Z')

/-- `unescape_entity` for a text that starts with `&`: what is written, and how many bytes it stands for. -/
def unescapeEntity (t : HtmlEntities) (s : Bytes) : Bytes × Nat :=
  if s.length ≤ 1 then ([byte '&'], 1)
  else if s.getD 1 0 = byte '#' then
    if s.length ≤ 3 then ([byte '&'], 1)
    else
      let hex := s.getD 2 0 = byte 'x' ∨ s.getD 2 0 = byte 'X'
      let start := if hex then 3 else 2
      let (x, i) := numericLoop hex (s.drop start) 0 start
      if i ≤ 3 then ([byte '&'], 1) else (encode (numericChar x), i)
  else
    let n := ((s.drop 1).takeWhile isAsciiAlphanumeric).length
    let i := 1 + n + (if s.getD (1 + n) 0 = byte ';' then 1 else 0)
    let entityName := (s.take i).drop 1
    let maxLen := min (i - 2) longestEntityWithoutSemicolon
    if i = 1 then (s.take i, i)
    else if let some x := t.lookupEntity entityName then (encode x, i)
    else if let some (x0, x1) := t.lookupEntity2 entityName then (encode x0 ++ encode x1, i)
    else
      -- the longest entity without a semicolon that the name starts with
      ((List.range' 2 (maxLen - 1)).reverse.findSome? fun j =>
        (t.lookupEntity ((s.drop 1).take j)).map fun x => (encode x, j + 1)).getD (s.take i, i)

/-- The loop of `html_unescape_bytes`. Every round takes at least one byte. -/
def unescapeLoop (t : HtmlEntities) : Nat → Bytes → Bytes
  | 0, s => s
  | fuel + 1, s =>
    match s.idxOf? (byte '&') with
    | none => s
    | some i =>
      let (written, n) := t.unescapeEntity (s.drop i)
      s.take i ++ written ++ t.unescapeLoop fuel (s.drop (i + n))

def htmlUnescapeBytes (t : HtmlEntities) (s : Bytes) : Bytes := t.unescapeLoop s.length s

end HtmlEntities

/-! ### Parsing -/

/-- `char::is_whitespace`. -/
def isWhitespace (r : Nat) : Bool :=
  (9 ≤ r && r ≤ 13) || (0x2000 ≤ r && r ≤ 0x200A) ||
    [0x20, 0x85, 0xA0, 0x1680, 0x2028, 0x2029, 0x202F, 0x205F, 0x3000].contains r

def trimSpaceStart : Nat → Bytes → Bytes
  | fuel + 1, b0 :: b =>
    let (r, size) := Strconv.decodeRune (b0 :: b)
    if isWhitespace r then trimSpaceStart fuel ((b0 :: b).drop size) else b0 :: b
  | _, b => b

def trimSpaceEnd : Nat → Bytes → Bytes
  | fuel + 1, b0 :: b =>
    let r := decodeRuneAtEnd (b0 :: b)
    if isWhitespace r then trimSpaceEnd fuel ((b0 :: b).take ((b0 :: b).length - (encode r).length)) else b0 :: b
  | _, b => b

def trimSpaceBytes (b : Bytes) : Bytes := trimSpaceEnd b.length (trimSpaceStart b.length b)

structure PatternStep where
  pre : Bytes
  field : Bytes
  fieldOpt : Bytes
  deriving DecidableEq, Inhabited, Repr

/-- The loop of `parse_pattern_steps_internal`, behind the `<` that ends the literal `pre`. Every round takes
at least one byte. -/
def parseStepsLoop : Nat → Bytes → Bytes → Except Bytes (List PatternStep)
  | 0, _, _ => .ok []
  | fuel + 1, pre, s =>
    match s.idxOf? (byte '>') with
    | none => .error (ascii "missing '>' for <" ++ lossy s)
    | some n =>
      let field := s.take n
      let s := s.drop (n + 1)
      let step := ⟨pre, if field = ascii "_" ∨ field = ascii "*" then [] else field, []⟩
      if s = [] then .ok [step]
      else
        match s.idxOf? (byte '<') with
        | none => .ok [step, ⟨s, [], []⟩]
        | some n => (step :: ·) <$> parseStepsLoop fuel (s.take n) (s.drop (n + 1))

def parsePatternStepsInternal (s : Bytes) : Except Bytes (List PatternStep) :=
  if s = [] then .ok []
  else
    match s.idxOf? (byte '<') with
    | none => .ok [⟨s, [], []⟩]
    | some n => parseStepsLoop s.length (s.take n) (s.drop (n + 1))

/-- What `parse_pattern_steps` does with a step: the literal is unescaped, and the option is split off. -/
def PatternStep.finish (t : HtmlEntities) (step : PatternStep) : PatternStep :=
  match step.field.idxOf? (byte ':') with
  | none => ⟨t.htmlUnescapeBytes step.pre, trimSpaceBytes step.field, step.fieldOpt⟩
  | some n =>
    ⟨t.htmlUnescapeBytes step.pre, trimSpaceBytes (step.field.drop (n + 1)),
      lossy (trimSpaceBytes (step.field.take n))⟩

def parsePatternSteps (t : HtmlEntities) (s : Bytes) : Except Bytes (List PatternStep) :=
  (·.map (·.finish t)) <$> parsePatternStepsInternal s

structure PatternField where
  name : Bytes
  matchIdx : Nat
  deriving DecidableEq, Repr

def patternFields (steps : List PatternStep) : List PatternField :=
  steps.zipIdx.filterMap fun (step, i) => if step.field = [] then none else some ⟨step.field, i⟩

/-- `Pattern`; `matched` are its `matches`. -/
structure Pattern where
  steps : List PatternStep
  matched : List Bytes
  fields : List PatternField
  steps_ne : steps ≠ []
  delimited : ∀ step ∈ steps.tail, step.pre ≠ []
  length_matched : matched.length = steps.length
  fields_eq : fields = patternFields steps

/-- `parse_pattern`; `isGoPrint` is the table of printable runes, and `debugText` the format `?` of a text. -/
def parsePattern (t : HtmlEntities) (isGoPrint : Nat → Bool) (debugText : Bytes → Bytes) (s : Bytes) :
    Except Bytes Pattern := do
  let steps ← parsePatternSteps t s
  if hdelimited : ∀ step ∈ steps.tail, step.pre ≠ [] then
    if let some step := steps.find? (isWildcardFilter ·.field) then
      .error (ascii "wildcard field " ++ goQuoteBytes isGoPrint step.field ++ ascii " isn't supported")
    else if hfields : patternFields steps = [] then
      .error (ascii "pattern " ++ debugText (lossy s) ++
        ascii " must contain at least a single named field in the form <field_name>")
    else
      .ok ⟨steps, steps.map fun _ => [], patternFields steps, fun h => hfields (h ▸ rfl), hdelimited,
        length_map .., rfl⟩
  else
    -- the first field that follows another one without a delimiter
    let (a, b) := ((steps.zip steps.tail).find? (·.2.pre = [])).getD default
    .error (ascii "missing delimiter between <" ++ lossy a.field ++ ascii "> and <" ++ lossy b.field ++ ascii ">")

/-! ### Applying -/

def prefixIndex (s pre : Bytes) : Option (Nat × Nat) := (indexBytes s pre).map (·, pre.length)

/-- The loop of `try_unquote_bytes` for single quotes: the contents, and the rest from the end quote on. Every
round takes at least one byte. -/
def singleQuotedLoop : Nat → Bytes → Option (Bytes × Bytes)
  | 0, _ => none
  | fuel + 1, tail =>
    if tail.head? = some (byte '\'') then some ([], tail)
    else do
      let (ch, _, rest) ← unquoteCharBytes tail (byte '\'')
      let (b, tail) ← singleQuotedLoop fuel rest
      return (encode ch ++ b, tail)

def tryUnquoteBytes (s opt : Bytes) : Option (Bytes × Nat) :=
  if opt = ascii "plain" then none
  else
    match s with
    | [] => none
    | quote :: tail =>
      if quote = byte '"' ∨ quote = byte '\x60' then do
        let n ← quotedPrefixLen s
        let us ← unquoteBytes (s.take n)
        return (us, n)
      else if quote = byte '\'' then do
        let (b, rest) ← singleQuotedLoop s.length tail
        return (b, s.length - rest.length + 1)
      else none

/-- The literal of the first of some steps; there is none at the end of a pattern. -/
def nextPre (steps : List PatternStep) : Bytes := (steps.head?.map (·.pre)).getD []

/-- The loop of `Pattern::apply`, with the matches of the steps that are left. -/
def applyLoop : List PatternStep → List Bytes → Bytes → List Bytes
  | step :: steps, m :: ms, s =>
    match tryUnquoteBytes s step.fieldOpt with
    | some (us, nOffset) =>
      (m ++ us) ::
        if (nextPre steps).isPrefixOf (s.drop nOffset) then
          applyLoop steps ms ((s.drop nOffset).drop (nextPre steps).length)
        else ms
    | none =>
      if nextPre steps = [] then (m ++ s) :: ms
      else
        match prefixIndex s (nextPre steps) with
        | none => m :: ms
        | some (n, prefixLen) => (m ++ s.take n) :: applyLoop steps ms (s.drop (n + prefixLen))
  | _, ms, _ => ms

theorem length_applyLoop (steps : List PatternStep) (ms : List Bytes) (s : Bytes) :
    (applyLoop steps ms s).length = ms.length := by
  fun_induction applyLoop steps ms s <;> simp_all [apply_ite]

namespace Pattern

/-- The matches that `Pattern::apply` leaves. -/
def newMatches (p : Pattern) (s : Bytes) : List Bytes :=
  let cleared := p.matched.map fun _ => []
  match prefixIndex s (nextPre p.steps) with
  | none => cleared
  | some (n, prefixLen) => applyLoop p.steps cleared (s.drop (n + prefixLen))

theorem length_newMatches (p : Pattern) (s : Bytes) : (p.newMatches s).length = p.steps.length := by
  unfold newMatches
  split
  · rw [length_map, p.length_matched]
  · rw [length_applyLoop, length_map, p.length_matched]

def apply (p : Pattern) (s : Bytes) : Pattern :=
  { p with matched := p.newMatches s, length_matched := p.length_newMatches s }

def fieldValue (p : Pattern) (f : PatternField) : Bytes := p.matched.getD f.matchIdx []

/-- The fields with their values. -/
def extracted (p : Pattern) : List (Bytes × Bytes) := p.fields.map fun f => (f.name, p.fieldValue f)

end Pattern

/-! ### Texts that were made with a pattern -/

/-- The text with the given values: each literal is followed by the value of its field. -/
def fill : List PatternStep → List Bytes → Bytes
  | step :: steps, v :: vs => step.pre ++ (v ++ fill steps vs)
  | _, _ => []

/-- The named fields of a pattern, with the given values. -/
def namedValues (steps : List PatternStep) (values : List Bytes) : List (Bytes × Bytes) :=
  (steps.zip values).filterMap fun (step, v) => if step.field = [] then none else some (step.field, v)

def isQuote (b : UInt8) : Bool := b == byte '"' || b == byte '\x60' || b == byte '\''

/-- In the text `before` followed by the literals and the values, each literal first occurs at its place after
the previous match, and a value that may be quoted does not look like it. -/
def Unambiguous : Bytes → List PatternStep → List Bytes → Prop
  | before, step :: steps, v :: vs =>
    (∀ j < before.length, ¬IsAt (before ++ fill (step :: steps) (v :: vs)) step.pre j) ∧
      (step.fieldOpt ≠ ascii "plain" → ∀ b ∈ (v ++ fill steps vs).head?, isQuote b = false) ∧
      Unambiguous v steps vs
  | _, _, _ => True

theorem tryUnquoteBytes_eq_none {s opt : Bytes}
    (h : opt ≠ ascii "plain" → ∀ b ∈ s.head?, isQuote b = false) : tryUnquoteBytes s opt = none := by
  unfold tryUnquoteBytes
  split
  case isTrue => rfl
  case isFalse hopt =>
    cases s with
    | nil => rfl
    | cons quote tail =>
      have hquote := h hopt quote rfl
      simp only [isQuote, Bool.or_eq_false_iff, beq_eq_false_iff_ne] at hquote
      simp only [hquote, or_self, if_false]

/-- The search finds a literal at its first place. -/
theorem prefixIndex_eq {s pre : Bytes} {n : Nat} (hat : IsAt s pre n) (hfirst : ∀ j < n, ¬IsAt s pre j) :
    prefixIndex s pre = some (n, pre.length) := by
  unfold prefixIndex
  by_cases hpre : pre = []
  case pos =>
    -- the empty literal is everywhere, so its first place is the start
    have hn : n = 0 := by
      by_contra hne
      exact hfirst 0 (Nat.pos_of_ne_zero hne) (hpre ▸ List.nil_prefix)
    rw [hpre, hn]
    rfl
  case neg =>
    cases h : indexBytes s pre with
    | none => exact absurd hat ((indexBytes_spec hpre).2 h n)
    | some m =>
      obtain ⟨hm, hfirstm⟩ := (indexBytes_spec hpre).1 m h
      obtain hlt | heq | hgt := lt_trichotomy m n
      · exact absurd hm (hfirst m hlt)
      · rw [heq, Option.map_some]
      · exact absurd hat (hfirstm n hgt)

theorem prefixIndex_fill {before v : Bytes} {step : PatternStep} {steps : List PatternStep} {vs : List Bytes}
    (h : Unambiguous before (step :: steps) (v :: vs)) :
    prefixIndex (before ++ fill (step :: steps) (v :: vs)) step.pre = some (before.length, step.pre.length) := by
  refine prefixIndex_eq ?_ h.1
  rw [IsAt, drop_left]
  exact prefix_append ..

theorem drop_fill (before v : Bytes) (step : PatternStep) (steps : List PatternStep) (vs : List Bytes) :
    (before ++ fill (step :: steps) (v :: vs)).drop (before.length + step.pre.length) = v ++ fill steps vs := by
  rw [← drop_drop, drop_left, fill, drop_left]

/-- From the first value on, the loop takes the values one after the other. -/
theorem applyLoop_fill {step : PatternStep} {steps : List PatternStep} {v : Bytes} {vs : List Bytes}
    (hlen : vs.length = steps.length) (hdelimited : ∀ st ∈ steps, st.pre ≠ [])
    (hquote : step.fieldOpt ≠ ascii "plain" → ∀ b ∈ (v ++ fill steps vs).head?, isQuote b = false)
    (h : Unambiguous v steps vs) :
    applyLoop (step :: steps) ((step :: steps).map fun _ => []) (v ++ fill steps vs) = v :: vs := by
  induction steps generalizing step v vs with
  | nil =>
    obtain rfl := length_eq_zero_iff.1 hlen
    rw [map_cons, applyLoop, tryUnquoteBytes_eq_none hquote]
    simp [nextPre, fill]
  | cons next steps ih =>
    obtain ⟨w, ws, rfl⟩ := exists_cons_of_length_eq_add_one hlen
    have hnext : nextPre (next :: steps) = next.pre := rfl
    rw [map_cons, applyLoop, tryUnquoteBytes_eq_none hquote]
    rw [hnext]
    dsimp only
    rw [if_neg (hdelimited next mem_cons_self), prefixIndex_fill h]
    dsimp only
    rw [nil_append, take_left, drop_fill,
      ih (Nat.succ.inj hlen) (fun st hst => hdelimited st (mem_cons_of_mem _ hst)) h.2.1 h.2.2]

namespace Pattern

theorem newMatches_of_unambiguous {p : Pattern} {before : Bytes} {values : List Bytes}
    (hlen : values.length = p.steps.length) (h : Unambiguous before p.steps values) :
    p.newMatches (before ++ fill p.steps values) = values := by
  have hcleared : (p.matched.map fun _ => []) = p.steps.map fun _ => ([] : Bytes) := by
    rw [map_const', map_const', p.length_matched]
  obtain ⟨step, steps, hsteps⟩ := exists_cons_of_ne_nil p.steps_ne
  have hdelimited := p.delimited
  rw [hsteps] at hlen h hdelimited
  obtain ⟨v, vs, rfl⟩ := exists_cons_of_length_eq_add_one hlen
  have hnext : nextPre (step :: steps) = step.pre := rfl
  rw [newMatches, hcleared, hsteps, hnext, prefixIndex_fill h]
  dsimp only
  rw [drop_fill, applyLoop_fill (Nat.succ.inj hlen) hdelimited h.2.1 h.2.2]

theorem newMatches_of_absent {p : Pattern} {s : Bytes} (h : ¬nextPre p.steps <:+: s) :
    p.newMatches s = p.steps.map fun _ => [] := by
  have hpre : nextPre p.steps ≠ [] := fun hnil => h (hnil ▸ List.nil_infix)
  unfold newMatches prefixIndex
  cases hindex : indexBytes s (nextPre p.steps) with
  | none =>
    rw [Option.map_none]
    rw [map_const', map_const', p.length_matched]
  | some n =>
    have hat := ((indexBytes_spec hpre).1 n hindex).1
    exact absurd (hat.isInfix.trans (drop_suffix n s).isInfix) h

theorem extracted_of_matched {p : Pattern} {values : List Bytes} (h : p.matched = values) :
    p.extracted = namedValues p.steps values := by
  have hzip : p.steps.zip values = p.steps.zipIdx.map fun (step, i) => (step, values.getD i []) := by
    refine ext_getElem ?_ fun i h₁ h₂ => ?_
    · rw [length_zip, length_map, length_zipIdx, ← h, p.length_matched, min_self]
    · rw [length_zip] at h₁
      have hi : i < values.length := by omega
      simp [hi]
  rw [extracted, p.fields_eq, patternFields, namedValues, hzip, filterMap_map, map_filterMap]
  congr 1
  funext ⟨step, i⟩
  simp only [fieldValue, h, Function.comp_apply]
  split <;> rfl

theorem foldl_apply_steps (p : Pattern) (texts : List Bytes) : (texts.foldl apply p).steps = p.steps := by
  induction texts generalizing p with
  | nil => rfl
  | cons s texts ih => exact ih (p.apply s)

end Pattern

/-- A text that was made with a pattern gives the values back, whatever the pattern was applied to before; a
text without the first literal gives none. -/
theorem apply_recovers_values (t : HtmlEntities) (isGoPrint : Nat → Bool) (debugText : Bytes → Bytes)
    (pattern : Bytes) (p : Pattern) :
    parsePattern t isGoPrint debugText pattern = .ok p → ∀ earlier : List Bytes,
      (∀ before values, values.length = p.steps.length → Unambiguous before p.steps values →
        ((earlier.foldl Pattern.apply p).apply (before ++ fill p.steps values)).extracted =
          namedValues p.steps values) ∧
      ∀ text, ¬nextPre p.steps <:+: text →
        ((earlier.foldl Pattern.apply p).apply text).extracted = namedValues p.steps (p.steps.map fun _ => []) := by
  intro _ earlier
  have hsteps := p.foldl_apply_steps earlier
  constructor
  · intro before values hlen h
    rw [← hsteps] at hlen h ⊢
    exact Pattern.extracted_of_matched (Pattern.newMatches_of_unambiguous hlen h)
  · intro text h
    rw [← hsteps] at h ⊢
    exact Pattern.extracted_of_matched (Pattern.newMatches_of_absent h)

def sampleEntities : HtmlEntities where
  lookupEntity name := [(ascii "lt;", 60), (ascii "gt;", 62)].lookup name
  lookupEntity2 _ := none

def sampleSteps : List PatternStep :=
  [⟨ascii "user=<", ascii "name", []⟩, ⟨ascii "> size=", ascii "size", ascii "plain"⟩]

theorem parsePattern_sample :
    ∃ p, parsePattern sampleEntities (fun _ => true) id (ascii "user=&lt;<name>&gt; size=<plain:size>") = .ok p ∧
      p.steps = sampleSteps := by
  have hsteps : parsePatternSteps sampleEntities (ascii "user=&lt;<name>&gt; size=<plain:size>") =
      .ok sampleSteps := by decide +kernel
  rw [parsePattern, hsteps]
  exact ⟨_, rfl, rfl⟩

/-- The second value is in quotes, which it keeps. -/
theorem apply_recovers_values_sample :
    ∃ p, parsePattern sampleEntities (fun _ => true) id (ascii "user=&lt;<name>&gt; size=<plain:size>") = .ok p ∧
      ((p.apply (ascii "user=<al> size=7")).apply (ascii "12 user=<bob> size=\"5\"")).extracted =
        [(ascii "name", ascii "bob"), (ascii "size", ascii "\"5\"")] ∧
      (p.apply (ascii "size=7")).extracted = [(ascii "name", []), (ascii "size", [])] := by
  obtain ⟨p, hp, hsteps⟩ := parsePattern_sample
  have hused := (apply_recovers_values _ _ _ _ p hp [ascii "user=<al> size=7"]).1 (ascii "12 ")
    [ascii "bob", ascii "\"5\""]
  have hfresh := (apply_recovers_values _ _ _ _ p hp []).2 (ascii "size=7")
  rw [hsteps] at hused hfresh
  exact ⟨p, hp, hused rfl (by simp only [sampleSteps, Unambiguous, IsAt]; decide +kernel), hfresh (by decide)⟩

end EsLogs
