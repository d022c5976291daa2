import EsLogs.Strconv

/-!
`go_quote_bytes` of `stream_filter.rs`: any bytes in double quotes, rune by rune, with escape sequences for
what is not printed and for the bytes where no rune starts.
-/

namespace EsLogs.Strconv

open Utf8 List

variable (isGoPrint : Nat → Bool)

def hexDigits : Nat → Nat → Bytes
  | 0, _ => []
  | k + 1, n => hexDigits k (n / 16) ++ [hexDigit (n % 16)]

/-- `append_escaped_rune` with double quotes; `isGoPrint` is the table of printable runes. -/
def appendEscapedRune (isGoPrint : Nat → Bool) (c : Nat) : Bytes :=
  if c = 34 ∨ c = 92 then [byte '\\', UInt8.ofNat c]
  else if 32 ≤ c ∧ c ≤ 126 then [UInt8.ofNat c]
  else if c = 0x07 then ascii "\\a"
  else if c = 0x08 then ascii "\\b"
  else if c = 0x0c then ascii "\\f"
  else if c = 10 then ascii "\\n"
  else if c = 13 then ascii "\\r"
  else if c = 9 then ascii "\\t"
  else if c = 0x0b then ascii "\\v"
  else if c < 0x20 ∨ c = 0x7f then ascii "\\x" ++ hexByte c
  else if isGoPrint c then encode c
  else if c < 0x10000 then ascii "\\u" ++ hexDigits 4 c
  else ascii "\\U" ++ hexDigits 8 c

/-- The loop of `go_quote_bytes`. Every round takes at least one byte. -/
def goQuoteLoop (isGoPrint : Nat → Bool) : Nat → Bytes → Bytes
  | fuel + 1, b0 :: b =>
    let (r, size) := decodeRune (b0 :: b)
    (if r = 0xFFFD ∧ size = 1 then ascii "\\x" ++ hexByte b0.toNat else appendEscapedRune isGoPrint r) ++
      goQuoteLoop isGoPrint fuel ((b0 :: b).drop size)
  | _, _ => []

def goQuoteBytes (isGoPrint : Nat → Bool) (v : Bytes) : Bytes :=
  byte '"' :: goQuoteLoop isGoPrint v.length v ++ [byte '"']

theorem length_hexDigits (k n : Nat) : (hexDigits k n).length = k := by
  induction k generalizing n with
  | zero => rfl
  | succ k ih => rw [hexDigits, length_append, ih, length_singleton]

theorem unhexAll_concat (s : Bytes) (b : UInt8) (v : Nat) :
    unhexAll v (s ++ [b]) = (unhexAll v s).bind fun w => (unhex b).map (w * 16 + ·) := by
  induction s generalizing v with
  | nil => cases h : unhex b <;> simp [unhexAll, h]
  | cons c s ih => cases h : unhex c <;> simp [unhexAll, h, ih]

theorem unhexAll_hexDigits {k n : Nat} (h : n < 16 ^ k) : unhexAll 0 (hexDigits k n) = some n := by
  induction k generalizing n with
  | zero => rw [pow_zero, Nat.lt_one_iff] at h; rw [h]; rfl
  | succ k ih =>
    have hdiv : n / 16 < 16 ^ k := Nat.div_lt_of_lt_mul (by rwa [pow_succ'] at h)
    rw [hexDigits, unhexAll_concat, ih hdiv, Option.bind_some, unhex_hexDigit (Nat.mod_lt _ (by decide)),
      Option.map_some, Nat.div_add_mod']

/-- A rune is a character: no surrogate, and not above the last code point. -/
theorem charFromU32_of_isRune {r : Bytes} {v : Nat} (h : IsRune r v) : charFromU32 v = some v := by
  refine if_pos ?_
  cases h.sequence with
  | one h0 =>
    have hb0 := (toNat_of_seqLen h0).1 rfl
    omega
  | two h0 h1 => omega
  | three h0 h1 =>
    have hb0 := (toNat_of_seqLen h0).2.2.1 rfl
    have hb1 := toNat_of_secondOk h1
    omega
  | four h0 h1 =>
    have hb0 := (toNat_of_seqLen h0).2.2.2 rfl
    have hb1 := toNat_of_secondOk h1
    omega

/-- `\u` and `\U` with the digits of a rune above ASCII. -/
theorem stands_hexDigits {c : UInt8} {k v : Nat} {r : Bytes} (h : IsRune r v) (hv : ¬v < 0x80) (hk : v < 16 ^ k)
    (hc : ∀ s, unquoteEscape (byte '"') c s = hexEscape k true s) :
    Stands (byte '\\' :: c :: hexDigits k v) r := by
  refine stands_of_escape (v := v) (m := true) ?_ ?_
  · intro rest
    rw [hc]
    exact hexEscape_append (length_hexDigits k v) (unhexAll_hexDigits hk) (charFromU32_of_isRune h) rest
  · rw [emit, if_neg (by simpa using hv), h.encode_eq]

/-- In ASCII the two ways of quoting are the same. -/
theorem appendEscapedRune_of_ascii {v : Nat} (hv : v < 0x80) :
    appendEscapedRune isGoPrint v = quoteByte (UInt8.ofNat v) := by
  interval_cases v <;> rfl

/-- What is written for a rune stands for it. -/
theorem stands_appendEscapedRune {r : Bytes} {v : Nat} (h : IsRune r v) :
    Stands (appendEscapedRune isGoPrint v) r := by
  have hencode := h.encode_eq
  by_cases hv : v < 0x80
  · have hr : r = [UInt8.ofNat v] := by rw [← hencode, encode, if_pos hv]
    subst hr
    rw [appendEscapedRune_of_ascii isGoPrint hv]
    exact stands_quoteByte (UInt8.lt_iff_toNat_lt.2 (lt_of_le_of_lt (Nat.mod_le _ _) hv))
  · unfold appendEscapedRune
    rw [if_neg (by omega), if_neg (by omega), if_neg (by omega), if_neg (by omega), if_neg (by omega),
      if_neg (by omega), if_neg (by omega), if_neg (by omega), if_neg (by omega), if_neg (by omega)]
    split_ifs with hprint hshort
    · rw [hencode]
      obtain ⟨b, r', rfl⟩ := exists_cons_of_ne_nil h.ne_nil
      have hhigh : ¬b < 0x80 := by
        intro hb
        obtain rfl := h.tail_eq_nil hb
        have hone := (Prod.mk.inj (Option.some.inj ((runeAt_cons_of_ascii hb []).symm.trans h))).1
        exact hv (hone ▸ hb)
      refine stands_of_isRune h ?_ ?_ ?_ <;>
      · rintro rfl
        exact hhigh (by decide)
    · exact stands_hexDigits h hv hshort fun _ => rfl
    · have hchar := charFromU32_of_isRune h
      rw [charFromU32, ite_eq_left_iff] at hchar
      exact stands_hexDigits h hv (show v < 16 ^ 8 by by_contra hbig; exact absurd (hchar (by omega)) (by simp))
        fun _ => rfl

theorem quotes_goQuoteLoop {k : Nat} {v : Bytes} (h : v.length ≤ k) : Quotes (goQuoteLoop isGoPrint k v) v := by
  induction k generalizing v with
  | zero =>
    obtain rfl := length_eq_zero_iff.1 (Nat.le_zero.1 h)
    exact .nil
  | succ k ih =>
    cases v with
    | nil => exact .nil
    | cons b0 b =>
      have hbyte : Stands (ascii "\\x" ++ hexByte b0.toNat) [b0] := by
        have hstands := stands_hexByte b0.toNat_lt
        rwa [UInt8.ofNat_toNat] at hstands
      rw [length_cons] at h
      rw [goQuoteLoop]
      cases hrune : runeAt (b0 :: b) with
      | none =>
        simp only [decodeRune, hrune, Option.getD_none, and_self, if_true]
        exact .cons hbyte (ih (by simpa using h))
      | some p =>
        obtain ⟨r, size⟩ := p
        have hstart := startsRune_of_runeAt hrune
        have hpos := hstart.pos
        simp only [decodeRune, hrune, Option.getD_some]
        have hrest := ih (v := (b0 :: b).drop size) (by rw [length_drop, length_cons]; omega)
        have hpiece : Stands (if r = 0xFFFD ∧ size = 1 then ascii "\\x" ++ hexByte b0.toNat
            else appendEscapedRune isGoPrint r) ((b0 :: b).take size) := by
          split_ifs with hbad
          · rw [hbad.2]
            exact hbyte
          · exact stands_appendEscapedRune isGoPrint hstart.isRune
        have hquotes := Quotes.cons hpiece hrest
        rwa [take_append_drop] at hquotes

/-- **Quoting loses nothing.** Whatever runes are printed, quoted bytes are unquoted to themselves, and in front of
any text the quoted part is found. -/
theorem goQuoteBytes_lossless (isGoPrint : Nat → Bool) (v t : Bytes) :
    unquoteBytes (goQuoteBytes isGoPrint v) = some v ∧
      quotedPrefixLen (goQuoteBytes isGoPrint v ++ t) = some (goQuoteBytes isGoPrint v).length := by
  have hquotes := quotes_goQuoteLoop isGoPrint (le_refl v.length)
  have hlen : (goQuoteBytes isGoPrint v).length = (goQuoteLoop isGoPrint v.length v).length + 2 := by
    simp [goQuoteBytes]
  constructor
  · rw [unquoteBytes, hlen, goQuoteBytes, hquotes.unquoteInner_eq []]
    simp
  · rw [hlen, quotedPrefixLen, goQuoteBytes, append_assoc, singleton_append,
      hquotes.unquoteInner_eq t, Option.map_some]

end EsLogs.Strconv
