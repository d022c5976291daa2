import EsLogs.Utf8Lossy

/-!
Quoted texts (`pattern.rs`, after `strconv/quote.go`): the quoted text at the start of some bytes, what it
stands for, and the ways of quoting of `rows.rs`. Texts in double quotes are read one character or escape
sequence at a time; an escape sequence may stand for any byte.
-/

namespace EsLogs.Strconv

open Utf8 List

variable {body out : Bytes} {b : UInt8} {v : Nat}

/-! ### Characters -/

/-- `decode_rune`: the rune at the start with the number of its bytes; a byte where no rune starts is read
as the replacement character. -/
def decodeRune (b : Bytes) : Nat × Nat := (runeAt b).getD (0xFFFD, 1)

def unhex (b : UInt8) : Option Nat :=
  if byte '0' ≤ b ∧ b ≤ byte '9' then some (b.toNat - 48)
  else if byte 'a' ≤ b ∧ b ≤ byte 'f' then some (b.toNat - 97 + 10)
  else if byte 'A' ≤ b ∧ b ≤ byte 'F' then some (b.toNat - 65 + 10)
  else none

def unhexAll : Nat → Bytes → Option Nat
  | v, [] => some v
  | v, b :: bs => do
    let x ← unhex b
    unhexAll (v * 16 + x) bs

/-- `char::from_u32`: surrogates and what is above the last code point are no characters. -/
def charFromU32 (v : Nat) : Option Nat :=
  if v < 0xD800 ∨ (0xE000 ≤ v ∧ v ≤ 0x10FFFF) then some v else none

/-- The escape sequences of one character, apart from the quotes. -/
def simpleEscapes : List (UInt8 × Nat) :=
  [(byte 'a', 7), (byte 'b', 8), (byte 'f', 12), (byte 'n', 10), (byte 'r', 13), (byte 't', 9),
    (byte 'v', 11), (byte '\\', 92)]

def hexEscape (n : Nat) (multibyte : Bool) (s : Bytes) : Option (Nat × Bool × Bytes) :=
  if s.length < n then none
  else do
    let v ← unhexAll 0 (s.take n)
    let value ← charFromU32 v
    return (value, multibyte, s.drop n)

def isOctal (b : UInt8) : Bool := byte '0' ≤ b && b ≤ byte '7'

def octalEscape (c : UInt8) : Bytes → Option (Nat × Bool × Bytes)
  | b1 :: b2 :: s =>
    if isOctal b1 && isOctal b2 then
      let v := ((c.toNat - 48) * 8 + (b1.toNat - 48)) * 8 + (b2.toNat - 48)
      if v > 255 then none else some (v, false, s)
    else none
  | _ => none

/-- The escape sequences, behind the backslash. -/
def unquoteEscape (quote c : UInt8) (s : Bytes) : Option (Nat × Bool × Bytes) :=
  match simpleEscapes.lookup c with
  | some value => some (value, false, s)
  | none =>
    if c = byte 'x' then hexEscape 2 false s
    else if c = byte 'u' then hexEscape 4 true s
    else if c = byte 'U' then hexEscape 8 true s
    else if isOctal c then octalEscape c s
    else if c = byte '\'' ∨ c = byte '"' then
      if c ≠ quote then none else some (c.toNat, false, s)
    else none

/-- `unquote_char_bytes`: the first character or escape sequence, whether it may take several bytes, and
what follows. -/
def unquoteCharBytes (s : Bytes) (quote : UInt8) : Option (Nat × Bool × Bytes) :=
  match s with
  | [] => none
  | c :: tail =>
    if c = quote ∧ (quote = byte '\'' ∨ quote = byte '"') then none
    else if 0x80 ≤ c then
      let (ch, size) := decodeRune s
      some (ch, true, s.drop size)
    else if c ≠ byte '\\' then some (c.toNat, false, tail)
    else
      match tail with
      | [] => none
      | c :: s => unquoteEscape quote c s

theorem unquoteCharBytes_of_high {c quote : UInt8} (tail : Bytes) (hquote : c ≠ quote)
    (hc : 0x80 ≤ c) :
    unquoteCharBytes (c :: tail) quote =
      some ((decodeRune (c :: tail)).1, true, (c :: tail).drop (decodeRune (c :: tail)).2) := by
  show (if c = quote ∧ (quote = byte '\'' ∨ quote = byte '"') then none else _) = _
  rw [if_neg fun hq => hquote hq.1, if_pos hc]

theorem unquoteCharBytes_of_ascii {c quote : UInt8} (tail : Bytes) (hquote : c ≠ quote)
    (hc : c < 0x80) (hbackslash : c ≠ byte '\\') :
    unquoteCharBytes (c :: tail) quote = some (c.toNat, false, tail) := by
  show (if c = quote ∧ (quote = byte '\'' ∨ quote = byte '"') then none else _) = _
  rw [if_neg fun hq => hquote hq.1, if_neg (not_le.2 hc), if_pos hbackslash]

theorem unquoteCharBytes_backslash {quote : UInt8} (hquote : byte '\\' ≠ quote) (c : UInt8) (s : Bytes) :
    unquoteCharBytes (byte '\\' :: c :: s) quote = unquoteEscape quote c s := by
  show (if byte '\\' = quote ∧ (quote = byte '\'' ∨ quote = byte '"') then none else _) = _
  rw [if_neg fun hq => hquote hq.1, if_neg (by decide), if_neg (by decide)]

/-! ### Texts -/

/-- What is appended for a character. In the scalar mode, `\x` and octal sequences stand for characters and
not for bytes. -/
def emit (scalarHighEscapes : Bool) (r : Nat) (multibyte : Bool) : Bytes :=
  if !scalarHighEscapes && (r < 0x80 || !multibyte) then [UInt8.ofNat r] else encode r

/-- The loop of `go_unquote_inner`: the contents up to the end quote, and the rest from there. Every round
takes at least one byte. -/
def unquoteLoop (scalarHighEscapes : Bool) (quote : UInt8) : Nat → Bytes → Option (Bytes × Bytes)
  | 0, _ => none
  | fuel + 1, rest =>
    if rest.head?.all (· == quote) then some ([], rest)
    else if rest.head? = some (byte '\n') then none
    else do
      let (r, multibyte, rem) ← unquoteCharBytes rest quote
      let c := emit scalarHighEscapes r multibyte
      -- texts in single quotes have one character
      if quote = byte '\'' then return (c, rem)
      let (buf, rest) ← unquoteLoop scalarHighEscapes quote fuel rem
      return (c ++ buf, rest)

/-- Reading a text in quotes with its escape sequences, behind the first quote: the contents, and the
number of bytes with both quotes. -/
def unquoteSlow (scalarHighEscapes : Bool) (quote : UInt8) (s : Bytes) : Option (Bytes × Nat) := do
  let (buf, rest) ← unquoteLoop scalarHighEscapes quote (s.length + 1) s
  if rest.head? = some quote then return (buf, s.length + 1 - (rest.length - 1)) else none

/-- Whether a text in quotes without escape sequences may be taken as it is. -/
def isPlain (quote : UInt8) (inner : Bytes) : Bool :=
  !inner.contains (byte '\\') && !inner.contains (byte '\n') &&
    (if quote = byte '"' then isValid inner
    else
      let (r, n) := decodeRune inner
      inner.length == n && (r != 0xFFFD || n != 1))

/-- `go_unquote_inner`; the contents are there also if they are not asked for. -/
def unquoteInner (scalarHighEscapes : Bool) (input : Bytes) : Option (Bytes × Nat) :=
  match input with
  | quote :: s => do
    let n ← s.idxOf? quote
    let inner := s.take n
    if quote = byte '\x60' then return (inner.filter (· != byte '\r'), n + 2)
    else if quote = byte '"' ∨ quote = byte '\'' then
      if isPlain quote inner then return (inner, n + 2) else unquoteSlow scalarHighEscapes quote s
    else none
  | [] => none

def quotedPrefixLen (s : Bytes) : Option Nat := (unquoteInner false s).map (·.2)

def unquoteBytes (s : Bytes) : Option Bytes := do
  let (out, n) ← unquoteInner false s
  if n ≠ s.length then none else return out

/-! ### Quoting -/

def hexDigit (n : Nat) : UInt8 := UInt8.ofNat (if n < 10 then 48 + n else 87 + n)

/-- The two digits of `{:02x}`. -/
def hexByte (n : Nat) : Bytes := [hexDigit (n / 16), hexDigit (n % 16)]

/-- The body of the loop of `append_quote`. -/
def quoteByte (b : UInt8) : Bytes :=
  if b = byte '"' then ascii "\\\""
  else if b = byte '\\' then ascii "\\\\"
  else if b = 0x07 then ascii "\\a"
  else if b = 0x08 then ascii "\\b"
  else if b = 0x0c then ascii "\\f"
  else if b = byte '\n' then ascii "\\n"
  else if b = byte '\r' then ascii "\\r"
  else if b = byte '\t' then ascii "\\t"
  else if b = 0x0b then ascii "\\v"
  else if b < 0x20 ∨ b = 0x7f then ascii "\\x" ++ hexByte b.toNat
  else [b]

/-- `append_quote`: bytes above ASCII stay as they are. -/
def appendQuote (s : Bytes) : Bytes := byte '"' :: s.flatMap quoteByte ++ [byte '"']

/-! ### Pieces of quoted texts -/

/-- A piece of a text in double quotes that stands for some bytes. -/
structure Stands (p r : Bytes) : Prop where
  next : ∀ rest, ∃ v multibyte, unquoteCharBytes (p ++ rest) (byte '"') = some (v, multibyte, rest) ∧
    emit false v multibyte = r
  head : ∃ b p', p = b :: p' ∧ b ≠ byte '"' ∧ b ≠ byte '\n'

/-- A text of pieces. -/
inductive Quotes : Bytes → Bytes → Prop
  | nil : Quotes [] []
  | cons {p r body out : Bytes} (hp : Stands p r) (hbody : Quotes body out) : Quotes (p ++ body) (r ++ out)

theorem Quotes.unquoteLoop_eq (h : Quotes body out) (rest : Bytes) {fuel : Nat} (hfuel : body.length < fuel) :
    unquoteLoop false (byte '"') fuel (body ++ byte '"' :: rest) = some (out, byte '"' :: rest) := by
  induction h generalizing fuel with
  | nil =>
    obtain ⟨fuel, rfl⟩ : ∃ k, fuel = k + 1 := ⟨fuel - 1, by omega⟩
    rfl
  | @cons p r body out hp _ ih =>
    obtain ⟨b, p', rfl, hquote, hnewline⟩ := hp.head
    rw [length_append, length_cons] at hfuel
    obtain ⟨fuel, rfl⟩ : ∃ k, fuel = k + 1 := ⟨fuel - 1, by omega⟩
    obtain ⟨v, multibyte, hnext, hemit⟩ := hp.next (body ++ byte '"' :: rest)
    have hhead : ((b :: p' ++ body) ++ byte '"' :: rest).head? = some b := rfl
    rw [unquoteLoop, hhead, Option.all_some, if_neg (by simpa using hquote),
      if_neg (by simpa using hnewline), append_assoc, hnext]
    simp only [Option.bind_eq_bind, Option.bind_some, ih (show body.length < fuel by omega), hemit]
    rfl

theorem Quotes.unquoteSlow_eq (h : Quotes body out) (rest : Bytes) :
    unquoteSlow false (byte '"') (body ++ byte '"' :: rest) = some (out, body.length + 2) := by
  have hfuel : body.length < (body ++ byte '"' :: rest).length + 1 := by
    rw [length_append]
    omega
  rw [unquoteSlow, h.unquoteLoop_eq rest hfuel]
  simp only [Option.bind_eq_bind, Option.bind_some, List.head?_cons, if_true, length_append,
    length_cons]
  congr 2
  omega

/-- A rune stands for itself. -/
theorem stands_of_isRune {r : Bytes} (h : IsRune (b :: r) v)
    (hquote : b ≠ byte '"') (hbackslash : b ≠ byte '\\') (hnewline : b ≠ byte '\n') : Stands (b :: r) (b :: r) := by
  refine ⟨?_, b, r, rfl, hquote, hnewline⟩
  intro rest
  by_cases hhigh : (0x80 : UInt8) ≤ b
  · refine ⟨v, true, ?_, ?_⟩
    · have hrune := h.runeAt_append rest
      have hdecode : decodeRune (b :: r ++ rest) = (v, (b :: r).length) := by
        rw [decodeRune, hrune, Option.getD_some]
      rw [cons_append, unquoteCharBytes_of_high _ hquote hhigh, ← cons_append, hdecode]
      simp only [drop_left]
    · have hencode := h.encode_eq
      unfold emit
      by_cases hv : v < 0x80
      · rw [encode, if_pos hv] at hencode
        rw [if_pos (by simp [hv]), hencode]
      · rw [if_neg (by simp [hv]), hencode]
  · have hlow : b < 0x80 := not_le.1 hhigh
    obtain rfl := h.tail_eq_nil hlow
    refine ⟨b.toNat, false, ?_, ?_⟩
    · exact unquoteCharBytes_of_ascii rest hquote hlow hbackslash
    · rw [emit, if_pos (by simp), UInt8.ofNat_toNat]

/-- A valid text without quotes, backslashes and newlines stands for itself. -/
theorem quotes_of_plain {s : Bytes} (hvalid : isValid s = true) (hquote : byte '"' ∉ s)
    (hbackslash : byte '\\' ∉ s) (hnewline : byte '\n' ∉ s) : Quotes s s := by
  induction hvalid using isValid_induction with
  | nil => exact .nil
  | rune r s v hr _ ih =>
    simp only [mem_append, not_or] at hquote hbackslash hnewline
    obtain ⟨b, r', rfl⟩ := exists_cons_of_ne_nil hr.ne_nil
    have hhead : ∀ {c : UInt8}, c ∉ b :: r' → b ≠ c := fun h hb => h (hb ▸ mem_cons_self)
    exact .cons (stands_of_isRune hr (hhead hquote.1) (hhead hbackslash.1) (hhead hnewline.1))
      (ih hquote.2 hbackslash.2 hnewline.2)

/-- The short way for texts without escape sequences does not matter. -/
theorem unquoteInner_doubleQuote {s : Bytes} (h : byte '"' ∈ s) :
    unquoteInner false (byte '"' :: s) = unquoteSlow false (byte '"') s := by
  obtain ⟨n, hn⟩ : ∃ n, s.idxOf? (byte '"') = some n := by
    cases hidx : s.idxOf? (byte '"') with
    | some n => exact ⟨n, rfl⟩
    | none => exact absurd h (List.idxOf?_eq_none_iff.1 hidx)
  obtain ⟨inner, rest, rfl, rfl, hinner⟩ := idxOf?_eq_some_iff_append.1 hn
  rw [unquoteInner, hn]
  simp only [Option.bind_eq_bind, Option.bind_some, take_left]
  rw [if_neg (by decide), if_pos (by decide)]
  by_cases hplain : isPlain (byte '"') inner = true
  · rw [if_pos hplain]
    simp only [isPlain, if_true, Bool.and_eq_true, Bool.not_eq_true', contains_eq_mem,
      decide_eq_false_iff_not] at hplain
    exact ((quotes_of_plain hplain.2 hinner hplain.1.1 hplain.1.2).unquoteSlow_eq rest).symm
  · rw [if_neg hplain]

/-- A text of pieces is read as what they stand for. -/
theorem Quotes.unquoteInner_eq (h : Quotes body out) (rest : Bytes) :
    unquoteInner false (byte '"' :: body ++ byte '"' :: rest) = some (out, body.length + 2) := by
  have hmem : byte '"' ∈ body ++ byte '"' :: rest := mem_append_right _ mem_cons_self
  rw [cons_append, unquoteInner_doubleQuote hmem, h.unquoteSlow_eq rest]

/-! ### Escape sequences -/

/-- Reading an escape sequence. -/
theorem stands_of_escape {c : UInt8} {e r : Bytes} {m : Bool}
    (hescape : ∀ rest, unquoteEscape (byte '"') c (e ++ rest) = some (v, m, rest))
    (hemit : emit false v m = r) : Stands (byte '\\' :: c :: e) r := by
  refine ⟨?_, byte '\\', c :: e, rfl, by decide, by decide⟩
  intro rest
  refine ⟨v, m, ?_, hemit⟩
  rw [cons_append, cons_append, unquoteCharBytes_backslash (by decide)]
  exact hescape rest

theorem unhex_hexDigit {n : Nat} (h : n < 16) : unhex (hexDigit n) = some n := by
  interval_cases n <;> decide

theorem hexEscape_append {n v value : Nat} {multibyte : Bool} {e : Bytes} (hlen : e.length = n)
    (hv : unhexAll 0 e = some v) (hvalue : charFromU32 v = some value) (rest : Bytes) :
    hexEscape n multibyte (e ++ rest) = some (value, multibyte, rest) := by
  subst hlen
  rw [hexEscape, if_neg (by rw [length_append]; omega), take_left, drop_left]
  simp only [Option.bind_eq_bind, hv, hvalue, Option.bind_some]
  rfl

theorem stands_hexByte {n : Nat} (h : n < 256) :
    Stands (ascii "\\x" ++ hexByte n) [UInt8.ofNat n] := by
  refine stands_of_escape (c := byte 'x') (v := n) (e := hexByte n) (m := false) ?_ ?_
  · intro rest
    have hv : unhexAll 0 (hexByte n) = some n := by
      have hhigh := unhex_hexDigit (show n / 16 < 16 by omega)
      have hlow := unhex_hexDigit (show n % 16 < 16 by omega)
      simp only [hexByte, unhexAll, hhigh, hlow, Option.bind_eq_bind, Option.bind_some]
      congr 1
      omega
    have hvalue : charFromU32 n = some n := if_pos (.inl (by omega))
    exact hexEscape_append rfl hv hvalue rest
  · rw [emit, if_pos (by simp)]

theorem stands_simple {c : UInt8} (hc : simpleEscapes.lookup c = some v) : Stands [byte '\\', c] [UInt8.ofNat v] := by
  refine stands_of_escape (e := []) (v := v) (m := false) ?_ ?_
  · intro rest
    rw [unquoteEscape, hc]
    rfl
  · rw [emit, if_pos (by simp)]

theorem stands_quote : Stands [byte '\\', byte '"'] [byte '"'] :=
  stands_of_escape (e := []) (v := 34) (m := false) (fun _ => rfl) rfl

/-- What `append_quote` writes for a byte of ASCII stands for it. -/
theorem stands_quoteByte (hb : b < 0x80) : Stands (quoteByte b) [b] := by
  unfold quoteByte
  split_ifs with h1 h2 h3 h4 h5 h6 h7 h8 h9 h10
  · exact h1 ▸ stands_quote
  · exact h2 ▸ stands_simple (c := byte '\\') (v := 92) (by decide)
  · exact h3 ▸ stands_simple (c := byte 'a') (v := 7) (by decide)
  · exact h4 ▸ stands_simple (c := byte 'b') (v := 8) (by decide)
  · exact h5 ▸ stands_simple (c := byte 'f') (v := 12) (by decide)
  · exact h6 ▸ stands_simple (c := byte 'n') (v := 10) (by decide)
  · exact h7 ▸ stands_simple (c := byte 'r') (v := 13) (by decide)
  · exact h8 ▸ stands_simple (c := byte 't') (v := 9) (by decide)
  · exact h9 ▸ stands_simple (c := byte 'v') (v := 11) (by decide)
  · have hstands := stands_hexByte b.toNat_lt
    rwa [UInt8.ofNat_toNat] at hstands
  · exact stands_of_isRune (runeAt_cons_of_ascii hb []) h1 h2 h6

theorem quoteByte_of_high (hb : ¬b < 0x80) : quoteByte b = [b] := by
  have hne : ∀ c : UInt8, c < 0x80 → b ≠ c := by
    rintro c hc rfl
    exact hb hc
  unfold quoteByte
  rw [if_neg (hne _ (by decide)), if_neg (hne _ (by decide)), if_neg (hne _ (by decide)),
    if_neg (hne _ (by decide)), if_neg (hne _ (by decide)), if_neg (hne _ (by decide)),
    if_neg (hne _ (by decide)), if_neg (hne _ (by decide)), if_neg (hne _ (by decide)), if_neg ?_]
  rintro (hlt | rfl)
  · exact hb (hlt.trans (by decide))
  · exact hb (by decide)

end EsLogs.Strconv
