import EsLogs.Decimal
import EsLogs.Unmarshal
import EsLogs.Utf8Lossy

/-!
The file in which a persistent queue keeps its offsets (`Metainfo` of `persistentqueue.rs`): the writer
of its text, and the small parser that reads it. Texts are valid UTF-8 byte strings.
-/

namespace EsLogs.PersistentQueue

open List
open Unmarshal (Reads)

variable {s : Bytes} (mi : Metainfo)

structure Metainfo where
  name : Bytes
  readerOffset : Nat
  writerOffset : Nat
  deriving DecidableEq, Repr

def hexByte (ten : Char) (n : Nat) : UInt8 := if n < 10 then UInt8.ofNat (48 + n) else byte ten + UInt8.ofNat (n - 10)

/-- One character of `append_json_string`; one outside ASCII is copied, byte by byte. -/
def appendJsonChar (c : UInt8) : Bytes :=
  if c = byte '"' then ascii "\\\""
  else if c = byte '\\' then ascii "\\\\"
  else if c = byte '\n' then ascii "\\n"
  else if c = byte '\r' then ascii "\\r"
  else if c = byte '\t' then ascii "\\t"
  else if c < 0x20 then ascii "\\u00" ++ [hexByte 'a' (c.toNat / 16), hexByte 'a' (c.toNat % 16)]
  else [c]

def appendJsonString (s : Bytes) : Bytes := byte '"' :: (s.flatMap appendJsonChar ++ [byte '"'])

/-- The data that `Metainfo::write_to_file` writes. -/
def Metainfo.marshal (mi : Metainfo) : Bytes :=
  ascii "\x7b\"Name\":" ++ appendJsonString mi.name ++ ascii ",\"ReaderOffset\":" ++
    decimal mi.readerOffset ++ ascii ",\"WriterOffset\":" ++ decimal mi.writerOffset ++ ascii "\x7d"

namespace JsonParser

def isAsciiWhitespace (c : UInt8) : Bool :=
  c = byte ' ' || c = byte '\t' || c = byte '\n' || c = 0x0C || c = byte '\r'

def skipWs : Unmarshal Unit := fun s => .ok ((), s.dropWhile isAsciiWhitespace)

def peek : Unmarshal (Option UInt8) := fun s => .ok (s.head?, s)

def next : Unmarshal (Option UInt8) := fun s => .ok (s.head?, s.tail)

def expect (c : Char) : Unmarshal Unit := do
  let b ← next
  Unmarshal.ensure (b = some (byte c)) ("expected '" ++ String.singleton c ++ "'")

def hexValue (c : UInt8) : Option Nat :=
  if isDigit c then some (digitVal c)
  else if byte 'a' ≤ c ∧ c ≤ byte 'f' then some (c.toNat - (byte 'a').toNat + 10)
  else if byte 'A' ≤ c ∧ c ≤ byte 'F' then some (c.toNat - (byte 'A').toNat + 10)
  else none

/-- `from_str_radix` for the base 16, on a text that is short enough for the type of the result. -/
def fromStrRadix16 (s : Bytes) : Option Nat :=
  let digits := if s.head? = some (byte '+') then s.tail else s
  if digits = [] then none
  else digits.foldlM (fun n c => (hexValue c).map fun d => n * 16 + d) 0

/-- The bytes of `char::from_u32`, or of the replacement character. -/
def pushChar (n : Nat) : Bytes :=
  String.utf8EncodeChar (if n.isValidChar then Char.ofNat n else Char.ofNat 0xFFFD)

def simpleEscape (c : UInt8) : Option UInt8 :=
  if c = byte '"' then some (byte '"')
  else if c = byte '\\' then some (byte '\\')
  else if c = byte '/' then some (byte '/')
  else if c = byte 'b' then some 0x08
  else if c = byte 'f' then some 0x0C
  else if c = byte 'n' then some (byte '\n')
  else if c = byte 'r' then some (byte '\r')
  else if c = byte 't' then some (byte '\t')
  else none

/-- The width that the first byte of a sequence outside ASCII announces. -/
def width (c : UInt8) : Nat :=
  if 0xC0 ≤ c ∧ c ≤ 0xDF then 2 else if 0xE0 ≤ c ∧ c ≤ 0xEF then 3 else 4

/-- The loop of `JsonParser::parse_string`, after the opening quote. -/
def parseStringFrom : Nat → Bytes → Unmarshal Bytes
  | 0, _, _ => .error "out of fuel"
  | _ + 1, _, [] => .error "unterminated string"
  | fuel + 1, out, c :: s =>
    if c = byte '"' then .ok (out, s)
    else if c = byte '\\' then
      match s with
      | [] => .error "invalid escape"
      | e :: s =>
        match simpleEscape e with
        | some b => parseStringFrom fuel (out ++ [b]) s
        | none =>
          if e = byte 'u' then
            if s.length < 4 then .error "truncated \\u escape"
            else
              match fromStrRadix16 (s.take 4) with
              | some n => parseStringFrom fuel (out ++ pushChar n) (s.drop 4)
              | none => .error "invalid \\u escape"
          else .error "invalid escape"
    else if c < 0x80 then parseStringFrom fuel (out ++ [c]) s
    else if (c :: s).length < width c then .error "truncated utf-8 sequence"
    else if Utf8.isValid ((c :: s).take (width c)) then
      parseStringFrom fuel (out ++ (c :: s).take (width c)) ((c :: s).drop (width c))
    else .error "invalid utf-8 in string"

def parseString : Unmarshal Bytes := do
  expect '"'
  fun s => parseStringFrom (s.length + 1) [] s

def parseU64 : Unmarshal Nat := fun s =>
  let digits := s.takeWhile isDigit
  if digits = [] then .error "expected number"
  else if digitsValue digits < 2 ^ 64 then .ok (digitsValue digits, s.dropWhile isDigit)
  else .error "invalid number: number too large to fit in target type"

end JsonParser

open JsonParser

def parseMetainfoMember (mi : Metainfo) : Unmarshal Metainfo := do
  skipWs
  let key ← parseString
  skipWs
  expect ':'
  skipWs
  let c ← peek
  if c = some (byte '"') then do
    let v ← parseString
    return if key = ascii "Name" then { mi with name := v } else mi
  else if c.any isDigit then do
    let v ← parseU64
    return if key = ascii "ReaderOffset" then { mi with readerOffset := v }
      else if key = ascii "WriterOffset" then { mi with writerOffset := v }
      else mi
  else Unmarshal.fail "unexpected value for key"

def parseMetainfoMembers : Nat → Metainfo → Unmarshal Metainfo
  | 0, _ => Unmarshal.fail "out of fuel"
  | fuel + 1, mi => do
    let mi ← parseMetainfoMember mi
    skipWs
    let c ← next
    if c = some (byte ',') then parseMetainfoMembers fuel mi
    else if c = some (byte '\x7d') then return mi
    else Unmarshal.fail "expected ',' or '\x7d'"

/-- The body of `parse_metainfo_json`, with fuel for the keys. -/
def parseMetainfoObject (fuel : Nat) : Unmarshal Metainfo := do
  skipWs
  expect '\x7b'
  skipWs
  let c ← peek
  if c = some (byte '\x7d') then return ⟨[], 0, 0⟩
  else parseMetainfoMembers fuel ⟨[], 0, 0⟩

/-- `parse_metainfo_json`: what follows the object is not looked at. -/
def parseMetainfoJson (data : Bytes) : Except String Metainfo :=
  if Utf8.isValid data then (parseMetainfoObject (data.length + 1) data).map Prod.fst
  else .error "invalid utf-8"

/-! ### What is written is read back -/

section Readers

variable {α β : Type}

/-- From the bytes `e`, if the byte `c` follows them, `p` reads `x`. -/
def ReadsBefore (p : Unmarshal α) (x : α) (e : Bytes) (c : UInt8) : Prop :=
  ∀ tail, p (e ++ c :: tail) = .ok (x, c :: tail)

variable {e : Bytes} {y : β}

theorem ReadsBefore.of_reads {p : Unmarshal α} {x : α} (h : Reads p x e) (c : UInt8) :
    ReadsBefore p x e c := fun tail => h (c :: tail)

theorem ReadsBefore.bind {p : Unmarshal α} {f : α → Unmarshal β} {x : α} {e e' : Bytes}
    {c : UInt8} (hp : Reads p x e) (hf : ReadsBefore (f x) y e' c) :
    ReadsBefore (p >>= f) y (e ++ e') c := by
  intro tail
  show (p (e ++ e' ++ c :: tail) >>= fun r => f r.1 r.2) = _
  rw [append_assoc, hp, except_ok_bind]
  exact hf tail

theorem ReadsBefore.return {p : Unmarshal α} {f : α → β} {x : α} {c : UInt8}
    (hp : ReadsBefore p x e c) : ReadsBefore (p >>= fun a => pure (f a)) (f x) e c := by
  intro tail
  show (p (e ++ c :: tail) >>= fun r => .ok (f r.1, r.2)) = _
  rw [hp tail, except_ok_bind]

/-- The byte that must follow is the first of what the next reader reads. -/
theorem ReadsBefore.then {p : Unmarshal α} {f : α → Unmarshal β} {x : α} {e e' : Bytes}
    {c : UInt8} (hp : ReadsBefore p x e c) (hf : Reads (f x) y (c :: e')) :
    Reads (p >>= f) y (e ++ c :: e') := by
  intro tail
  show (p (e ++ c :: e' ++ tail) >>= fun r => f r.1 r.2) = _
  rw [append_assoc, cons_append, hp, except_ok_bind]
  exact hf tail

/-- There is no white space to skip. -/
theorem skipWs_before {f : Unit → Unmarshal β} {b c : UInt8}
    (hb : isAsciiWhitespace b = false) (hf : ReadsBefore (f ()) y (b :: e) c) :
    ReadsBefore (skipWs >>= f) y (b :: e) c := by
  intro tail
  show (skipWs (b :: e ++ c :: tail) >>= fun r => f r.1 r.2) = _
  rw [cons_append, skipWs, dropWhile_cons_of_neg (by simp [hb]), except_ok_bind]
  exact hf tail

theorem reads_skipWs {f : Unit → Unmarshal β} {b : UInt8}
    (hb : isAsciiWhitespace b = false) (hf : Reads (f ()) y (b :: e)) :
    Reads (skipWs >>= f) y (b :: e) := by
  intro tail
  show (skipWs (b :: e ++ tail) >>= fun r => f r.1 r.2) = _
  rw [cons_append, skipWs, dropWhile_cons_of_neg (by simp [hb]), except_ok_bind]
  exact hf tail

theorem peek_before {f : Option UInt8 → Unmarshal β} {b c : UInt8}
    (hf : ReadsBefore (f (some b)) y (b :: e) c) : ReadsBefore (peek >>= f) y (b :: e) c :=
  fun tail => hf tail

theorem reads_peek {f : Option UInt8 → Unmarshal β} {b : UInt8}
    (hf : Reads (f (some b)) y (b :: e)) : Reads (peek >>= f) y (b :: e) := fun tail => hf tail

theorem reads_next (b : UInt8) : Reads next (some b) [b] := fun _ => rfl

theorem reads_expect (c : Char) : Reads (expect c) () [byte c] :=
  (reads_next (byte c)).finish (Unmarshal.reads_ensure rfl _)

end Readers

/-- The digits of the escapes of control characters. -/
theorem fromStrRadix16_control : ∀ n < 32,
    fromStrRadix16 (ascii "00" ++ [hexByte 'a' (n / 16), hexByte 'a' (n % 16)]) = some n ∧
      pushChar n = [UInt8.ofNat n] := by
  decide

variable {c : UInt8}

/-- A character of ASCII is read back from its escape. -/
theorem parseStringFrom_ascii (hc : c < 0x80) (fuel : Nat) (out s : Bytes) :
    parseStringFrom (fuel + 1) out (appendJsonChar c ++ s) = parseStringFrom fuel (out ++ [c]) s := by
  unfold appendJsonChar
  by_cases h1 : c = byte '"'
  · subst h1
    rfl
  by_cases h2 : c = byte '\\'
  · subst h2
    rfl
  by_cases h3 : c = byte '\n'
  · subst h3
    rfl
  by_cases h4 : c = byte '\r'
  · subst h4
    rfl
  by_cases h5 : c = byte '\t'
  · subst h5
    rfl
  rw [if_neg h1, if_neg h2, if_neg h3, if_neg h4, if_neg h5]
  by_cases h6 : c < 0x20
  · rw [if_pos h6]
    obtain ⟨hradix, hpush⟩ := fromStrRadix16_control c.toNat (UInt8.lt_iff_toNat_lt.1 h6)
    rw [UInt8.ofNat_toNat] at hpush
    show (match fromStrRadix16 (ascii "00" ++ [hexByte 'a' (c.toNat / 16), hexByte 'a' (c.toNat % 16)]) with
      | some n => parseStringFrom fuel (out ++ pushChar n) s
      | none => .error "invalid \\u escape") = _
    rw [hradix]
    simp only [hpush]
  · rw [if_neg h6, singleton_append]
    simp only [parseStringFrom, h1, h2, hc, if_false, if_true]

theorem width_eq_seqLen : ∀ c : UInt8, ¬c < 0x80 → 0 < Utf8.seqLen c → width c = Utf8.seqLen c := by
  decide +kernel

/-- A rune outside ASCII announces its width with its first byte. -/
theorem width_of_isRune {r : Bytes} {v : Nat} (hr : Utf8.IsRune (c :: r) v)
    (hc : ¬c < 0x80) : width c = (c :: r).length := by
  have hstart := Utf8.startsRune_of_runeAt hr
  have hfirst : Utf8.seqLen c = (c :: r).length := Option.some.inj hstart.first
  rw [← hfirst]
  exact width_eq_seqLen c hc (hfirst ▸ hstart.pos)

/-- The escapes stay within ASCII. -/
theorem appendJsonChar_ascii :
    ∀ c : UInt8, c < 0x80 → appendJsonChar c ≠ [] ∧ ∀ b ∈ appendJsonChar c, b < 0x80 := by
  decide +kernel

theorem appendJsonChar_high : ∀ c : UInt8, ¬c < 0x80 → appendJsonChar c = [c] := by
  decide +kernel

/-- The loop reads back a valid text, rune by rune. -/
theorem parseStringFrom_append (hs : Utf8.isValid s = true) :
    ∀ (fuel : Nat) (out tail : Bytes), (s.flatMap appendJsonChar).length < fuel →
      parseStringFrom fuel out (s.flatMap appendJsonChar ++ byte '"' :: tail) = .ok (out ++ s, tail) := by
  induction hs using Utf8.isValid_induction with
  | nil =>
    intro fuel out tail hfuel
    obtain ⟨fuel, rfl⟩ : ∃ k, fuel = k + 1 := ⟨fuel - 1, by omega⟩
    rw [append_nil]
    rfl
  | rune r s v hr _ ih =>
    intro fuel out tail hfuel
    obtain ⟨c, r, rfl⟩ := exists_cons_of_ne_nil hr.ne_nil
    obtain ⟨fuel, rfl⟩ : ∃ k, fuel = k + 1 := ⟨fuel - 1, by omega⟩
    rw [flatMap_append, length_append] at hfuel
    by_cases hc : c < 0x80
    · -- a rune that starts in ASCII is that one character
      obtain rfl := hr.tail_eq_nil hc
      have hpos := length_pos_iff.2 (appendJsonChar_ascii c hc).1
      rw [flatMap_singleton] at hfuel
      rw [flatMap_append, flatMap_singleton, append_assoc,
        parseStringFrom_ascii hc, ih _ _ _ (by omega), append_assoc]
    · have hwidth := width_of_isRune hr hc
      have hplain := Utf8.flatMap_of_high appendJsonChar_high (hr.not_ascii hc)
      have hvalid := hr.isValid
      have h1 : c ≠ byte '"' := by
        rintro rfl
        exact hc (by decide)
      have h2 : c ≠ byte '\\' := by
        rintro rfl
        exact hc (by decide)
      rw [hplain, length_cons] at hfuel
      rw [flatMap_append, hplain, append_assoc]
      generalize hinput : s.flatMap appendJsonChar ++ byte '"' :: tail = input
      have htake : (c :: (r ++ input)).take (width c) = c :: r := by
        rw [hwidth, ← cons_append, take_left]
      have hdrop : (c :: (r ++ input)).drop (width c) = input := by
        rw [hwidth, ← cons_append, drop_left]
      have hlength : ¬(c :: (r ++ input)).length < width c := by
        rw [hwidth, ← cons_append, length_append]
        omega
      simp only [cons_append, parseStringFrom, h1, h2, hc, if_false, htake, hdrop, hlength,
        hvalid, if_true]
      rw [← hinput, ih _ _ _ (by omega), append_assoc]
      rfl

theorem reads_parseString (hs : Utf8.isValid s = true) : Reads parseString s (appendJsonString s) := by
  show Reads parseString s ([byte '"'] ++ (s.flatMap appendJsonChar ++ [byte '"']))
  refine (reads_expect '"').bind ?_
  intro tail
  rw [append_assoc, singleton_append]
  have hread := parseStringFrom_append hs
    ((s.flatMap appendJsonChar ++ byte '"' :: tail).length + 1) [] tail (by
      rw [length_append]
      omega)
  rwa [nil_append] at hread

theorem parseU64_before {n : Nat} (hn : n < 2 ^ 64) (hc : isDigit c = false) :
    ReadsBefore parseU64 n (decimal n) c := by
  intro tail
  have hdigits := allDigits_decimal n
  have htake : (decimal n ++ c :: tail).takeWhile isDigit = decimal n := by
    rw [takeWhile_append_of_pos hdigits, takeWhile_cons_of_neg (by simp [hc]),
      append_nil]
  have hdrop : (decimal n ++ c :: tail).dropWhile isDigit = c :: tail := by
    rw [dropWhile_append_of_pos hdigits, dropWhile_cons_of_neg (by simp [hc])]
  simp only [parseU64, htake, hdrop, decimal_ne_nil, digitsValue_decimal, hn, if_false, if_true]

def jsonKey (key : String) : Bytes := appendJsonString (ascii key) ++ [byte ':']

theorem reads_nameMember {v : Bytes} (hv : Utf8.isValid v = true) :
    Reads (parseMetainfoMember mi) { mi with name := v } (jsonKey "Name" ++ appendJsonString v) := by
  rw [jsonKey, append_assoc]
  refine reads_skipWs (b := byte '"') (by decide) ?_
  refine (reads_parseString (by decide)).bind ?_
  refine reads_skipWs (b := byte ':') (by decide) ?_
  refine (reads_expect ':').bind ?_
  refine reads_skipWs (b := byte '"') (by decide) ?_
  refine reads_peek (b := byte '"') ?_
  rw [if_pos rfl]
  exact (reads_parseString hv).return

theorem offsetMember_before {key : String} (hkey : Utf8.isValid (ascii key) = true)
    {n : Nat} (hn : n < 2 ^ 64) (hc : isDigit c = false) : ReadsBefore (parseMetainfoMember mi)
      (if ascii key = ascii "ReaderOffset" then { mi with readerOffset := n }
        else if ascii key = ascii "WriterOffset" then { mi with writerOffset := n } else mi)
      (jsonKey key ++ decimal n) c := by
  obtain ⟨d, ds, hd⟩ := exists_cons_of_ne_nil (decimal_ne_nil n)
  have hdigit : isDigit d = true := allDigits_decimal n d (hd ▸ mem_cons_self)
  have hquote : ¬some d = some (byte '"') := by
    rintro h
    cases h
    exact absurd hdigit (by decide)
  have hws : isAsciiWhitespace d = false := by
    have hrange := (isDigit_iff d).1 hdigit
    have hne : ∀ b : UInt8, b.toNat < 48 → d ≠ b := by
      rintro b hb rfl
      omega
    simp only [isAsciiWhitespace, hne _ (show (byte ' ').toNat < 48 by decide),
      hne _ (show (byte '\t').toNat < 48 by decide), hne _ (show (byte '\n').toNat < 48 by decide),
      hne _ (show (0x0C : UInt8).toNat < 48 by decide),
      hne _ (show (byte '\r').toNat < 48 by decide), decide_false, Bool.or_false]
  have hnumber := parseU64_before hn hc
  rw [hd] at hnumber
  rw [jsonKey, append_assoc, hd]
  refine skipWs_before (b := byte '"') (by decide) ?_
  refine ReadsBefore.bind (reads_parseString hkey) ?_
  refine skipWs_before (b := byte ':') (by decide) ?_
  refine ReadsBefore.bind (reads_expect ':') ?_
  refine skipWs_before hws ?_
  refine peek_before ?_
  rw [if_neg hquote, if_pos (show Option.any isDigit (some d) = true from hdigit)]
  exact hnumber.return

/-- The text of the file as the parser goes through it. -/
theorem Metainfo.marshal_eq : mi.marshal = byte '\x7b' :: ((jsonKey "Name" ++ appendJsonString mi.name) ++
      byte ',' :: ((jsonKey "ReaderOffset" ++ decimal mi.readerOffset) ++
        byte ',' :: ((jsonKey "WriterOffset" ++ decimal mi.writerOffset) ++ [byte '\x7d']))) := by
  have h1 : ascii "\x7b\"Name\":" = byte '\x7b' :: jsonKey "Name" := by decide
  have h2 : ascii ",\"ReaderOffset\":" = byte ',' :: jsonKey "ReaderOffset" := by decide
  have h3 : ascii ",\"WriterOffset\":" = byte ',' :: jsonKey "WriterOffset" := by decide
  have h4 : ascii "\x7d" = [byte '\x7d'] := by decide
  rw [Metainfo.marshal, h1, h2, h3, h4]
  simp only [append_assoc, cons_append]

/-- A member and the comma before the next one. -/
theorem reads_members_comma {fuel : Nat} {mi mi' result : Metainfo} {e e' : Bytes}
    (hmember : ReadsBefore (parseMetainfoMember mi) mi' e (byte ','))
    (hrest : Reads (parseMetainfoMembers fuel mi') result e') :
    Reads (parseMetainfoMembers (fuel + 1) mi) result (e ++ byte ',' :: e') := by
  refine hmember.then ?_
  refine reads_skipWs (by decide) ?_
  refine (reads_next (byte ',')).bind (e := [byte ',']) ?_
  rw [if_pos rfl]
  exact hrest

/-- The last member and the brace that closes the object. -/
theorem reads_members_brace {fuel : Nat} {mi mi' : Metainfo} {e : Bytes}
    (hmember : ReadsBefore (parseMetainfoMember mi) mi' e (byte '\x7d')) :
    Reads (parseMetainfoMembers (fuel + 1) mi) mi' (e ++ [byte '\x7d']) := by
  refine hmember.then ?_
  refine reads_skipWs (by decide) ?_
  refine (reads_next (byte '\x7d')).finish ?_
  rw [if_neg (by decide), if_pos rfl]
  exact Unmarshal.reads_pure mi'

theorem isValid_marshal {mi : Metainfo} (hname : Utf8.isValid mi.name = true) :
    Utf8.isValid mi.marshal = true := by
  have hdecimal : ∀ n, Utf8.isValid (decimal n) = true := by
    intro n
    refine Utf8.isValid_of_ascii fun b hb => ?_
    have hrange := (isDigit_iff b).1 (allDigits_decimal n b hb)
    exact UInt8.lt_iff_toNat_lt.2 (Nat.lt_of_le_of_lt hrange.2 (by decide))
  have hjson : Utf8.isValid (mi.name.flatMap appendJsonChar) = true := by
    rw [← Utf8.lossy_eq_self_iff, Utf8.lossy_flatMap appendJsonChar_high appendJsonChar_ascii,
      Utf8.lossy_of_isValid hname]
  have hstring : Utf8.isValid (appendJsonString mi.name) = true := by
    show Utf8.isValid ([byte '"'] ++ (mi.name.flatMap appendJsonChar ++ [byte '"'])) = true
    exact Utf8.isValid_append (by decide) (Utf8.isValid_append hjson (by decide))
  rw [Metainfo.marshal]
  refine Utf8.isValid_append (Utf8.isValid_append (Utf8.isValid_append (Utf8.isValid_append
    (Utf8.isValid_append (Utf8.isValid_append ?_ hstring) ?_) (hdecimal _)) ?_) (hdecimal _)) ?_
  all_goals decide

/-- What the queue writes about its offsets is what it reads when it is opened again. -/
theorem parseMetainfoJson_marshal (hname : Utf8.isValid mi.name = true)
    (hreader : mi.readerOffset < 2 ^ 64) (hwriter : mi.writerOffset < 2 ^ 64) :
    parseMetainfoJson mi.marshal = .ok mi := by
  have hreads : ∀ fuel, Reads (parseMetainfoObject (fuel + 3)) mi mi.marshal := by
    intro fuel
    rw [Metainfo.marshal_eq]
    refine reads_skipWs (by decide) ?_
    refine (reads_expect '\x7b').bind (e := [byte '\x7b']) ?_
    refine reads_skipWs (b := byte '"') (by decide) ?_
    refine reads_peek (b := byte '"') ?_
    rw [if_neg (by decide)]
    refine reads_members_comma (.of_reads (reads_nameMember _ hname) _) ?_
    refine reads_members_comma (offsetMember_before _ (by decide) hreader (by decide)) ?_
    exact reads_members_brace (offsetMember_before _ (by decide) hwriter (by decide))
  have hfuel : ∃ fuel, mi.marshal.length + 1 = fuel + 3 := by
    refine ⟨mi.marshal.length - 2, ?_⟩
    have hlen : 2 ≤ mi.marshal.length := by
      rw [Metainfo.marshal_eq]
      simp only [length_cons, length_append]
      omega
    omega
  obtain ⟨fuel, hfuel⟩ := hfuel
  have hread := hreads fuel []
  rw [append_nil] at hread
  rw [parseMetainfoJson, if_pos (isValid_marshal hname), hfuel, hread]
  rfl

end EsLogs.PersistentQueue
