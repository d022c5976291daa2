import EsLogs.Utf8

/-!
Words of a text (`tokenizer.rs`). A text is any byte string; a byte that does not belong to a rune
separates words like any other character that is neither a letter nor a digit.
-/

namespace EsLogs.Tokenizer

def runeError : Nat := 0xFFFD

def decodeRune (b : Bytes) : Nat × Nat := (Utf8.runeAt b).getD (runeError, 1)

def isTokenChar (c : UInt8) : Bool :=
  (byte 'a' ≤ c && c ≤ byte 'z') || (byte 'A' ≤ c && c ≤ byte 'Z') || (byte '0' ≤ c && c ≤ byte '9') ||
    c == byte '_'

/-- The letters and the decimal digits of Unicode beyond ASCII, the classes `L` and `Nd`. The replacement
character is a symbol. -/
structure RuneClasses where
  letterOrDigit : Nat → Bool
  symbol : letterOrDigit runeError = false

def isTokenRune (rc : RuneClasses) (c : Nat) : Bool :=
  if c < 0x80 then isTokenChar (UInt8.ofNat c) else rc.letterOrDigit c

theorem decodeRune_pos (b : Bytes) : 0 < (decodeRune b).2 := by
  unfold decodeRune
  cases hr : Utf8.runeAt b with
  | none => exact Nat.one_pos
  | some r => exact (Utf8.startsRune_of_runeAt hr).pos

/-- The offset of the first rune with the property, or the length of the text. -/
def runePos (p : Nat → Bool) (s : Bytes) : Nat :=
  if s = [] then 0
  else if p (decodeRune s).1 then 0
  else (decodeRune s).2 + runePos p (s.drop (decodeRune s).2)
termination_by s.length
decreasing_by
  have hpos := decodeRune_pos s
  have hlen := List.length_pos_iff.2 ‹_›
  rw [List.length_drop]
  omega

theorem runePos_nil (p : Nat → Bool) : runePos p [] = 0 := by
  rw [runePos, if_pos rfl]

/-- One round of `tokenize_bytes_one`: the next word and what follows it. An empty text has none. -/
def nextToken (rc : RuneClasses) (s : Bytes) : Option (Bytes × Bytes) :=
  let s := s.drop (runePos (isTokenRune rc) s)
  let n := runePos (fun r => !isTokenRune rc r) s
  if n = 0 then none else some (s.take n, s.drop n)

theorem length_lt_of_nextToken {rc : RuneClasses} {s token rest : Bytes}
    (h : nextToken rc s = some (token, rest)) : rest.length < s.length := by
  unfold nextToken at h
  dsimp only at h
  split at h
  case isTrue => cases h
  case isFalse hpos =>
    obtain ⟨-, rfl⟩ := Prod.mk.inj (Option.some.inj h)
    have hne : s.drop (runePos (isTokenRune rc) s) ≠ [] := by
      intro hnil
      rw [hnil, runePos_nil] at hpos
      exact hpos rfl
    have hlen := List.length_pos_iff.2 hne
    rw [List.length_drop] at hlen ⊢
    rw [List.length_drop]
    omega

/-- The loop of `tokenize_bytes_one`, with the set of the words seen so far. -/
def tokenizeBytesOne (rc : RuneClasses) (dst m : List Bytes) (s : Bytes) : List Bytes × List Bytes :=
  match _h : nextToken rc s with
  | none => (dst, m)
  | some (token, rest) =>
    if token ∈ m then tokenizeBytesOne rc dst m rest
    else tokenizeBytesOne rc (dst ++ [token]) (m ++ [token]) rest
termination_by s.length
decreasing_by all_goals exact length_lt_of_nextToken ‹_›

/-- The loop of `tokenize_bytes`; a text that equals the one before has been tokenized already. -/
def tokenizeLoop (rc : RuneClasses) : Option Bytes → List Bytes × List Bytes → List Bytes → List Bytes
  | _, acc, [] => acc.1
  | prev, acc, s :: a =>
    if prev = some s then tokenizeLoop rc (some s) acc a
    else tokenizeLoop rc (some s) (tokenizeBytesOne rc acc.1 acc.2 s) a

def tokenizeBytes (rc : RuneClasses) (a : List Bytes) : List Bytes := tokenizeLoop rc none ([], []) a

end EsLogs.Tokenizer
