import EsLogs.F64
import EsLogs.Utf8
import EsLogs.ValuesRoundTrip
import Mathlib.Data.Int.Log

/-!
Texts of floating-point numbers (`values_encoder.rs`). The parser reads the digits before and behind the dot as whole
numbers and puts them together with a power of ten that is rounded itself, so that it does not always come to the double
next to the number that a text denotes: `0.3` is read as 0.30000000000000004.
-/

namespace EsLogs

open ColumnValues NumberText

/-- The double next to a number, or the one with an even mantissa of two, as conversions to `f64` and operations on
`f64` round. Numbers that are rounded to an infinity do not occur here. -/
def F64.nearest (q : ℚ) : ℚ :=
  let ulp : ℚ := 2 ^ max (Int.log 2 |q| - 52) (-1074)
  let lower := ⌊|q| / ulp⌋
  let rest := |q| / ulp - lower
  let mantissa := if rest < 1 / 2 ∨ rest = 1 / 2 ∧ lower % 2 = 0 then lower else lower + 1
  (if q < 0 then -mantissa else mantissa) * ulp

/-! ### The parser -/

/-- The loop that skips zeros in front of the last digit. -/
def skipZeros : Bytes → Bytes
  | c :: d :: s => if c = byte '0' then skipZeros (d :: s) else c :: d :: s
  | s => s

/-- `pow10` of `-k`: the powers of ten of the table are rounded, and so is the quotient. -/
def pow10Neg (k : Nat) : ℚ := F64.nearest (1 / F64.nearest (10 ^ k))

/-- `try_parse_float64_internal`, without the sign of a zero. -/
def tryParseFloat64Internal (s : Bytes) (isExact : Bool) : Option ℚ :=
  if s.isEmpty ∨ s.length > "-18_446_744_073_709_551_615".length then none
  else
    let minus := s.head? == some (byte '-')
    let s := if minus then s.tail else s
    let signed (f : ℚ) : ℚ := if minus then -f else f
    match s.idxOf? (byte '.') with
    | none => do
      let n ← tryParseUint64Bytes s
      if isExact ∧ n ≥ 2 ^ 53 then none else some (signed (F64.nearest n))
    | some n =>
      if n = 0 ∨ n = s.length - 1 then none
      else do
        let sFrac := s.drop (n + 1)
        let nInt ← tryParseUint64Bytes (s.take n)
        let nFrac ← tryParseUint64Bytes (skipZeros sFrac)
        let p10 := pow10Neg (sFrac.length - sFrac.count (byte '_'))
        -- `mul_add` rounds once
        some (signed (F64.nearest (F64.nearest nFrac * p10 + F64.nearest nInt)))

def tryParseFloat64Exact (s : Bytes) : Option ℚ := tryParseFloat64Internal s true

/-! ### The numbers that texts denote -/

def unsignedNumber (s : Bytes) : Option ℚ :=
  match s.splitOn (byte '.') with
  | [int] => if int ≠ [] ∧ AllDigits int then some (digitsValue int) else none
  | [int, frac] =>
    if int ≠ [] ∧ frac ≠ [] ∧ AllDigits int ∧ AllDigits frac then
      some (digitsValue int + digitsValue frac / 10 ^ frac.length)
    else none
  | _ => none

/-- The number that a text denotes: digits, with a dot between two of them and a minus in front, or without. -/
def decimalNumber : Bytes → Option ℚ
  | [] => none
  | c :: s => if c = byte '-' then (unsignedNumber s).map Neg.neg else unsignedNumber (c :: s)

/-- The parser comes to the double next to the number that a text denotes. -/
def ReadRight (s : Bytes) : Prop :=
  ∃ d, decimalNumber s = some d ∧ tryParseFloat64Exact s = some (F64.nearest d)

example : ¬ReadRight (ascii "0.3") := by
  rintro ⟨d, hd, hread⟩
  obtain rfl : d = 3 / 10 := Option.some.inj (hd.symm.trans (by decide +kernel))
  exact absurd hread (by decide +kernel)

/-! ### The rendering -/

/-- What the standard library writes for a finite `f64` with these bits, which is a `str`. -/
structure Float64Text where
  display : Nat → Bytes
  valid : ∀ f, Utf8.isValid (display f) = true

namespace Float64Text

variable (c : Float64Text)

def marshalFloat64String (f : Nat) : Bytes :=
  match F64.ofBits f with
  | .nan => ascii "NaN"
  | .posInf => ascii "+Inf"
  | .negInf => ascii "-Inf"
  | .finite _ => c.display f

theorem isValid_marshalFloat64String (f : Nat) : Utf8.isValid (c.marshalFloat64String f) = true := by
  unfold marshalFloat64String
  cases F64.ofBits f with
  | finite q => exact c.valid f
  | nan | posInf | negInf =>
    dsimp only
    decide +kernel

/-- What is written for a finite number denotes a number next to which is this double. -/
def ReadsBack (f : Nat) : Prop :=
  ∀ q, F64.ofBits f = .finite q → ∃ d, decimalNumber (c.display f) = some d ∧ F64.nearest d = q

/-- What the decoder of values needs of it. -/
def codec : Float64Codec :=
  { noFloats with
    marshalFloat64String := c.marshalFloat64String
    lossless := fun h => absurd h (Option.some_ne_none _).symm }

/-- A number is found by its text exactly if the text is read right. -/
theorem readRight_iff {f : Nat} (hback : c.ReadsBack f) {s : Bytes} (hs : c.marshalFloat64String f = s) :
    ReadRight s ↔ ∃ q, tryParseFloat64Exact s = some q ∧ (F64.ofBits f).eq (.finite q) = true := by
  unfold marshalFloat64String at hs
  cases hf : F64.ofBits f with
  | finite q =>
    rw [hf] at hs
    obtain ⟨d, hd, hq⟩ := hback q hf
    rw [show c.display f = s from hs] at hd
    constructor
    · rintro ⟨d', hd', hread⟩
      obtain rfl := Option.some.inj (hd.symm.trans hd')
      exact ⟨_, hread, decide_eq_true (congrArg F64.finite hq.symm)⟩
    · rintro ⟨q', hread, heq⟩
      cases of_decide_eq_true heq
      exact ⟨d, hd, hq ▸ hread⟩
  | nan | posInf | negInf =>
    -- these texts denote no number
    rw [hf] at hs
    dsimp only at hs
    subst hs
    refine iff_of_false ?_ ?_
    · rintro ⟨d, hd, -⟩
      cases (hd.symm.trans (by decide +kernel) : some d = none)
    · rintro ⟨q, -, heq⟩
      cases heq

end Float64Text

def noFloatTexts : Float64Text := ⟨fun _ => ascii "0", fun _ => by decide⟩

end EsLogs
