import Mathlib.Data.Rat.Floor

/-!
Floating-point numbers of double precision as values: rationals, the infinities and the number that is none.
Comparisons, rounding to integers and the saturating conversions to machine integers are exact on values, so the
encoding in bits is only decoded.
-/

namespace EsLogs

/-- The value of an `f64`; the two zeros have the same value. -/
inductive F64 where
  | nan
  | negInf
  | finite (q : ℚ)
  | posInf
  deriving DecidableEq

namespace F64

def lt : F64 → F64 → Bool
  | .negInf, .finite _ => true
  | .negInf, .posInf => true
  | .finite a, .finite b => decide (a < b)
  | .finite _, .posInf => true
  | _, _ => false

def le : F64 → F64 → Bool
  | .negInf, .negInf => true
  | .posInf, .posInf => true
  | .finite a, .finite b => decide (a ≤ b)
  | a, b => lt a b

def eq : F64 → F64 → Bool
  | .nan, _ => false
  | a, b => decide (a = b)

def ofBits (n : Nat) : F64 :=
  let negative := n / 2 ^ 63 % 2 = 1
  let exponent : Nat := n / 2 ^ 52 % 2 ^ 11
  let mantissa : Nat := n % 2 ^ 52
  if exponent = 2 ^ 11 - 1 then
    if mantissa ≠ 0 then .nan else if negative then .negInf else .posInf
  else
    let q : ℚ := if exponent = 0 then mantissa / 2 ^ 1074 else (2 ^ 52 + mantissa) * 2 ^ exponent / 2 ^ 1075
    .finite (if negative then -q else q)

def ceil : F64 → F64
  | .finite q => .finite ⌈q⌉
  | f => f

def floor : F64 → F64
  | .finite q => .finite ⌊q⌋
  | f => f

/-- The conversion `as` to the integers from `lo` to `hi`: it truncates and saturates, and gives 0 for the number
that is none. -/
def saturate (lo hi : Int) : F64 → Int
  | .nan => 0
  | .negInf => lo
  | .posInf => hi
  | .finite q => max lo (min hi (if q < 0 then ⌈q⌉ else ⌊q⌋))

@[simp]
theorem lt_finite (a b : ℚ) : lt (.finite a) (.finite b) = decide (a < b) := rfl

@[simp]
theorem ceil_finite (q : ℚ) : ceil (.finite q) = .finite ⌈q⌉ := rfl

@[simp]
theorem floor_finite (q : ℚ) : floor (.finite q) = .finite ⌊q⌋ := rfl

protected theorem le_refl {f : F64} (h : f ≠ .nan) : le f f = true := by
  cases f <;> simp_all [le]

protected theorem le_of_lt {f g : F64} (h : lt f g = true) : le f g = true := by
  cases f <;> cases g <;> simp_all [le, lt, le_of_lt]

protected theorem le_of_not_lt {f g : F64} (hf : f ≠ .nan) (hg : g ≠ .nan) (h : lt f g = false) : le g f = true := by
  cases f <;> cases g <;> simp_all [le, lt]

protected theorem le_trans {f g h : F64} (hfg : le f g = true) (hgh : le g h = true) : le f h = true := by
  cases f <;> cases g <;> cases h <;> simp_all [le, lt]
  exact le_trans hfg hgh

/-- An integer is converted to the nearest one in the range. -/
theorem saturate_int (lo hi n : Int) : saturate lo hi (.finite n) = max lo (min hi n) := by
  simp [saturate]

end F64

end EsLogs
