import EsLogs.EncodedColumn

/-!
The filter `range` on blocks on disk (`filter_range.rs`). The bounds are floating-point numbers; for a column of
integers they are rounded inwards and clamped to the integers of the type. Clamping moves a bound that lies outside
of the type onto its first or last integer, so a search for numbers beyond the type keeps the rows with that integer.
-/

namespace EsLogs

open ColumnValues Encoding

/-- `FilterRange`, without its text. -/
structure FilterRange where
  minValue : F64
  maxValue : F64

namespace FilterRange

/-! ### Bounds for integers -/

def toUint64Clamp (f : F64) : Int :=
  if f.lt (.finite 0) then 0
  else if (F64.finite (2 ^ 64)).lt f then 2 ^ 64 - 1
  else f.saturate 0 (2 ^ 64 - 1)

def toInt64Clamp (f : F64) : Int :=
  if f.lt (.finite (-2 ^ 63)) then -2 ^ 63
  else if (F64.finite (2 ^ 63)).lt f then 2 ^ 63 - 1
  else f.saturate (-2 ^ 63) (2 ^ 63 - 1)

def toUint32Clamp (f : F64) : Int :=
  if f.lt (.finite 0) then 0
  else if (F64.finite (2 ^ 32 - 1)).lt f then 2 ^ 32 - 1
  else f.saturate 0 (2 ^ 32 - 1)

def toUint64Range (minValue maxValue : F64) : Int × Int :=
  (toUint64Clamp minValue.ceil, toUint64Clamp maxValue.floor)

def toInt64Range (minValue maxValue : F64) : Int × Int :=
  (toInt64Clamp minValue.ceil, toInt64Clamp maxValue.floor)

def toUint32Range (minValue maxValue : F64) : Int × Int :=
  (toUint32Clamp minValue.ceil, toUint32Clamp maxValue.floor)

/-! ### Columns -/

/-- The visits of the columns of integers: a value is checked, read and compared. -/
def visitInRange (bs : BlockSearch BlockFiles) (ch : ColumnHeader) (bm : Bitmap) (what : String) (want : Nat)
    (unmarshal : Bytes → Int) (minValue maxValue : Int) : Outcome Bitmap :=
  visitValues bs ch bm fun v => do
    checkBinaryLen bs.partPath what want v
    let n := unmarshal v
    return decide (minValue ≤ n) && decide (n ≤ maxValue)

def matchUintByRange (what : String) (want : Nat) (unmarshal : Bytes → Nat) (bs : BlockSearch BlockFiles)
    (ch : ColumnHeader) (bm : Bitmap) (minValue maxValue : F64) : Outcome Bitmap :=
  let (minU, maxU) := toUint64Range minValue maxValue
  if maxValue.lt (.finite 0) || decide (minU > ch.maxValue.toNat) || decide (maxU < ch.minValue.toNat) then
    .ok bm.resetBits
  else visitInRange bs ch bm what want (fun v => unmarshal v) minU maxU

def matchUint8ByRange := matchUintByRange "uint8 number:" 1 fun v => beNat (v.take 1)

def matchUint16ByRange := matchUintByRange "uint16 number:" 2 unmarshalUint16

def matchUint32ByRange := matchUintByRange "uint32 number:" 4 unmarshalUint32

def matchUint64ByRange := matchUintByRange "uint64 number:" 8 unmarshalUint64

/-- `match_int64_by_range`; there is no test for bounds below the type. -/
def matchInt64ByRange (bs : BlockSearch BlockFiles) (ch : ColumnHeader) (bm : Bitmap) (minValue maxValue : F64) :
    Outcome Bitmap :=
  let (minI, maxI) := toInt64Range minValue maxValue
  if decide (minI > asI64 ch.maxValue.toNat) || decide (maxI < asI64 ch.minValue.toNat) then .ok bm.resetBits
  else visitInRange bs ch bm "int64 number;" 8 unmarshalInt64 minI maxI

/-- `match_timestamp_iso8601_by_range`; times before 1970 are negative, but not searched for. -/
def matchTimestampIso8601ByRange (bs : BlockSearch BlockFiles) (ch : ColumnHeader) (bm : Bitmap)
    (minValue maxValue : F64) : Outcome Bitmap :=
  let (minI, maxI) := toInt64Range minValue maxValue
  if maxValue.lt (.finite 0) || decide (minI > asI64 ch.maxValue.toNat) ||
      decide (maxI < asI64 ch.minValue.toNat) then .ok bm.resetBits
  else visitInRange bs ch bm "timestampISO8601:" 8 (fun v => asI64 (unmarshalUint64 v)) minI maxI

def matchIpv4ByRange (bs : BlockSearch BlockFiles) (ch : ColumnHeader) (bm : Bitmap) (minValue maxValue : Int) :
    Outcome Bitmap :=
  if decide (ch.minValue.toNat > maxValue) || decide (ch.maxValue.toNat < minValue) then .ok bm.resetBits
  else visitInRange bs ch bm "IPv4:" 4 (fun v => unmarshalUint32 v) minValue maxValue

def matchFloat64ByRange (bs : BlockSearch BlockFiles) (ch : ColumnHeader) (bm : Bitmap) (minValue maxValue : F64) :
    Outcome Bitmap :=
  if (F64.ofBits ch.maxValue.toNat).lt minValue || maxValue.lt (F64.ofBits ch.minValue.toNat) then .ok bm.resetBits
  else visitValues bs ch bm fun v => do
    checkBinaryLen bs.partPath "floating-point number:" 8 v
    let f := F64.ofBits (unmarshalUint64 v)
    return minValue.le f && f.le maxValue

/-- `match_range`, for a way to read numbers, `parse_math_number`. -/
def matchRange (parseMathNumber : Bytes → F64) (s : Bytes) (minValue maxValue : F64) : Bool :=
  let f := if Utf8.isValid s then parseMathNumber s else .nan
  minValue.le f && f.le maxValue

def matchStringByRange (parseMathNumber : Bytes → F64) (bs : BlockSearch BlockFiles) (ch : ColumnHeader) (bm : Bitmap)
    (minValue maxValue : F64) : Outcome Bitmap :=
  visitValues bs ch bm fun v => .ok (matchRange parseMathNumber v minValue maxValue)

def matchValuesDictByRange (parseMathNumber : Bytes → F64) (bs : BlockSearch BlockFiles) (ch : ColumnHeader)
    (bm : Bitmap) (minValue maxValue : F64) : Outcome Bitmap :=
  matchValuesDict bs ch bm fun v => matchRange parseMathNumber v minValue maxValue

def matchColumnByRange (parseMathNumber : Bytes → F64) (bs : BlockSearch BlockFiles) (ch : ColumnHeader) (bm : Bitmap)
    (minValue maxValue : F64) : Outcome Bitmap :=
  match ch.valueType with
  | .string => matchStringByRange parseMathNumber bs ch bm minValue maxValue
  | .dict => matchValuesDictByRange parseMathNumber bs ch bm minValue maxValue
  | .uint8 => matchUint8ByRange bs ch bm minValue maxValue
  | .uint16 => matchUint16ByRange bs ch bm minValue maxValue
  | .uint32 => matchUint32ByRange bs ch bm minValue maxValue
  | .uint64 => matchUint64ByRange bs ch bm minValue maxValue
  | .int64 => matchInt64ByRange bs ch bm minValue maxValue
  | .float64 => matchFloat64ByRange bs ch bm minValue maxValue
  | .ipv4 =>
    let (minU, maxU) := toUint32Range minValue maxValue
    matchIpv4ByRange bs ch bm minU maxU
  | .timestampIso8601 => matchTimestampIso8601ByRange bs ch bm minValue maxValue
  | .other code => unknownValueType bs code

def applyToBlockSearchByField (parseMathNumber : Bytes → F64) (f : FilterRange) (bs : BlockSearch BlockFiles)
    (bm : Bitmap) (fieldName : Bytes) : Outcome Bitmap :=
  let minValue := f.minValue
  let maxValue := f.maxValue
  if maxValue.lt minValue then .ok bm.resetBits
  else
    searchByField bs bm fieldName (fun v => matchRange parseMathNumber v minValue maxValue) false fun ch =>
      matchColumnByRange parseMathNumber bs ch bm minValue maxValue

/-! ### Clamping -/

/-- The least integer of a numeric type, as its bounds are clamped. -/
def firstNumber : ValueType → Int
  | .int64 => -2 ^ 63
  | .timestampIso8601 => -2 ^ 63
  | _ => 0

/-- The greatest integer of a numeric type, as its bounds are clamped. -/
def lastNumber : ValueType → Int
  | .int64 => 2 ^ 63 - 1
  | .timestampIso8601 => 2 ^ 63 - 1
  | .ipv4 => 2 ^ 32 - 1
  | _ => 2 ^ 64 - 1

def clamp (vt : ValueType) (n : Int) : Int := max (firstNumber vt) (min (lastNumber vt) n)

theorem clamp_finite {a b l : Int} (hal : a ≤ l) (hlb : l ≤ b) (n : Int) :
    (if (F64.finite n).lt (.finite a) then a else if (F64.finite b).lt (.finite n) then l
      else (F64.finite n).saturate a l) = max a (min l n) := by
  rw [F64.lt_finite, F64.lt_finite, F64.saturate_int]
  simp only [Int.cast_lt, decide_eq_true_eq]
  split_ifs <;> omega

theorem toUint64Clamp_int (n : Int) : toUint64Clamp (.finite n) = max 0 (min (2 ^ 64 - 1) n) := by
  rw [← clamp_finite (by decide) (show 2 ^ 64 - 1 ≤ (2 ^ 64 : Int) by decide) n]
  norm_num [toUint64Clamp]

theorem toInt64Clamp_int (n : Int) : toInt64Clamp (.finite n) = max (-2 ^ 63) (min (2 ^ 63 - 1) n) := by
  rw [← clamp_finite (by decide) (show 2 ^ 63 - 1 ≤ (2 ^ 63 : Int) by decide) n]
  norm_num [toInt64Clamp]

theorem toUint32Clamp_int (n : Int) : toUint32Clamp (.finite n) = max 0 (min (2 ^ 32 - 1) n) := by
  rw [← clamp_finite (by decide) le_rfl n]
  norm_num [toUint32Clamp]

variable {vt : ValueType} {x : Int} {lo hi : ℚ}

/-- A number passes the clamped lower bound if it passes the bound, or if the bound was moved onto it. -/
theorem clamp_ceil_le_iff (hx : firstNumber vt ≤ x ∧ x ≤ lastNumber vt) :
    clamp vt ⌈lo⌉ ≤ x ↔ lo ≤ x ∨ (lastNumber vt : ℚ) < lo ∧ x = lastNumber vt := by
  rw [← Int.ceil_le, ← Int.lt_ceil, clamp]
  omega

/-- A number passes the clamped upper bound if it passes the bound, or if the bound was moved onto it. -/
theorem le_clamp_floor_iff (hx : firstNumber vt ≤ x ∧ x ≤ lastNumber vt) :
    x ≤ clamp vt ⌊hi⌋ ↔ (x : ℚ) ≤ hi ∨ hi < firstNumber vt ∧ x = firstNumber vt := by
  rw [← Int.le_floor, ← Int.floor_lt, clamp]
  omega

/-! ### What is kept -/

/-- The searches that drop all rows for a negative upper bound. -/
def dropsNegative : ValueType → Bool
  | .int64 => false
  | .ipv4 => false
  | _ => true

def KeptNumber (vt : ValueType) (lo hi : ℚ) (x : Int) : Prop :=
  ¬(dropsNegative vt = true ∧ hi < 0) ∧ clamp vt ⌈lo⌉ ≤ x ∧ x ≤ clamp vt ⌊hi⌋

/-- No bound is clamped onto the number, and the number is not dropped with the negative ones. -/
structure RangeSafe (vt : ValueType) (lo hi : ℚ) (x : Int) : Prop where
  above : (lastNumber vt : ℚ) < lo → x ≠ lastNumber vt
  below : dropsNegative vt = false → hi < firstNumber vt → x ≠ firstNumber vt
  negative : dropsNegative vt = true → hi < 0 → ¬(lo ≤ x ∧ x ≤ hi)

theorem firstNumber_nonpos (vt : ValueType) : (firstNumber vt : ℚ) ≤ 0 := by
  cases vt <;> simp [firstNumber]

theorem lastNumber_nonneg (vt : ValueType) : (0 : ℚ) ≤ lastNumber vt := by
  cases vt <;> norm_num [lastNumber]

/-- A number is kept exactly when it is in the range, unless it is one of those numbers. -/
theorem keptNumber_iff (hx : firstNumber vt ≤ x ∧ x ≤ lastNumber vt) (hle : lo ≤ hi) :
    ((lo ≤ x ∧ x ≤ hi) ↔ KeptNumber vt lo hi x) ↔ RangeSafe vt lo hi x := by
  have hfirst := firstNumber_nonpos vt
  have hlast := lastNumber_nonneg vt
  rw [KeptNumber, clamp_ceil_le_iff hx, le_clamp_floor_iff hx]
  constructor
  · intro h
    refine ⟨?_, ?_, ?_⟩
    · intro habove heq
      have hkept : ¬(dropsNegative vt = true ∧ hi < 0) := by
        rintro ⟨-, hneg⟩
        linarith
      have hin := h.2 ⟨hkept, .inr ⟨habove, heq⟩, .inl (heq ▸ habove.le.trans hle)⟩
      rw [heq] at hin
      exact absurd hin.1 (not_le.2 habove)
    · intro hdrops hbelow heq
      have hin := h.2 ⟨by simp [hdrops], .inl (heq ▸ hle.trans hbelow.le), .inr ⟨hbelow, heq⟩⟩
      rw [heq] at hin
      exact absurd hin.2 (not_le.2 hbelow)
    · intro hdrops hneg hin
      exact (h.1 hin).1 ⟨hdrops, hneg⟩
  · rintro ⟨habove, hbelow, hnegative⟩
    constructor
    · rintro ⟨hlo, hhi⟩
      exact ⟨fun hneg => hnegative hneg.1 hneg.2 ⟨hlo, hhi⟩, .inl hlo, .inl hhi⟩
    · rintro ⟨hneg, hlo | ⟨hmoved, heq⟩, hhi⟩
      · rcases hhi with hhi | ⟨hmoved, heq⟩
        · exact ⟨hlo, hhi⟩
        · cases hdrops : dropsNegative vt with
          | false => exact absurd heq (hbelow hdrops hmoved)
          | true => exact absurd ⟨hdrops, hmoved.trans_le hfirst⟩ hneg
      · exact absurd heq (habove hmoved)

/-! ### The search -/

variable {c : Float64Text} {bs : BlockSearch BlockFiles} {ch : ColumnHeader} {n : Nat}

/-- Dropping all rows by the header drops no row that a visit would keep. -/
theorem keeps_clamped (hvt : ch.valueType = vt) (hstored : Stored c bs ch n) (hnumeric : vt.isNumeric = true)
    {name what : String} {want : Nat} {render : Bytes → Bytes} {unmarshal : Bytes → Int}
    {step : Bitmap → Outcome Bitmap}
    (hdecode : ∀ v, decodeValue c.codec vt ch.valuesDict.values v =
      (do checkLen name want v; return render v : Outcome Bytes))
    (hread : ∀ v, unmarshal v = number vt v)
    (hstep : ∀ bm, step bm =
      if (dropsNegative vt = true ∧ hi < 0) ∨ clamp vt ⌈lo⌉ > headerNumber vt ch.maxValue.toNat ∨
          clamp vt ⌊hi⌋ < headerNumber vt ch.minValue.toNat then .ok bm.resetBits
      else visitInRange bs ch bm what want unmarshal (clamp vt ⌈lo⌉) (clamp vt ⌊hi⌋)) :
    Keeps n (fun i => KeptNumber vt lo hi (number vt (bs.valueAt ch i))) step := by
  subst hvt
  have hvisit : Keeps n (fun i => (decide (clamp ch.valueType ⌈lo⌉ ≤ number ch.valueType (bs.valueAt ch i)) &&
      decide (number ch.valueType (bs.valueAt ch i) ≤ clamp ch.valueType ⌊hi⌋)) = true)
      fun bm => visitInRange bs ch bm what want unmarshal (clamp ch.valueType ⌈lo⌉) (clamp ch.valueType ⌊hi⌋) := by
    apply keeps_visitValues hstored.length (g := fun v =>
      decide (clamp ch.valueType ⌈lo⌉ ≤ number ch.valueType v) &&
        decide (number ch.valueType v ≤ clamp ch.valueType ⌊hi⌋))
    intro v hv
    rw [hstored.checkBinaryLen_eq hdecode v hv, hread v]
    rfl
  rw [show step = _ from funext hstep]
  refine (Keeps.unless fun _ => hvisit).congr ?_
  intro i hi
  have hbounds := hstored.bounds hnumeric _ (BlockSearch.valueAt_mem hstored.length hi)
  rw [Bool.and_eq_true, decide_eq_true_eq, decide_eq_true_eq, not_or, and_assoc, KeptNumber]
  apply and_congr_right
  intro _
  constructor
  · rintro ⟨hmin, hmax⟩
    exact ⟨by omega, hmin, hmax⟩
  · exact fun h => h.2

/-- A search of a numeric column keeps the numbers between the clamped bounds. -/
theorem keeps_matchColumnByRange (parseMathNumber : Bytes → F64) (hnumeric : ch.valueType.isNumeric = true)
    (hstored : Stored c bs ch n) (lo hi : ℚ) :
    Keeps n (fun i => KeptNumber ch.valueType lo hi (number ch.valueType (bs.valueAt ch i)))
      fun bm => matchColumnByRange parseMathNumber bs ch bm (.finite lo) (.finite hi) := by
  unfold matchColumnByRange
  cases hvt : ch.valueType with
  | uint8 | uint16 | uint32 | uint64 =>
    apply keeps_clamped hvt hstored rfl (fun _ => rfl) (fun _ => rfl)
    intro bm
    simp only [matchUint8ByRange, matchUint16ByRange, matchUint32ByRange, matchUint64ByRange, matchUintByRange,
      toUint64Range, F64.ceil_finite, F64.floor_finite, F64.lt_finite, toUint64Clamp_int, headerNumber,
      dropsNegative, true_and, Bool.or_eq_true, decide_eq_true_eq, or_assoc]
    rfl
  | int64 =>
    apply keeps_clamped hvt hstored rfl (fun _ => rfl) (fun _ => rfl)
    intro bm
    simp only [matchInt64ByRange, toInt64Range, F64.ceil_finite, F64.floor_finite, toInt64Clamp_int, headerNumber,
      dropsNegative, Bool.or_eq_true, decide_eq_true_eq, Bool.false_eq_true, false_and, false_or]
    rfl
  | ipv4 =>
    apply keeps_clamped hvt hstored rfl (fun _ => rfl) (fun _ => rfl)
    intro bm
    simp only [matchIpv4ByRange, toUint32Range, F64.ceil_finite, F64.floor_finite, toUint32Clamp_int,
      headerNumber, dropsNegative, clamp, firstNumber, lastNumber, Bool.or_eq_true, decide_eq_true_eq,
      Bool.false_eq_true, false_and, false_or, gt_iff_lt, or_comm]
    rfl
  | timestampIso8601 =>
    apply keeps_clamped hvt hstored rfl (fun _ => rfl) (fun _ => rfl)
    intro bm
    simp only [matchTimestampIso8601ByRange, toInt64Range, F64.ceil_finite, F64.floor_finite, F64.lt_finite,
      toInt64Clamp_int, headerNumber, dropsNegative, true_and, Bool.or_eq_true, decide_eq_true_eq, or_assoc]
    rfl
  | string | dict | float64 | other code => simp [hvt, ValueType.isNumeric] at hnumeric

/-- The numbers of a type lie between its ends. -/
theorem number_mem_type (hnumeric : vt.isNumeric = true) (v : Bytes) :
    firstNumber vt ≤ number vt v ∧ number vt v ≤ lastNumber vt := by
  have huint : ∀ (w : Nat) (last : Int), 256 ^ w ≤ last + 1 →
      (0 : Int) ≤ beNat (v.take w) ∧ (beNat (v.take w) : Int) ≤ last := by
    intro w last hlast
    have hlt : (beNat (v.take w) : Int) < 256 ^ w := by exact_mod_cast beNat_take_lt w v
    omega
  have hsigned : ∀ m : Nat, m < 2 ^ 64 → -2 ^ 63 ≤ asI64 m ∧ asI64 m ≤ 2 ^ 63 - 1 := by
    intro m hm
    unfold asI64
    split <;> omega
  cases vt with
  | uint8 => exact huint 1 _ (by norm_num [lastNumber])
  | uint16 => exact huint 2 _ (by norm_num [lastNumber])
  | uint32 | ipv4 => exact huint 4 _ (by norm_num [lastNumber])
  | uint64 => exact huint 8 _ (by norm_num [lastNumber])
  | int64 =>
    have := unmarshalInt64_range v
    simp only [firstNumber, lastNumber, number]
    omega
  | timestampIso8601 =>
    have hlt : unmarshalUint64 v < 2 ^ 64 := beNat_take_lt 8 v
    exact hsigned _ hlt
  | string | dict | float64 | other code => cases hnumeric

/-- What the filter keeps. -/
theorem keeps_applyToBlockSearchByField (parseMathNumber : Bytes → F64) {fieldName : Bytes}
    (hconst : bs.getConstColumnValue fieldName = []) (hch : bs.getColumnHeader fieldName = some ch)
    (hnumeric : ch.valueType.isNumeric = true) (hstored : Stored c bs ch n) (lo hi : ℚ) :
    Keeps n (fun i => ¬hi < lo ∧ KeptNumber ch.valueType lo hi (number ch.valueType (bs.valueAt ch i)))
      fun bm => applyToBlockSearchByField parseMathNumber ⟨.finite lo, .finite hi⟩ bs bm fieldName := by
  have hstep : (fun bm => applyToBlockSearchByField parseMathNumber ⟨.finite lo, .finite hi⟩ bs bm fieldName) =
      fun bm => if hi < lo then .ok bm.resetBits
        else matchColumnByRange parseMathNumber bs ch bm (.finite lo) (.finite hi) := by
    funext bm
    simp only [applyToBlockSearchByField, F64.lt_finite, decide_eq_true_eq, searchByField, hconst, hch, ne_eq,
      not_true_eq_false, if_false]
  rw [hstep]
  exact Keeps.unless fun _ => keeps_matchColumnByRange parseMathNumber hnumeric hstored lo hi

/-- A search with rational bounds keeps exactly the rows whose numbers are in the range if and only if no bound
beyond the type is clamped onto a number of the column, and no time before 1970 is asked for by a negative bound. -/
theorem range_iff (parseMathNumber : Bytes → F64) (c : Float64Text) (bs : BlockSearch BlockFiles) (fieldName : Bytes)
    (ch : ColumnHeader) (n : Nat) (hconst : bs.getConstColumnValue fieldName = [])
    (hch : bs.getColumnHeader fieldName = some ch) (hnumeric : ch.valueType.isNumeric = true)
    (hstored : Stored c bs ch n) (lo hi : ℚ) :
    Keeps n (fun i => lo ≤ number ch.valueType (bs.valueAt ch i) ∧ number ch.valueType (bs.valueAt ch i) ≤ hi)
        (fun bm => applyToBlockSearchByField parseMathNumber ⟨.finite lo, .finite hi⟩ bs bm fieldName) ↔
      (lo ≤ hi → ∀ i < n, RangeSafe ch.valueType lo hi (number ch.valueType (bs.valueAt ch i))) := by
  rw [(keeps_applyToBlockSearchByField parseMathNumber hconst hch hnumeric hstored lo hi).iff]
  constructor
  · intro h hle i hi'
    rw [← keptNumber_iff (number_mem_type hnumeric _) hle, h i hi', and_iff_right (not_lt.2 hle)]
  · intro h i hi'
    by_cases hle : lo ≤ hi
    · rw [(keptNumber_iff (number_mem_type hnumeric _) hle).2 (h hle i hi'), and_iff_right (not_lt.2 hle)]
    · exact iff_of_false (fun hin => hle (hin.1.trans hin.2)) fun hkept => hkept.1 (not_le.1 hle)

/-- Nine addresses, which are too many for a dictionary. -/
def nineAddresses : List Bytes :=
  ["0.0.0.0", "0.0.0.1", "0.0.0.2", "0.0.0.3", "0.0.0.4", "0.0.0.5", "0.0.0.6", "0.0.0.7", "0.0.0.8"].map ascii

def addressBlock : BlockSearch BlockFiles := encodedBlock noFloats (ascii "ip") nineAddresses

def addressHeader : ColumnHeader := encodedHeader noFloats (ascii "ip") nineAddresses

theorem valueType_addressHeader : addressHeader.valueType = .ipv4 := by decide +kernel

theorem stored_addressBlock : Stored noFloatTexts addressBlock addressHeader 9 :=
  stored_encodedBlock comparesFloats_noFloats (ascii "ip") (by decide)

/-- The addresses between 2 and 5 are found. -/
theorem range_addressBlock :
    Keeps 9 (fun i => 2 ≤ (number .ipv4 (addressBlock.valueAt addressHeader i) : ℚ) ∧
        (number .ipv4 (addressBlock.valueAt addressHeader i) : ℚ) ≤ 5)
      fun bm => applyToBlockSearchByField (fun _ => .nan) ⟨.finite 2, .finite 5⟩ addressBlock bm (ascii "ip") := by
  have h := range_iff (fun _ => .nan) noFloatTexts addressBlock (ascii "ip") addressHeader 9
    (getConstColumnValue_encodedBlock noFloats (ascii "ip") (ascii "ip") nineAddresses)
    (getColumnHeader_encodedBlock noFloats (by decide) nineAddresses) (by decide +kernel) stored_addressBlock 2 5
  rw [valueType_addressHeader] at h
  refine h.2 fun _ i _ => ?_
  constructor
  · intro habove
    norm_num [lastNumber] at habove
  · intro _ hbelow
    norm_num [firstNumber] at hbelow
  · intro hdrops
    cases hdrops

/-- The address 0.0.0.0 is found between -5 and -1. -/
theorem not_range_addressBlock :
    ¬Keeps 9 (fun i => -5 ≤ (number .ipv4 (addressBlock.valueAt addressHeader i) : ℚ) ∧
        (number .ipv4 (addressBlock.valueAt addressHeader i) : ℚ) ≤ -1)
      fun bm => applyToBlockSearchByField (fun _ => .nan) ⟨.finite (-5), .finite (-1)⟩ addressBlock bm (ascii "ip") := by
  have h := keeps_applyToBlockSearchByField (fun _ => .nan)
    (getConstColumnValue_encodedBlock noFloats (ascii "ip") (ascii "ip") nineAddresses)
    (getColumnHeader_encodedBlock noFloats (by decide) nineAddresses) (by decide +kernel) stored_addressBlock
    (-5) (-1)
  have hzero : number .ipv4 (addressBlock.valueAt addressHeader 0) = 0 := by decide +kernel
  rw [show (encodedHeader noFloats (ascii "ip") nineAddresses).valueType = .ipv4 from valueType_addressHeader] at h
  intro hkeeps
  have hrow := (h.iff.1 hkeeps 0 (by decide)).2
  rw [show encodedHeader noFloats (ascii "ip") nineAddresses = addressHeader from rfl, hzero] at hrow
  have hin := hrow ⟨by norm_num, by simp [dropsNegative], by decide, by decide⟩
  norm_num at hin

end FilterRange

end EsLogs
