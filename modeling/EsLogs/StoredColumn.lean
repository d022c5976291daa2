import EsLogs.ColumnSearch

/-!
What a search of a column keeps. A search decides on each row by itself, so it is described by the rows that it keeps;
two descriptions of one search agree on the rows of the block. The columns are those the encoder of values leaves: each
value decodes to a text, and the header bounds the numbers.
-/

namespace EsLogs

open ColumnValues Encoding NumberText List

/-! ### Steps on bitmaps -/

/-- A step that clears exactly the bits of the rows without the property. -/
def Keeps (n : Nat) (p : Nat → Prop) (step : Bitmap → Outcome Bitmap) : Prop :=
  ∀ bm : Bitmap, bm.bitsLen = n → ∃ bm', step bm = .ok bm' ∧ bm'.bitsLen = n ∧
    ∀ i, bm'.isSetBit i = true ↔ bm.isSetBit i = true ∧ p i

variable {n : Nat} {p q : Nat → Prop} {step : Bitmap → Outcome Bitmap}

theorem Keeps.congr (h : Keeps n q step) (hpq : ∀ i < n, p i ↔ q i) : Keeps n p step := by
  intro bm hbm
  obtain ⟨bm', hstep, hlen, hbits⟩ := h bm hbm
  refine ⟨bm', hstep, hlen, ?_⟩
  intro i
  rw [hbits i]
  apply and_congr_right
  intro hi
  exact (hpq i (hbm ▸ Bitmap.lt_of_isSetBit hi)).symm

/-- The rows that a step keeps are determined. -/
theorem Keeps.iff (h : Keeps n q step) : Keeps n p step ↔ ∀ i < n, p i ↔ q i := by
  constructor
  · intro hp i hi
    let full := (Bitmap.init n).setBits
    have hfull : full.isSetBit i = true := by
      rw [Bitmap.isSetBit_setBits]
      exact decide_eq_true hi
    obtain ⟨bm₁, hstep₁, -, hbits₁⟩ := h full rfl
    obtain ⟨bm₂, hstep₂, -, hbits₂⟩ := hp full rfl
    cases hstep₁.symm.trans hstep₂
    have hq := hbits₁ i
    have hp := hbits₂ i
    rw [hfull] at hq hp
    simp only [true_and] at hq hp
    exact hp.symm.trans hq
  · exact h.congr

theorem keeps_self (n : Nat) : Keeps n (fun _ => True) .ok := by
  intro bm hbm
  exact ⟨bm, rfl, hbm, fun i => by simp⟩

theorem keeps_resetBits (n : Nat) : Keeps n (fun _ => False) fun bm => .ok bm.resetBits := by
  intro bm hbm
  exact ⟨bm.resetBits, rfl, hbm, fun i => by simp⟩

/-- A step that is one of two, whatever the bitmap is. -/
theorem Keeps.ite {b : Prop} [Decidable b] {step' : Bitmap → Outcome Bitmap} (hp : b → Keeps n p step)
    (hq : ¬b → Keeps n q step') :
    Keeps n (fun i => if b then p i else q i) fun bm => if b then step bm else step' bm := by
  by_cases hb : b
  · simpa only [if_pos hb] using hp hb
  · simpa only [if_neg hb] using hq hb

/-- All rows are dropped unless a test is passed. -/
theorem Keeps.unless {b : Prop} [Decidable b] (hq : ¬b → Keeps n q step) :
    Keeps n (fun i => ¬b ∧ q i) fun bm => if b then .ok bm.resetBits else step bm := by
  refine (Keeps.ite (fun _ => keeps_resetBits n) hq).congr ?_
  intro i _
  by_cases hb : b
  · simp [hb]
  · simp [hb]

/-! ### Visits -/

variable {bs : BlockSearch BlockFiles} {ch : ColumnHeader}

def BlockSearch.valueAt (bs : BlockSearch BlockFiles) (ch : ColumnHeader) (i : Nat) : Bytes :=
  (bs.getValuesForColumn ch).getD i []

theorem BlockSearch.valueAt_mem (hlen : (bs.getValuesForColumn ch).length = n) {i : Nat} (hi : i < n) :
    bs.valueAt ch i ∈ bs.getValuesForColumn ch := by
  rw [valueAt, getD_eq_getElem _ _ (hlen ▸ hi)]
  exact getElem_mem _

/-- A visit keeps the rows whose values the callback accepts. -/
theorem keeps_visitRows {values : List Bytes} {f : Bytes → Outcome Bool} {g : Bytes → Bool}
    (hlen : values.length = n) (hf : ∀ v ∈ values, f v = .ok (g v)) :
    Keeps n (fun i => g (values.getD i []) = true) fun bm => visitRows values bm f := by
  intro bm hbm
  unfold visitRows
  beta_reduce
  have hkept : (range bm.bitsLen).mapM (fun idx =>
      if bm.isSetBit idx then visitedValue values f idx else .ok false) =
      .ok ((range bm.bitsLen).map fun idx => bm.isSetBit idx && g (values.getD idx [])) := by
    rw [outcome_mapM_eq_ok_iff, map_map]
    refine map_congr_left fun idx hidx => ?_
    rw [mem_range, hbm] at hidx
    rw [Function.comp_apply]
    cases bm.isSetBit idx with
    | false => rfl
    | true =>
      have hget : values[idx]? = some (values.getD idx []) := by
        rw [getD_eq_getElem _ _ (hlen ▸ hidx), getElem?_eq_getElem]
      rw [if_pos rfl, visitedValue, hget, Bool.true_and]
      exact hf _ (mem_of_getElem? hget)
  rw [hkept, except_ok_bind]
  refine ⟨_, rfl, hbm, ?_⟩
  intro i
  rw [Bitmap.isSetBit_forEachSetBit, Bool.and_eq_true]
  apply and_congr_right
  intro hi
  have hlt := Bitmap.lt_of_isSetBit hi
  rw [getD_eq_getElem _ _ (by simpa using hlt), getElem_map, getElem_range, hi, Bool.true_and]

theorem keeps_visitValues {f : Bytes → Outcome Bool} {g : Bytes → Bool}
    (hlen : (bs.getValuesForColumn ch).length = n) (hf : ∀ v ∈ bs.getValuesForColumn ch, f v = .ok (g v)) :
    Keeps n (fun i => g (bs.valueAt ch i) = true) fun bm => visitValues bs ch bm f := by
  intro bm hbm
  unfold visitValues
  beta_reduce
  by_cases hzero : bm.isZero = true
  · rw [if_pos hzero]
    refine ⟨bm, rfl, hbm, ?_⟩
    intro i
    rw [Bitmap.isZero_iff.1 hzero i]
    simp
  · rw [if_neg hzero]
    exact keeps_visitRows hlen hf bm hbm

/-! ### Columns as the encoder leaves them -/

/-- The types whose values stand for integers. -/
def ColumnValues.ValueType.isNumeric : ValueType → Bool
  | .uint8 | .uint16 | .uint32 | .uint64 | .int64 | .ipv4 | .timestampIso8601 => true
  | _ => false

/-- The integer that an encoded value stands for. -/
def number : ValueType → Bytes → Int
  | .uint8, v => beNat (v.take 1)
  | .uint16, v => unmarshalUint16 v
  | .uint32, v => unmarshalUint32 v
  | .uint64, v => unmarshalUint64 v
  | .int64, v => unmarshalInt64 v
  | .ipv4, v => unmarshalUint32 v
  | .timestampIso8601, v => asI64 (unmarshalUint64 v)
  | _, _ => 0

/-- A bound in the header of a column, as an integer of its type. -/
def headerNumber : ValueType → Nat → Int
  | .int64, bound => asI64 bound
  | .timestampIso8601, bound => asI64 bound
  | _, bound => bound

/-- Values as the encoder leaves them: each one decodes, and the bounds are the least and the greatest number. -/
structure StoredValues (c : Float64Text) (vt : ValueType) (dictValues : List Bytes) (minValue maxValue : Nat)
    (values : List Bytes) : Prop where
  known : ∀ code, vt ≠ .other code
  fits : minValue < 2 ^ 64 ∧ maxValue < 2 ^ 64
  decodes : ∀ v ∈ values, ∃ text, decodeValue c.codec vt dictValues v = .ok text
  dict : vt = .dict → ∀ v ∈ values, v.length = 1
  bounds : vt.isNumeric = true → ∀ v ∈ values,
    headerNumber vt minValue ≤ number vt v ∧ number vt v ≤ headerNumber vt maxValue
  attained : vt.isNumeric = true → values ≠ [] → ∃ v ∈ values, number vt v = headerNumber vt maxValue
  timestamps : vt = .timestampIso8601 → ∀ v ∈ values, ∃ s, tryParseTimestampIso8601Bytes s = some (number vt v)
  floats : vt = .float64 → ∀ v ∈ values,
    (F64.ofBits minValue).le (F64.ofBits (unmarshalUint64 v)) = true ∧
      (F64.ofBits (unmarshalUint64 v)).le (F64.ofBits maxValue) = true

/-- The column has such a value for each row. -/
structure Stored (c : Float64Text) (bs : BlockSearch BlockFiles) (ch : ColumnHeader) (n : Nat) : Prop
    extends StoredValues c ch.valueType ch.valuesDict.values ch.minValue.toNat ch.maxValue.toNat
      (bs.getValuesForColumn ch) where
  length : (bs.getValuesForColumn ch).length = n

variable {c : Float64Text}

/-- The values of a stored column have the length of their type. -/
theorem Stored.checkBinaryLen_eq (h : Stored c bs ch n) {name what : String} {want : Nat} {render : Bytes → Bytes}
    (hdecode : ∀ v, decodeValue c.codec ch.valueType ch.valuesDict.values v =
      (do checkLen name want v; return render v : Outcome Bytes)) :
    ∀ v ∈ bs.getValuesForColumn ch, checkBinaryLen bs.partPath what want v = .ok () := by
  intro v hv
  obtain ⟨text, htext⟩ := h.decodes v hv
  rw [hdecode v] at htext
  rw [checkBinaryLen, if_neg (not_not.2 (length_of_checkLen_bind htext))]

end EsLogs
