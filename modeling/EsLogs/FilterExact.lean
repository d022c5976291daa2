import EsLogs.BlockColumns
import EsLogs.TypedText

/-!
The filter for an exact value on a block of query results (`filter_exact.rs`). In a column of numbers the value of the
filter is read as a number once, and the numbers of the rows are compared with it; in the other columns texts are
compared. The two ways agree exactly when the value is written as the column writes the number, and a float is read as
the number that was written.
-/

namespace EsLogs.FilterExact

open ColumnValues Encoding NumberText List

/-! ### The filter -/

def matchColumnByExactValue (ct : Float64Text) (br : BlockResult) (bm : Bitmap) (r : ColRef) (value : Bytes) :
    Outcome Bitmap := do
  let values ← br.columnGetValues ct.codec r
  visitRows values bm fun v => .ok (v == value)

/-- The columns of numbers: no row is kept if the value of the filter is not a number of the type, and else the rows
whose encoded value, which is read from `width` bytes, is this number. -/
def matchNumber {α : Type} (needed : Option α) (width : Nat) (isNeeded : α → Bytes → Bool) (ve : List Bytes)
    (bm : Bitmap) : Outcome Bitmap :=
  match needed with
  | none => .ok bm.resetBits
  | some n =>
    visitRows ve bm fun v =>
      if v.length < width then .error (.panic "index out of bounds") else .ok (isNeeded n v)

/-- The part of `apply_to_block_result_by_field` for columns with encoded values. -/
def matchEncoded (ct : Float64Text) (br : BlockResult) (bm : Bitmap) (r : ColRef) (value : Bytes) (vt : ValueType)
    (ve : List Bytes) : Outcome Bitmap :=
  let valueStr := phraseUtf8 value
  match vt with
  | .string | .dict => matchColumnByExactValue ct br bm r value
  | .uint8 =>
    matchNumber ((valueStr.bind tryParseUint64Bytes).filter (· < 2 ^ 8)) 1 (fun n v => beNat (v.take 1) == n) ve bm
  | .uint16 =>
    matchNumber ((valueStr.bind tryParseUint64Bytes).filter (· < 2 ^ 16)) 2 (fun n v => unmarshalUint16 v == n) ve bm
  | .uint32 =>
    matchNumber ((valueStr.bind tryParseUint64Bytes).filter (· < 2 ^ 32)) 4 (fun n v => unmarshalUint32 v == n) ve bm
  | .uint64 => matchNumber (valueStr.bind tryParseUint64Bytes) 8 (fun n v => unmarshalUint64 v == n) ve bm
  | .int64 => matchNumber (valueStr.bind tryParseInt64Bytes) 8 (fun n v => unmarshalInt64 v == n) ve bm
  | .float64 =>
    matchNumber (valueStr.bind tryParseFloat64Exact) 8
      (fun f v => (F64.ofBits (unmarshalUint64 v)).eq (.finite f)) ve bm
  | .ipv4 => matchNumber (valueStr.bind tryParseIpv4Bytes) 4 (fun ip v => unmarshalUint32 v == ip) ve bm
  | .timestampIso8601 =>
    matchNumber (valueStr.bind tryParseTimestampIso8601Bytes) 8 (fun t v => asI64 (unmarshalUint64 v) == t) ve bm
  | .other code => .error (.panic s!"FATAL: unknown valueType={code.toNat}")

def applyToBlockResultByField (ct : Float64Text) (value : Bytes) (br : BlockResult) (bm : Bitmap) (fieldName : Bytes) :
    Outcome (BlockResult × Bitmap) := do
  let (br, r) := br.getColumnByName fieldName
  let column ← br.col r
  let bm ← match column.content with
    | .const v => .ok (if v ≠ value then bm.resetBits else bm)
    | .time => matchColumnByExactValue ct br bm r value
    | .encoded vt _ ve => matchEncoded ct br bm r value vt ve
  return (br, bm)

/-! ### What is kept -/

section Kept

variable {n : Nat} {ct : Float64Text} {value : Bytes} {vt : ValueType} {dictValues ve values : List Bytes}

theorem keeps_matchNumber {α : Type} {width : Nat} (needed : Option α) (isNeeded : α → Bytes → Bool)
    (hlen : ve.length = n) (hwidth : ∀ v ∈ ve, v.length = width) :
    Keeps n (fun i => ∃ x, needed = some x ∧ isNeeded x (ve.getD i []) = true)
      fun bm => matchNumber needed width isNeeded ve bm := by
  cases needed with
  | none =>
    refine (keeps_resetBits n).congr ?_
    simp
  | some x =>
    refine (keeps_visitRows hlen (g := isNeeded x) ?_).congr ?_
    · intro v hv
      rw [if_neg (not_lt.2 (hwidth v hv).ge)]
    · intro i _
      simp only [Option.some.injEq, exists_eq_left']

/-- An encoded value that is kept in a column of numbers: the value of the filter is read as its number. -/
def KeptNumber (value : Bytes) (vt : ValueType) (v : Bytes) : Prop :=
  match vt with
  | .float64 => ∃ f, (phraseUtf8 value).bind tryParseFloat64Exact = some f ∧
      (F64.ofBits (unmarshalUint64 v)).eq (.finite f) = true
  | vt => (phraseUtf8 value).bind (parsedNumber vt) = some (number vt v)

theorem uint_iff {s : Option Bytes} {parse : Bytes → Option Nat} {m : Nat} :
    (∃ x, s.bind parse = some x ∧ (m == x) = true) ↔ (s.bind fun t => (parse t).map Int.ofNat) = some (m : Int) := by
  change _ ↔ s.bind (Option.map Int.ofNat ∘ parse) = _
  rw [← Option.map_bind]
  simp only [beq_iff_eq, Option.map_eq_some_iff]
  constructor
  · rintro ⟨x, hx, rfl⟩
    exact ⟨m, hx, rfl⟩
  · rintro ⟨x, hx, hcast⟩
    exact ⟨x, hx, (Int.ofNat.inj hcast).symm⟩

/-- The test for the width of an unsigned type drops no number that is stored. -/
theorem filtered_uint_iff {s : Option Bytes} {bound m : Nat} (hm : m < bound) :
    (∃ x, (s.bind tryParseUint64Bytes).filter (· < bound) = some x ∧ (m == x) = true) ↔
      (s.bind fun t => (tryParseUint64Bytes t).map Int.ofNat) = some (m : Int) := by
  rw [← uint_iff]
  simp only [Option.filter_eq_some_iff, decide_eq_true_eq, beq_iff_eq]
  constructor
  · rintro ⟨x, ⟨hx, -⟩, rfl⟩
    exact ⟨m, hx, rfl⟩
  · rintro ⟨x, hx, rfl⟩
    exact ⟨m, ⟨hx, hm⟩, rfl⟩

theorem int_iff {s : Option Bytes} {parse : Bytes → Option Int} {m : Int} :
    (∃ x, s.bind parse = some x ∧ (m == x) = true) ↔ s.bind parse = some m := by
  simp only [beq_iff_eq]
  constructor
  · rintro ⟨x, hx, rfl⟩
    exact hx
  · exact fun h => ⟨m, h, rfl⟩

def holdsNumbers (vt : ValueType) : Bool := vt.isNumeric || vt == .float64

theorem keeps_matchEncoded (br : BlockResult) (r : ColRef) (value : Bytes) (hnumbers : holdsNumbers vt = true)
    (hlen : ve.length = n)
    (hdecodes : ∀ v ∈ ve, ∃ t, decodeValue ct.codec vt dictValues v = .ok t) :
    Keeps n (fun i => KeptNumber value vt (ve.getD i []))
      fun bm => matchEncoded ct br bm r value vt ve := by
  have hwidth : ∀ {name : String} {want : Nat} {render : Bytes → Bytes},
      (∀ v, decodeValue ct.codec vt dictValues v = (do checkLen name want v; return render v : Outcome Bytes)) →
      ∀ v ∈ ve, v.length = want := by
    intro name want render hdecode v hv
    obtain ⟨t, ht⟩ := hdecodes v hv
    rw [hdecode v] at ht
    exact length_of_checkLen_bind ht
  have huint : ∀ (w : Nat) (v : Bytes), beNat (v.take w) < 256 ^ w := beNat_take_lt
  cases vt with
  | uint8 =>
    refine (keeps_matchNumber _ _ hlen (hwidth fun _ => rfl)).congr fun i _ => ?_
    exact (filtered_uint_iff (huint 1 _)).symm
  | uint16 =>
    refine (keeps_matchNumber _ _ hlen (hwidth fun _ => rfl)).congr fun i _ => ?_
    exact (filtered_uint_iff (huint 2 _)).symm
  | uint32 =>
    refine (keeps_matchNumber _ _ hlen (hwidth fun _ => rfl)).congr fun i _ => ?_
    exact (filtered_uint_iff (huint 4 _)).symm
  | uint64 | ipv4 => exact (keeps_matchNumber _ _ hlen (hwidth fun _ => rfl)).congr fun i _ => uint_iff.symm
  | int64 | timestampIso8601 => exact (keeps_matchNumber _ _ hlen (hwidth fun _ => rfl)).congr fun i _ => int_iff.symm
  | float64 => exact keeps_matchNumber _ _ hlen (hwidth fun _ => rfl)
  | string | dict | other code => cases hnumbers

end Kept

/-! ### The filter on a block -/

/-- Contents as the reader of a block leaves them: the type is one of the format, the times of a column are times that
were read from texts, and what is written for its floats denotes numbers next to which they are. -/
structure TypedContent (ct : Float64Text) (content : ColumnContent) : Prop where
  known : ∀ code dictValues ve, content ≠ .encoded (.other code) dictValues ve
  times : ∀ dictValues ve, content = .encoded .timestampIso8601 dictValues ve →
    ∀ v ∈ ve, ∃ s, tryParseTimestampIso8601Bytes s = some (number .timestampIso8601 v)
  floats : ∀ dictValues ve, content = .encoded .float64 dictValues ve →
    ∀ v ∈ ve, ct.ReadsBack (unmarshalUint64 v)

/-- The value of the filter is read as a stored number only where it is the text of this number. If it is the text of a
stored float, it is also read right: the other types always read what they have written. -/
def ExactSafe (ct : Float64Text) (value : Bytes) : ColumnContent → Prop
  | .encoded .float64 _ ve => ∀ v ∈ ve,
      (∀ q, (phraseUtf8 value).bind tryParseFloat64Exact = some q → F64.ofBits (unmarshalUint64 v) = .finite q →
        ct.marshalFloat64String (unmarshalUint64 v) = value) ∧
      (ct.marshalFloat64String (unmarshalUint64 v) = value → ReadRight value)
  | .encoded vt _ ve => vt.isNumeric = true → ∀ v ∈ ve,
      (phraseUtf8 value).bind (parsedNumber vt) = some (number vt v) → numberText vt (number vt v) = value
  | _ => True

section Block

variable {ct : Float64Text} {br : BlockResult} {fieldName value : Bytes} {vt : ValueType}
  {dictValues ve values : List Bytes}

/-- The texts of a column with encoded values, row by row. -/
theorem decodeValue_getD (h : ve.mapM (decodeValue ct.codec vt dictValues) = .ok values) :
    ve.length = values.length ∧ (∀ v ∈ ve, ∃ t, decodeValue ct.codec vt dictValues v = .ok t) ∧
      ∀ i < values.length, decodeValue ct.codec vt dictValues (ve.getD i []) = .ok (values.getD i []) := by
  have hmap := outcome_mapM_eq_ok_iff.1 h
  have hlen : ve.length = values.length := by simpa using congrArg List.length hmap
  have hrow : ∀ i < values.length,
      decodeValue ct.codec vt dictValues (ve.getD i []) = .ok (values.getD i []) := by
    intro i hi
    have hi' : i < ve.length := hlen ▸ hi
    have hget := congrArg (·[i]?) hmap
    simpa [getElem?_map, getElem?_eq_getElem hi, getElem?_eq_getElem hi', getD_eq_getElem _ _ hi,
      getD_eq_getElem _ _ hi'] using hget
  refine ⟨hlen, ?_, hrow⟩
  intro v hv
  obtain ⟨i, hi, rfl⟩ := mem_iff_getElem.1 hv
  rw [← getD_eq_getElem _ [] hi]
  exact ⟨_, hrow i (hlen ▸ hi)⟩

theorem keeps_matchColumnByExactValue (hvalid : br.Valid ct.codec) :
    Keeps br.rowsLen (fun i => (br.valuesOf ct.codec fieldName).getD i [] = value)
      fun bm => matchColumnByExactValue ct (br.getColumnByName fieldName).1 bm (br.getColumnByName fieldName).2
        value := by
  simp only [matchColumnByExactValue, hvalid.columnGetValues, except_ok_bind]
  refine (keeps_visitRows (hvalid.length_valuesOf fieldName) (g := (· == value)) fun _ _ => rfl).congr ?_
  intro i _
  rw [beq_iff_eq]

/-- A lookup leads to the content of the field. -/
theorem applyToBlockResultByField_eq (hvalid : br.Valid ct.codec) (bm : Bitmap) :
    (applyToBlockResultByField ct value br bm fieldName).map Prod.snd =
      match br.contentOf fieldName with
      | .const v => if v ≠ value then .ok bm.resetBits else .ok bm
      | .time => matchColumnByExactValue ct (br.getColumnByName fieldName).1 bm (br.getColumnByName fieldName).2 value
      | .encoded vt _ ve =>
        matchEncoded ct (br.getColumnByName fieldName).1 bm (br.getColumnByName fieldName).2 value vt ve := by
  obtain ⟨column, hcol, hcontent⟩ := hvalid.col_getColumnByName fieldName
  rw [← hcontent, applyToBlockResultByField]
  simp only [hcol, except_ok_bind]
  cases column.content with
  | const v =>
    dsimp only
    split_ifs <;> rfl
  | time =>
    dsimp only
    cases matchColumnByExactValue ct (br.getColumnByName fieldName).1 bm (br.getColumnByName fieldName).2 value <;> rfl
  | encoded vt dictValues ve =>
    dsimp only
    cases matchEncoded ct (br.getColumnByName fieldName).1 bm (br.getColumnByName fieldName).2 value vt ve <;> rfl

/-- A property of all encoded values is one of all rows. -/
theorem forall_mem_iff_getD {P : Bytes → Prop} : (∀ v ∈ ve, P v) ↔ ∀ i < ve.length, P (ve.getD i []) := by
  rw [forall_mem_iff_forall_getElem]
  apply forall_congr'
  intro i
  apply forall_congr'
  intro hi
  rw [getD_eq_getElem _ _ hi]

/-- Columns of numbers: rows with the text and rows with the number are the same ones. -/
theorem keeps_numbers_iff {step : Bitmap → Outcome Bitmap} {n : Nat} {text : Bytes → Bytes}
    (hkept : Keeps n (fun i => KeptNumber value vt (ve.getD i [])) step) (hlen : ve.length = n)
    (htext : ∀ i < n, values.getD i [] = text (ve.getD i [])) :
    Keeps n (fun i => values.getD i [] = value) step ↔
      ∀ v ∈ ve, text v = value ↔ KeptNumber value vt v := by
  rw [hkept.iff, forall_mem_iff_getD, hlen]
  apply forall_congr'
  intro i
  apply forall_congr'
  intro hi
  rw [htext i hi]

theorem exactSafe_numeric_iff (hnumeric : vt.isNumeric = true)
    (htime : vt = .timestampIso8601 → ∀ v ∈ ve, ∃ s, tryParseTimestampIso8601Bytes s = some (number vt v)) :
    (∀ v ∈ ve, numberText vt (number vt v) = value ↔ KeptNumber value vt v) ↔
      ExactSafe ct value (.encoded vt dictValues ve) := by
  have hkept : ∀ v, KeptNumber value vt v ↔ (phraseUtf8 value).bind (parsedNumber vt) = some (number vt v) := by
    intro v
    cases vt with
    | float64 => cases hnumeric
    | _ => rfl
  have hsafe : ExactSafe ct value (.encoded vt dictValues ve) ↔ ∀ v ∈ ve,
      (phraseUtf8 value).bind (parsedNumber vt) = some (number vt v) → numberText vt (number vt v) = value := by
    cases vt with
    | float64 => cases hnumeric
    | _ => simp [ExactSafe, hnumeric]
  rw [hsafe]
  apply forall₂_congr
  intro v hv
  rw [hkept v]
  constructor
  · exact fun h => h.2
  · exact fun h => ⟨phraseUtf8_bind_parsedNumber hnumeric (fun heq => htime heq v hv), h⟩

theorem exactSafe_float_iff (hback : ∀ v ∈ ve, ct.ReadsBack (unmarshalUint64 v)) :
    (∀ v ∈ ve, ct.marshalFloat64String (unmarshalUint64 v) = value ↔ KeptNumber value .float64 v) ↔
      ExactSafe ct value (.encoded .float64 dictValues ve) := by
  apply forall₂_congr
  intro v hv
  have hfinite : ∀ {f : F64} {q : ℚ}, f.eq (.finite q) = true ↔ f = .finite q := by
    intro f q
    cases f <;> simp [F64.eq]
  have hkept : KeptNumber value .float64 v ↔ ∃ q, (phraseUtf8 value).bind tryParseFloat64Exact = some q ∧
      F64.ofBits (unmarshalUint64 v) = .finite q := by
    simp only [KeptNumber, hfinite]
  -- a text that was written is a string, and is looked up as it is
  have hfound : ct.marshalFloat64String (unmarshalUint64 v) = value →
      (ReadRight value ↔ KeptNumber value .float64 v) := by
    intro htext
    have hutf8 : phraseUtf8 value = some value := by
      rw [phraseUtf8, if_pos (htext ▸ ct.isValid_marshalFloat64String _)]
    rw [ct.readRight_iff (hback v hv) htext, KeptNumber, hutf8, Option.bind_some]
  constructor
  · intro h
    exact ⟨fun q hq hv => h.2 (hkept.2 ⟨q, hq, hv⟩), fun htext => (hfound htext).2 (h.1 htext)⟩
  · rintro ⟨htext, hread⟩
    refine ⟨fun h => (hfound h).1 (hread h), fun h => ?_⟩
    obtain ⟨q, hq, hv⟩ := hkept.1 h
    exact htext q hq hv

/-- The filter keeps exactly the rows whose text is its value if and only if the value is read as a stored number only
where it is the text of that number, and is read right where it is the text of a stored float. -/
theorem exact_iff (ct : Float64Text) (br : BlockResult) (hvalid : br.Valid ct.codec) (fieldName value : Bytes)
    (htyped : TypedContent ct (br.contentOf fieldName)) :
    Keeps br.rowsLen (fun i => (br.valuesOf ct.codec fieldName).getD i [] = value)
        (fun bm => (applyToBlockResultByField ct value br bm fieldName).map Prod.snd) ↔
      ExactSafe ct value (br.contentOf fieldName) := by
  have hvalues := hvalid.values_eq fieldName
  have hlength := hvalid.length_valuesOf fieldName
  rw [show (fun bm => (applyToBlockResultByField ct value br bm fieldName).map Prod.snd) = _ from
    funext fun bm => applyToBlockResultByField_eq hvalid bm]
  cases hcontent : br.contentOf fieldName with
  | const v =>
    rw [hcontent] at hvalues
    have hrow : ∀ i < br.rowsLen, (br.valuesOf ct.codec fieldName).getD i [] = v := by
      intro i hi
      rw [← Except.ok.inj hvalues, getD_eq_getElem _ _ (by simpa using hi), getElem_replicate]
    refine iff_of_true ((Keeps.unless (b := v ≠ value) fun _ => keeps_self br.rowsLen).congr ?_) trivial
    intro i hi
    rw [hrow i hi]
    simp
  | time => exact iff_of_true (keeps_matchColumnByExactValue hvalid) trivial
  | encoded vt dictValues ve =>
    rw [hcontent] at hvalues
    obtain ⟨hlen, hdecodes, hrow⟩ := decodeValue_getD hvalues
    rw [hlength] at hlen hrow
    -- texts are compared as texts
    by_cases hnumbers : holdsNumbers vt = true
    · have hkept := keeps_matchEncoded (br.getColumnByName fieldName).1
        (br.getColumnByName fieldName).2 value hnumbers hlen hdecodes
      by_cases hnumeric : vt.isNumeric = true
      · rw [← exactSafe_numeric_iff hnumeric (fun heq => heq ▸ htyped.times dictValues ve (heq ▸ hcontent))]
        apply keeps_numbers_iff hkept hlen
        intro i hi
        exact decodeValue_eq_numberText hnumeric (hrow i hi)
      · obtain rfl : vt = .float64 := by simpa [holdsNumbers, hnumeric] using hnumbers
        rw [← exactSafe_float_iff (htyped.floats dictValues ve hcontent)]
        exact keeps_numbers_iff hkept hlen fun i hi => checkLen_bind_eq_ok (hrow i hi)
    · refine iff_of_true ?_ ?_
      · cases vt with
        | string | dict => exact keeps_matchColumnByExactValue hvalid
        | other code => exact absurd hcontent (htyped.known code dictValues ve)
        | _ => exact absurd rfl hnumbers
      · cases vt with
        | string | dict | other code => exact fun h => nomatch h
        | _ => exact absurd rfl hnumbers

end Block

theorem isValid_oneHalf (f : Nat) :
    Utf8.isValid (if f = 0x3FF8000000000000 then ascii "1.5" else ascii "0.5") = true := by
  split <;> decide

/-- The texts of 1.5 and 0.5. -/
def halves : Float64Text := ⟨fun f => if f = 0x3FF8000000000000 then ascii "1.5" else ascii "0.5", isValid_oneHalf⟩

/-- A block with a column of the unsigned numbers 10 and 20 and a column of the floats 1.5 and 0.5. -/
def tenTwenty : BlockResult :=
  { rowsLen := 2, timestampsBuf := [1, 2], csBuf := [⟨ascii "n", .encoded .uint8 [] [[10], [20]]⟩,
      ⟨ascii "x", .encoded .float64 [] [[0x3F, 0xF8, 0, 0, 0, 0, 0, 0], [0x3F, 0xE0, 0, 0, 0, 0, 0, 0]]⟩],
    csEmpty := [], cs := [], csInitialized := false }

theorem tenTwenty_valid : tenTwenty.Valid halves.codec where
  values_ok := by
    intro column hcolumn
    rcases mem_cons.1 hcolumn with rfl | hcolumn
    · exact ⟨[ascii "10", ascii "20"], by decide +kernel, rfl, by decide +kernel⟩
    · obtain rfl := mem_singleton.1 hcolumn
      exact ⟨[ascii "1.5", ascii "0.5"], by decide +kernel, rfl, by decide +kernel⟩
  empty_const := by simp [tenTwenty]

theorem tenTwenty_content : tenTwenty.contentOf (ascii "n") = .encoded .uint8 [] [[10], [20]] ∧
    tenTwenty.contentOf (ascii "x") =
      .encoded .float64 [] [[0x3F, 0xF8, 0, 0, 0, 0, 0, 0], [0x3F, 0xE0, 0, 0, 0, 0, 0, 0]] := by decide +kernel

theorem halves_readsBack : ∀ v ∈ [[0x3F, 0xF8, 0, 0, 0, 0, 0, 0], [0x3F, 0xE0, 0, 0, 0, 0, 0, 0]],
    halves.ReadsBack (unmarshalUint64 v) := by
  have h1 : F64.ofBits (unmarshalUint64 [0x3F, 0xF8, 0, 0, 0, 0, 0, 0]) = .finite (3 / 2) := by decide +kernel
  have h2 : F64.ofBits (unmarshalUint64 [0x3F, 0xE0, 0, 0, 0, 0, 0, 0]) = .finite (1 / 2) := by decide +kernel
  intro v hv q hq
  rcases mem_cons.1 hv with rfl | hv
  · cases h1.symm.trans hq
    exact ⟨3 / 2, by decide +kernel, by decide +kernel⟩
  · obtain rfl := mem_singleton.1 hv
    cases h2.symm.trans hq
    exact ⟨1 / 2, by decide +kernel, by decide +kernel⟩

/-- The rows are filtered for 10 and for 1.5. -/
theorem exact_tenTwenty :
    Keeps 2 (fun i => (tenTwenty.valuesOf halves.codec (ascii "n")).getD i [] = ascii "10")
        (fun bm => (applyToBlockResultByField halves (ascii "10") tenTwenty bm (ascii "n")).map Prod.snd) ∧
      Keeps 2 (fun i => (tenTwenty.valuesOf halves.codec (ascii "x")).getD i [] = ascii "1.5")
        (fun bm => (applyToBlockResultByField halves (ascii "1.5") tenTwenty bm (ascii "x")).map Prod.snd) := by
  constructor
  · refine (exact_iff halves tenTwenty tenTwenty_valid (ascii "n") (ascii "10") ?_).2 ?_
    · rw [tenTwenty_content.1]
      exact ⟨by simp, by simp, by simp⟩
    · rw [tenTwenty_content.1]
      intro _ v hv
      revert v
      decide +kernel
  · refine (exact_iff halves tenTwenty tenTwenty_valid (ascii "x") (ascii "1.5") ?_).2 ?_
    · rw [tenTwenty_content.2]
      refine ⟨by simp, by simp, fun dictValues ve h => ?_⟩
      cases h
      exact halves_readsBack
    · rw [tenTwenty_content.2]
      intro v hv
      refine ⟨fun q hq hfinite => ?_, fun _ => ⟨3 / 2, by decide +kernel, by decide +kernel⟩⟩
      obtain rfl : q = 3 / 2 := Option.some.inj (hq.symm.trans (by decide +kernel))
      revert v
      decide +kernel

/-- The row 10 is kept for the value `1_0`, which is not its text. -/
theorem not_exact_underscored :
    ¬Keeps 2 (fun i => (tenTwenty.valuesOf halves.codec (ascii "n")).getD i [] = ascii "1_0")
      (fun bm => (applyToBlockResultByField halves (ascii "1_0") tenTwenty bm (ascii "n")).map Prod.snd) := by
  intro h
  obtain ⟨bm, hstep, -, hbits⟩ := h (Bitmap.init 2).setBits rfl
  have hkept := (hbits 0).1 (by
    have hrun : ((applyToBlockResultByField halves (ascii "1_0") tenTwenty (Bitmap.init 2).setBits
        (ascii "n")).map Prod.snd).map (·.isSetBit 0) = .ok true := by decide +kernel
    rw [show (applyToBlockResultByField halves (ascii "1_0") tenTwenty (Bitmap.init 2).setBits
      (ascii "n")).map Prod.snd = .ok bm from hstep] at hrun
    exact Except.ok.inj hrun)
  exact absurd hkept.2 (by decide +kernel)

end EsLogs.FilterExact
