import EsLogs.StoredColumn

/-!
The texts of the numbers in typed columns. A column of numbers is searched by numbers where it can be, so the searches
rest on how a number is written and read: what is written for a stored number is read as this number, but other texts
may be read as it too.
-/

namespace EsLogs

open ColumnValues Encoding NumberText

/-- The number that a text is read as in a column of a type. -/
def parsedNumber : ValueType → Bytes → Option Int
  | .uint8, s => (tryParseUint64Bytes s).map Int.ofNat
  | .uint16, s => (tryParseUint64Bytes s).map Int.ofNat
  | .uint32, s => (tryParseUint64Bytes s).map Int.ofNat
  | .uint64, s => (tryParseUint64Bytes s).map Int.ofNat
  | .int64, s => tryParseInt64Bytes s
  | .ipv4, s => (tryParseIpv4Bytes s).map Int.ofNat
  | .timestampIso8601, s => tryParseTimestampIso8601Bytes s
  | _, _ => none

/-- The text that is written for a number in a column of a type. -/
def numberText : ValueType → Int → Bytes
  | .uint8, x => marshalUint8String x.toNat
  | .uint16, x => marshalUint64String x.toNat
  | .uint32, x => marshalUint64String x.toNat
  | .uint64, x => marshalUint64String x.toNat
  | .int64, x => marshalInt64String x
  | .ipv4, x => marshalIpv4String x.toNat
  | .timestampIso8601, x => marshalTimestampIso8601String x
  | _, _ => []

variable {vt : ValueType} {v t : Bytes}

theorem decodeValue_eq_numberText {c : Float64Codec} {dictValues : List Bytes} (hnumeric : vt.isNumeric = true)
    (h : decodeValue c vt dictValues v = .ok t) : t = numberText vt (number vt v) := by
  cases vt with
  | uint8 | uint16 | uint32 | uint64 | int64 | ipv4 | timestampIso8601 => exact checkLen_bind_eq_ok h
  | string | dict | float64 | other code => cases hnumeric

/-! ### Reading what was written -/

theorem marshalUint8String_eq_uint64 (v : Bytes) :
    marshalUint8String (beNat (v.take 1)) = marshalUint64String (beNat (v.take 1)) :=
  marshalUint8String_eq (by simpa using beNat_take_lt 1 v)

/-- The unsigned numbers of up to eight bytes are read as they were written. -/
theorem tryParseUint64Bytes_beNat {w : Nat} (hw : w ≤ 8) (v : Bytes) :
    tryParseUint64Bytes (marshalUint64String (beNat (v.take w))) = some (beNat (v.take w)) := by
  apply tryParseUint64Bytes_marshal
  calc beNat (v.take w) < 256 ^ w := beNat_take_lt w v
    _ ≤ 256 ^ 8 := Nat.pow_le_pow_right (by omega) hw
    _ = 2 ^ 64 := by norm_num

/-- What is written for a number of a column is read as this number; a time has to be one that was read before. -/
theorem parsedNumber_numberText (hnumeric : vt.isNumeric = true)
    (htime : vt = .timestampIso8601 → ∃ s, tryParseTimestampIso8601Bytes s = some (number vt v)) :
    parsedNumber vt (numberText vt (number vt v)) = some (number vt v) := by
  have huint : ∀ {w : Nat}, w ≤ 8 → (tryParseUint64Bytes (marshalUint64String
      ((beNat (v.take w) : Int)).toNat)).map Int.ofNat = some (beNat (v.take w) : Int) := by
    intro w hw
    rw [Int.toNat_natCast, tryParseUint64Bytes_beNat hw]
    rfl
  cases vt with
  | uint8 =>
    rw [numberText, number, Int.toNat_natCast, marshalUint8String_eq_uint64]
    exact huint (by omega)
  | uint16 | uint32 | uint64 => exact huint (by omega)
  | int64 => exact tryParseInt64Bytes_marshal (unmarshalInt64_range v).1 (unmarshalInt64_range v).2
  | ipv4 =>
    have hlt : unmarshalUint32 v < 2 ^ 32 := by simpa [unmarshalUint32] using beNat_take_lt 4 v
    rw [parsedNumber, numberText, number, Int.toNat_natCast, tryParseIpv4Bytes_marshal hlt]
    rfl
  | timestampIso8601 =>
    obtain ⟨s, hs⟩ := htime rfl
    obtain ⟨hrange, hwhole⟩ := tryParseTimestampIso8601Bytes_range hs
    exact tryParseTimestampIso8601Bytes_marshal hrange hwhole
  | string | dict | float64 | other code => cases hnumeric

/-! ### The texts are ASCII -/

def IsAscii (s : Bytes) : Prop := ∀ b ∈ s, b < 0x80

theorem IsAscii.append {s t : Bytes} (hs : IsAscii s) (ht : IsAscii t) : IsAscii (s ++ t) :=
  List.forall_mem_append.2 ⟨hs, ht⟩

theorem IsAscii.cons {b : UInt8} {s : Bytes} (hb : b < 0x80) (hs : IsAscii s) : IsAscii (b :: s) :=
  List.forall_mem_cons.2 ⟨hb, hs⟩

theorem AllDigits.isAscii {s : Bytes} (h : AllDigits s) : IsAscii s := by
  intro b hb
  have hdigit := h b hb
  rw [isDigit, Bool.and_eq_true, decide_eq_true_eq, decide_eq_true_eq] at hdigit
  exact lt_of_le_of_lt hdigit.2 (by decide)

theorem isAscii_decimal (n : Nat) : IsAscii (decimal n) := (allDigits_decimal n).isAscii

theorem isAscii_formatPad (w : Nat) (n : Int) : IsAscii (formatPad w n) := by
  unfold formatPad
  split
  · exact .cons (by decide) (allDigits_decimalPad _ _).isAscii
  · exact (allDigits_decimalPad _ _).isAscii

theorem isAscii_marshalIpv4String (n : Nat) : IsAscii (marshalIpv4String n) := by
  rw [marshalIpv4String_eq]
  exact (isAscii_decimal _).append (.cons (by decide) ((isAscii_decimal _).append (.cons (by decide)
    ((isAscii_decimal _).append (.cons (by decide) (isAscii_decimal _))))))

theorem isAscii_marshalTimestampIso8601String (nsecs : Int) : IsAscii (marshalTimestampIso8601String nsecs) := by
  have hfield : ∀ {w : Nat} {n : Int} {b : UInt8} {s : Bytes}, b < 0x80 → IsAscii s →
      IsAscii (formatPad w n ++ b :: s) :=
    fun hb hs => (isAscii_formatPad _ _).append (.cons hb hs)
  unfold marshalTimestampIso8601String
  exact hfield (by decide) (hfield (by decide) (hfield (by decide) (hfield (by decide) (hfield (by decide)
    (hfield (by decide) (hfield (by decide) (by simp [IsAscii])))))))

theorem isAscii_numberText (vt : ValueType) (v : Bytes) : IsAscii (numberText vt (number vt v)) := by
  cases vt with
  | uint8 =>
    rw [numberText, number, Int.toNat_natCast, marshalUint8String_eq_uint64]
    exact isAscii_decimal _
  | uint16 | uint32 | uint64 => exact isAscii_decimal _
  | int64 =>
    rw [numberText, marshalInt64String]
    split
    · exact .cons (by decide) (isAscii_decimal _)
    · exact isAscii_decimal _
  | ipv4 => exact isAscii_marshalIpv4String _
  | timestampIso8601 => exact isAscii_marshalTimestampIso8601String _
  | string | dict | float64 | other code => simp [numberText, IsAscii]

theorem IsAscii.phraseUtf8 {s : Bytes} (h : IsAscii s) : phraseUtf8 s = some s := by
  rw [EsLogs.phraseUtf8, if_pos (Utf8.isValid_of_ascii h)]

/-- A search that reads its value as a number finds the rows with this text. -/
theorem phraseUtf8_bind_parsedNumber (hnumeric : vt.isNumeric = true)
    (htime : vt = .timestampIso8601 → ∃ s, tryParseTimestampIso8601Bytes s = some (number vt v))
    (h : numberText vt (number vt v) = t) : (phraseUtf8 t).bind (parsedNumber vt) = some (number vt v) := by
  rw [← h, (isAscii_numberText vt v).phraseUtf8, Option.bind_some, parsedNumber_numberText hnumeric htime]

end EsLogs
