import EsLogs.Encoding
import EsLogs.Iso8601Text

/-!
The column value codec of `values_encoder.rs`. `encode` tries a dictionary and then five typed
representations in turn, takes the first one that accepts every value of the column, and leaves the
values as they are when none does. `decode_inplace` renders each stored value again.
-/

namespace EsLogs.ColumnValues

open NumberText Encoding List

/-- The value types of a column; `other 0` is `UNKNOWN`. -/
inductive ValueType where
  | string
  | dict
  | uint8
  | uint16
  | uint32
  | uint64
  | int64
  | float64
  | ipv4
  | timestampIso8601
  | other (code : UInt8)
  deriving DecidableEq, Repr

def ValueType.unknown : ValueType := .other 0

/-- The float branch as an uninterpreted lossless codec: texts are parsed to the bits of a float,
and rendering the bits gives the text back. -/
structure Float64Codec where
  tryParseFloat64ExactBytes : Bytes → Option Nat
  marshalFloat64String : Nat → Bytes
  less : Nat → Nat → Bool
  parse_lt : ∀ {v f}, tryParseFloat64ExactBytes v = some f → f < 2 ^ 64
  lossless : ∀ {v f}, tryParseFloat64ExactBytes v = some f → marshalFloat64String f = v

/-! ### The encoder's buffers -/

/-- The encoder: a buffer and the ranges of the encoded values within it. -/
structure ValuesEncoder where
  buf : Bytes
  ranges : List (Nat × Nat)
  in_bounds : ∀ r ∈ ranges, r.1 ≤ r.2 ∧ r.2 ≤ buf.length

/-- `ValuesDict`: the distinct values, in the order in which they came. -/
structure ValuesDict where
  values : List Bytes
  deriving DecidableEq, Repr

def maxDictSizeBytes : Nat := 256

def maxDictLen : Nat := 8

/-- What `encode` leaves in the encoder and the dictionary, and what it returns. -/
structure Encoded where
  encoder : ValuesEncoder
  dict : ValuesDict
  vt : ValueType
  minValue : Nat
  maxValue : Nat

namespace ValuesEncoder

def reset (_e : ValuesEncoder) : ValuesEncoder := ⟨[], [], by simp⟩

/-- Appends the bytes of one value to the buffer, and their range to the ranges. -/
def push (e : ValuesEncoder) (v : Bytes) : ValuesEncoder where
  buf := e.buf ++ v
  ranges := e.ranges ++ [(e.buf.length, (e.buf ++ v).length)]
  in_bounds := by
    intro r hr
    rw [List.mem_append, List.mem_singleton] at hr
    rw [List.length_append]
    rcases hr with hr | rfl
    · have := e.in_bounds r hr
      omega
    · simp

def pushAll (e : ValuesEncoder) (vs : List Bytes) : ValuesEncoder := vs.foldl push e

/-- `ValuesEncoder::values`: the slices of the buffer. -/
def values (e : ValuesEncoder) : List Bytes := e.ranges.map fun r => (e.buf.take r.2).drop r.1

@[simp]
theorem values_reset (e : ValuesEncoder) : e.reset.values = [] := rfl

@[simp]
theorem values_push (e : ValuesEncoder) (v : Bytes) : (e.push v).values = e.values ++ [v] := by
  simp only [values, push, map_append, map_cons, map_nil]
  congr 1
  · refine map_congr_left fun r hr => ?_
    rw [take_append_of_le_length (e.in_bounds r hr).2]
  · rw [take_length, drop_left]

@[simp]
theorem values_pushAll (e : ValuesEncoder) (vs : List Bytes) :
    (e.pushAll vs).values = e.values ++ vs := by
  induction vs generalizing e with
  | nil => simp [pushAll]
  | cons v vs ih =>
    have hstep : e.pushAll (v :: vs) = (e.push v).pushAll vs := rfl
    rw [hstep, ih, values_push, append_assoc, singleton_append]

end ValuesEncoder

/-! ### The dictionary -/

def ValuesDict.getOrAdd (d : ValuesDict) (k : Bytes) : Option (ValuesDict × UInt8) :=
  if k.length > maxDictSizeBytes then none
  else
    match d.values.idxOf? k with
    | some i => some (d, UInt8.ofNat i)
    | none =>
      let dictSizeBytes := (d.values.map List.length).sum
      if d.values.length ≥ maxDictLen ∨ dictSizeBytes + k.length > maxDictSizeBytes then none
      else some (⟨d.values ++ [k]⟩, UInt8.ofNat d.values.length)

/-- The loop of `try_dict_encoding`: one identifier byte for each value. -/
def dictLoop : ValuesEncoder → ValuesDict → List Bytes → Option (ValuesEncoder × ValuesDict)
  | e, d, [] => some (e, d)
  | e, d, v :: vs =>
    match d.getOrAdd v with
    | none => none
    | some (d, id) => dictLoop (e.push [id]) d vs

/-- `try_dict_encoding`: on failure the dictionary is reset and the buffers are truncated to what
they were. -/
def tryDictEncoding (e : ValuesEncoder) (src : List Bytes) :
    ValuesEncoder × ValuesDict × ValueType :=
  match dictLoop e ⟨[]⟩ src with
  | none => (e, ⟨[]⟩, .unknown)
  | some (e, d) => (e, d, .dict)

/-! ### The typed representations -/

/-- The running extremum of the parsing loops: `i == 0 || less n best`. -/
def extremum {α : Type} (less : α → α → Bool) (zero : α) : List α → α
  | [] => zero
  | n :: ns => ns.foldl (fun best n => if less n best then n else best) n

/-- The shape the typed encodings share: every value is parsed, or none is stored; the numbers are
marshaled in order, and the smallest and the largest one are returned as `u64`. -/
def tryEncoding {α : Type} (vt : ValueType) (parse : Bytes → Option α) (less : α → α → Bool)
    (zero : α) (marshal : α → Bytes) (asU64 : α → Nat) (e : ValuesEncoder) (src : List Bytes) :
    ValuesEncoder × ValueType × Nat × Nat :=
  match src.mapM parse with
  | none => (e, .unknown, 0, 0)
  | some ns =>
    (e.pushAll (ns.map marshal), vt, asU64 (extremum less zero ns),
      asU64 (extremum (fun a b => less b a) zero ns))

/-- `n as u64` of a signed number. -/
def asU64 (n : Int) : Nat := (n % 2 ^ 64).toNat

/-- `n as i64` of an unsigned number. -/
def asI64 (n : Nat) : Int := if n < 2 ^ 63 then n else (n : Int) - 2 ^ 64

/-- `try_uint_encoding`: the width follows the bits of the largest number. -/
def tryUintEncoding (e : ValuesEncoder) (src : List Bytes) :
    ValuesEncoder × ValueType × Nat × Nat :=
  match src.mapM tryParseUint64Bytes with
  | none => (e, .unknown, 0, 0)
  | some ns =>
    let minValue := extremum (fun a b => decide (a < b)) 0 ns
    let maxValue := extremum (fun a b => decide (b < a)) 0 ns
    let minBitSize := Nat.size maxValue
    if minBitSize ≤ 8 then (e.pushAll (ns.map (beBytes 1)), .uint8, minValue, maxValue)
    else if minBitSize ≤ 16 then (e.pushAll (ns.map marshalUint16), .uint16, minValue, maxValue)
    else if minBitSize ≤ 32 then (e.pushAll (ns.map marshalUint32), .uint32, minValue, maxValue)
    else (e.pushAll (ns.map marshalUint64), .uint64, minValue, maxValue)

def tryIntEncoding : ValuesEncoder → List Bytes → ValuesEncoder × ValueType × Nat × Nat :=
  tryEncoding .int64 tryParseInt64Bytes (fun a b => decide (a < b)) 0 marshalInt64 asU64

def tryFloat64Encoding (c : Float64Codec) :
    ValuesEncoder → List Bytes → ValuesEncoder × ValueType × Nat × Nat :=
  tryEncoding .float64 c.tryParseFloat64ExactBytes c.less 0 marshalUint64 id

def tryIpv4Encoding : ValuesEncoder → List Bytes → ValuesEncoder × ValueType × Nat × Nat :=
  tryEncoding .ipv4 tryParseIpv4Bytes (fun a b => decide (a < b)) 0 marshalUint32 id

def tryTimestampIso8601Encoding :
    ValuesEncoder → List Bytes → ValuesEncoder × ValueType × Nat × Nat :=
  tryEncoding .timestampIso8601 tryParseTimestampIso8601Bytes (fun a b => decide (a < b)) 0
    (fun n => marshalUint64 (asU64 n)) asU64

/-- The loop of `encode` over the typed encodings; the buffers are cleared before each one, and the
values are left as they are when none accepts them. -/
def tryEncodings (e : ValuesEncoder) (src : List Bytes) :
    List (ValuesEncoder → List Bytes → ValuesEncoder × ValueType × Nat × Nat) →
      ValuesEncoder × ValueType × Nat × Nat
  | [] => (e.reset.pushAll src, .string, 0, 0)
  | f :: fs =>
    let r := f e.reset src
    if r.2.1 ≠ .unknown then r else tryEncodings r.1 src fs

def encode (c : Float64Codec) (e : ValuesEncoder) (src : List Bytes) (dict : ValuesDict) :
    Encoded :=
  let e := e.reset
  if src = [] then ⟨e, dict, .string, 0, 0⟩
  else
    let (e, dict, vt) := tryDictEncoding e src
    if vt ≠ .unknown then ⟨e, dict, vt, 0, 0⟩
    else
      let r := tryEncodings e src [tryUintEncoding, tryIntEncoding, tryFloat64Encoding c,
        tryIpv4Encoding, tryTimestampIso8601Encoding]
      ⟨r.1, dict, r.2.1, r.2.2.1, r.2.2.2⟩

/-! ### The decoder -/

/-- The length check of the decoder: `name` is the type the message mentions. -/
def checkLen (name : String) (want : Nat) (v : Bytes) : Outcome Unit :=
  if v.length ≠ want then
    .error (.error s!"unexpected value length for {name}; got {v.length}; want {want}")
  else .ok ()

theorem checkLen_bind_eq_ok {name : String} {want : Nat} {v t text : Bytes}
    (h : (do checkLen name want v; return text : Outcome Bytes) = .ok t) : t = text := by
  obtain ⟨u, -, hk⟩ := except_bind_eq_ok_iff.1 h
  exact (Except.ok.inj hk).symm

theorem length_of_checkLen_bind {name : String} {want : Nat} {v t text : Bytes}
    (h : (do checkLen name want v; return text : Outcome Bytes) = .ok t) : v.length = want := by
  obtain ⟨u, hlen, -⟩ := except_bind_eq_ok_iff.1 h
  unfold checkLen at hlen
  split at hlen
  case isTrue => cases hlen
  case isFalse hwant => exact not_not.1 hwant

def decodeValue (c : Float64Codec) (vt : ValueType) (dictValues : List Bytes) (v : Bytes) :
    Outcome Bytes :=
  match vt with
  | .string => .ok v
  | .dict =>
    match v with
    | [] => .error (.panic "index out of bounds")
    | id :: _ =>
      if h : id.toNat < dictValues.length then .ok dictValues[id.toNat]
      else .error (.error
        s!"unexpected dictionary id: {id.toNat}; it must be smaller than {dictValues.length}")
  | .uint8 => do checkLen "uint8" 1 v; return marshalUint8String (beNat (v.take 1))
  | .uint16 => do checkLen "uint16" 2 v; return marshalUint64String (unmarshalUint16 v)
  | .uint32 => do checkLen "uint32" 4 v; return marshalUint64String (unmarshalUint32 v)
  | .uint64 => do checkLen "uint64" 8 v; return marshalUint64String (unmarshalUint64 v)
  | .int64 => do checkLen "int64" 8 v; return marshalInt64String (unmarshalInt64 v)
  | .float64 => do checkLen "uint64" 8 v; return c.marshalFloat64String (unmarshalUint64 v)
  | .ipv4 => do checkLen "ipv4" 4 v; return marshalIpv4String (unmarshalUint32 v)
  | .timestampIso8601 => do
    checkLen "uint64" 8 v
    return marshalTimestampIso8601String (asI64 (unmarshalUint64 v))
  | .other code => .error (.error s!"unknown valueType={code.toNat}")

/-- `ValuesDecoder::decode_inplace`; an unknown type is an error even for an empty list. -/
def decodeInplace (c : Float64Codec) (values : List Bytes) (vt : ValueType)
    (dictValues : List Bytes) : Outcome (List Bytes) :=
  match vt with
  | .other code => .error (.error s!"unknown valueType={code.toNat}")
  | vt => values.mapM (decodeValue c vt dictValues)

end EsLogs.ColumnValues
