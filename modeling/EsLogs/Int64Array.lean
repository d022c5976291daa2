import EsLogs.VarInts

/-!
The compression of lists of signed numbers (`encoding.rs`). A list is stored as a constant, as a constant
difference, or as its differences or second differences; the latter two are compressed when it pays.
Differences wrap around, so that they lead back to the list for any numbers.
-/

namespace EsLogs.Encoding

open List
open Unmarshal (Reads)

variable {a : List Int64} (v : Int64) (src : List Int64)

def minCompressibleBlockSize : Nat := 128

/-- `MarshalType`; the codes that are not among those below are representable. -/
abbrev MarshalType := UInt8

namespace MarshalType

def zstdNearestDelta2 : MarshalType := 1

def deltaConst : MarshalType := 2

def const : MarshalType := 3

def zstdNearestDelta : MarshalType := 4

def nearestDelta2 : MarshalType := 5

def nearestDelta : MarshalType := 6

end MarshalType

/-! ### The shape of a list -/

/-- `is_const`, with its shortcuts for zeros and ones. -/
def isConst : List Int64 → Bool
  | [] => false
  | v1 :: a => (v1 :: a).all (· == 0) || (v1 :: a).all (· == 1) || (v1 :: a).all (· == v1)

def isDeltaConstFrom (d1 : Int64) : Int64 → List Int64 → Bool
  | _, [] => true
  | prev, next :: a => if next - prev ≠ d1 then false else isDeltaConstFrom d1 next a

def isDeltaConst : List Int64 → Bool
  | a0 :: a1 :: a => isDeltaConstFrom (a1 - a0) a1 a
  | _ => false

/-- The loop of `is_gauge`: `none` for a sequence that decreases other than by a reset, or the number of
resets. -/
def countResets : Int64 → Nat → List Int64 → Option Nat
  | _, resets, [] => some resets
  | vPrev, resets, v :: a =>
    if v < vPrev then
      if v < 0 then none
      else if v > vPrev >>> 3 then none
      else countResets v (resets + 1) a
    else countResets v resets a

def isGauge (a : List Int64) : Bool :=
  if a.length < 2 then false
  else
    match a with
    | [] => false
    | v :: vs =>
      if v < 0 then true
      else
        match countResets v 0 vs with
        | none => true
        | some resets => if resets ≤ 2 then false else resets > a.length >>> 3

def getCompressLevel (itemsCount : Nat) : Int :=
  if itemsCount ≤ 1 <<< 6 then 1
  else if itemsCount ≤ 1 <<< 8 then 2
  else if itemsCount ≤ 1 <<< 10 then 3
  else if itemsCount ≤ 1 <<< 12 then 4
  else 5

/-! ### Differences -/

/-- The number of bits of a number: 64 without the leading zeros. -/
def bitLen (u : UInt64) : Nat := if u = 0 then 0 else Nat.log2 u.toNat + 1

/-- The absolute value; that of the smallest number is the number itself. -/
def wrappingAbs (v : Int64) : Int64 := if v < 0 then -v else v

def decIfNonZero (n : Nat) : Nat := if n = 0 then 0 else n - 1

def getTrailingZeros (v : Int64) (precisionBits : Nat) : Nat :=
  let vBits := bitLen (wrappingAbs v).toUInt64
  if vBits ≤ precisionBits then 0 else vBits - precisionBits

/-- `nearest_delta`: the difference with the bits beyond the precision set to zero, and their number. -/
def nearestDelta (next prev : Int64) (precisionBits prevTrailingZeros : Nat) : Int64 × Nat :=
  let d := next - prev
  if d = 0 then (0, decIfNonZero prevTrailingZeros)
  else
    let originBits := bitLen (wrappingAbs next).toUInt64
    if originBits ≤ precisionBits then (d, decIfNonZero prevTrailingZeros)
    else
      let trailingZeros := originBits - precisionBits
      -- too many or too few zeros: probably a counter reset
      if trailingZeros > prevTrailingZeros + 4 then (d, prevTrailingZeros + 2)
      else if trailingZeros + 4 < prevTrailingZeros then (d, prevTrailingZeros - 2)
      else
        let nd := ((wrappingAbs d).toUInt64 &&& ((0 : UInt64) - 1) <<< .ofNat trailingZeros).toInt64
        (if d < 0 then -nd else nd, trailingZeros)

/-- The fast path of `marshal_int64_nearest_delta`: all the bits of the differences. -/
def deltas : Int64 → List Int64 → List Int64
  | _, [] => []
  | v, next :: src =>
    let d := next - v
    d :: deltas (v + d) src

/-- The slower path of `marshal_int64_nearest_delta`. -/
def nearestDeltas (precisionBits : Nat) : Int64 → Nat → List Int64 → List Int64
  | _, _, [] => []
  | v, trailingZeros, next :: src =>
    let (d, tzs) := nearestDelta next v precisionBits trailingZeros
    d :: nearestDeltas precisionBits (v + d) tzs src

/-- The fast path of `marshal_int64_nearest_delta2`: all the bits of the second differences. -/
def deltas2 : Int64 → Int64 → List Int64 → List Int64
  | _, _, [] => []
  | v, d1, next :: src =>
    let d2 := next - v - d1
    d2 :: deltas2 (v + (d1 + d2)) (d1 + d2) src

/-- The slower path of `marshal_int64_nearest_delta2`. -/
def nearestDeltas2 (precisionBits : Nat) : Int64 → Int64 → Nat → List Int64 → List Int64
  | _, _, _, [] => []
  | v, d1, trailingZeros, next :: src =>
    let (d2, tzs) := nearestDelta (next - v) d1 precisionBits trailingZeros
    d2 :: nearestDeltas2 precisionBits (v + (d1 + d2)) (d1 + d2) tzs src

/-- `check_precision_bits`; its error is a panic for the callers. -/
def checkPrecisionBits (precisionBits : Nat) : Outcome Unit :=
  if 1 ≤ precisionBits ∧ precisionBits ≤ 64 then .ok ()
  else .error (.panic ("BUG: precisionBits must be in the range [1...64]; got " ++
    toString precisionBits))

/-- `marshal_int64_nearest_delta`: the first value and the bytes. -/
def marshalInt64NearestDelta (src : List Int64) (precisionBits : Nat) : Outcome (Int64 × Bytes) :=
  match src with
  | [] => .error (.panic ("BUG: src must contain at least 1 item; got 0 items"))
  | v :: src => do
    checkPrecisionBits precisionBits
    let is := if precisionBits = 64 then deltas v src
      else nearestDeltas precisionBits v (getTrailingZeros v precisionBits) src
    return (v, marshalVarInt64s is)

/-- `marshal_int64_nearest_delta2`: the first value and the bytes. -/
def marshalInt64NearestDelta2 (src : List Int64) (precisionBits : Nat) : Outcome (Int64 × Bytes) :=
  match src with
  | first :: v :: src => do
    checkPrecisionBits precisionBits
    let d1 := v - first
    let is := if precisionBits = 64 then deltas2 v d1 src
      else nearestDeltas2 precisionBits v d1 (getTrailingZeros v precisionBits) src
    return (first, marshalVarInt64 d1 ++ marshalVarInt64s is)
  | _ => .error (.panic ("BUG: src must contain at least 2 items; got " ++ toString src.length ++
      " items"))

def addDeltas : Int64 → List Int64 → List Int64
  | _, [] => []
  | v, d :: ds => (v + d) :: addDeltas (v + d) ds

def addDeltas2 : Int64 → Int64 → List Int64 → List Int64
  | _, _, [] => []
  | v, d1, d2 :: ds => (v + (d1 + d2)) :: addDeltas2 (v + (d1 + d2)) (d1 + d2) ds

/-- The numbers of a stream of differences, which must take up all of it. -/
def unmarshalDeltas (src : Bytes) (itemsCount : Nat) : Except String (List Int64) :=
  match unmarshalVarInt64s (itemsCount - 1) src with
  | .error err => .error ("cannot unmarshal nearest delta from " ++ toString src.length ++
      " bytes; src=" ++ hexUpper src ++ ": " ++ err)
  | .ok (is, tail) =>
    if tail ≠ [] then .error ("unexpected tail left after unmarshaling " ++ toString itemsCount ++
      " items from " ++ toString src.length ++ " bytes; tail size=" ++ toString tail.length ++
      "; src=" ++ hexUpper src ++ "; tail=" ++ hexUpper tail)
    else .ok is

/-- An error of the code becomes an error of the outcome. -/
def asOutcome {α : Type} (f : String → String) (r : Except String α) : Outcome α :=
  r.mapError fun err => .error (f err)

/-- `unmarshal_int64_nearest_delta`: what it appends. -/
def unmarshalInt64NearestDelta (f : String → String) (src : Bytes) (firstValue : Int64)
    (itemsCount : Nat) : Outcome (List Int64) :=
  if itemsCount < 1 then
    .error (.panic ("BUG: itemsCount must be greater than 0; got " ++ toString itemsCount))
  else do
    let is ← asOutcome f (unmarshalDeltas src itemsCount)
    return firstValue :: addDeltas firstValue is

/-- `unmarshal_int64_nearest_delta2`: what it appends. -/
def unmarshalInt64NearestDelta2 (f : String → String) (src : Bytes) (firstValue : Int64)
    (itemsCount : Nat) : Outcome (List Int64) :=
  if itemsCount < 2 then
    .error (.panic ("BUG: itemsCount must be greater than 1; got " ++ toString itemsCount))
  else do
    match ← asOutcome f (unmarshalDeltas src itemsCount) with
    | [] => .error (.panic "index out of bounds")
    | d1 :: is => return firstValue :: (firstValue + d1) :: addDeltas2 (firstValue + d1) d1 is

/-! ### The array -/

def arithmetic (d : Int64) : Int64 → Nat → List Int64
  | _, 0 => []
  | v, n + 1 => v :: arithmetic d (v + d) n

/-- Whether compressed data is worth storing, `compressed as f64 > 0.9 * original as f64` being false;
for lengths of buffers the comparison of floating-point numbers is that of the exact ones. -/
def compressesWell (compressed original : Nat) : Bool := 10 * compressed ≤ 9 * original

/-- `marshal_int64_array`: the type, the first value and the bytes. -/
def marshalInt64Array (zstd : ZstdLevels) (a : List Int64) (precisionBits : Nat) :
    Outcome (MarshalType × Int64 × Bytes) :=
  match a with
  | [] => .error (.panic "BUG: a must contain at least one item")
  | a0 :: as =>
    if isConst a then .ok (.const, a0, [])
    else if isDeltaConst a then .ok (.deltaConst, a0, marshalVarInt64 (as.headD 0 - a0))
    else do
      let gauge := isGauge a
      -- gauges suffer more from a low precision
      let (firstValue, bb) ← if gauge then
          marshalInt64NearestDelta a (if precisionBits < 6 then precisionBits + 2 else precisionBits)
        else marshalInt64NearestDelta2 a precisionBits
      let compressed := zstd.compressLevel (getCompressLevel a.length) bb
      if bb.length < minCompressibleBlockSize ∨ ¬compressesWell compressed.length bb.length then
        return (if gauge then .nearestDelta else .nearestDelta2, firstValue, bb)
      else
        return (if gauge then .zstdNearestDelta else .zstdNearestDelta2, firstValue, compressed)

def unmarshalInt64Array (zstd : ZstdLevels) (src : Bytes) (mt : MarshalType) (firstValue : Int64)
    (itemsCount : Nat) : Outcome (List Int64) :=
  if mt = .zstdNearestDelta then do
    let bb ← asOutcome ("cannot decompress zstd data: " ++ ·) (zstd.decompress src)
    unmarshalInt64NearestDelta (fun err =>
      "cannot unmarshal nearest delta data after zstd decompression: " ++ err ++ "; src_zstd=" ++
        hexUpper src) bb firstValue itemsCount
  else if mt = .zstdNearestDelta2 then do
    let bb ← asOutcome ("cannot decompress zstd data: " ++ ·) (zstd.decompress src)
    unmarshalInt64NearestDelta2 (fun err =>
      "cannot unmarshal nearest delta2 data after zstd decompression: " ++ err ++ "; src_zstd=" ++
        hexUpper src) bb firstValue itemsCount
  else if mt = .nearestDelta then
    unmarshalInt64NearestDelta ("cannot unmarshal nearest delta data: " ++ ·) src firstValue
      itemsCount
  else if mt = .nearestDelta2 then
    unmarshalInt64NearestDelta2 ("cannot unmarshal nearest delta2 data: " ++ ·) src firstValue
      itemsCount
  else if mt = .const then
    if src ≠ [] then .error (.error ("unexpected data left in const encoding: " ++
      toString src.length ++ " bytes"))
    else .ok (List.replicate itemsCount firstValue)
  else if mt = .deltaConst then
    let (d, nLen) := unmarshalVarInt64 src
    if nLen ≤ 0 then .error (.error "cannot unmarshal delta value for delta const")
    else if nLen < src.length then
      .error (.error ("unexpected trailing data after delta const (d=" ++ toString d ++ "): " ++
        toString (src.length - nLen.toNat) ++ " bytes"))
    else .ok (arithmetic d firstValue itemsCount)
  else .error (.error ("unknown MarshalType=" ++ toString mt))

/-! ### Differences lead back -/

theorem add_sub_self (v next : Int64) : v + (next - v) = next := by
  rw [Int64.add_comm, Int64.sub_add_cancel]

theorem addDeltas_deltas : addDeltas v (deltas v src) = src := by
  induction src generalizing v with
  | nil => rfl
  | cons next src ih => rw [deltas, addDeltas, add_sub_self, ih]

theorem addDeltas2_deltas2 (v d1 : Int64) (src : List Int64) :
    addDeltas2 v d1 (deltas2 v d1 src) = src := by
  induction src generalizing v d1 with
  | nil => rfl
  | cons next src ih =>
    have hd : d1 + (next - v - d1) = next - v := add_sub_self d1 (next - v)
    rw [deltas2, addDeltas2, hd, add_sub_self, ih]

theorem length_deltas : (deltas v src).length = src.length := by
  induction src generalizing v with
  | nil => rfl
  | cons next src ih => rw [deltas, length_cons, length_cons, ih]

theorem length_deltas2 (v d1 : Int64) (src : List Int64) :
    (deltas2 v d1 src).length = src.length := by
  induction src generalizing v d1 with
  | nil => rfl
  | cons next src ih => rw [deltas2, length_cons, length_cons, ih]

theorem arithmetic_of_isDeltaConstFrom {d1 prev : Int64}
    (h : isDeltaConstFrom d1 prev a = true) : arithmetic d1 (prev + d1) a.length = a := by
  induction a generalizing prev with
  | nil => rfl
  | cons next a ih =>
    rw [isDeltaConstFrom] at h
    split_ifs at h with hd
    rw [not_not] at hd
    have hnext : prev + d1 = next := by rw [← hd, add_sub_self]
    rw [length_cons, arithmetic, hnext, ih h]

/-- Every case of `is_const` is that of equal values. -/
theorem eq_replicate_of_isConst {v : Int64} (h : isConst (v :: a) = true) :
    v :: a = List.replicate (v :: a).length v := by
  have hsame : ∀ w : Int64, (v :: a).all (· == w) = true →
      v :: a = List.replicate (v :: a).length v := by
    intro w hw
    have hall := all_eq_true.1 hw
    have hv : v = w := eq_of_beq (hall v mem_cons_self)
    exact eq_replicate_iff.2 ⟨rfl, fun b hb => (eq_of_beq (hall b hb)).trans hv.symm⟩
  rw [isConst, Bool.or_eq_true, Bool.or_eq_true] at h
  rcases h with (h | h) | h <;> exact hsame _ h

/-! ### The array is read back -/

theorem unmarshalDeltas_eq {l : List (Int64 × Bytes)}
    (h : ∀ p ∈ l, p.2 = marshalVarInt64 p.1 ∨ p.2 = writeVarUint64Slow (zigzagNat p.1)) :
    unmarshalDeltas (l.flatMap Prod.snd) (l.length + 1) = .ok (l.map Prod.fst) := by
  have hread := reads_varInt64s h []
  rw [append_nil] at hread
  rw [unmarshalDeltas, Nat.add_sub_cancel, hread]
  rfl

/-- The encodings of the numbers in a list of differences. -/
def slowEncodings (vs : List Int64) : List (Int64 × Bytes) :=
  vs.map fun v => (v, writeVarUint64Slow (zigzagNat v))

theorem flatMap_slowEncodings (vs : List Int64) :
    (slowEncodings vs).flatMap Prod.snd = marshalVarInt64s vs := by
  rw [marshalVarInt64s_eq, slowEncodings, flatMap_map]

theorem map_slowEncodings (vs : List Int64) : (slowEncodings vs).map Prod.fst = vs := by
  rw [slowEncodings, map_map]
  exact map_id vs

theorem unmarshalDeltas_marshal (ds : List Int64) :
    unmarshalDeltas (marshalVarInt64s ds) (ds.length + 1) = .ok ds := by
  have hread := unmarshalDeltas_eq (l := slowEncodings ds) (forall_mem_map.2 fun _ _ => .inr rfl)
  rwa [flatMap_slowEncodings, map_slowEncodings, slowEncodings, length_map] at hread

theorem unmarshalDeltas_marshal_cons (d : Int64) (ds : List Int64) :
    unmarshalDeltas (marshalVarInt64 d ++ marshalVarInt64s ds) (ds.length + 1 + 1) = .ok (d :: ds) := by
  have hread := unmarshalDeltas_eq (l := (d, marshalVarInt64 d) :: slowEncodings ds)
    (forall_mem_cons.2 ⟨.inl rfl, forall_mem_map.2 fun _ _ => .inr rfl⟩)
  rwa [flatMap_cons, map_cons, length_cons, flatMap_slowEncodings, map_slowEncodings, slowEncodings,
    length_map] at hread

theorem unmarshal_nearestDelta : ∃ bb, marshalInt64NearestDelta (v :: src) 64 = .ok (v, bb) ∧
      ∀ f, unmarshalInt64NearestDelta f bb v (v :: src).length = .ok (v :: src) := by
  refine ⟨marshalVarInt64s (deltas v src), rfl, fun f => ?_⟩
  have hread := unmarshalDeltas_marshal (deltas v src)
  rw [length_deltas] at hread
  rw [unmarshalInt64NearestDelta, if_neg (by simp), length_cons, hread, asOutcome, except_mapError_ok,
    except_ok_bind, addDeltas_deltas]
  rfl

theorem unmarshal_nearestDelta2 (first v : Int64) (src : List Int64) :
    ∃ bb, marshalInt64NearestDelta2 (first :: v :: src) 64 = .ok (first, bb) ∧
      ∀ f, unmarshalInt64NearestDelta2 f bb first (first :: v :: src).length =
        .ok (first :: v :: src) := by
  refine ⟨marshalVarInt64 (v - first) ++ marshalVarInt64s (deltas2 v (v - first) src), rfl,
    fun f => ?_⟩
  have hread := unmarshalDeltas_marshal_cons (v - first) (deltas2 v (v - first) src)
  rw [length_deltas2] at hread
  rw [unmarshalInt64NearestDelta2, if_neg (by simp), length_cons, length_cons, hread, asOutcome,
    except_mapError_ok, except_ok_bind]
  show Except.ok (first :: (first + (v - first)) :: addDeltas2 (first + (v - first)) (v - first) _) = _
  rw [add_sub_self, addDeltas2_deltas2]

theorem asOutcome_decompress {zstd : ZstdLevels} (hz : zstd.Lossless) (level : Int) (bb : Bytes)
    (f : String → String) {α : Type} (k : Bytes → Outcome α) :
    (asOutcome f (zstd.decompress (zstd.compressLevel level bb)) >>= k) = k bb := by
  rw [hz, asOutcome, except_mapError_ok, except_ok_bind]

theorem unmarshalInt64Array_delta (zstd : ZstdLevels) (d v : Int64) (n : Nat) :
    unmarshalInt64Array zstd (marshalVarInt64 d) .deltaConst v n = .ok (arithmetic d v n) := by
  have hpos := length_pos_of_ne_nil (marshalVarInt64_ne_nil d)
  rw [unmarshalInt64Array, if_neg (by decide), if_neg (by decide), if_neg (by decide),
    if_neg (by decide), if_neg (by decide), if_pos rfl, unmarshalVarInt64_marshal]
  dsimp only
  rw [if_neg (by omega), if_neg (by omega)]

theorem arithmetic_of_isDeltaConst {a0 : Int64} {as : List Int64}
    (h : isDeltaConst (a0 :: as) = true) :
    arithmetic (as.headD 0 - a0) a0 (a0 :: as).length = a0 :: as := by
  match as with
  | a1 :: as =>
    rw [headD_cons, length_cons, length_cons, arithmetic, arithmetic, add_sub_self,
      arithmetic_of_isDeltaConstFrom h]

/-- A list of 64-bit numbers, whichever form it is stored in, is read back at full precision. -/
theorem unmarshalInt64Array_marshal {zstd : ZstdLevels} (hz : zstd.Lossless) {a : List Int64}
    (ha : a ≠ []) :
    ∃ mt firstValue data, marshalInt64Array zstd a 64 = .ok (mt, firstValue, data) ∧
      unmarshalInt64Array zstd data mt firstValue a.length = .ok a := by
  obtain ⟨a0, as, rfl⟩ := exists_cons_of_ne_nil ha
  by_cases hconst : isConst (a0 :: as) = true
  · refine ⟨.const, a0, [], if_pos hconst, ?_⟩
    show Except.ok (List.replicate (a0 :: as).length a0) = _
    rw [← eq_replicate_of_isConst hconst]
  by_cases hdelta : isDeltaConst (a0 :: as) = true
  · refine ⟨.deltaConst, a0, _, (if_neg hconst).trans (if_pos hdelta), ?_⟩
    rw [unmarshalInt64Array_delta, arithmetic_of_isDeltaConst hdelta]
  -- a list of one value is constant
  obtain ⟨b1, bs, rfl⟩ : ∃ b1 bs, as = b1 :: bs := exists_cons_of_ne_nil fun hnil =>
    hconst (by simp [hnil, isConst])
  simp only [marshalInt64Array, if_neg hconst, if_neg hdelta]
  -- the differences, or the second differences, by the shape of the list
  cases isGauge (a0 :: b1 :: bs) with
  | true =>
    obtain ⟨bb, hbb, hread⟩ := unmarshal_nearestDelta a0 (b1 :: bs)
    have hbits : (if 64 < 6 then 64 + 2 else 64) = 64 := rfl
    simp only [hbits, if_true, hbb, except_ok_bind]
    split
    · exact ⟨_, _, _, rfl, hread _⟩
    · exact ⟨_, _, _, rfl, (asOutcome_decompress hz _ bb _ _).trans (hread _)⟩
  | false =>
    obtain ⟨bb, hbb, hread⟩ := unmarshal_nearestDelta2 a0 b1 bs
    simp only [Bool.false_eq_true, if_false, hbb, except_ok_bind]
    split
    · exact ⟨_, _, _, rfl, hread _⟩
    · exact ⟨_, _, _, rfl, (asOutcome_decompress hz _ bb _ _).trans (hread _)⟩

theorem unmarshalInt64Array_marshal_extremes :
    ([Int64.minValue, 5, Int64.maxValue, -1] : List Int64) ≠ [] ∧
      ∃ mt firstValue data,
        marshalInt64Array storedZstd [Int64.minValue, 5, Int64.maxValue, -1] 64 =
          .ok (mt, firstValue, data) ∧
        unmarshalInt64Array storedZstd data mt firstValue 4 =
          .ok [Int64.minValue, 5, Int64.maxValue, -1] :=
  ⟨cons_ne_nil _ _, unmarshalInt64Array_marshal storedZstd_lossless (cons_ne_nil _ _)⟩

end EsLogs.Encoding
