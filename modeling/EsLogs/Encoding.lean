import EsLogs.Bytes

/-!
The integer encodings of `esl-common/src/encoding.rs`: fixed-width big-endian numbers and the
zig-zag form of signed ones. A number is read back from the bytes that were written for it,
whatever bytes follow.
-/

namespace EsLogs.Encoding

variable {n : Nat} (v : BitVec 64)

def marshalUint16 (u : Nat) : Bytes := beBytes 2 u

def marshalUint32 (u : Nat) : Bytes := beBytes 4 u

def marshalUint64 (u : Nat) : Bytes := beBytes 8 u

/-- `unmarshal_uint16`: the caller ensures that there are two bytes. -/
def unmarshalUint16 (src : Bytes) : Nat := beNat (src.take 2)

/-- `unmarshal_uint32`: the caller ensures that there are four bytes. -/
def unmarshalUint32 (src : Bytes) : Nat := beNat (src.take 4)

/-- `unmarshal_uint64`: the caller ensures that there are eight bytes. -/
def unmarshalUint64 (src : Bytes) : Nat := beNat (src.take 8)

/-- The zig-zag encoding without branching: `(v << 1) ^ (v >> 63)`. -/
def zigzag (v : BitVec 64) : BitVec 64 := (v <<< 1) ^^^ v.sshiftRight 63

/-- The zig-zag decoding without branching: `(u >> 1) ^ ((u << 63) >> 63)`. -/
def unzigzag (u : BitVec 64) : BitVec 64 := (u >>> 1) ^^^ (u <<< 63).sshiftRight 63

def marshalInt64 (v : Int) : Bytes := beBytes 8 (zigzag (BitVec.ofInt 64 v)).toNat

/-- `unmarshal_int64`: the caller ensures that there are eight bytes. -/
def unmarshalInt64 (src : Bytes) : Int := (unzigzag (BitVec.ofNat 64 (beNat (src.take 8)))).toInt

@[simp]
theorem length_marshalUint16 (n : Nat) : (marshalUint16 n).length = 2 := length_beBytes 2 n

@[simp]
theorem length_marshalUint32 (n : Nat) : (marshalUint32 n).length = 4 := length_beBytes 4 n

@[simp]
theorem length_marshalUint64 (n : Nat) : (marshalUint64 n).length = 8 := length_beBytes 8 n

@[simp]
theorem length_marshalInt64 (v : Int) : (marshalInt64 v).length = 8 := length_beBytes 8 _

theorem beNat_take_append (w n : Nat) (h : n < 256 ^ w) (tail : Bytes) :
    beNat ((beBytes w n ++ tail).take w) = n := by
  rw [List.take_left' (length_beBytes w n), beNat_beBytes h]

theorem unmarshalUint32_marshal (h : n < 2 ^ 32) (tail : Bytes) :
    unmarshalUint32 (marshalUint32 n ++ tail) = n := beNat_take_append 4 n h tail

theorem unmarshalUint64_marshal (h : n < 2 ^ 64) (tail : Bytes) :
    unmarshalUint64 (marshalUint64 n ++ tail) = n := beNat_take_append 8 n h tail

theorem beNat_take_self (w n : Nat) (h : n < 256 ^ w) : beNat ((beBytes w n).take w) = n := by
  rw [List.take_of_length_le (length_beBytes w n).le, beNat_beBytes h]

theorem unmarshalUint16_self (h : n < 2 ^ 16) : unmarshalUint16 (marshalUint16 n) = n := beNat_take_self 2 n h

theorem unmarshalUint32_self (h : n < 2 ^ 32) : unmarshalUint32 (marshalUint32 n) = n := beNat_take_self 4 n h

theorem unmarshalUint64_self (h : n < 2 ^ 64) : unmarshalUint64 (marshalUint64 n) = n := beNat_take_self 8 n h

theorem beNat_take_lt (w : Nat) (v : Bytes) : beNat (v.take w) < 256 ^ w :=
  (beNat_lt _).trans_le (Nat.pow_le_pow_right (by omega) (List.length_take_le w v))

theorem unmarshalInt64_range (v : Bytes) : -2 ^ 63 ≤ unmarshalInt64 v ∧ unmarshalInt64 v < 2 ^ 63 := by
  constructor
  · exact BitVec.le_toInt _
  · exact BitVec.toInt_lt

theorem getLsbD_sshiftRight_63 {i : Nat} (h : i < 64) : (v.sshiftRight 63).getLsbD i = v.getLsbD 63 := by
  rw [BitVec.getLsbD_sshiftRight, decide_eq_false (by omega), Bool.not_false, Bool.true_and]
  split_ifs with hi
  · rw [show 63 + i = 63 by omega]
  · rw [BitVec.msb_eq_getLsbD_last]

/-- Bit 0 of the zig-zag form is the sign, the others are the bits below it, flipped by the sign. -/
theorem getLsbD_zigzag {i : Nat} (h : i < 64) :
    (zigzag v).getLsbD i = ((decide (0 < i) && v.getLsbD (i - 1)) ^^ v.getLsbD 63) := by
  rw [zigzag, BitVec.getLsbD_xor, getLsbD_sshiftRight_63 v h, BitVec.getLsbD_shiftLeft]
  have hpos : (!decide (i < 1)) = decide (0 < i) := by
    rw [← decide_not]
    exact decide_eq_decide.2 (by omega)
  rw [decide_eq_true h, Bool.true_and, hpos]

theorem unzigzag_zigzag : unzigzag (zigzag v) = v := by
  apply BitVec.eq_of_getLsbD_eq
  intro i hi
  have hsign : ((zigzag v) <<< 63).getLsbD 63 = v.getLsbD 63 := by
    rw [BitVec.getLsbD_shiftLeft, getLsbD_zigzag v (by omega)]
    simp
  rw [unzigzag, BitVec.getLsbD_xor, getLsbD_sshiftRight_63 _ hi, hsign, BitVec.getLsbD_ushiftRight]
  by_cases h63 : i = 63
  · subst h63
    simp
  · rw [getLsbD_zigzag v (by omega)]
    simp [Nat.add_comm 1 i]

theorem unmarshalInt64_marshal {v : Int} (hlo : -2 ^ 63 ≤ v) (hhi : v < 2 ^ 63) (tail : Bytes) :
    unmarshalInt64 (marshalInt64 v ++ tail) = v := by
  have hlt : (zigzag (BitVec.ofInt 64 v)).toNat < 256 ^ 8 := (zigzag (BitVec.ofInt 64 v)).isLt
  rw [unmarshalInt64, marshalInt64, beNat_take_append 8 _ hlt, BitVec.ofNat_toNat,
    BitVec.setWidth_eq, unzigzag_zigzag, BitVec.toInt_ofInt_eq_self (by omega) (by simpa using hlo) (by simpa using hhi)]

theorem unmarshalInt64_self {v : Int} (hlo : -2 ^ 63 ≤ v) (hhi : v < 2 ^ 63) :
    unmarshalInt64 (marshalInt64 v) = v := List.append_nil (marshalInt64 v) ▸ unmarshalInt64_marshal hlo hhi []

end EsLogs.Encoding
