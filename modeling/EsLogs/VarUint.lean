import EsLogs.Encoding
import EsLogs.Unmarshal

/-!
The variable-length numbers and byte strings of `esl-common/src/encoding.rs`: seven bits a byte, the
low ones first, every byte but the last with its high bit set.
-/

namespace EsLogs.Encoding

open Unmarshal (Reads)

variable {u : Nat}

/-- `k` bytes of `u` with the high bit set, from the seven bits number `i` on, and a last byte. -/
def varBytes (u : Nat) : Nat → Nat → UInt8 → Bytes
  | _, 0, last => [last]
  | i, k + 1, last => UInt8.ofNat ((u >>> (7 * i)) ||| 0x80) :: varBytes u (i + 1) k last

/-- The branches of the unrolled encoder, by the number of bytes with the high bit. -/
def varBytesOf (u k : Nat) : Bytes := varBytes u 0 k (UInt8.ofNat (u >>> (7 * k)))

def writeVarUint64Slow (u : Nat) : Bytes :=
  if u < 1 <<< 7 then varBytesOf u 0
  else if u < 1 <<< (2 * 7) then varBytesOf u 1
  else if u < 1 <<< (3 * 7) then varBytesOf u 2
  else if u ≥ 1 <<< (8 * 7) then
    if u < 1 <<< (9 * 7) then varBytesOf u 8 else varBytes u 0 9 1
  else if u < 1 <<< (4 * 7) then varBytesOf u 3
  else if u < 1 <<< (5 * 7) then varBytesOf u 4
  else if u < 1 <<< (6 * 7) then varBytesOf u 5
  else if u < 1 <<< (7 * 7) then varBytesOf u 6
  else varBytesOf u 7

def marshalVarUint64 (u : Nat) : Bytes :=
  if u < 1 <<< 7 then varBytesOf u 0
  else if u < 1 <<< (2 * 7) then varBytesOf u 1
  else if u < 1 <<< (3 * 7) then varBytesOf u 2
  else writeVarUint64Slow u

/-- The loop of `uvarint` at the byte number `i`, with the bits collected so far. -/
def uvarintLoop : Bytes → Nat → Nat → Nat × Int
  | [], _, _ => (0, 0)
  | b :: buf, i, x =>
    if i = 10 then (0, -(i + 1))
    else if b < 0x80 then
      if i = 10 - 1 ∧ b > 1 then (0, -(i + 1))
      else (x ||| (b.toNat <<< (7 * i)) % 2 ^ 64, i + 1)
    else uvarintLoop buf (i + 1) (x ||| ((b.toNat &&& 0x7f) <<< (7 * i)) % 2 ^ 64)

def uvarint (buf : Bytes) : Nat × Int := uvarintLoop buf 0 0

/-- `unmarshal_var_uint64`: the number and its size; a size that is not positive is a failure. -/
def unmarshalVarUint64 (src : Bytes) : Nat × Int :=
  match src with
  | [] => (0, 0)
  | b :: src =>
    if b < 0x80 then (b.toNat, 1)
    else
      match src with
      | [] => (0, 0)
      | c :: _ =>
        if c < 0x80 then ((b.toNat &&& 0x7f) ||| (c.toNat <<< 7), 2) else uvarint (b :: src)

def marshalBytes (b : Bytes) : Bytes := marshalVarUint64 b.length ++ b

def unmarshalBytes (src : Bytes) : Option Bytes × Int :=
  let (n, nSize) := unmarshalVarUint64 src
  if nSize ≤ 0 then (none, 0)
  else
    let start := nSize.toNat
    if n > src.length - start then (none, 0)
    else (some ((src.drop start).take n), ↑(start + n))

/-- How the callers of `unmarshal_var_uint64` use it: a size that is not positive is the given
error, and reading goes on after the number. -/
def readVarUint64 (msg : String) : Unmarshal Nat := fun src =>
  let (n, nSize) := unmarshalVarUint64 src
  if nSize ≤ 0 then .error msg else .ok (n, src.drop nSize.toNat)

/-- How the callers of `unmarshal_bytes` use it. -/
def readBytes (msg : String) : Unmarshal Bytes := fun src =>
  let (data, nSize) := unmarshalBytes src
  if nSize ≤ 0 then .error msg else .ok (data.getD [], src.drop nSize.toNat)

/-- `readVarUint64` into a field of type `u64`. -/
def readU64 (msg : String) : Unmarshal UInt64 := do
  let n ← readVarUint64 msg
  return .ofNat n

/-! ### What is read back -/

set_option maxRecDepth 4000 in
theorem or_high_of_lt : ∀ a < 256, a ||| 0x80 = a % 128 + 128 := by decide

theorem toNat_ofNat_or_high (n : Nat) : (UInt8.ofNat (n ||| 0x80)).toNat = n % 128 + 128 := by
  rw [UInt8.toNat_ofNat', Nat.or_mod_two_pow, show (0x80 : Nat) % 2 ^ 8 = 0x80 from rfl,
    or_high_of_lt _ (Nat.mod_lt _ (by decide))]
  omega

/-- Bits that are put above the ones there are. -/
theorem or_shiftLeft_of_lt {x s : Nat} (h : x < 2 ^ s) (a : Nat) :
    x ||| a <<< s = a * 2 ^ s + x := by
  rw [Nat.shiftLeft_eq, Nat.or_comm, Nat.mul_comm, Nat.two_pow_add_eq_or_of_lt h]

/-- A byte of a number that is not its last one. -/
def highByte (u i : Nat) : UInt8 := UInt8.ofNat ((u >>> (7 * i)) ||| 0x80)

theorem not_highByte_lt (u i : Nat) : ¬highByte u i < 0x80 := by
  rw [UInt8.lt_iff_toNat_lt, highByte, toNat_ofNat_or_high]
  exact not_lt.2 (Nat.le_add_left _ _)

theorem highByte_and (u i : Nat) : (highByte u i).toNat &&& 0x7f = u / 2 ^ (7 * i) % 128 := by
  rw [highByte, toNat_ofNat_or_high, show (0x7f : Nat) = 2 ^ 7 - 1 from rfl,
    Nat.and_two_pow_sub_one_eq_mod, Nat.shiftRight_eq_div_pow]
  omega

/-- The next seven bits are put above the `7 * i` low ones. -/
theorem mod_or_digit (u i : Nat) :
    u % 2 ^ (7 * i) ||| (u / 2 ^ (7 * i) % 128) <<< (7 * i) = u % 2 ^ (7 * (i + 1)) := by
  rw [or_shiftLeft_of_lt (Nat.mod_lt _ (Nat.two_pow_pos _)), show 7 * (i + 1) = 7 * i + 7 by omega,
    pow_add, show (2 : Nat) ^ 7 = 128 from rfl, Nat.mod_mul, Nat.mul_comm, Nat.add_comm]

theorem mod_or_div (u i : Nat) : u % 2 ^ (7 * i) ||| (u / 2 ^ (7 * i)) <<< (7 * i) = u := by
  rw [or_shiftLeft_of_lt (Nat.mod_lt _ (Nat.two_pow_pos _))]
  exact Nat.div_add_mod' u (2 ^ (7 * i))

/-- The last byte has the bits from `7 * k` on. -/
theorem lastByte_toNat {u k : Nat} (hlt : u < 2 ^ (7 * (k + 1))) :
    (UInt8.ofNat (u >>> (7 * k))).toNat = u / 2 ^ (7 * k) ∧ UInt8.ofNat (u >>> (7 * k)) < 0x80 := by
  have hdiv : u / 2 ^ (7 * k) < 128 := by
    apply Nat.div_lt_of_lt_mul
    rwa [show 7 * (k + 1) = 7 * k + 7 by omega, pow_add] at hlt
  have hval : (UInt8.ofNat (u >>> (7 * k))).toNat = u / 2 ^ (7 * k) := by
    rw [UInt8.toNat_ofNat', Nat.shiftRight_eq_div_pow]
    exact Nat.mod_eq_of_lt (by omega)
  refine ⟨hval, ?_⟩
  rw [UInt8.lt_iff_toNat_lt, hval]
  exact hdiv

theorem length_varBytes (u i k : Nat) (last : UInt8) : (varBytes u i k last).length = k + 1 := by
  induction k generalizing i with
  | zero => rfl
  | succ k ih => rw [varBytes, List.length_cons, ih]

/-- The loop collects the low bits first: before byte `i` it has the `7 * i` low ones. -/
theorem uvarintLoop_varBytes {u i k : Nat} (hu : u < 2 ^ 64) (hlt : u < 2 ^ (7 * (i + k + 1)))
    (hk : i + k ≤ 9) (tail : Bytes) :
    uvarintLoop (varBytes u i k (UInt8.ofNat (u >>> (7 * (i + k)))) ++ tail) i (u % 2 ^ (7 * i)) =
      (u, ↑(i + k + 1)) := by
  induction k generalizing i with
  | zero =>
    rw [Nat.add_zero] at hlt hk ⊢
    obtain ⟨hbyte, hsmall⟩ := lastByte_toNat hlt
    -- a tenth byte holds the one bit that is left
    have htop : ¬(i = 10 - 1 ∧ UInt8.ofNat (u >>> (7 * i)) > 1) := by
      rintro ⟨rfl, hgt⟩
      have h1 : 1 < (UInt8.ofNat (u >>> (7 * (10 - 1)))).toNat := UInt8.lt_iff_toNat_lt.1 hgt
      rw [hbyte] at h1
      norm_num at h1
      omega
    have hval : (u / 2 ^ (7 * i)) <<< (7 * i) ≤ u := by
      rw [Nat.shiftLeft_eq]
      exact Nat.div_mul_le_self _ _
    rw [varBytes, List.singleton_append, uvarintLoop, if_neg (by omega), if_pos hsmall,
      if_neg htop, hbyte, Nat.mod_eq_of_lt (hval.trans_lt hu), mod_or_div]
    rfl
  | succ k ih =>
    have hfits : (u / 2 ^ (7 * i) % 128) <<< (7 * i) < 2 ^ 64 := by
      have hle : (u / 2 ^ (7 * i) % 128) <<< (7 * i) ≤ u / 2 ^ (7 * i) * 2 ^ (7 * i) := by
        rw [Nat.shiftLeft_eq]
        exact Nat.mul_le_mul_right _ (Nat.mod_le _ _)
      exact (hle.trans (Nat.div_mul_le_self _ _)).trans_lt hu
    have hlen : i + (k + 1) = i + 1 + k := by omega
    rw [varBytes, ← highByte, List.cons_append, uvarintLoop, if_neg (by omega),
      if_neg (not_highByte_lt u i), highByte_and, Nat.mod_eq_of_lt hfits, mod_or_digit, hlen]
    exact ih (by rwa [← hlen]) (by omega)

/-- The encoder picks the number of bytes that the number needs. -/
theorem writeVarUint64Slow_eq (h : u < 2 ^ 64) :
    ∃ k ≤ 9, writeVarUint64Slow u = varBytesOf u k ∧ u < 2 ^ (7 * (k + 1)) ∧ (k = 9 → 2 ^ 63 ≤ u) := by
  simp only [writeVarUint64Slow, Nat.one_shiftLeft]
  split_ifs with h1 h2 h3 h8 h9 h4 h5 h6 h7
  · exact ⟨0, by omega, rfl, h1, by omega⟩
  · exact ⟨1, by omega, rfl, h2, by omega⟩
  · exact ⟨2, by omega, rfl, h3, by omega⟩
  · exact ⟨8, by omega, rfl, h9, by omega⟩
  · have htop : u >>> (7 * 9) = 1 := by
      rw [Nat.shiftRight_eq_div_pow]
      omega
    exact ⟨9, by omega, by rw [varBytesOf, htop]; rfl, by omega, fun _ => by omega⟩
  · exact ⟨3, by omega, rfl, h4, by omega⟩
  · exact ⟨4, by omega, rfl, h5, by omega⟩
  · exact ⟨5, by omega, rfl, h6, by omega⟩
  · exact ⟨6, by omega, rfl, h7, by omega⟩
  · exact ⟨7, by omega, rfl, by omega, by omega⟩

/-- The shortcuts for one to three bytes are those of the slow path. -/
theorem marshalVarUint64_eq_slow (u : Nat) : marshalVarUint64 u = writeVarUint64Slow u := by
  simp only [marshalVarUint64]
  split_ifs with h1 h2 h3
  · rw [writeVarUint64Slow, if_pos h1]
  · rw [writeVarUint64Slow, if_neg h1, if_pos h2]
  · rw [writeVarUint64Slow, if_neg h1, if_neg h2, if_pos h3]
  · rfl

theorem marshalVarUint64_eq (h : u < 2 ^ 64) :
    ∃ k ≤ 9, marshalVarUint64 u = varBytesOf u k ∧ u < 2 ^ (7 * (k + 1)) := by
  obtain ⟨k, hk, heq, hlt, -⟩ := writeVarUint64Slow_eq h
  exact ⟨k, hk, (marshalVarUint64_eq_slow u).trans heq, hlt⟩

theorem length_marshalVarUint64 (h : u < 2 ^ 64) :
    0 < (marshalVarUint64 u).length ∧ (marshalVarUint64 u).length ≤ 10 := by
  obtain ⟨k, hk, heq, -⟩ := marshalVarUint64_eq h
  rw [heq, varBytesOf, length_varBytes]
  omega

/-- The fast paths for one and two bytes agree with the loop. -/
theorem unmarshalVarUint64_eq_uvarint (src : Bytes) : unmarshalVarUint64 src = uvarint src := by
  cases src with
  | nil => rfl
  | cons b src =>
    have hb : b.toNat < 256 := b.toNat_lt
    rw [uvarint]
    show (if b < 0x80 then _ else _) = _
    split_ifs with h1
    · simp [uvarintLoop, h1]
    · cases src with
      | nil => simp [uvarintLoop, h1]
      | cons c src =>
        have hc : c.toNat < 256 := c.toNat_lt
        have hlow : (b.toNat &&& 127) % 2 ^ 64 = b.toNat &&& 127 :=
          Nat.mod_eq_of_lt (Nat.and_le_left.trans_lt (by omega))
        have htwo : (c.toNat <<< 7) % 2 ^ 64 = c.toNat <<< 7 := by
          rw [Nat.shiftLeft_eq]
          omega
        show (if c < 0x80 then _ else _) = _
        split_ifs with h2
        · simp only [uvarintLoop, h1, h2]
          simp only [Nat.mul_zero, Nat.shiftLeft_zero, Nat.zero_or, hlow, htwo]
          rfl
        · rfl

theorem unmarshalVarUint64_marshal (h : u < 2 ^ 64) (tail : Bytes) :
    unmarshalVarUint64 (marshalVarUint64 u ++ tail) = (u, ↑(marshalVarUint64 u).length) := by
  obtain ⟨k, hk, heq, hlt⟩ := marshalVarUint64_eq h
  have hloop := uvarintLoop_varBytes (u := u) (i := 0) (k := k) h (by simpa using hlt)
    (by omega) tail
  rw [unmarshalVarUint64_eq_uvarint, uvarint, heq, varBytesOf, length_varBytes]
  simpa [Nat.mod_one] using hloop

theorem reads_varUint64 (h : u < 2 ^ 64) (msg : String) : Reads (readVarUint64 msg) u (marshalVarUint64 u) := by
  intro tail
  have hlen := (length_marshalVarUint64 h).1
  simp only [readVarUint64, unmarshalVarUint64_marshal h tail]
  rw [if_neg (by omega), Int.toNat_natCast, List.drop_left]

theorem reads_u64 (u : UInt64) (msg : String) :
    Reads (readU64 msg) u (marshalVarUint64 u.toNat) := by
  have h := (reads_varUint64 u.toNat_lt msg).return (f := UInt64.ofNat)
  rwa [UInt64.ofNat_toNat] at h

theorem unmarshalBytes_marshal {b : Bytes} (h : b.length < 2 ^ 64) (tail : Bytes) :
    unmarshalBytes (marshalBytes b ++ tail) = (some b, ↑(marshalBytes b).length) := by
  have hlen := (length_marshalVarUint64 h).1
  simp only [unmarshalBytes, marshalBytes, List.append_assoc, unmarshalVarUint64_marshal h]
  rw [if_neg (by omega), Int.toNat_natCast, List.length_append, List.length_append,
    if_neg (by omega), List.drop_left, List.take_left, List.length_append]

theorem reads_bytes {b : Bytes} (h : b.length < 2 ^ 64) (msg : String) :
    Reads (readBytes msg) b (marshalBytes b) := by
  intro tail
  have hlen : 0 < (marshalBytes b).length := by
    rw [marshalBytes, List.length_append]
    have := (length_marshalVarUint64 h).1
    omega
  simp only [readBytes, unmarshalBytes_marshal h tail]
  rw [if_neg (by omega), Int.toNat_natCast, List.drop_left]
  rfl

end EsLogs.Encoding
