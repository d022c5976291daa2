import EsLogs.VarUint

/-!
Lists of variable-length numbers (`encoding.rs`). The decoder of a list has an unrolled path of its own,
with a shortcut for numbers of one byte; it reads back what the encoder of a list writes, signed or
unsigned, whichever of their paths the two take.
-/

namespace EsLogs.Encoding

open List
open Unmarshal (Reads)

variable {u k : Nat} (v : Int64)

structure ZstdLevels where
  compressLevel : Int → Bytes → Bytes
  decompress : Bytes → Except String Bytes

/-- What is compressed at some level is decompressed without knowledge of the level. -/
def ZstdLevels.Lossless (zstd : ZstdLevels) : Prop :=
  ∀ level src, zstd.decompress (zstd.compressLevel level src) = .ok src

def storedZstd : ZstdLevels := ⟨fun _ src => src, .ok⟩

theorem storedZstd_lossless : storedZstd.Lossless := fun _ _ => rfl

/-- A digit of `hex_lower` and `hex_upper`, by the letter for ten. -/
def hexDigit (ten : Char) (n : Nat) : Char :=
  if n < 10 then Char.ofNat ('0'.toNat + n) else Char.ofNat (ten.toNat + (n - 10))

/-- `hex_lower` and `hex_upper`, by the letter for ten. -/
def hexWith (ten : Char) (b : Bytes) : String :=
  String.ofList (b.flatMap fun x => [hexDigit ten (x.toNat / 16), hexDigit ten (x.toNat % 16)])

def hexLower : Bytes → String := hexWith 'a'

def hexUpper : Bytes → String := hexWith 'A'

/-! ### Numbers without sign -/

def marshalVarUint64sSlow (us : List Nat) : Bytes := us.flatMap writeVarUint64Slow

/-- `marshal_var_uint64s`: numbers of one byte each until there is a bigger one. -/
def marshalVarUint64s (us : List Nat) : Bytes :=
  if ∀ u ∈ us, u < 1 <<< 7 then us.map UInt8.ofNat else marshalVarUint64sSlow us

/-- The bits of the bytes from byte number `i` on, without the high bits. -/
def varBits : Nat → Bytes → Nat
  | _, [] => 0
  | i, b :: bs => (b.toNat &&& 0x7f) <<< (7 * i) ||| varBits (i + 1) bs

/-- `unmarshal_var_uint64_tail`: the bytes number 4 to 10 of a number that starts at `src`, from
`tail` on. A tenth byte stands for the one bit that is left, whatever it holds. -/
def unmarshalVarUint64Tail (kind : String) (src tail : Bytes) (u : Nat) :
    Except String (Nat × Bytes) :=
  match tail.findIdx? (· < 0x80) with
  | none => .error ("unexpected end of encoded varint; src=" ++ hexLower src)
  | some last =>
    let b := tail.take last
    let z := tail.getD last 0
    if last + 1 ≤ 6 then
      .ok (u ||| varBits 3 b ||| z.toNat <<< (7 * (3 + last)), tail.drop (last + 1))
    else if last + 1 = 7 then
      if z > 1 then .error ("too big encoded " ++ kind ++ "; src=" ++ hexLower src)
      else .ok (u ||| varBits 3 b ||| 1 <<< (9 * 7), tail.drop (last + 1))
    else .error ("too long encoded " ++ kind ++
      "; the maximum allowed length is 10 bytes; got " ++ toString (last + 1 + 3) ++
      " bytes; src=" ++ hexLower src)

/-- The body of the loops of `unmarshal_var_uint64s_slow` and `unmarshal_var_int64s_slow`, which name
the kind of the number in their messages. -/
def readVarSlow (kind : String) : Unmarshal Nat := fun src =>
  match src with
  | [] => .error ("cannot unmarshal " ++ kind ++ " from empty data")
  | c :: src₁ =>
    if c < 0x80 then .ok (c.toNat, src₁)
    else
      match src₁ with
      | [] => .error ("unexpected end of encoded " ++ kind ++ " at byte 1; src=" ++ hexLower src)
      | d :: src₂ =>
        if d < 0x80 then .ok ((c.toNat &&& 0x7f) ||| d.toNat <<< 7, src₂)
        else
          match src₂ with
          | [] =>
            .error ("unexpected end of encoded " ++ kind ++ " at byte 2; src=" ++ hexLower src)
          | e :: src₃ =>
            if e < 0x80 then
              .ok ((c.toNat &&& 0x7f) ||| (d.toNat &&& 0x7f) <<< 7 ||| e.toNat <<< (2 * 7),
                src₃)
            else
              unmarshalVarUint64Tail kind src src₃ ((c.toNat &&& 0x7f) |||
                (d.toNat &&& 0x7f) <<< 7 ||| (e.toNat &&& 0x7f) <<< (2 * 7))

/-- `unmarshal_var_uint64s` and `unmarshal_var_int64s`, by the kind of the numbers, the meaning of a
number of one byte and the meaning of a number. -/
def unmarshalVars {α : Type} (kind : String) (ofByte : UInt8 → α) (ofNat : Nat → α) (n : Nat) :
    Unmarshal (List α) := fun src =>
  if src.length < n then
    .error ("too small len(src)=" ++ toString src.length ++
      "; it must be bigger or equal to len(dst)=" ++ toString n)
  else if ∀ c ∈ src.take n, c < 0x80 then .ok ((src.take n).map ofByte, src.drop n)
  else
    Unmarshal.times (fun _ => do
      let u ← readVarSlow kind
      return ofNat u) 0 n src

def unmarshalVarUint64s : Nat → Unmarshal (List Nat) := unmarshalVars "varuint" UInt8.toNat id

/-! ### Numbers with sign -/

def zigzagNat (v : Int64) : Nat := (zigzag v.toBitVec).toNat

def unzigzagNat (u : Nat) : Int64 := .ofBitVec (unzigzag (.ofNat 64 u))

def marshalVarInt64 (v : Int64) : Bytes :=
  let u := zigzagNat v
  if v < 64 ∧ v > -64 then varBytesOf u 0
  else if u < 1 <<< (2 * 7) then varBytesOf u 1
  else if u < 1 <<< (3 * 7) then varBytesOf u 2
  else writeVarUint64Slow u

def marshalVarInt64sSlow (vs : List Int64) : Bytes := vs.flatMap fun v => writeVarUint64Slow (zigzagNat v)

def marshalVarInt64s (vs : List Int64) : Bytes :=
  if ∀ v ∈ vs, ¬(v ≥ 64 ∨ v ≤ -64) then vs.map fun v => UInt8.ofNat (zigzagNat v)
  else marshalVarInt64sSlow vs

def unmarshalVarInt64 (src : Bytes) : Int64 × Int :=
  let (u, nSize) := uvarint src
  (unzigzagNat u, nSize)

def unzigzagByte (c : UInt8) : Int64 :=
  (((c >>> 1).toInt8 ^^^ ((c <<< 7).toInt8 >>> 7))).toInt64

def unmarshalVarInt64s : Nat → Unmarshal (List Int64) := unmarshalVars "varint" unzigzagByte unzigzagNat

/-! ### What is read back -/

theorem varBytes_eq (u i k : Nat) (last : UInt8) :
    varBytes u i k last = (range' i k).map (highByte u) ++ [last] := by
  induction k generalizing i with
  | zero => rfl
  | succ k ih =>
    rw [varBytes, ih, range'_succ, map_cons, cons_append]
    rfl

theorem mod_or_varBits (u i k : Nat) :
    u % 2 ^ (7 * i) ||| varBits i ((range' i k).map (highByte u)) = u % 2 ^ (7 * (i + k)) := by
  induction k generalizing i with
  | zero => exact Nat.or_zero _
  | succ k ih =>
    rw [range'_succ, map_cons, varBits, highByte_and, ← Nat.or_assoc, mod_or_digit, ih,
      show i + (k + 1) = i + 1 + k by omega]

theorem findIdx?_append_cons {α : Type} {p : α → Bool} {l : List α} {z : α} (h : ∀ a ∈ l, p a = false)
    (hz : p z = true) (t : List α) : (l ++ z :: t).findIdx? p = some l.length := by
  induction l with
  | nil => rw [nil_append, findIdx?_cons, hz]; rfl
  | cons a l ih =>
    rw [cons_append, findIdx?_cons, h a mem_cons_self,
      ih fun b hb => h b (mem_cons_of_mem _ hb)]
    rfl

/-- The bytes from the fourth one on complete the 21 low bits. -/
theorem unmarshalVarUint64Tail_highs {z : UInt8} (hz : z < 0x80)
    (hzval : z.toNat = u / 2 ^ (7 * (3 + k))) (hk : k ≤ 6) (htop : k = 6 → z = 1) (kind : String) (src tail : Bytes) :
    unmarshalVarUint64Tail kind src ((range' 3 k).map (highByte u) ++ z :: tail)
      (u % 2 ^ (7 * 3)) = .ok (u, tail) := by
  have hlen : ((range' 3 k).map (highByte u)).length = k := by simp
  have hfind := findIdx?_append_cons (p := fun c : UInt8 => decide (c < 0x80))
    (l := (range' 3 k).map (highByte u)) (z := z) (fun b hb => by
      obtain ⟨i, -, rfl⟩ := mem_map.1 hb
      exact decide_eq_false (not_highByte_lt u i)) (decide_eq_true hz) tail
  rw [hlen] at hfind
  have htake : ((range' 3 k).map (highByte u) ++ z :: tail).take k =
      (range' 3 k).map (highByte u) := take_left' hlen
  have hget : ((range' 3 k).map (highByte u) ++ z :: tail).getD k 0 = z := by
    rw [getD_append_right _ _ _ _ hlen.le, hlen, Nat.sub_self]
    rfl
  have hdrop : ((range' 3 k).map (highByte u) ++ z :: tail).drop (k + 1) = tail := by
    rw [← drop_drop, drop_left' hlen]
    rfl
  have hval : u % 2 ^ (7 * 3) ||| varBits 3 ((range' 3 k).map (highByte u)) |||
      z.toNat <<< (7 * (3 + k)) = u := by
    rw [mod_or_varBits, hzval, mod_or_div]
  simp only [unmarshalVarUint64Tail, hfind, htake, hget, hdrop]
  rcases Nat.lt_or_eq_of_le hk with hlt | rfl
  · rw [if_pos (by omega), hval]
  · rw [htop rfl] at hval ⊢
    exact congrArg (fun n => Except.ok (n, tail)) hval

section ReadVarSlow

variable {c d e : UInt8} (kind : String) (tail : Bytes)

theorem readVarSlow_one (hc : c < 0x80) : readVarSlow kind (c :: tail) = .ok (c.toNat, tail) :=
  if_pos hc

theorem readVarSlow_two (hc : ¬c < 0x80) (hd : d < 0x80) :
    readVarSlow kind (c :: d :: tail) = .ok ((c.toNat &&& 0x7f) ||| d.toNat <<< 7, tail) :=
  (if_neg hc).trans (if_pos hd)

theorem readVarSlow_three (hc : ¬c < 0x80) (hd : ¬d < 0x80) (he : e < 0x80) :
    readVarSlow kind (c :: d :: e :: tail) =
      .ok ((c.toNat &&& 0x7f) ||| (d.toNat &&& 0x7f) <<< 7 ||| e.toNat <<< (2 * 7), tail) :=
  (if_neg hc).trans ((if_neg hd).trans (if_pos he))

theorem readVarSlow_more (hc : ¬c < 0x80) (hd : ¬d < 0x80) (he : ¬e < 0x80) :
    readVarSlow kind (c :: d :: e :: tail) =
      unmarshalVarUint64Tail kind (c :: d :: e :: tail) tail
        ((c.toNat &&& 0x7f) ||| (d.toNat &&& 0x7f) <<< 7 ||| (e.toNat &&& 0x7f) <<< (2 * 7)) :=
  (if_neg hc).trans ((if_neg hd).trans (if_neg he))

end ReadVarSlow

/-- Reading `k` bytes with the high bit set and a last one that holds the bits from `7 * k` on. -/
theorem readVarSlow_highs {z : UInt8} (hz : z < 0x80)
    (hzval : z.toNat = u / 2 ^ (7 * k)) (hk : k ≤ 9) (htop : k = 9 → z = 1) (kind : String) (tail : Bytes) :
    readVarSlow kind ((range' 0 k).map (highByte u) ++ z :: tail) = .ok (u, tail) := by
  have h0 := highByte_and u 0
  have hone : u / 2 ^ (7 * 0) % 128 = u % 2 ^ (7 * 1) := by norm_num
  rw [hone] at h0
  rcases k with _ | _ | _ | k
  · have hval : z.toNat = u := by rw [hzval, Nat.mul_zero, pow_zero, Nat.div_one]
    rw [range'_zero, map_nil, nil_append, readVarSlow_one kind tail hz, hval]
  · have hval := mod_or_div u 1
    rw [← h0, ← hzval] at hval
    simp only [range'_succ, range'_zero, map_cons, map_nil, cons_append,
      nil_append]
    rw [readVarSlow_two kind tail (not_highByte_lt u 0) hz]
    exact congrArg (fun n => Except.ok (n, tail)) hval
  · have hval := mod_or_div u 2
    rw [← mod_or_digit, ← highByte_and, ← h0, ← hzval] at hval
    simp only [range'_succ, range'_zero, map_cons, map_nil, cons_append,
      nil_append]
    rw [readVarSlow_three kind tail (not_highByte_lt u 0) (not_highByte_lt u _) hz]
    exact congrArg (fun n => Except.ok (n, tail)) hval
  · have hval := mod_or_digit u 2
    rw [← mod_or_digit, ← highByte_and, ← highByte_and, ← h0] at hval
    have hzval' : z.toNat = u / 2 ^ (7 * (3 + k)) := by
      rw [hzval, show k + 1 + 1 + 1 = 3 + k by omega]
    have htail := unmarshalVarUint64Tail_highs hz hzval' (by omega) (fun h6 => htop (by omega)) kind
      (highByte u 0 :: highByte u 1 :: highByte u 2 ::
        ((range' 3 k).map (highByte u) ++ z :: tail)) tail
    rw [← hval] at htail
    simp only [range'_succ, map_cons, cons_append]
    rw [readVarSlow_more kind _ (not_highByte_lt u 0) (not_highByte_lt u _) (not_highByte_lt u _)]
    exact htail

theorem reads_varBytesOf (h : u < 2 ^ 64) (hk : k ≤ 9) (hlt : u < 2 ^ (7 * (k + 1)))
    (htop : k = 9 → 2 ^ 63 ≤ u) (kind : String) : Reads (readVarSlow kind) u (varBytesOf u k) := by
  intro tail
  obtain ⟨hzval, hz⟩ := lastByte_toNat hlt
  rw [varBytesOf, varBytes_eq, append_assoc, singleton_append]
  refine readVarSlow_highs hz hzval hk (fun h9 => ?_) kind tail
  -- of a number that takes ten bytes one bit is left
  subst h9
  have h63 := htop rfl
  rw [← UInt8.toNat_inj, hzval]
  show u / 2 ^ 63 = 1
  omega

theorem reads_varSlow {u : Nat} (h : u < 2 ^ 64) (kind : String) :
    Reads (readVarSlow kind) u (writeVarUint64Slow u) := by
  obtain ⟨k, hk, heq, hlt, htop⟩ := writeVarUint64Slow_eq h
  rw [heq]
  exact reads_varBytesOf h hk hlt htop kind

theorem varBytesOf_ne_nil (u k : Nat) : varBytesOf u k ≠ [] := by
  intro h
  have hlen := length_varBytes u 0 k (UInt8.ofNat (u >>> (7 * k)))
  rw [← varBytesOf, h] at hlen
  cases hlen

theorem writeVarUint64Slow_ne_nil {u : Nat} (h : u < 2 ^ 64) : writeVarUint64Slow u ≠ [] := by
  obtain ⟨k, -, heq, -⟩ := writeVarUint64Slow_eq h
  rw [heq]
  exact varBytesOf_ne_nil u k

section Lists

variable {α : Type} (kind : String) (ofByte : UInt8 → α) (ofNat : Nat → α)

/-- Numbers of one byte are read the same way one by one. -/
theorem times_readVarSlow_of_small (hbyte : ∀ c : UInt8, c < 0x80 → ofByte c = ofNat c.toNat)
    {n : Nat} {src : Bytes} (hn : n ≤ src.length) (hsmall : ∀ c ∈ src.take n, c < 0x80) (i : Nat) :
    Unmarshal.times (fun _ => do
      let u ← readVarSlow kind
      return ofNat u) i n src = .ok ((src.take n).map ofByte, src.drop n) := by
  induction n generalizing src i with
  | zero => rfl
  | succ n ih =>
    cases src with
    | nil => cases hn
    | cons c src =>
      have hc := hsmall c mem_cons_self
      have hrest := ih (Nat.le_of_succ_le_succ hn)
        (fun b hb => hsmall b (mem_cons_of_mem _ hb)) (i + 1)
      have hread : (do let u ← readVarSlow kind; return ofNat u : Unmarshal α) (c :: src) =
          .ok (ofByte c, src) := by
        show (readVarSlow kind (c :: src) >>= fun r => .ok (ofNat r.1, r.2)) = _
        rw [readVarSlow_one kind src hc, except_ok_bind, hbyte c hc]
      show ((do let u ← readVarSlow kind; return ofNat u : Unmarshal α) (c :: src) >>= fun r =>
        Unmarshal.times _ (i + 1) n r.2 >>= fun r' => .ok (r.1 :: r'.1, r'.2)) = _
      rw [hread, except_ok_bind, hrest]
      rfl

/-- What was written one by one is read back. -/
theorem reads_vars (hbyte : ∀ c : UInt8, c < 0x80 → ofByte c = ofNat c.toNat) {β : Type}
    (toNat : β → Nat) (enc : β → Bytes) {l : List β}
    (h : ∀ b ∈ l, Reads (readVarSlow kind) (toNat b) (enc b)) (hne : ∀ b ∈ l, enc b ≠ []) :
    Reads (unmarshalVars kind ofByte ofNat l.length) (l.map fun b => ofNat (toNat b))
      (l.flatMap enc) := by
  intro tail
  have hslow : Reads (Unmarshal.times (fun _ => do
      let u ← readVarSlow kind
      return ofNat u) 0 l.length) (l.map fun b => ofNat (toNat b)) (l.flatMap enc) :=
    Reads.times_map (fun _ b hb => (h b hb).return) 0
  have hlen : l.length ≤ (l.flatMap enc ++ tail).length := by
    rw [length_append]
    exact (length_le_length_flatMap hne).trans (Nat.le_add_right _ _)
  rw [unmarshalVars, if_neg (by omega)]
  split_ifs with hsmall
  · rw [← times_readVarSlow_of_small kind ofByte ofNat hbyte hlen hsmall 0]
    exact hslow tail
  · exact hslow tail

end Lists

theorem writeVarUint64Slow_of_lt {u : Nat} (h : u < 1 <<< 7) :
    writeVarUint64Slow u = [UInt8.ofNat u] := by
  rw [writeVarUint64Slow, if_pos h]
  rfl

theorem marshalVarUint64s_eq (us : List Nat) : marshalVarUint64s us = us.flatMap writeVarUint64Slow := by
  rw [marshalVarUint64s]
  split_ifs with h
  · rw [map_eq_flatMap]
    apply flatMap_congr
    exact fun u hu => (writeVarUint64Slow_of_lt (h u hu)).symm
  · rfl

theorem reads_varUint64s {us : List Nat} (h : ∀ u ∈ us, u < 2 ^ 64) :
    Reads (unmarshalVarUint64s us.length) us (marshalVarUint64s us) := by
  have hread := reads_vars "varuint" UInt8.toNat id (fun _ _ => rfl) id writeVarUint64Slow (fun u hu => reads_varSlow (h u hu) "varuint")
    (fun u hu => writeVarUint64Slow_ne_nil (h u hu))
  rw [marshalVarUint64s_eq]
  rwa [show (us.map fun u => id (id u)) = us from map_id us] at hread

/-! ### Signed numbers are read back -/

theorem zigzagNat_lt : zigzagNat v < 2 ^ 64 := (zigzag v.toBitVec).isLt

theorem unzigzagNat_zigzagNat : unzigzagNat (zigzagNat v) = v := by
  rw [unzigzagNat, zigzagNat, BitVec.ofNat_toNat, BitVec.setWidth_eq, unzigzag_zigzag,
    Int64.ofBitVec_toBitVec]

set_option maxRecDepth 8000 in
theorem zigzagNat_small_table : ∀ n : Fin 127, zigzagNat (Int64.ofInt (n - 63)) < 1 <<< 7 := by
  decide

theorem zigzagNat_of_small {v : Int64} (hlo : -64 < v) (hhi : v < 64) : zigzagNat v < 1 <<< 7 := by
  have hlo' : -64 < v.toInt := Int64.lt_iff_toInt_lt.1 hlo
  have hhi' : v.toInt < 64 := Int64.lt_iff_toInt_lt.1 hhi
  have h := zigzagNat_small_table ⟨(v.toInt + 63).toNat, by omega⟩
  have hv : ((⟨(v.toInt + 63).toNat, by omega⟩ : Fin 127) : Int) - 63 = v.toInt := by
    show (((v.toInt + 63).toNat : Nat) : Int) - 63 = v.toInt
    omega
  rwa [hv, Int64.ofInt_toInt] at h

set_option maxRecDepth 8000 in
theorem unzigzagByte_table : ∀ n : Fin 128, unzigzagByte (.ofNat n) = unzigzagNat n := by decide

theorem unzigzagByte_eq (c : UInt8) (hc : c < 0x80) : unzigzagByte c = unzigzagNat c.toNat := by
  have h := unzigzagByte_table ⟨c.toNat, UInt8.lt_iff_toNat_lt.1 hc⟩
  rwa [UInt8.ofNat_toNat] at h

theorem marshalVarInt64s_eq (vs : List Int64) :
    marshalVarInt64s vs = vs.flatMap fun v => writeVarUint64Slow (zigzagNat v) := by
  rw [marshalVarInt64s]
  split_ifs with h
  · rw [map_eq_flatMap]
    apply flatMap_congr
    intro v hv
    have hv := h v hv
    rw [not_or, ge_iff_le, Int64.not_le, Int64.not_le] at hv
    exact (writeVarUint64Slow_of_lt (zigzagNat_of_small hv.2 hv.1)).symm
  · rfl

/-- A single number; -64 gets a byte more than it needs. -/
theorem marshalVarInt64_eq :
    ∃ k ≤ 9, marshalVarInt64 v = varBytesOf (zigzagNat v) k ∧ zigzagNat v < 2 ^ (7 * (k + 1)) ∧
      (k = 9 → 2 ^ 63 ≤ zigzagNat v) := by
  simp only [marshalVarInt64]
  split_ifs with h1 h2 h3
  · exact ⟨0, by omega, rfl, zigzagNat_of_small h1.2 h1.1, by omega⟩
  · exact ⟨1, by omega, rfl, h2, by omega⟩
  · exact ⟨2, by omega, rfl, h3, by omega⟩
  · exact writeVarUint64Slow_eq (zigzagNat_lt v)

theorem reads_varInt64Slow (kind : String) : Reads (readVarSlow kind) (zigzagNat v) (marshalVarInt64 v) := by
  obtain ⟨k, hk, heq, hlt, htop⟩ := marshalVarInt64_eq v
  rw [heq]
  exact reads_varBytesOf (zigzagNat_lt v) hk hlt htop kind

theorem marshalVarInt64_ne_nil : marshalVarInt64 v ≠ [] := by
  obtain ⟨k, -, heq, -⟩ := marshalVarInt64_eq v
  rw [heq]
  exact varBytesOf_ne_nil _ k

theorem unmarshalVarInt64_marshal : unmarshalVarInt64 (marshalVarInt64 v) = (v, ↑(marshalVarInt64 v).length) := by
  obtain ⟨k, hk, heq, hlt, -⟩ := marshalVarInt64_eq v
  have hloop := uvarintLoop_varBytes (u := zigzagNat v) (i := 0) (k := k) (zigzagNat_lt v)
    (by rwa [Nat.zero_add]) (by omega) []
  simp only [Nat.zero_add, Nat.mul_zero, pow_zero, Nat.mod_one, append_nil] at hloop
  rw [unmarshalVarInt64, uvarint, heq, varBytesOf, hloop, length_varBytes]
  show (unzigzagNat (zigzagNat v), _) = _
  rw [unzigzagNat_zigzagNat]

/-- Signed numbers, each of which was written by one of the two encoders. -/
theorem reads_varInt64s {l : List (Int64 × Bytes)}
    (h : ∀ p ∈ l, p.2 = marshalVarInt64 p.1 ∨ p.2 = writeVarUint64Slow (zigzagNat p.1)) :
    Reads (unmarshalVarInt64s l.length) (l.map Prod.fst) (l.flatMap Prod.snd) := by
  have hread := reads_vars "varint" unzigzagByte unzigzagNat unzigzagByte_eq
    (fun p : Int64 × Bytes => zigzagNat p.1) Prod.snd (l := l)
    (fun p hp => by
      rcases h p hp with hp | hp <;> rw [hp]
      · exact reads_varInt64Slow p.1 "varint"
      · exact reads_varSlow (zigzagNat_lt p.1) "varint")
    (fun p hp => by
      rcases h p hp with hp | hp <;> rw [hp]
      · exact marshalVarInt64_ne_nil p.1
      · exact writeVarUint64Slow_ne_nil (zigzagNat_lt p.1))
  simp only [unzigzagNat_zigzagNat] at hread
  exact hread

end EsLogs.Encoding
