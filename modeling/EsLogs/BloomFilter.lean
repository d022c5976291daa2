import EsLogs.Bitmap
import EsLogs.Encoding

/-!
Bloom filters over words of a text (`bloomfilter.rs`). A filter has 16 bits for each word of its column, and each word
sets six of them, chosen by hashes of its hash. The hash function is any function; a filter never misses a word that
it was built from.
-/

namespace EsLogs

open Word Encoding List

/-- The hash function `xxh64`: of a byte string, and of the bytes of a number in the order of the machine. -/
structure Xxh64 where
  ofBytes : Bytes → UInt64
  ofWord : UInt64 → UInt64

def bloomFilterHashesCount : Nat := 6

def bloomFilterBitsPerItem : Nat := 16

def hashHashes (x : Xxh64) (h : UInt64) : List UInt64 :=
  (List.range bloomFilterHashesCount).map fun i => x.ofWord (h + UInt64.ofNat i)

def appendHashesHashes (x : Xxh64) (hashes : List UInt64) : List UInt64 := hashes.flatMap (hashHashes x)

def appendTokensHashes (x : Xxh64) (tokens : List Bytes) : List UInt64 :=
  tokens.flatMap fun token => hashHashes x (x.ofBytes token)

/-- The number of the bit that a hash stands for. -/
def bitIndex (bits : List UInt64) (h : UInt64) : Nat := h.toNat % (bits.length * 64)

def addHash (bits : List UInt64) (h : UInt64) : List UInt64 :=
  let idx := bitIndex bits h
  let w := bits.getD (idx / 64) 0
  if hasBit w (idx % 64) then bits else bits.set (idx / 64) (w ||| mask (idx % 64))

def initBloomFilter (bits : List UInt64) (hashes : List UInt64) : List UInt64 := hashes.foldl addHash bits

structure BloomFilter where
  bits : List UInt64
  deriving DecidableEq, Repr

namespace BloomFilter

def wordsFor (items : Nat) : List UInt64 :=
  List.replicate ((items * bloomFilterBitsPerItem + 63) / 64) 0

/-- `BloomFilter::must_init_tokens`, of a filter that was reset. -/
def mustInitTokens (x : Xxh64) (tokens : List Bytes) : BloomFilter :=
  ⟨initBloomFilter (wordsFor tokens.length) (appendTokensHashes x tokens)⟩

/-- `BloomFilter::must_init_hashes`, of a filter that was reset. -/
def mustInitHashes (x : Xxh64) (hashes : List UInt64) : BloomFilter :=
  ⟨initBloomFilter (wordsFor hashes.length) (appendHashesHashes x hashes)⟩

def containsAll (bf : BloomFilter) (hashes : List UInt64) : Bool :=
  bf.bits.isEmpty || hashes.all fun h => wordsBit bf.bits (bitIndex bf.bits h)

/-- The loop of `BloomFilter::unmarshal` over the words of the filter. -/
def unmarshalWords : Nat → Bytes → List UInt64
  | 0, _ => []
  | n + 1, src => UInt64.ofNat (unmarshalUint64 src) :: unmarshalWords n (src.drop 8)

def unmarshal (src : Bytes) : Except String BloomFilter :=
  if src.length % 8 ≠ 0 then
    .error s!"cannot unmarshal bloomFilter from src with size not multiple by 8; len(src)={src.length}"
  else .ok ⟨unmarshalWords (src.length / 8) src⟩

/-- `BloomFilter::bytes_contain_all`, which reads the words it needs where they lie. -/
def bytesContainAll (raw : Bytes) (hashes : List UInt64) : Bool :=
  raw.isEmpty || hashes.all fun h =>
    let idx := h.toNat % (raw.length / 8 * 64)
    hasBit (UInt64.ofNat (unmarshalUint64 (raw.drop (idx / 64 * 8)))) (idx % 64)

end BloomFilter

/-! ### No word is missed -/

theorem length_addHash (bits : List UInt64) (h : UInt64) : (addHash bits h).length = bits.length := by
  unfold addHash
  dsimp only
  split
  case isTrue => rfl
  case isFalse => exact length_set

theorem bitIndex_lt {bits : List UInt64} (hne : bits ≠ []) (h : UInt64) : bitIndex bits h < bits.length * 64 := by
  have hpos := length_pos_iff.2 hne
  exact Nat.mod_lt _ (by omega)

/-- A round sets the bit of its hash and leaves the others as they are. -/
theorem wordsBit_addHash {bits : List UInt64} (hne : bits ≠ []) (h : UInt64) (i : Nat) :
    wordsBit (addHash bits h) i = (wordsBit bits i || decide (bitIndex bits h = i)) := by
  have hlt := bitIndex_lt hne h
  unfold addHash
  dsimp only
  generalize bitIndex bits h = k at hlt ⊢
  have hk : k / 64 < bits.length := by omega
  have hbit : ∀ j, hasBit (bits.getD (k / 64) 0 ||| mask (k % 64)) (j % 64) =
      (hasBit (bits.getD (k / 64) 0) (j % 64) || decide (k % 64 = j % 64)) := by
    intro j
    rw [hasBit_or _ _ (Nat.mod_lt j (by omega)),
      hasBit_mask (Nat.mod_lt j (by omega)) (Nat.mod_lt k (by omega))]
  split
  case isTrue hset =>
    by_cases hki : k = i
    · subst hki
      have hwords : wordsBit bits k = true := hset
      rw [hwords, Bool.true_or]
    · rw [decide_eq_false hki, Bool.or_false]
  case isFalse =>
    unfold wordsBit
    rw [getD_eq_getElem?_getD, getElem?_set]
    by_cases hword : k / 64 = i / 64
    · rw [if_pos hword, if_pos (hword ▸ hk), Option.getD_some, hbit, ← hword]
      congr 1
      apply decide_eq_decide.2
      omega
    · rw [if_neg hword, decide_eq_false (show ¬k = i from fun hki => hword (by rw [hki])), Bool.or_false,
        getD_eq_getElem?_getD]

theorem length_initBloomFilter (bits hashes : List UInt64) : (initBloomFilter bits hashes).length = bits.length := by
  induction hashes generalizing bits with
  | nil => rfl
  | cons h hashes ih =>
    have hstep : initBloomFilter bits (h :: hashes) = initBloomFilter (addHash bits h) hashes := rfl
    rw [hstep, ih, length_addHash]

/-- The bits that are set at the end. -/
theorem wordsBit_initBloomFilter {bits : List UInt64} (hne : bits ≠ []) (hashes : List UInt64) (i : Nat) :
    wordsBit (initBloomFilter bits hashes) i =
      (wordsBit bits i || decide (∃ h ∈ hashes, bitIndex bits h = i)) := by
  induction hashes generalizing bits with
  | nil => simp [initBloomFilter]
  | cons h hashes ih =>
    have hstep : initBloomFilter bits (h :: hashes) = initBloomFilter (addHash bits h) hashes := rfl
    have hlen := length_addHash bits h
    have hne' : addHash bits h ≠ [] := by
      rw [← length_pos_iff, hlen]
      exact length_pos_iff.2 hne
    have hindex : ∀ h', bitIndex (addHash bits h) h' = bitIndex bits h' := by
      intro h'
      rw [bitIndex, bitIndex, hlen]
    simp only [hstep, ih hne', wordsBit_addHash hne, hindex, mem_cons, exists_eq_or_imp, Bool.decide_or,
      Bool.or_assoc]

namespace BloomFilter

theorem containsAll_init {words hashes hashes' : List UInt64} (h : ∀ x ∈ hashes', x ∈ hashes) :
    (mk (initBloomFilter words hashes)).containsAll hashes' = true := by
  unfold containsAll
  by_cases hne : words = []
  · have hnil : initBloomFilter words hashes = [] := by
      rw [← length_eq_zero_iff, length_initBloomFilter, hne, length_nil]
    rw [hnil]
    rfl
  · rw [Bool.or_eq_true]
    right
    rw [all_eq_true]
    intro x hx
    have hindex : bitIndex (initBloomFilter words hashes) x = bitIndex words x := by
      rw [bitIndex, bitIndex, length_initBloomFilter]
    rw [hindex, wordsBit_initBloomFilter hne, decide_eq_true ⟨x, h x hx, rfl⟩, Bool.or_true]

/-- A filter contains each of the words it was built from. -/
theorem containsAll_mustInitTokens (x : Xxh64) {tokens tokens' : List Bytes}
    (h : ∀ token ∈ tokens', token ∈ tokens) :
    (mustInitTokens x tokens).containsAll (appendTokensHashes x tokens') = true := by
  apply containsAll_init
  intro y hy
  rw [appendTokensHashes, mem_flatMap] at hy ⊢
  obtain ⟨token, htoken, hy⟩ := hy
  exact ⟨token, h token htoken, hy⟩

/-! ### Filters as bytes -/

theorem length_unmarshalWords (n : Nat) (src : Bytes) : (unmarshalWords n src).length = n := by
  induction n generalizing src with
  | zero => rfl
  | succ n ih => rw [unmarshalWords, length_cons, ih]

/-- A word lies where eight bytes for each word before it end. -/
theorem getD_unmarshalWords {n i : Nat} (hi : i < n) (src : Bytes) :
    (unmarshalWords n src).getD i 0 = UInt64.ofNat (unmarshalUint64 (src.drop (i * 8))) := by
  induction n generalizing i src with
  | zero => omega
  | succ n ih =>
    cases i with
    | zero => rw [unmarshalWords, getD_cons_zero, Nat.zero_mul, drop_zero]
    | succ i =>
      rw [unmarshalWords, getD_cons_succ, ih (by omega), drop_drop]
      congr 3
      omega

theorem bytesContainAll_eq {raw : Bytes} (h : 8 ∣ raw.length) (hashes : List UInt64) :
    bytesContainAll raw hashes = (mk (unmarshalWords (raw.length / 8) raw)).containsAll hashes := by
  by_cases hraw : raw = []
  · subst hraw
    rfl
  have hpos : 0 < raw.length / 8 := Nat.div_pos (Nat.le_of_dvd (length_pos_iff.2 hraw) h) (by omega)
  have hwords : unmarshalWords (raw.length / 8) raw ≠ [] := by
    rwa [← length_pos_iff, length_unmarshalWords]
  rw [bytesContainAll, containsAll, isEmpty_eq_false_iff.2 hraw, isEmpty_eq_false_iff.2 hwords]
  congr 2
  funext y
  rw [wordsBit, bitIndex, length_unmarshalWords, getD_unmarshalWords]
  apply Nat.div_lt_of_lt_mul
  rw [Nat.mul_comm]
  exact Nat.mod_lt _ (by omega)

/-- No word is missed: not by the filter, built of the words or of their hashes, and not by the check that reads the
bytes of a filter where they lie. -/
theorem no_word_missed (x : Xxh64) {tokens tokens' : List Bytes} (htokens : tokens' ⊆ tokens) {raw : Bytes}
    (hraw : 8 ∣ raw.length) (hashes : List UInt64) :
    (mustInitTokens x tokens).containsAll (appendTokensHashes x tokens') = true ∧
      mustInitHashes x (tokens.map x.ofBytes) = mustInitTokens x tokens ∧
      ∃ bf, unmarshal raw = .ok bf ∧ bytesContainAll raw hashes = bf.containsAll hashes := by
  refine ⟨containsAll_mustInitTokens x fun _ h => htokens h, ?_, ?_⟩
  · rw [mustInitHashes, mustInitTokens, length_map, appendHashesHashes, flatMap_map]
    rfl
  · refine ⟨⟨unmarshalWords (raw.length / 8) raw⟩, ?_, bytesContainAll_eq hraw hashes⟩
    rw [unmarshal, if_neg (not_not.2 (Nat.mod_eq_zero_of_dvd hraw))]

theorem no_word_missed_word :
    let x : Xxh64 := ⟨fun b => UInt64.ofNat b.length, fun w => w * 3⟩
    (mustInitTokens x [ascii "log", ascii "a"]).containsAll (appendTokensHashes x [ascii "a"]) = true ∧
      mustInitHashes x ([ascii "log", ascii "a"].map x.ofBytes) = mustInitTokens x [ascii "log", ascii "a"] ∧
      ∃ bf, unmarshal (ascii "8 bytes.") = .ok bf ∧
        bytesContainAll (ascii "8 bytes.") [7] = bf.containsAll [7] :=
  no_word_missed _ (by simp) (by decide) [7]

end BloomFilter

end EsLogs
