import EsLogs.Outcome

/-!
Sets of row numbers (`bitmap.rs`), packed into words of 64 bits. Bits behind the last row are never
set, so that a bitmap is determined by its length and its bits, and a walk over the set bits never meets
one that is out of range.
-/

namespace EsLogs

variable {j : Nat} (bm : Bitmap) (i : Nat)

/-! ### Words -/

namespace Word

def mask (j : Nat) : UInt64 := 1 <<< UInt64.ofNat j

def hasBit (word : UInt64) (j : Nat) : Bool := word &&& mask j != 0

theorem toBitVec_mask (hj : j < 64) : (mask j).toBitVec = BitVec.twoPow 64 j := by
  have hmod : j % 18446744073709551616 % 64 = j := by omega
  rw [mask, UInt64.toBitVec_shiftLeft, BitVec.twoPow]
  simp [hmod]

theorem hasBit_eq_getLsbD (word : UInt64) (hj : j < 64) : hasBit word j = word.toBitVec.getLsbD j := by
  have hzero : (word &&& mask j = 0) ↔ word.toBitVec &&& BitVec.twoPow 64 j = 0#64 := by
    rw [← UInt64.toBitVec_inj, UInt64.toBitVec_and, toBitVec_mask hj]
    rfl
  rw [hasBit, bne, BEq.comm, Bool.eq_iff_iff]
  simp only [Bool.not_eq_true', beq_eq_false_iff_ne, ne_eq, eq_comm (a := (0 : UInt64)), hzero]
  rw [BitVec.and_twoPow]
  cases hbit : word.toBitVec.getLsbD j with
  | false => simp
  | true =>
    simp only [if_true, iff_true]
    intro hcontra
    have hget := congrArg (fun x => BitVec.getLsbD x j) hcontra
    simp [hj] at hget

@[simp]
theorem hasBit_zero (j : Nat) : hasBit 0 j = false := by
  rw [hasBit, UInt64.zero_and]
  rfl

theorem hasBit_and (w x : UInt64) (hj : j < 64) : hasBit (w &&& x) j = (hasBit w j && hasBit x j) := by
  rw [hasBit_eq_getLsbD _ hj, hasBit_eq_getLsbD _ hj, hasBit_eq_getLsbD _ hj, UInt64.toBitVec_and,
    BitVec.getLsbD_and]

theorem hasBit_or (w x : UInt64) (hj : j < 64) : hasBit (w ||| x) j = (hasBit w j || hasBit x j) := by
  rw [hasBit_eq_getLsbD _ hj, hasBit_eq_getLsbD _ hj, hasBit_eq_getLsbD _ hj, UInt64.toBitVec_or,
    BitVec.getLsbD_or]

theorem hasBit_not (w : UInt64) (hj : j < 64) : hasBit (~~~w) j = !hasBit w j := by
  rw [hasBit_eq_getLsbD _ hj, hasBit_eq_getLsbD _ hj, UInt64.toBitVec_not, BitVec.getLsbD_not]
  simp [hj]

theorem hasBit_mask {j k : Nat} (hj : j < 64) (hk : k < 64) : hasBit (mask k) j = decide (k = j) := by
  rw [hasBit_eq_getLsbD _ hj, toBitVec_mask hk, BitVec.getLsbD_twoPow]
  simp [hk]

theorem ext {w x : UInt64} (h : ∀ j < 64, hasBit w j = hasBit x j) : w = x := by
  rw [← UInt64.toBitVec_inj]
  apply BitVec.eq_of_getLsbD_eq
  intro j hj
  rw [← hasBit_eq_getLsbD _ hj, ← hasBit_eq_getLsbD _ hj]
  exact h j hj

/-- The word with the bits below a number. -/
theorem hasBit_mask_sub_one {t j : Nat} (ht : t < 64) (hj : j < 64) :
    hasBit (mask t - 1) j = decide (j < t) := by
  rw [hasBit_eq_getLsbD _ hj, UInt64.toBitVec_sub, toBitVec_mask ht, BitVec.getLsbD,
    BitVec.toNat_sub, BitVec.toNat_twoPow]
  have hpow : 2 ^ t < 2 ^ 64 := Nat.pow_lt_pow_right (by decide) ht
  have hpos : 0 < 2 ^ t := Nat.two_pow_pos t
  have hone : (1 : UInt64).toBitVec.toNat = 1 := rfl
  have hvalue : (2 ^ 64 - 1 + 2 ^ t % 2 ^ 64) % 2 ^ 64 = 2 ^ t - 1 := by
    rw [Nat.mod_eq_of_lt hpow]
    omega
  rw [hone, hvalue, Nat.testBit_two_pow_sub_one]

end Word

open Word List

def wordsBit (a : List UInt64) (i : Nat) : Bool := hasBit (a.getD (i / 64) 0) (i % 64)

theorem wordsBit_nil : wordsBit [] i = false := hasBit_zero _

theorem wordsBit_cons (w : UInt64) (a : List UInt64) (i : Nat) :
    wordsBit (w :: a) i = if i < 64 then hasBit w i else wordsBit a (i - 64) := by
  unfold wordsBit
  by_cases hi : i < 64
  · rw [if_pos hi, Nat.div_eq_of_lt hi, Nat.mod_eq_of_lt hi]
    rfl
  · have hdiv : i / 64 = (i - 64) / 64 + 1 := by omega
    have hmod : i % 64 = (i - 64) % 64 := by omega
    rw [if_neg hi, hdiv, hmod, getD_cons_succ]

theorem all_eq_zero_iff {a : List UInt64} :
    (a.all fun word => word == 0) = true ↔ ∀ i, wordsBit a i = false := by
  induction a with
  | nil => simp [wordsBit_nil]
  | cons w a ih =>
    rw [all_cons, Bool.and_eq_true, ih, beq_iff_eq]
    constructor
    · rintro ⟨rfl, hrest⟩ i
      rw [wordsBit_cons]
      split
      · exact hasBit_zero i
      · exact hrest _
    · intro h
      constructor
      · apply Word.ext
        intro j hj
        have hbit := h j
        rwa [wordsBit_cons, if_pos hj, ← hasBit_zero j] at hbit
      · intro i
        have hbit := h (i + 64)
        rwa [wordsBit_cons, if_neg (by omega), Nat.add_sub_cancel] at hbit

theorem wordsBit_zipWith_andNot {a b : List UInt64} (hlen : a.length = b.length) (i : Nat) :
    wordsBit (List.zipWith (fun w x => w &&& ~~~x) a b) i = (wordsBit a i && !wordsBit b i) := by
  induction a generalizing b i with
  | nil => rw [zipWith_nil_left, wordsBit_nil, Bool.false_and]
  | cons w a ih =>
    cases b with
    | nil => cases hlen
    | cons x b =>
      rw [zipWith_cons_cons, wordsBit_cons, wordsBit_cons, wordsBit_cons]
      by_cases hi : i < 64
      · rw [if_pos hi, if_pos hi, if_pos hi, hasBit_and _ _ hi, hasBit_not _ hi]
      · rw [if_neg hi, if_neg hi, if_neg hi, ih (Nat.succ.inj hlen)]

theorem wordsBit_replicate (n : Nat) (w : UInt64) (i : Nat) :
    wordsBit (List.replicate n w) i = (decide (i < 64 * n) && hasBit w (i % 64)) := by
  have hindex : i / 64 < n ↔ i < 64 * n := by omega
  unfold wordsBit
  by_cases hi : i < 64 * n
  · rw [getD_eq_getElem?_getD, List.getElem?_replicate, if_pos (hindex.2 hi)]
    simp [hi]
  · rw [getD_eq_getElem?_getD, List.getElem?_replicate, if_neg (mt hindex.1 hi)]
    simp [hi]

/-! ### Walking over the set bits -/

/-- The loop of `Bitmap::for_each_set_bit` over the bits of the word with index `i`: `none` when it
meets a bit that is out of range, where the source returns and leaves the word as it was. -/
def clearBits (f : Nat → Bool) (bitsLen i : Nat) (word : UInt64) : List Nat → UInt64 → Option UInt64
  | [], wordNew => some wordNew
  | j :: js, wordNew =>
    if !hasBit word j then clearBits f bitsLen i word js wordNew
    else
      let idx := i * 64 + j
      if idx ≥ bitsLen then none
      else clearBits f bitsLen i word js (if f idx then wordNew else wordNew &&& ~~~mask j)

def clearWords (f : Nat → Bool) (bitsLen : Nat) : Nat → List UInt64 → List UInt64
  | _, [] => []
  | i, word :: rest =>
    if word = 0 then word :: clearWords f bitsLen (i + 1) rest
    else
      match clearBits f bitsLen i word (List.range 64) word with
      | none => word :: rest
      | some wordNew => wordNew :: clearWords f bitsLen (i + 1) rest

/-- A word without bits that are out of range is walked through to its end. -/
theorem clearBits_spec {f : Nat → Bool} {bitsLen i : Nat} {word : UInt64} (js : List Nat)
    (hjs : ∀ j ∈ js, j < 64) (hclean : ∀ j < 64, hasBit word j = true → i * 64 + j < bitsLen)
    (wordNew : UInt64) :
    ∃ wordNew', clearBits f bitsLen i word js wordNew = some wordNew' ∧
      ∀ k < 64, hasBit wordNew' k =
        (hasBit wordNew k && !(decide (k ∈ js) && hasBit word k && !f (i * 64 + k))) := by
  induction js generalizing wordNew with
  | nil =>
    refine ⟨wordNew, rfl, ?_⟩
    intro k hk
    simp
  | cons j js ih =>
    have hj : j < 64 := hjs j mem_cons_self
    have hrest := ih fun k hk => hjs k (mem_cons_of_mem _ hk)
    rw [clearBits]
    by_cases hbit : hasBit word j = true
    · rw [hbit, Bool.not_true, if_neg (by decide)]
      simp only
      rw [if_neg (Nat.not_le_of_lt (hclean j hj hbit))]
      obtain ⟨wordNew', hclear, hspec⟩ :=
        hrest (if f (i * 64 + j) then wordNew else wordNew &&& ~~~mask j)
      refine ⟨wordNew', hclear, ?_⟩
      intro k hk
      rw [hspec k hk]
      by_cases hkj : k = j
      · subst hkj
        cases hf : f (i * 64 + k) with
        | true => simp
        | false => simp [hasBit_and _ _ hk, hasBit_not _ hk, hasBit_mask hk hk, hbit]
      · cases hf : f (i * 64 + j) with
        | true => simp [hkj]
        | false => simp [hasBit_and _ _ hk, hasBit_not _ hk, hasBit_mask hk hj, hkj, Ne.symm hkj]
    · rw [Bool.not_eq_true] at hbit
      rw [hbit, Bool.not_false, if_pos rfl]
      obtain ⟨wordNew', hclear, hspec⟩ := hrest wordNew
      refine ⟨wordNew', hclear, ?_⟩
      intro k hk
      rw [hspec k hk]
      by_cases hkj : k = j
      · subst hkj
        simp [hbit]
      · simp [hkj]

theorem length_clearWords (f : Nat → Bool) (bitsLen i : Nat) (a : List UInt64) :
    (clearWords f bitsLen i a).length = a.length := by
  induction a generalizing i with
  | nil => rfl
  | cons word a ih =>
    rw [clearWords]
    split
    · rw [length_cons, length_cons, ih]
    · split
      · rfl
      · rw [length_cons, length_cons, ih]

theorem wordsBit_clearWords {f : Nat → Bool} {bitsLen i : Nat} {a : List UInt64}
    (hclean : ∀ k, wordsBit a k = true → i * 64 + k < bitsLen) (k : Nat) :
    wordsBit (clearWords f bitsLen i a) k = (wordsBit a k && f (i * 64 + k)) := by
  induction a generalizing i k with
  | nil => rw [clearWords, wordsBit_nil, Bool.false_and]
  | cons word a ih =>
    have hword : ∀ j < 64, hasBit word j = true → i * 64 + j < bitsLen := by
      intro j hj hbit
      apply hclean j
      rwa [wordsBit_cons, if_pos hj]
    have hrest : ∀ k, wordsBit a k = true → (i + 1) * 64 + k < bitsLen := by
      intro k hbit
      have hlt := hclean (k + 64) (by
        rwa [wordsBit_cons, if_neg (by omega), Nat.add_sub_cancel])
      omega
    have hindex : ¬k < 64 → (i + 1) * 64 + (k - 64) = i * 64 + k := by omega
    rw [clearWords]
    by_cases hzero : word = 0
    · rw [if_pos hzero, wordsBit_cons, wordsBit_cons]
      by_cases hk : k < 64
      · rw [if_pos hk, if_pos hk, hzero, hasBit_zero, Bool.false_and]
      · rw [if_neg hk, if_neg hk, ih hrest, hindex hk]
    · obtain ⟨wordNew, hclear, hspec⟩ :=
        clearBits_spec (f := f) (List.range 64) (fun j hj => mem_range.1 hj) hword word
      rw [if_neg hzero, hclear]
      simp only
      rw [wordsBit_cons, wordsBit_cons]
      by_cases hk : k < 64
      · rw [if_pos hk, if_pos hk, hspec k hk]
        cases hbit : hasBit word k with
        | true => simp [hk]
        | false => rfl
      · rw [if_neg hk, if_neg hk, ih hrest, hindex hk]

/-! ### Bitmaps -/

structure Bitmap where
  a : List UInt64
  bitsLen : Nat
  length_a : a.length = (bitsLen + 63) / 64
  clean : ∀ i, bitsLen ≤ i → wordsBit a i = false

namespace Bitmap

/-- `Bitmap::is_set_bit`; the source panics for a number that is out of range. -/
def isSetBit (bm : Bitmap) (i : Nat) : Bool := wordsBit bm.a i

/-- `Bitmap::init`, and `get_bitmap`: a bitmap of the pool was reset when it came there. -/
def init (bitsLen : Nat) : Bitmap where
  a := List.replicate ((bitsLen + 63) / 64) 0
  bitsLen := bitsLen
  length_a := length_replicate
  clean := by
    intro i _
    rw [wordsBit_replicate, hasBit_zero, Bool.and_false]

def copyFrom (_bm src : Bitmap) : Bitmap := src

def resetBits (bm : Bitmap) : Bitmap where
  a := bm.a.map fun _ => 0
  bitsLen := bm.bitsLen
  length_a := by rw [length_map, bm.length_a]
  clean := by
    intro i _
    rw [map_const', wordsBit_replicate, hasBit_zero, Bool.and_false]

def isZero (bm : Bitmap) : Bool := bm.a.all fun word => word == 0

def andNot (bm x : Bitmap) : Outcome Bitmap :=
  if hlen : bm.bitsLen = x.bitsLen then
    if x.isZero then .ok bm
    else .ok {
      a := List.zipWith (fun w b => w &&& ~~~b) bm.a x.a
      bitsLen := bm.bitsLen
      length_a := by rw [length_zipWith, bm.length_a, x.length_a, hlen, Nat.min_self]
      clean := by
        intro i hi
        rw [wordsBit_zipWith_andNot (by rw [bm.length_a, x.length_a, hlen]), bm.clean i hi,
          Bool.false_and] }
  else .error (.panic "BUG: cannot merge bitmaps with distinct lengths")

def forEachSetBit (bm : Bitmap) (f : Nat → Bool) : Bitmap where
  a := clearWords f bm.bitsLen 0 bm.a
  bitsLen := bm.bitsLen
  length_a := by rw [length_clearWords, bm.length_a]
  clean := by
    intro i hi
    rw [wordsBit_clearWords, bm.clean i hi, Bool.false_and]
    intro k hk
    by_contra hge
    rw [bm.clean k (by omega)] at hk
    cases hk

/-- The words of `Bitmap::set_bits`: all ones, up to the bits of the last word that are out of range. -/
def setWords (bitsLen : Nat) (words : Nat) : List UInt64 :=
  let a := List.replicate words (~~~(0 : UInt64))
  let tailBits := bitsLen % 64
  if tailBits > 0 ∧ a ≠ [] then a.dropLast ++ [~~~(0 : UInt64) &&& (mask tailBits - 1)] else a

theorem wordsBit_setWords (bitsLen i : Nat) :
    wordsBit (setWords bitsLen ((bitsLen + 63) / 64)) i = decide (i < bitsLen) := by
  have hones : ∀ j < 64, hasBit (~~~(0 : UInt64)) j = true := by
    intro j hj
    rw [hasBit_not _ hj, hasBit_zero, Bool.not_false]
  have hmod : i % 64 < 64 := Nat.mod_lt _ (by decide)
  unfold setWords
  by_cases htail : bitsLen % 64 > 0
  · obtain ⟨n, hn⟩ : ∃ n, (bitsLen + 63) / 64 = n + 1 := ⟨(bitsLen + 63) / 64 - 1, by omega⟩
    have hlen : bitsLen = 64 * n + bitsLen % 64 := by omega
    rw [hn, if_pos ⟨htail, by simp⟩, dropLast_replicate, Nat.add_sub_cancel, wordsBit]
    by_cases hi : i / 64 < n
    · have hlt : i < bitsLen := by omega
      rw [getD_append _ _ _ _ (by rwa [length_replicate]), getD_replicate _ hi,
        hones _ hmod, decide_eq_true hlt]
    · rw [getD_append_right _ _ _ _ (by rw [length_replicate]; omega), length_replicate]
      by_cases hlast : i / 64 = n
      · have hiff : i % 64 < bitsLen % 64 ↔ i < bitsLen := by omega
        rw [hlast, Nat.sub_self, getD_cons_zero, hasBit_and _ _ hmod, hones _ hmod,
          Bool.true_and, hasBit_mask_sub_one (Nat.mod_lt _ (by decide)) hmod, decide_eq_decide]
        exact hiff
      · obtain ⟨k, hk⟩ : ∃ k, i / 64 - n = k + 1 := ⟨i / 64 - n - 1, by omega⟩
        rw [hk, getD_cons_succ, getD_nil, hasBit_zero, decide_eq_false (by omega)]
  · have hlen : bitsLen = 64 * ((bitsLen + 63) / 64) := by omega
    rw [if_neg (fun h => htail h.1), wordsBit_replicate, hones _ hmod, Bool.and_true, ← hlen]

def setBits (bm : Bitmap) : Bitmap where
  a := setWords bm.bitsLen bm.a.length
  bitsLen := bm.bitsLen
  length_a := by
    rw [← bm.length_a, setWords]
    split
    · rename_i h
      have hpos := length_pos_iff.2 h.2
      rw [length_replicate] at hpos
      rw [length_append, length_dropLast, length_replicate, length_singleton]
      omega
    · exact length_replicate
  clean := by
    intro i hi
    rw [bm.length_a, wordsBit_setWords, decide_eq_false (by omega)]

@[simp]
theorem isSetBit_resetBits : bm.resetBits.isSetBit i = false := by
  show wordsBit (bm.a.map fun _ => 0) i = false
  rw [map_const', wordsBit_replicate, hasBit_zero, Bool.and_false]

@[simp]
theorem isSetBit_setBits : bm.setBits.isSetBit i = decide (i < bm.bitsLen) := by
  show wordsBit (setWords bm.bitsLen bm.a.length) i = decide (i < bm.bitsLen)
  rw [bm.length_a, wordsBit_setWords]

theorem lt_of_isSetBit {bm : Bitmap} {i : Nat} (h : bm.isSetBit i = true) : i < bm.bitsLen := by
  by_contra hge
  rw [isSetBit, bm.clean i (by omega)] at h
  cases h

@[simp]
theorem isSetBit_forEachSetBit (f : Nat → Bool) (i : Nat) :
    (bm.forEachSetBit f).isSetBit i = (bm.isSetBit i && f i) := by
  rw [isSetBit, forEachSetBit, wordsBit_clearWords, Nat.zero_mul, Nat.zero_add]
  · rfl
  · intro k hk
    rw [Nat.zero_mul, Nat.zero_add]
    exact lt_of_isSetBit hk

theorem isZero_iff {bm : Bitmap} : bm.isZero = true ↔ ∀ i, bm.isSetBit i = false := all_eq_zero_iff

theorem andNot_spec {bm x : Bitmap} (hlen : bm.bitsLen = x.bitsLen) :
    ∃ bm', bm.andNot x = .ok bm' ∧ bm'.bitsLen = bm.bitsLen ∧
      ∀ i, bm'.isSetBit i = (bm.isSetBit i && !x.isSetBit i) := by
  rw [andNot, dif_pos hlen]
  by_cases hzero : x.isZero = true
  · rw [if_pos hzero]
    refine ⟨bm, rfl, rfl, ?_⟩
    intro i
    rw [isZero_iff.1 hzero i, Bool.not_false, Bool.and_true]
  · rw [if_neg hzero]
    refine ⟨_, rfl, rfl, ?_⟩
    intro i
    exact wordsBit_zipWith_andNot (by rw [bm.length_a, x.length_a, hlen]) i

end Bitmap

/-! ### Selections -/

/-- A step on some state and a bitmap that clears exactly the bits of the rows without the property. The
state may change, but stays within the given states. -/
def Selects {S : Type} (n : Nat) (valid : S → Prop) (p : Nat → Prop)
    (apply : S → Bitmap → Outcome (S × Bitmap)) : Prop :=
  ∀ s bm, valid s → bm.bitsLen = n → ∃ s' bm', apply s bm = .ok (s', bm') ∧ valid s' ∧
    bm'.bitsLen = n ∧ ∀ i, bm'.isSetBit i = true ↔ bm.isSetBit i = true ∧ p i

end EsLogs
