import EsLogs.Bytes

/-!
UTF-8 over byte lists: the rune at the start of a byte list, and the validity of a whole list. The
accepted sequences are those of the standard: no overlong forms, no surrogates, nothing above
U+10FFFF.
-/

namespace EsLogs.Utf8

open List

variable {v : Nat} {r : Bytes} {b : UInt8} {s : Bytes}

/-- The length of the sequence a byte starts, or 0 when no sequence starts with it. -/
def seqLen (b : UInt8) : Nat :=
  if b < 0x80 then 1
  else if b < 0xC2 then 0
  else if b < 0xE0 then 2
  else if b < 0xF0 then 3
  else if b < 0xF5 then 4
  else 0

def isCont (b : UInt8) : Bool := 0x80 ≤ b && b < 0xC0

/-- The second byte of a sequence: a continuation byte within the limits its first byte sets. -/
def secondOk (b0 b1 : UInt8) : Bool :=
  isCont b1 &&
    (if b0 = 0xE0 then 0xA0 ≤ b1
    else if b0 = 0xED then b1 < 0xA0
    else if b0 = 0xF0 then 0x90 ≤ b1
    else if b0 = 0xF4 then b1 < 0x90
    else true)

/-- The rune at the start, with the number of its bytes. -/
def runeAt : Bytes → Option (Nat × Nat)
  | [] => none
  | b0 :: rest =>
    match seqLen b0, rest with
    | 1, _ => some (b0.toNat, 1)
    | 2, b1 :: _ =>
      if secondOk b0 b1 then some (b0.toNat % 32 * 64 + b1.toNat % 64, 2) else none
    | 3, b1 :: b2 :: _ =>
      if secondOk b0 b1 && isCont b2 then
        some ((b0.toNat % 16 * 64 + b1.toNat % 64) * 64 + b2.toNat % 64, 3)
      else none
    | 4, b1 :: b2 :: b3 :: _ =>
      if secondOk b0 b1 && isCont b2 && isCont b3 then
        some (((b0.toNat % 8 * 64 + b1.toNat % 64) * 64 + b2.toNat % 64) * 64 + b3.toNat % 64, 4)
      else none
    | _, _ => none

/-- The validity check, with a bound on the number of runes. -/
def validWithin : Nat → Bytes → Bool
  | _, [] => true
  | 0, _ => false
  | fuel + 1, s =>
    match runeAt s with
    | some (_, n) => validWithin fuel (s.drop n)
    | none => false

def isValid (s : Bytes) : Bool := validWithin s.length s

theorem runeAt_cons_of_ascii (h : b < 0x80) (s : Bytes) : runeAt (b :: s) = some (b.toNat, 1) := by
  have hlen : seqLen b = 1 := if_pos h
  simp only [runeAt, hlen]

theorem isValid_of_ascii (h : ∀ b ∈ s, b < 0x80) : isValid s = true := by
  unfold isValid
  induction s with
  | nil => rfl
  | cons b s ih =>
    simp only [length_cons, validWithin, runeAt_cons_of_ascii (h b mem_cons_self)]
    exact ih fun c hc => h c (mem_cons_of_mem _ hc)

/-- The sequences that are runes, with their code points. -/
inductive Sequence : Bytes → Nat → Prop
  | one {b0 : UInt8} (h0 : seqLen b0 = 1) : Sequence [b0] b0.toNat
  | two {b0 b1 : UInt8} (h0 : seqLen b0 = 2) (h1 : secondOk b0 b1) :
    Sequence [b0, b1] (b0.toNat % 32 * 64 + b1.toNat % 64)
  | three {b0 b1 b2 : UInt8} (h0 : seqLen b0 = 3) (h1 : secondOk b0 b1) (h2 : isCont b2) :
    Sequence [b0, b1, b2] ((b0.toNat % 16 * 64 + b1.toNat % 64) * 64 + b2.toNat % 64)
  | four {b0 b1 b2 b3 : UInt8} (h0 : seqLen b0 = 4) (h1 : secondOk b0 b1) (h2 : isCont b2) (h3 : isCont b3) :
    Sequence [b0, b1, b2, b3]
      (((b0.toNat % 8 * 64 + b1.toNat % 64) * 64 + b2.toNat % 64) * 64 + b3.toNat % 64)

theorem Sequence.runeAt_append (h : Sequence r v) (t : Bytes) : runeAt (r ++ t) = some (v, r.length) := by
  cases h <;> simp [runeAt, *]

theorem exists_sequence {v n : Nat} (h : runeAt s = some (v, n)) :
    ∃ r t, s = r ++ t ∧ r.length = n ∧ Sequence r v := by
  cases s with
  | nil => cases h
  | cons b0 s =>
    simp only [runeAt] at h
    split at h
    · rename_i hlen
      cases h
      exact ⟨[b0], _, rfl, rfl, .one hlen⟩
    · rename_i b1 t hlen
      split_ifs at h with hok
      cases h
      exact ⟨[b0, b1], t, rfl, rfl, .two hlen hok⟩
    · rename_i b1 b2 t hlen
      split_ifs at h with hok
      cases h
      obtain ⟨h1, h2⟩ := Bool.and_eq_true_iff.1 hok
      exact ⟨[b0, b1, b2], t, rfl, rfl, .three hlen h1 h2⟩
    · rename_i b1 b2 b3 t hlen
      split_ifs at h with hok
      cases h
      obtain ⟨h12, h3⟩ := Bool.and_eq_true_iff.1 hok
      obtain ⟨h1, h2⟩ := Bool.and_eq_true_iff.1 h12
      exact ⟨[b0, b1, b2, b3], t, rfl, rfl, .four hlen h1 h2 h3⟩
    · cases h

/-- What a rune at the start says: it takes up some bytes, the first of which gives their number and the
others are continuation bytes, and it does not depend on what follows them. -/
structure StartsRune (s : Bytes) (v n : Nat) : Prop where
  pos : 0 < n
  le : n ≤ s.length
  first : s.head?.map seqLen = some n
  rest : ∀ b ∈ (s.take n).tail, isCont b
  alone : ∀ t, runeAt (s.take n ++ t) = some (v, n)

theorem isCont_of_secondOk {b0 b1 : UInt8} (h : secondOk b0 b1) : isCont b1 := (Bool.and_eq_true_iff.1 h).1

theorem startsRune_of_runeAt {v n : Nat} (h : runeAt s = some (v, n)) : StartsRune s v n := by
  obtain ⟨r, t, rfl, rfl, hr⟩ := exists_sequence h
  constructor
  · cases hr <;> simp
  · simp
  · cases hr <;> simp [*]
  · rw [take_left]
    cases hr with
    | one h0 => simp
    | two h0 h1 => simp [isCont_of_secondOk h1]
    | three h0 h1 h2 => simp [isCont_of_secondOk h1, h2]
    | four h0 h1 h2 h3 => simp [isCont_of_secondOk h1, h2, h3]
  · rw [take_left]
    exact hr.runeAt_append

theorem validWithin_mono {k k' : Nat} (h : validWithin k s = true) (hk : k ≤ k') : validWithin k' s = true := by
  induction k generalizing k' s with
  | zero =>
    cases s with
    | nil => cases k' <;> rfl
    | cons b s => cases h
  | succ k ih =>
    cases s with
    | nil => cases k' <;> rfl
    | cons b s =>
      obtain ⟨k', rfl⟩ : ∃ j, k' = j + 1 := ⟨k' - 1, by omega⟩
      simp only [validWithin] at h ⊢
      split at h
      · rename_i v n hrune
        exact ih h (by omega)
      · cases h

def IsRune (r : Bytes) (v : Nat) : Prop := runeAt r = some (v, r.length)

theorem IsRune.sequence (h : IsRune r v) : Sequence r v := by
  obtain ⟨r', t, heq, hlen, hr'⟩ := exists_sequence h
  obtain rfl : r' = r := (append_inj (heq.symm.trans (append_nil r).symm) hlen).1
  exact hr'

theorem StartsRune.isRune {n : Nat} (h : StartsRune s v n) : IsRune (s.take n) v := by
  have halone := h.alone []
  rw [append_nil] at halone
  rwa [IsRune, length_take_of_le h.le]

theorem IsRune.runeAt_append (h : IsRune r v) (s : Bytes) : runeAt (r ++ s) = some (v, r.length) := by
  have halone := (startsRune_of_runeAt h).alone s
  rwa [take_of_length_le le_rfl] at halone

theorem IsRune.ne_nil (h : IsRune r v) : r ≠ [] := by
  rintro rfl
  cases h

/-- A rune that starts in ASCII is that one character. -/
theorem IsRune.tail_eq_nil {c : UInt8} (h : IsRune (c :: r) v) (hc : c < 0x80) : r = [] := by
  have hone := Option.some.inj ((runeAt_cons_of_ascii hc r).symm.trans h)
  have hlength := (Prod.mk.inj hone).2
  rw [length_cons] at hlength
  exact length_eq_zero_iff.1 (by omega)

/-- No byte of a longer rune is in ASCII. -/
theorem IsRune.not_ascii (h : IsRune (b :: r) v) (hb : ¬b < 0x80) : ∀ c ∈ b :: r, ¬c < 0x80 := by
  have hrest := (startsRune_of_runeAt h).rest
  rw [take_of_length_le le_rfl] at hrest
  refine forall_mem_cons.2 ⟨hb, fun c hc => ?_⟩
  have hcont := Bool.and_eq_true_iff.1 (hrest c hc)
  exact not_lt.2 (of_decide_eq_true hcont.1)

theorem isValid_rune_append {r s : Bytes} (hr : IsRune r v) (hs : isValid s = true) : isValid (r ++ s) = true := by
  obtain ⟨b, r', rfl⟩ := exists_cons_of_ne_nil hr.ne_nil
  have hrune := hr.runeAt_append s
  rw [isValid, cons_append, length_cons, validWithin]
  · simp only [← cons_append, hrune, drop_left]
    refine validWithin_mono hs ?_
    rw [length_append]
    omega
  · intro h
    cases h

theorem IsRune.isValid (h : IsRune r v) : isValid r = true := by
  have happend := isValid_rune_append h (s := []) rfl
  rwa [append_nil] at happend

/-- A valid text is a sequence of runes. -/
theorem isValid_induction {P : ∀ s, isValid s = true → Prop} (nil : P [] rfl)
    (rune : ∀ r s v (hr : IsRune r v) (hs : isValid s = true), P s hs → P (r ++ s) (isValid_rune_append hr hs))
    (h : isValid s = true) : P s h := by
  suffices hall : ∀ k s, validWithin k s = true → ∃ hs, P s hs from (hall _ _ h).2
  intro k
  induction k with
  | zero =>
    intro s hs
    cases s with
    | nil => exact ⟨rfl, nil⟩
    | cons b s => cases hs
  | succ k ih =>
    intro s hs
    cases s with
    | nil => exact ⟨rfl, nil⟩
    | cons b s =>
      simp only [validWithin] at hs
      split at hs
      · rename_i v n hrune
        have hstart := startsRune_of_runeAt hrune
        obtain ⟨hvalid, hP⟩ := ih _ hs
        have hboth : ∃ hs, P (take n (b :: s) ++ drop n (b :: s)) hs :=
          ⟨_, rune _ _ v hstart.isRune hvalid hP⟩
        rwa [take_append_drop] at hboth
      · cases hs

theorem isValid_append {s t : Bytes} (hs : isValid s = true) (ht : isValid t = true) :
    isValid (s ++ t) = true := by
  induction hs using isValid_induction with
  | nil => exact ht
  | rune r s v hr _ ih =>
    rw [append_assoc]
    exact isValid_rune_append hr ih

/-! ### Encoding -/

def encode (v : Nat) : Bytes :=
  if v < 0x80 then [UInt8.ofNat v]
  else if v < 0x800 then [UInt8.ofNat (0xC0 + v / 64), UInt8.ofNat (0x80 + v % 64)]
  else if v < 0x10000 then
    [UInt8.ofNat (0xE0 + v / 4096), UInt8.ofNat (0x80 + v / 64 % 64), UInt8.ofNat (0x80 + v % 64)]
  else
    [UInt8.ofNat (0xF0 + v / 262144), UInt8.ofNat (0x80 + v / 4096 % 64),
      UInt8.ofNat (0x80 + v / 64 % 64), UInt8.ofNat (0x80 + v % 64)]

theorem ofNat_eq_of_toNat {n : Nat} (h : n = b.toNat) : UInt8.ofNat n = b := by
  rw [h, UInt8.ofNat_toNat]

theorem toNat_of_isCont (h : isCont b = true) : 128 ≤ b.toNat ∧ b.toNat < 192 := by
  simp only [isCont, Bool.and_eq_true, decide_eq_true_eq, UInt8.le_iff_toNat_le,
    UInt8.lt_iff_toNat_lt] at h
  exact h

theorem toNat_of_secondOk {b0 b1 : UInt8} (h : secondOk b0 b1 = true) :
    (128 ≤ b1.toNat ∧ b1.toNat < 192) ∧ (b0.toNat = 224 → 160 ≤ b1.toNat) ∧
      (b0.toNat = 240 → 144 ≤ b1.toNat) ∧ (b0.toNat = 237 → b1.toNat < 160) ∧
      (b0.toNat = 244 → b1.toNat < 144) := by
  obtain ⟨hcont, hlimit⟩ := Bool.and_eq_true_iff.1 h
  refine ⟨toNat_of_isCont hcont, ?_, ?_, ?_, ?_⟩ <;>
  · intro hb0
    obtain rfl : b0 = _ := UInt8.toNat_inj.1 (hb0.trans (UInt8.toNat_ofNat_of_lt' (by decide)).symm)
    simpa [UInt8.le_iff_toNat_le, UInt8.lt_iff_toNat_lt] using hlimit

/-- The limits of the first byte of a sequence. -/
theorem toNat_of_seqLen {n : Nat} (h : seqLen b = n) :
    (n = 1 → b.toNat < 128) ∧ (n = 2 → 194 ≤ b.toNat ∧ b.toNat < 224) ∧
      (n = 3 → 224 ≤ b.toNat ∧ b.toNat < 240) ∧ (n = 4 → 240 ≤ b.toNat ∧ b.toNat < 245) := by
  unfold seqLen at h
  simp only [UInt8.lt_iff_toNat_lt] at h
  have h80 : (0x80 : UInt8).toNat = 128 := rfl
  have hC2 : (0xC2 : UInt8).toNat = 194 := rfl
  have hE0 : (0xE0 : UInt8).toNat = 224 := rfl
  have hF0 : (0xF0 : UInt8).toNat = 240 := rfl
  have hF5 : (0xF5 : UInt8).toNat = 245 := rfl
  split_ifs at h <;> omega

/-- The sequence of the code point of a rune is the rune. -/
theorem IsRune.encode_eq (h : IsRune r v) : encode v = r := by
  cases h.sequence with
  | @one b0 h0 =>
    have hb0 := (toNat_of_seqLen h0).1 rfl
    rw [encode, if_pos hb0, UInt8.ofNat_toNat]
  | @two b0 b1 h0 h1 =>
    have hb0 := (toNat_of_seqLen h0).2.1 rfl
    have hb1 := toNat_of_secondOk h1
    rw [encode, if_neg (by omega), if_pos (by omega), ofNat_eq_of_toNat (show _ = b0.toNat by omega),
      ofNat_eq_of_toNat (show _ = b1.toNat by omega)]
  | @three b0 b1 b2 h0 h1 h2 =>
    have hb0 := (toNat_of_seqLen h0).2.2.1 rfl
    have hb1 := toNat_of_secondOk h1
    have hb2 := toNat_of_isCont h2
    rw [encode, if_neg (by omega), if_neg (by omega), if_pos (by omega),
      ofNat_eq_of_toNat (show _ = b0.toNat by omega), ofNat_eq_of_toNat (show _ = b1.toNat by omega),
      ofNat_eq_of_toNat (show _ = b2.toNat by omega)]
  | @four b0 b1 b2 b3 h0 h1 h2 h3 =>
    have hb0 := (toNat_of_seqLen h0).2.2.2 rfl
    have hb1 := toNat_of_secondOk h1
    have hb2 := toNat_of_isCont h2
    have hb3 := toNat_of_isCont h3
    rw [encode, if_neg (by omega), if_neg (by omega), if_neg (by omega),
      ofNat_eq_of_toNat (show _ = b0.toNat by omega), ofNat_eq_of_toNat (show _ = b1.toNat by omega),
      ofNat_eq_of_toNat (show _ = b2.toNat by omega), ofNat_eq_of_toNat (show _ = b3.toNat by omega)]

end EsLogs.Utf8
