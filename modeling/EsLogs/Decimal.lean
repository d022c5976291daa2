import EsLogs.Bytes

/-! Decimal texts as byte strings: the value of a digit string, the shortest decimal text of a
number, and its zero-padded fixed-width text. A digit string without a leading zero is the decimal
text of its value, and a digit string of length `w` is the width-`w` text of its value, so either
text determines the number and the number determines the text. -/

namespace EsLogs

open List

variable {d : Nat} (n : Nat)

def isDigit (c : UInt8) : Bool := 48 ≤ c && c ≤ 57

def digitByte (d : Nat) : UInt8 := UInt8.ofNat (48 + d)

def digitVal (c : UInt8) : Nat := c.toNat - 48

/-- Reading a digit string after a number that has been read already. -/
def digitsFrom (n : Nat) (s : Bytes) : Nat := s.foldl (fun n c => n * 10 + digitVal c) n

def digitsValue (s : Bytes) : Nat := digitsFrom 0 s

def decimal (n : Nat) : Bytes :=
  if n = 0 then [digitByte 0] else ((Nat.digits 10 n).map digitByte).reverse

/-- The decimal text of a number, padded with zeros on the left to `w` bytes. -/
def decimalPad (w n : Nat) : Bytes :=
  List.replicate (w - (decimal n).length) (digitByte 0) ++ decimal n

def AllDigits (s : Bytes) : Prop := ∀ c ∈ s, isDigit c

instance (s : Bytes) : Decidable (AllDigits s) :=
  inferInstanceAs (Decidable (∀ c ∈ s, isDigit c))

theorem isDigit_iff (c : UInt8) : isDigit c = true ↔ 48 ≤ c.toNat ∧ c.toNat ≤ 57 := by
  simp [isDigit, UInt8.le_iff_toNat_le]

theorem digitVal_lt {c : UInt8} (h : isDigit c) : digitVal c < 10 := by
  have hc := (isDigit_iff c).1 h
  unfold digitVal
  omega

theorem toNat_digitByte (h : d < 10) : (digitByte d).toNat = 48 + d := by
  rw [digitByte, UInt8.toNat_ofNat']
  omega

theorem isDigit_digitByte (h : d < 10) : isDigit (digitByte d) = true := by
  rw [isDigit_iff, toNat_digitByte h]
  omega

theorem digitVal_digitByte (h : d < 10) : digitVal (digitByte d) = d := by
  rw [digitVal, toNat_digitByte h]
  omega

theorem digitByte_digitVal {c : UInt8} (h : isDigit c) : digitByte (digitVal c) = c := by
  have hc := (isDigit_iff c).1 h
  apply UInt8.toNat_inj.mp
  rw [toNat_digitByte (digitVal_lt h), digitVal]
  omega

theorem map_digitByte_digitVal {s : Bytes} (h : ∀ c ∈ s, isDigit c) : (s.map digitVal).map digitByte = s := by
  rw [map_map]
  exact (map_congr_left fun c hc => digitByte_digitVal (h c hc)).trans s.map_id

/-! ### The value of a digit string -/

@[simp]
theorem digitsFrom_nil : digitsFrom n [] = n := rfl

@[simp]
theorem digitsFrom_cons (c : UInt8) (s : Bytes) : digitsFrom n (c :: s) = digitsFrom (n * 10 + digitVal c) s := by
  simp only [digitsFrom, foldl_cons]

theorem le_digitsFrom (s : Bytes) : n ≤ digitsFrom n s := by
  induction s generalizing n with
  | nil => simp
  | cons c s ih =>
    have hstep : n ≤ n * 10 + digitVal c := by omega
    rw [digitsFrom_cons]
    exact hstep.trans (ih _)

/-- A digit string is the reversed list of the digits of its value. -/
theorem digitsValue_eq_ofDigits (s : Bytes) :
    digitsValue s = Nat.ofDigits 10 (s.reverse.map digitVal) := by
  induction s using List.reverseRecOn with
  | nil => rfl
  | append_singleton s c ih =>
    have hstep : digitsValue (s ++ [c]) = digitsValue s * 10 + digitVal c := by
      simp [digitsValue, digitsFrom, foldl_append]
    rw [hstep, ih, reverse_append, reverse_singleton, singleton_append,
      map_cons, Nat.ofDigits_cons]
    ring

theorem digitsValue_lt {s : Bytes} (h : AllDigits s) : digitsValue s < 10 ^ s.length := by
  rw [digitsValue_eq_ofDigits]
  have hlt := Nat.ofDigits_lt_base_pow_length (b := 10) (l := s.reverse.map digitVal) (by omega)
    (by simpa using fun c hc => digitVal_lt (h c hc))
  simpa using hlt

/-- Two digit strings of one length and one value are the same text. -/
theorem eq_of_digitsValue_eq {s t : Bytes} (hs : AllDigits s) (ht : AllDigits t)
    (hlen : s.length = t.length) (h : digitsValue s = digitsValue t) : s = t := by
  rw [digitsValue_eq_ofDigits, digitsValue_eq_ofDigits] at h
  have hmap := Nat.ofDigits_inj_of_len_eq (by omega) (by simpa using hlen)
    (by simpa using fun c hc => digitVal_lt (hs c hc))
    (by simpa using fun c hc => digitVal_lt (ht c hc)) h
  rw [map_reverse, map_reverse, reverse_inj] at hmap
  rw [← map_digitByte_digitVal hs, hmap, map_digitByte_digitVal ht]

/-! ### The shortest decimal text -/

theorem decimal_of_pos {n : Nat} (h : n ≠ 0) :
    decimal n = ((Nat.digits 10 n).map digitByte).reverse := if_neg h

theorem allDigits_decimal : AllDigits (decimal n) := by
  intro c hc
  by_cases hn : n = 0
  · subst hn
    rw [mem_singleton.1 hc]
    rfl
  · rw [decimal_of_pos hn, mem_reverse, mem_map] at hc
    obtain ⟨d, hd, rfl⟩ := hc
    exact isDigit_digitByte (Nat.digits_lt_base (by omega) hd)

theorem decimal_ne_nil : decimal n ≠ [] := by
  by_cases hn : n = 0
  · simp [decimal, hn]
  · simpa [decimal_of_pos hn] using Nat.digits_ne_nil_iff_ne_zero.2 hn

@[simp]
theorem digitsValue_decimal : digitsValue (decimal n) = n := by
  by_cases hn : n = 0
  · subst hn
    decide
  · have hmap := (map_congr_left fun d hd => digitVal_digitByte (Nat.digits_lt_base (by omega) hd)).trans
      (Nat.digits 10 n).map_id
    rw [digitsValue_eq_ofDigits, decimal_of_pos hn, reverse_reverse, map_map, Function.comp_def, hmap,
      Nat.ofDigits_digits]

theorem decimal_injective : Function.Injective decimal :=
  Function.LeftInverse.injective digitsValue_decimal

/-- A text of at least two digits starts with a nonzero one. -/
theorem head_decimal_ne_zero {n : Nat} (h : n ≠ 0) : (decimal n).head? ≠ some (digitByte 0) := by
  have hne : Nat.digits 10 n ≠ [] := Nat.digits_ne_nil_iff_ne_zero.2 h
  have hlast : (Nat.digits 10 n).getLast hne ≠ 0 := Nat.getLast_digit_ne_zero 10 h
  have hlt : (Nat.digits 10 n).getLast hne < 10 :=
    Nat.digits_lt_base (by omega) (getLast_mem hne)
  rw [decimal_of_pos h, List.head?_reverse, List.getLast?_map, List.getLast?_eq_getLast_of_ne_nil hne]
  intro heq
  have hbyte := congrArg digitVal (Option.some.inj heq)
  rw [digitVal_digitByte hlt, digitVal_digitByte (by omega)] at hbyte
  exact hlast hbyte

/-- The canonical digit strings are exactly the decimal texts. -/
theorem decimal_digitsValue {s : Bytes} (hne : s ≠ []) (hs : AllDigits s)
    (hlead : 1 < s.length → s.head? ≠ some (digitByte 0)) : decimal (digitsValue s) = s := by
  by_cases hzero : ∃ c, s = [c] ∧ digitVal c = 0
  · obtain ⟨c, rfl, hc⟩ := hzero
    have hdigit : c = digitByte 0 := by
      rw [← hc, digitByte_digitVal (hs c (mem_singleton_self c))]
    have hval : digitsValue [c] = 0 := by simp [digitsValue, hc]
    rw [hval, hdigit]
    rfl
  -- otherwise the leading digit is nonzero, so `Nat.digits` reproduces the digits
  · have hdigits : Nat.digits 10 (digitsValue s) = s.reverse.map digitVal := by
      rw [digitsValue_eq_ofDigits]
      refine Nat.digits_ofDigits 10 (by omega) _
        (by simpa using fun c hc => digitVal_lt (hs c hc)) ?_
      intro h
      obtain ⟨c, t, rfl⟩ := exists_cons_of_ne_nil hne
      have hgl : ((c :: t).reverse.map digitVal).getLast h = digitVal c := by simp
      rw [hgl]
      intro hc
      by_cases ht : t = []
      · exact hzero ⟨c, by rw [ht], hc⟩
      · refine hlead (by simpa using length_pos_iff.2 ht) ?_
        rw [List.head?_cons, ← hc, digitByte_digitVal (hs c mem_cons_self)]
    have hpos : digitsValue s ≠ 0 := by
      intro h0
      rw [h0, Nat.digits_zero] at hdigits
      exact hne (by simpa using hdigits.symm)
    rw [decimal_of_pos hpos, hdigits, ← map_reverse, ← map_reverse, reverse_reverse, map_digitByte_digitVal hs]

theorem length_decimal_le {n w : Nat} (hw : 0 < w) (h : n < 10 ^ w) : (decimal n).length ≤ w := by
  by_cases hn : n = 0
  · simpa [decimal, hn] using Nat.succ_le_of_lt hw
  · rw [decimal_of_pos hn, length_reverse, length_map]
    exact (Nat.digits_length_le_iff (by omega) n).2 h

/-! ### Fixed-width decimal text -/

theorem length_decimalPad {n w : Nat} (hw : 0 < w) (h : n < 10 ^ w) :
    (decimalPad w n).length = w := by
  have hlen := length_decimal_le hw h
  simp only [decimalPad, length_append, length_replicate]
  omega

theorem allDigits_decimalPad (w n : Nat) : AllDigits (decimalPad w n) := by
  refine forall_mem_append.2 ⟨fun c hc => ?_, allDigits_decimal n⟩
  rw [eq_of_mem_replicate hc]
  exact isDigit_digitByte (by omega)

theorem digitsFrom_replicate_zero (k : Nat) (s : Bytes) :
    digitsFrom 0 (List.replicate k (digitByte 0) ++ s) = digitsFrom 0 s := by
  induction k with
  | zero => rfl
  | succ k ih =>
    rw [replicate_succ, cons_append, digitsFrom_cons, digitVal_digitByte (by omega)]
    exact ih

@[simp]
theorem digitsValue_decimalPad (w n : Nat) : digitsValue (decimalPad w n) = n := by
  rw [digitsValue, decimalPad, digitsFrom_replicate_zero]
  exact digitsValue_decimal n

/-- A digit string is the text of its own length of its value. -/
theorem decimalPad_digitsValue {s : Bytes} (hne : s ≠ []) (hs : AllDigits s) :
    decimalPad s.length (digitsValue s) = s := by
  refine eq_of_digitsValue_eq (allDigits_decimalPad _ _) hs ?_ (digitsValue_decimalPad _ _)
  exact length_decimalPad (length_pos_iff.2 hne) (digitsValue_lt hs)

end EsLogs
