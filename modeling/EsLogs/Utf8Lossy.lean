import EsLogs.Utf8

/-!
Reading arbitrary bytes as text: what is not part of a rune is replaced. A replacement character stands
for a longest start of a sequence, or for one byte. Characters of ASCII cut a text into parts that are
read on their own.
-/

namespace EsLogs.Utf8

open List

variable {s : Bytes}

def replacement : Bytes := [0xEF, 0xBF, 0xBD]

theorem isRune_replacement : IsRune replacement 0xFFFD := by
  unfold IsRune
  decide

/-- The number of bytes that one replacement character stands for, where no rune starts. -/
def badLen : Bytes → Nat
  | b0 :: b1 :: rest =>
    if seqLen b0 = 0 || !secondOk b0 b1 then 1
    else
      match rest with
      | b2 :: _ => if isCont b2 then 3 else 2
      | [] => 2
  | _ => 1

/-- Replacing, with a bound on the number of characters. -/
def lossyWithin : Nat → Bytes → Bytes
  | 0, _ => []
  | fuel + 1, s =>
    if s = [] then []
    else
      match runeAt s with
      | some (_, n) => s.take n ++ lossyWithin fuel (s.drop n)
      | none => replacement ++ lossyWithin fuel (s.drop (badLen s))

def lossy (s : Bytes) : Bytes := lossyWithin s.length s

theorem badLen_pos (s : Bytes) : 0 < badLen s := by
  unfold badLen
  split
  · split_ifs
    · exact Nat.one_pos
    · split
      · split_ifs <;> omega
      · omega
  · exact Nat.one_pos

/-- Bytes are read as runes and as what is replaced. -/
theorem lossy_induction {P : Bytes → Prop} (nil : P [])
    (rune : ∀ s v n, runeAt s = some (v, n) → StartsRune s v n → P (s.drop n) → P s)
    (bad : ∀ s, s ≠ [] → runeAt s = none → P (s.drop (badLen s)) → P s) (s : Bytes) : P s := by
  induction hlen : s.length using Nat.strong_induction_on generalizing s with
  | h m ih =>
    by_cases hne : s = []
    · exact hne ▸ nil
    have hrest : ∀ n, 0 < n → P (s.drop n) := by
      intro n hn
      refine ih _ ?_ _ rfl
      have := length_pos_iff.2 hne
      rw [length_drop]
      omega
    cases hrune : runeAt s with
    | none => exact bad s hne hrune (hrest _ (badLen_pos s))
    | some vn =>
      have hstart := startsRune_of_runeAt hrune
      exact rune s vn.1 vn.2 hrune hstart (hrest _ hstart.pos)

theorem lossyWithin_eq {k : Nat} {s : Bytes} (h : s.length ≤ k) : lossyWithin k s = lossy s := by
  suffices hall : ∀ m k, s.length ≤ m → s.length ≤ k → lossyWithin k s = lossyWithin m s from
    hall s.length k le_rfl h
  clear h k
  induction s using lossy_induction with
  | nil =>
    intro m k _ _
    cases k <;> cases m <;> rfl
  | rune s v n hrune hstart ih =>
    intro m k hm hk
    have hpos := hstart.pos
    have hle := hstart.le
    obtain ⟨k, rfl⟩ : ∃ j, k = j + 1 := ⟨k - 1, by omega⟩
    obtain ⟨m, rfl⟩ : ∃ j, m = j + 1 := ⟨m - 1, by omega⟩
    simp only [lossyWithin, hrune]
    rw [ih m k (by rw [length_drop]; omega) (by rw [length_drop]; omega)]
  | bad s hne hrune ih =>
    intro m k hm hk
    have hpos := badLen_pos s
    have hlen := length_pos_iff.2 hne
    obtain ⟨k, rfl⟩ : ∃ j, k = j + 1 := ⟨k - 1, by omega⟩
    obtain ⟨m, rfl⟩ : ∃ j, m = j + 1 := ⟨m - 1, by omega⟩
    simp only [lossyWithin, hrune]
    rw [ih m k (by rw [length_drop]; omega) (by rw [length_drop]; omega)]

theorem lossy_of_runeAt {v n : Nat} (h : runeAt s = some (v, n)) : lossy s = s.take n ++ lossy (s.drop n) := by
  have hne : s ≠ [] := by
    rintro rfl
    cases h
  rw [← lossyWithin_eq (Nat.le_succ s.length), lossyWithin, if_neg hne]
  simp only [h]
  rw [lossyWithin_eq (by rw [length_drop]; omega)]

theorem lossy_of_none (hne : s ≠ []) (h : runeAt s = none) : lossy s = replacement ++ lossy (s.drop (badLen s)) := by
  rw [← lossyWithin_eq (Nat.le_succ s.length), lossyWithin, if_neg hne]
  simp only [h]
  rw [lossyWithin_eq (by rw [length_drop]; omega)]

theorem lossy_rune_append {r : Bytes} {v : Nat} (h : IsRune r v) (s : Bytes) :
    lossy (r ++ s) = r ++ lossy s := by
  rw [lossy_of_runeAt (h.runeAt_append s), take_left, drop_left]

variable {c : UInt8}

theorem lossy_cons_of_ascii (hc : c < 0x80) (s : Bytes) :
    lossy (c :: s) = c :: lossy s :=
  lossy_rune_append (r := [c]) (runeAt_cons_of_ascii hc []) s

theorem lossy_ascii_append {a : Bytes} (ha : ∀ c ∈ a, c < 0x80) (s : Bytes) :
    lossy (a ++ s) = a ++ lossy s := by
  induction a with
  | nil => rfl
  | cons c a ih =>
    rw [cons_append, lossy_cons_of_ascii (ha c mem_cons_self),
      ih fun d hd => ha d (mem_cons_of_mem _ hd), cons_append]

/-- Valid text is read as it is. -/
theorem lossy_of_isValid (h : isValid s = true) : lossy s = s := by
  induction h using isValid_induction with
  | nil => rfl
  | rune r s v hr _ ih => rw [lossy_rune_append hr, ih]

/-- What some bytes are read as is valid. -/
theorem isValid_lossy (s : Bytes) : isValid (lossy s) = true := by
  induction s using lossy_induction with
  | nil => rfl
  | rune s v n hrune hstart ih =>
    rw [lossy_of_runeAt hrune]
    exact isValid_rune_append hstart.isRune ih
  | bad s hne hrune ih =>
    rw [lossy_of_none hne hrune]
    exact isValid_rune_append isRune_replacement ih

theorem lossy_eq_self_iff : lossy s = s ↔ isValid s = true := by
  constructor
  · intro h
    rw [← h]
    exact isValid_lossy s
  · exact lossy_of_isValid

/-! ### Cutting at a character of ASCII -/

theorem not_isCont_of_ascii (hc : c < 0x80) : isCont c = false := by
  have hnot : ¬ (0x80 : UInt8) ≤ c := not_le.2 hc
  rw [isCont, decide_eq_false hnot, Bool.false_and]

theorem not_secondOk_of_ascii (hc : c < 0x80) (b : UInt8) : secondOk b c = false := by
  rw [secondOk, not_isCont_of_ascii hc, Bool.false_and]

theorem seqLen_cases (b : UInt8) :
    seqLen b = 0 ∨ seqLen b = 1 ∨ seqLen b = 2 ∨ seqLen b = 3 ∨ seqLen b = 4 := by
  unfold seqLen
  split_ifs <;> simp

/-- No rune goes over a character of ASCII. -/
theorem runeAt_append_ascii (hs : s ≠ []) (hc : c < 0x80) (t : Bytes) : runeAt (s ++ c :: t) = runeAt s := by
  have hcont := not_isCont_of_ascii hc
  have hsecond := not_secondOk_of_ascii hc
  match s, hs with
  | [b0], _ =>
    rcases t with _ | ⟨t0, _ | ⟨t1, t⟩⟩ <;>
      rcases seqLen_cases b0 with h | h | h | h | h <;> simp [runeAt, h, hsecond]
  | [b0, b1], _ =>
    rcases t with _ | ⟨t0, t⟩ <;>
      rcases seqLen_cases b0 with h | h | h | h | h <;> simp [runeAt, h, hcont]
  | [b0, b1, b2], _ => rcases seqLen_cases b0 with h | h | h | h | h <;> simp [runeAt, h, hcont]
  | b0 :: b1 :: b2 :: b3 :: s, _ =>
    rcases seqLen_cases b0 with h | h | h | h | h <;> simp [runeAt, h]

theorem badLen_append_ascii (hs : s ≠ []) (hc : c < 0x80) (t : Bytes) : badLen (s ++ c :: t) = badLen s := by
  have hcont := not_isCont_of_ascii hc
  have hsecond := not_secondOk_of_ascii hc
  match s, hs with
  | [b0], _ => simp [badLen, hsecond]
  | [b0, b1], _ => simp [badLen, hcont]
  | b0 :: b1 :: b2 :: s, _ => rfl

theorem badLen_le (hs : s ≠ []) : badLen s ≤ s.length := by
  match s, hs with
  | [b0], _ => exact Nat.le_refl 1
  | [b0, b1], _ =>
    simp only [badLen]
    split_ifs <;> simp
  | b0 :: b1 :: b2 :: s, _ =>
    simp only [badLen, length_cons]
    split_ifs <;> omega

theorem lossy_append_ascii (s : Bytes) (hc : c < 0x80) (t : Bytes) :
    lossy (s ++ c :: t) = lossy s ++ c :: lossy t := by
  induction s using lossy_induction with
  | nil => exact lossy_cons_of_ascii hc t
  | rune s v n hrune hstart ih =>
    have hne : s ≠ [] := by
      rintro rfl
      cases hrune
    rw [lossy_of_runeAt ((runeAt_append_ascii hne hc t).trans hrune), lossy_of_runeAt hrune,
      take_append_of_le_length hstart.le, drop_append_of_le_length hstart.le, ih, append_assoc]
  | bad s hne hrune ih =>
    rw [lossy_of_none (append_ne_nil_of_left_ne_nil hne _) ((runeAt_append_ascii hne hc t).trans hrune),
      lossy_of_none hne hrune, badLen_append_ascii hne hc, drop_append_of_le_length (badLen_le hne), ih,
      append_assoc]

/-- Bytes above ASCII are read as bytes above ASCII. -/
theorem not_ascii_of_mem_lossy {s : Bytes} (h : ∀ b ∈ s, ¬b < 0x80) : ∀ b ∈ lossy s, ¬b < 0x80 := by
  induction s using lossy_induction with
  | nil => exact h
  | rune s v n hrune hstart ih =>
    rw [lossy_of_runeAt hrune]
    exact forall_mem_append.2 ⟨fun b hb => h b (mem_of_mem_take hb), ih fun b hb => h b (mem_of_mem_drop hb)⟩
  | bad s hne hrune ih =>
    rw [lossy_of_none hne hrune]
    refine forall_mem_append.2 ⟨?_, ih fun b hb => h b (mem_of_mem_drop hb)⟩
    intro b hb
    simp only [replacement, mem_cons, not_mem_nil, or_false] at hb
    rcases hb with rfl | rfl | rfl <;> decide

/-- The part of some bytes before the first one of ASCII. -/
theorem exists_ascii_cut (s : Bytes) :
    (∀ b ∈ s, ¬b < 0x80) ∨ ∃ pre c t, s = pre ++ c :: t ∧ c < 0x80 ∧ ∀ b ∈ pre, ¬b < 0x80 := by
  induction s with
  | nil => exact .inl (by simp)
  | cons b s ih =>
    by_cases hb : b < 0x80
    · exact .inr ⟨[], b, s, rfl, hb, by simp⟩
    · refine ih.imp (fun h => forall_mem_cons.2 ⟨hb, h⟩) ?_
      rintro ⟨pre, c, t, rfl, hc, hpre⟩
      exact ⟨b :: pre, c, t, rfl, hc, forall_mem_cons.2 ⟨hb, hpre⟩⟩

section FlatMap

variable {φ : UInt8 → Bytes} (hhigh : ∀ b, ¬b < 0x80 → φ b = [b])
include hhigh

theorem flatMap_of_high (hs : ∀ b ∈ s, ¬b < 0x80) : s.flatMap φ = s :=
  (flatMap_congr fun b hb => hhigh b (hs b hb)).trans (flatMap_singleton' s)

variable (hascii : ∀ b, b < 0x80 → φ b ≠ [] ∧ ∀ c ∈ φ b, c < 0x80)
include hascii

/-- Replacing bytes of ASCII by texts of ASCII, and nothing else, may be done before or after. -/
theorem lossy_flatMap (s : Bytes) : lossy (s.flatMap φ) = (lossy s).flatMap φ := by
  induction hlen : s.length using Nat.strong_induction_on generalizing s with
  | h m ih =>
    rcases exists_ascii_cut s with hall | ⟨pre, c, t, rfl, hc, hpre⟩
    · rw [flatMap_of_high hhigh hall, flatMap_of_high hhigh (not_ascii_of_mem_lossy hall)]
    · obtain ⟨hne, hφ⟩ := hascii c hc
      obtain ⟨d, ds, hd⟩ := exists_cons_of_ne_nil hne
      have hds : ∀ e ∈ ds, e < 0x80 := by
        intro e he
        exact hφ e (hd ▸ mem_cons_of_mem _ he)
      have hlt : t.length < m := by
        rw [length_append, length_cons] at hlen
        omega
      rw [flatMap_append, flatMap_cons, flatMap_of_high hhigh hpre, hd, cons_append,
        lossy_append_ascii pre (hφ d (hd ▸ mem_cons_self)), lossy_ascii_append hds, ih _ hlt t rfl,
        lossy_append_ascii pre hc, flatMap_append, flatMap_cons,
        flatMap_of_high hhigh (not_ascii_of_mem_lossy hpre), hd, cons_append]

end FlatMap

end EsLogs.Utf8
