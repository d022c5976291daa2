import Mathlib

/-! Byte strings: the linear order of bytes and of byte strings, and the fixed-width big-endian
encoding of natural numbers. Nothing here is about a particular program. -/

namespace EsLogs

open List

/-- A byte string. -/
abbrev Bytes := List UInt8

/-- The byte of an ASCII character. -/
def byte (c : Char) : UInt8 := UInt8.ofNat c.toNat

/-- The bytes of an ASCII text. -/
def ascii (s : String) : Bytes := s.toList.map byte

instance instLinearOrderUInt8 : LinearOrder UInt8 where
  le_refl a := UInt8.le_refl a
  le_trans _ _ _ := UInt8.le_trans
  lt_iff_le_not_ge a b := by
    simp only [UInt8.lt_iff_toNat_lt, UInt8.le_iff_toNat_le]
    omega
  le_antisymm _ _ := UInt8.le_antisymm
  le_total := UInt8.le_total
  toDecidableLE := inferInstance
  toDecidableEq := inferInstance
  toDecidableLT := inferInstance

instance instLawfulBEqUInt8 : LawfulBEq UInt8 := inferInstance

/-- The first position of an element splits the list there. -/
theorem idxOf?_eq_some_iff_append {α : Type*} [BEq α] [LawfulBEq α] {l : List α} {a : α} {n : Nat} :
    l.idxOf? a = some n ↔ ∃ s t, l = s ++ a :: t ∧ s.length = n ∧ a ∉ s := by
  rw [List.idxOf?_eq_some_iff]
  constructor
  · rintro ⟨hn, rfl, hfirst⟩
    refine ⟨l.take n, l.drop (n + 1), ?_, List.length_take_of_le hn.le, fun hmem => ?_⟩
    · rw [List.getElem_cons_drop, List.take_append_drop]
    · obtain ⟨j, hj, heq⟩ := List.getElem_of_mem hmem
      rw [List.getElem_take] at heq
      exact hfirst j (lt_of_lt_of_le hj (List.length_take_le n l)) heq
  · rintro ⟨s, t, rfl, rfl, hs⟩
    refine ⟨by simp, by simp, fun j hj heq => hs ?_⟩
    rw [List.getElem_append_left hj] at heq
    exact heq ▸ List.getElem_mem hj

/-! ### Big-endian numbers -/

/-- The `w` low bytes of `n`, most significant first. -/
def beBytes : Nat → Nat → Bytes
  | 0, _ => []
  | w + 1, n => UInt8.ofNat (n / 256 ^ w) :: beBytes w n

/-- The number a big-endian byte string stands for. -/
def beNat : Bytes → Nat
  | [] => 0
  | b :: bs => b.toNat * 256 ^ bs.length + beNat bs

@[simp]
theorem length_beBytes (w n : Nat) : (beBytes w n).length = w := by
  induction w with
  | zero => rfl
  | succ w ih => simp [beBytes, ih]

theorem beNat_lt (bs : Bytes) : beNat bs < 256 ^ bs.length := by
  induction bs with
  | nil => simp [beNat]
  | cons b bs ih =>
    have hb : b.toNat ≤ 255 := Nat.le_of_lt_succ b.toNat_lt
    have hmul : b.toNat * 256 ^ bs.length ≤ 255 * 256 ^ bs.length := Nat.mul_le_mul_right _ hb
    simp only [beNat, length_cons, pow_succ]
    omega

theorem beNat_beBytes_mod (w n : Nat) : beNat (beBytes w n) = n % 256 ^ w := by
  induction w with
  | zero => simp [beBytes, beNat, Nat.mod_one]
  | succ w ih =>
    simp only [beBytes, beNat, length_beBytes, ih, UInt8.toNat_ofNat']
    rw [pow_succ 256 w, Nat.mod_mul, Nat.mul_comm (256 ^ w) (n / 256 ^ w % 256), Nat.add_comm]

theorem beNat_beBytes {w n : Nat} (h : n < 256 ^ w) : beNat (beBytes w n) = n := by
  rw [beNat_beBytes_mod, Nat.mod_eq_of_lt h]

theorem beBytes_injOn {w m n : Nat} (hm : m < 256 ^ w) (hn : n < 256 ^ w)
    (h : beBytes w m = beBytes w n) : m = n := by
  rw [← beNat_beBytes hm, ← beNat_beBytes hn, h]

/-- Encodings that are not empty are at least as many bytes as there are items. -/
theorem length_le_length_flatMap {α : Type} {enc : α → Bytes} {l : List α}
    (h : ∀ a ∈ l, enc a ≠ []) : l.length ≤ (l.flatMap enc).length := by
  induction l with
  | nil => exact le_rfl
  | cons a l ih =>
    have ha := length_pos_of_ne_nil (h a mem_cons_self)
    have hl := ih fun b hb => h b (mem_cons_of_mem _ hb)
    rw [flatMap_cons, length_append, length_cons]
    omega

end EsLogs
