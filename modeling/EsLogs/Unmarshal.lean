import EsLogs.Outcome
import EsLogs.Bytes

/-!
Readers of byte strings. A reader takes a value from the front of its input and leaves the tail, or
fails with a message. `Reads p x e` says that `p` reads `x` from the bytes `e` whatever follows them;
the rules below derive it for a sequence of readers from the readers of its parts.
-/

namespace EsLogs

open List

/-- A reader of values of type `α`. -/
abbrev Unmarshal (α : Type) := StateT Bytes (Except String) α

namespace Unmarshal

variable {α β : Type}

def fail (msg : String) : Unmarshal α := fun _ => .error msg

/-- Fails with the message unless the condition holds. -/
def ensure (p : Prop) [Decidable p] (msg : String) : Unmarshal Unit :=
  if p then pure () else fail msg

def mapErr (f : String → String) (p : Unmarshal α) : Unmarshal α := fun src => (p src).mapError f

/-- The next `n` bytes; the message of a failure depends on the number of bytes there are. -/
def take (n : Nat) (msg : Nat → String) : Unmarshal Bytes := fun src =>
  if src.length < n then .error (msg src.length) else .ok (src.take n, src.drop n)

/-- Reads the items number `i`, `i + 1`, … until there are `n` of them. -/
def times (p : Nat → Unmarshal α) : Nat → Nat → Unmarshal (List α)
  | _, 0 => pure []
  | i, n + 1 => do
    let a ← p i
    let as ← times p (i + 1) n
    return a :: as

/-- Reads items while there are bytes left, with fuel for the number of items. -/
def untilEmpty (p : Nat → Unmarshal α) : Nat → Nat → Bytes → Except String (List α)
  | _, _, [] => .ok []
  | 0, _, _ :: _ => .error "out of fuel"
  | fuel + 1, i, b :: src => do
    let (a, tail) ← p i (b :: src)
    let as ← untilEmpty p fuel (i + 1) tail
    return a :: as

/-- Reads a value that takes up the whole input; the message depends on the length of the tail. -/
def complete (p : Unmarshal α) (msg : Nat → String) (src : Bytes) : Except String α := do
  let (a, tail) ← p src
  if tail ≠ [] then throw (msg tail.length) else return a

/-- From the bytes `e`, and whatever follows them, `p` reads `x`. -/
def Reads (p : Unmarshal α) (x : α) (e : Bytes) : Prop := ∀ tail, p (e ++ tail) = .ok (x, tail)

theorem reads_pure (x : α) : Reads (pure x) x [] := fun _ => rfl

variable {p : Unmarshal α} {e : Bytes} {f : α → Unmarshal β} {enc : α → Bytes} {x : α} {y : β}

theorem Reads.bind {e e' : Bytes}
    (hp : Reads p x e) (hf : Reads (f x) y e') : Reads (p >>= f) y (e ++ e') := by
  intro tail
  show (p (e ++ e' ++ tail) >>= fun r => f r.1 r.2) = _
  rw [append_assoc, hp, except_ok_bind]
  exact hf tail

/-- A step that reads nothing. -/
theorem Reads.skip
    (hp : Reads p x []) (hf : Reads (f x) y e) : Reads (p >>= f) y e := hp.bind hf

/-- The last step that reads something. -/
theorem Reads.finish
    (hp : Reads p x e) (hf : Reads (f x) y []) : Reads (p >>= f) y e := by
  have h := hp.bind hf
  rwa [append_nil] at h

/-- The last step of a sequence. -/
theorem Reads.return {f : α → β} (hp : Reads p x e) :
    Reads (p >>= fun a => pure (f a)) (f x) e := by
  intro tail
  show (p (e ++ tail) >>= fun r => .ok (f r.1, r.2)) = _
  rw [hp tail, except_ok_bind]

theorem Reads.return_eq {f : α → β}
    (hp : Reads p x e) (h : f x = y) : Reads (p >>= fun a => pure (f a)) y e := h ▸ hp.return

theorem reads_ensure {p : Prop} [Decidable p] (h : p) (msg : String) :
    Reads (ensure p msg) () [] := by
  rw [ensure, if_pos h]
  exact reads_pure ()

theorem Reads.mapErr (hp : Reads p x e)
    (f : String → String) : Reads (p.mapErr f) x e := by
  intro tail
  rw [Unmarshal.mapErr, hp tail]
  rfl

theorem reads_take {n : Nat} (h : e.length = n) (msg : Nat → String) :
    Reads (take n msg) e e := by
  intro tail
  have hlen : ¬(e ++ tail).length < n := by
    rw [length_append]
    omega
  rw [take, if_neg hlen, take_left' h, drop_left' h]

/-- A single byte. -/
theorem Reads.byte {f : Bytes → Unmarshal β} {b : UInt8} {msg : Nat → String}
    (hf : Reads (f [b]) y e) : Reads (take 1 msg >>= f) y (b :: e) :=
  (reads_take (e := [b]) rfl msg).bind hf

/-- Items of which what is read is a function of what was written. -/
theorem Reads.times_map {p : Nat → Unmarshal β} {d : α → β} {l : List α}
    (h : ∀ i, ∀ a ∈ l, Reads (p i) (d a) (enc a)) (i : Nat) :
    Reads (Unmarshal.times p i l.length) (l.map d) (l.flatMap enc) := by
  induction l generalizing i with
  | nil => exact reads_pure []
  | cons a l ih =>
    rw [flatMap_cons]
    refine (h i a mem_cons_self).bind ?_
    exact (ih (fun j b hb => h j b (mem_cons_of_mem _ hb)) (i + 1)).return

theorem Reads.times {p : Nat → Unmarshal α} {l : List α}
    (h : ∀ i, ∀ a ∈ l, Reads (p i) a (enc a)) (i : Nat) :
    Reads (Unmarshal.times p i l.length) l (l.flatMap enc) := by
  have hmap := Reads.times_map (d := id) h i
  rwa [map_id] at hmap

/-- Items none of which is empty are read to the end of the input. -/
theorem untilEmpty_flatMap {p : Nat → Unmarshal α} {l : List α}
    (h : ∀ i, ∀ a ∈ l, Reads (p i) a (enc a)) (hne : ∀ a ∈ l, enc a ≠ []) {fuel : Nat}
    (hfuel : l.length ≤ fuel) (i : Nat) : untilEmpty p fuel i (l.flatMap enc) = .ok l := by
  induction l generalizing fuel i with
  | nil => cases fuel <;> rfl
  | cons a l ih =>
    obtain ⟨b, bs, hb⟩ := exists_cons_of_ne_nil (hne a mem_cons_self)
    have hread := h i a mem_cons_self (l.flatMap enc)
    cases fuel with
    | zero => cases hfuel
    | succ fuel =>
      have htail := ih (fun j c hc => h j c (mem_cons_of_mem _ hc))
        (fun c hc => hne c (mem_cons_of_mem _ hc)) (Nat.le_of_succ_le_succ hfuel) (i + 1)
      rw [flatMap_cons]
      rw [hb, cons_append] at hread ⊢
      rw [untilEmpty, hread, except_ok_bind]
      show (untilEmpty p fuel (i + 1) (l.flatMap enc) >>= fun as => .ok (a :: as)) = _
      rw [htail, except_ok_bind]

/-- A reader that reads back two encodings tells them apart, whatever follows them. -/
theorem Reads.eq_of_append_eq {x' : α} {e' s t : Bytes} (hp : Reads p x e) (hp' : Reads p x' e')
    (h : e ++ s = e' ++ t) : x = x' ∧ s = t := by
  have hread := hp s
  rw [h, hp' t] at hread
  cases hread
  exact ⟨rfl, rfl⟩

theorem Reads.complete (hp : Reads p x e)
    (msg : Nat → String) : p.complete msg e = .ok x := by
  have h := hp []
  rw [append_nil] at h
  rw [Unmarshal.complete, h]
  rfl

end Unmarshal

end EsLogs
