import EsLogs.Bytes

/-!
Decoders of bytes that come from elsewhere. A decoder takes its value from the front of the input or
fails: with an error for its caller, or with a crash, which is a panic, an arithmetic overflow or a
request for more memory at once than a given limit. The rules below derive from the parts of a decoder
that it does not crash.
-/

namespace EsLogs.Decoding

inductive Fault where
  | error (msg : String)
  | panic (msg : String)
  | overflow
  | oversized
  deriving DecidableEq

def Fault.IsCrash : Fault → Prop
  | .error _ => False
  | .panic _ | .overflow | .oversized => True

/-- The bytes that are left, and what a flag that tells to stop shows when it is looked at. -/
structure Input where
  src : Bytes
  stops : List Bool
  deriving DecidableEq

abbrev Decoder (α : Type) := StateT Input (Except Fault) α

/-- The largest size of an allocation, `isize::MAX`. -/
def isizeMax : Nat := 2 ^ 63 - 1

/-- An allocation that is possible and within the limit. -/
def Fits (limit bytes : Nat) : Prop := bytes ≤ isizeMax ∧ bytes ≤ limit

instance (limit bytes : Nat) : Decidable (Fits limit bytes) := by unfold Fits; infer_instance

/-- The allocation of a hash table for a number of elements of some size, `none` if that number is too
large. There is room for all elements, and the part of the table that stays empty is not larger than
the one that does not by more than a constant factor. -/
structure HashTable where
  bytes : (count size : Nat) → Option Nat
  room : ∀ {count size r}, bytes count size = some r → count * size ≤ r ∧ r ≤ isizeMax
  linear : ∀ {count size}, 8 ≤ size → count * size < 2 ^ 56 →
    ∃ r, bytes count size = some r ∧ r ≤ 8 * (count * size)

def HashTable.Fits (H : HashTable) (limit count size : Nat) : Prop :=
  ∃ r, H.bytes count size = some r ∧ r ≤ limit

section Primitives

variable {α : Type}

def fail (msg : String) : Decoder α := fun _ => .error (.error msg)

def crash (msg : String) : Decoder α := fun _ => .error (.panic msg)

def mapErr (f : String → String) (p : Decoder α) : Decoder α := fun s =>
  (p s).mapError fun
    | .error msg => .error (f msg)
    | fault => fault

def look (f : Bytes → α) : Decoder α := fun s => .ok (f s.src, s)

def advance (n : Nat) : Decoder Unit := fun s =>
  if n ≤ s.src.length then .ok ((), { s with src := s.src.drop n })
  else .error (.panic "range start index out of range for slice")

/-- The input is given up. -/
def clear : Decoder Unit := fun s => .ok ((), { s with src := [] })

/-- The flag, which is not set unless something is said about it. -/
def needStop : Decoder Bool := fun s =>
  match s.stops with
  | [] => .ok (false, s)
  | stop :: stops => .ok (stop, { s with stops := stops })

def alloc (limit bytes : Nat) : Decoder Unit := fun s =>
  if isizeMax < bytes then .error (.panic "capacity overflow")
  else if limit < bytes then .error .oversized
  else .ok ((), s)

def HashTable.withCapacity (H : HashTable) (limit count size : Nat) : Decoder Unit :=
  match H.bytes count size with
  | none => crash "Hash table capacity overflow"
  | some r => alloc limit r

def u64 (n : Nat) : Decoder Nat := fun s => if n < 2 ^ 64 then .ok (n, s) else .error .overflow

def i64 (n : Int) : Decoder Int := fun s =>
  if -2 ^ 63 ≤ n ∧ n < 2 ^ 63 then .ok (n, s) else .error .overflow

/-- Decodes the items number `i`, `i + 1`, … until there are `n` of them. -/
def times (p : Nat → Decoder α) : Nat → Nat → Decoder (List α)
  | _, 0 => pure []
  | i, n + 1 => do
    let a ← p i
    let as ← times p (i + 1) n
    return a :: as

end Primitives

/-! ## Results without a crash -/

section Benign

variable {α β : Type}

/-- A value or an error. -/
def Benign (r : Except Fault α) : Prop := ∀ fault, r = .error fault → ¬fault.IsCrash

theorem benign_ok (a : α) : Benign (.ok a) := nofun

theorem benign_fail (msg : String) (s : Input) : Benign (fail msg s : Except Fault (α × Input)) := by
  rintro fault hfault
  cases hfault
  exact id

variable {p : Decoder α} {f : α → Decoder β} {s : Input}

theorem benign_bind_iff :
    Benign ((p >>= f) s) ↔ Benign (p s) ∧ ∀ a s', p s = .ok (a, s') → Benign (f a s') := by
  change Benign (p s >>= fun r => f r.1 r.2) ↔ _
  cases hp : p s with
  | error fault =>
    refine ⟨fun h => ⟨fun fault' hfault => h fault' ?_, ?_⟩, fun h fault' hfault => h.1 fault' ?_⟩
    · exact congrArg _ (Except.error.inj hfault)
    · exact fun a s' h' => absurd h' (by simp)
    · exact congrArg _ (Except.error.inj hfault)
  | ok r =>
    refine ⟨fun h => ⟨benign_ok r, ?_⟩, fun h => h.2 r.1 r.2 rfl⟩
    intro a s' hr
    cases hr
    exact h

theorem bind_eq_ok_iff {s s' : Input} {b : β} :
    (p >>= f) s = .ok (b, s') ↔ ∃ a t, p s = .ok (a, t) ∧ f a t = .ok (b, s') := by
  change (p s >>= fun r => f r.1 r.2) = _ ↔ _
  cases hp : p s with
  | error fault =>
    refine ⟨fun h => absurd h (by simp [bind, Except.bind]), ?_⟩
    rintro ⟨a, t, hat, _⟩
    cases hat
  | ok r =>
    refine ⟨fun h => ⟨r.1, r.2, rfl, h⟩, ?_⟩
    rintro ⟨a, t, hat, h⟩
    cases hat
    exact h

theorem bind_of_ok {s t : Input} {a : α}
    (h : p s = .ok (a, t)) : (p >>= f) s = f a t := by
  change (p s >>= fun r => f r.1 r.2) = _
  rw [h]
  rfl

theorem bind_of_error {fault : Fault}
    (h : p s = .error fault) : (p >>= f) s = .error fault := by
  change (p s >>= fun r => f r.1 r.2) = _
  rw [h]
  rfl

theorem look_bind {f : Bytes → α} {g : α → Decoder β} (s : Input) :
    (look f >>= g) s = g (f s.src) s := rfl

theorem advance_bind {n : Nat} {g : Unit → Decoder β} (h : n ≤ s.src.length) :
    (advance n >>= g) s = g () { s with src := s.src.drop n } :=
  bind_of_ok (if_pos h)

/-- A flag about which nothing is said is not set. -/
theorem needStop_bind {g : Bool → Decoder β} (src : Bytes) :
    (needStop >>= g) ⟨src, []⟩ = g false ⟨src, []⟩ := rfl

theorem i64_eq_pure {n : Int} (h : -2 ^ 63 ≤ n ∧ n < 2 ^ 63) : i64 n = pure n := by
  funext s
  exact if_pos h

theorem i64_bind {n : Int} {g : Int → Decoder β} (h : -2 ^ 63 ≤ n ∧ n < 2 ^ 63) :
    (i64 n >>= g) s = g n s := bind_of_ok (if_pos h)

theorem mapErr_eq_ok_iff {f : String → String} {r : α × Input} :
    mapErr f p s = .ok r ↔ p s = .ok r := by
  unfold mapErr
  cases p s with
  | ok r' => exact Iff.rfl
  | error fault => exact ⟨fun h => absurd h (by simp [Except.mapError]), nofun⟩

/-- What becomes of a failure does not depend on the decoder that failed. -/
theorem exists_mapErr_eq_error (e : String → String) (fault : Fault) (s : Input) :
    ∃ fault', ∀ {γ : Type} {q : Decoder γ}, q s = .error fault → mapErr e q s = .error fault' := by
  cases fault with
  | error msg => exact ⟨.error (e msg), fun hq => by rw [mapErr, hq]; rfl⟩
  | _ => exact ⟨_, fun hq => by rw [mapErr, hq]; rfl⟩

/-- The messages of a sequence are changed in its parts. -/
theorem mapErr_bind (e : String → String) (p : Decoder α) (f : α → Decoder β) :
    mapErr e (p >>= f) = mapErr e p >>= fun a => mapErr e (f a) := by
  funext s
  cases hp : p s with
  | error fault =>
    obtain ⟨fault', hmap⟩ := exists_mapErr_eq_error e fault s
    rw [bind_of_error (hmap hp), hmap (bind_of_error hp)]
  | ok r =>
    have hmap : mapErr e p s = .ok r := mapErr_eq_ok_iff.2 hp
    rw [bind_of_ok hmap, mapErr, bind_of_ok hp]
    rfl

theorem mapErr_mapErr (e e' : String → String) (p : Decoder α) :
    mapErr e (mapErr e' p) = mapErr (e ∘ e') p := by
  funext s
  unfold mapErr
  cases p s with
  | ok r => rfl
  | error fault =>
    cases fault with
    | error msg => rfl
    | _ => rfl

theorem benign_mapErr_iff {f : String → String} :
    Benign (mapErr f p s) ↔ Benign (p s) := by
  unfold mapErr
  cases p s with
  | ok r => exact ⟨fun _ => benign_ok r, fun _ => benign_ok r⟩
  | error fault =>
    cases fault with
    | error msg =>
      exact ⟨fun _ => benign_fail msg s, fun _ => benign_fail (f msg) s⟩
    | _ => exact Iff.rfl

end Benign

/-! ## Triples -/

section Triple

variable {α β : Type} {P : Input → Prop} {Q : α → Input → Prop}

/-- From an input with the property `P` the decoder does not crash, and its value and what it leaves
have the property `Q`. -/
def Triple (P : Input → Prop) (p : Decoder α) (Q : α → Input → Prop) : Prop :=
  ∀ s, P s → Benign (p s) ∧ ∀ a s', p s = .ok (a, s') → Q a s'

theorem triple_of_ok {p : Decoder α} (h : ∀ s, P s → ∃ a t, p s = .ok (a, t) ∧ Q a t) : Triple P p Q := by
  intro s hs
  obtain ⟨a, t, hp, hq⟩ := h s hs
  rw [hp]
  refine ⟨benign_ok _, fun b s' hb => ?_⟩
  cases hb
  exact hq

theorem triple_pure {a : α} (h : ∀ s, P s → Q a s) : Triple P (pure a) Q :=
  triple_of_ok fun s hs => ⟨a, s, rfl, h s hs⟩

theorem triple_fail (msg : String) : Triple P (fail msg) Q :=
  fun s _ => ⟨benign_fail msg s, fun _ _ h => absurd h (by simp [fail])⟩

theorem Triple.bind {R : β → Input → Prop} {p : Decoder α} {f : α → Decoder β} (hp : Triple P p Q)
    (hf : ∀ a, Triple (Q a) (f a) R) : Triple P (p >>= f) R := by
  intro s hs
  obtain ⟨hb, hq⟩ := hp s hs
  refine ⟨benign_bind_iff.2 ⟨hb, fun a s' h => (hf a s' (hq a s' h)).1⟩, ?_⟩
  intro b s' h
  obtain ⟨a, t, hat, hbt⟩ := bind_eq_ok_iff.1 h
  exact (hf a t (hq a t hat)).2 b s' hbt

theorem Triple.mono {P' : Input → Prop} {Q' : α → Input → Prop} {p : Decoder α} (hp : Triple P p Q)
    (hP : ∀ s, P' s → P s) (hQ : ∀ a s, Q a s → Q' a s) : Triple P' p Q' := by
  intro s hs
  obtain ⟨hb, hq⟩ := hp s (hP s hs)
  exact ⟨hb, fun a s' h => hQ a s' (hq a s' h)⟩

variable {R : Unit → Input → Prop} {limit bytes : Nat} {p : Nat → Decoder α} {H : HashTable} {s : Input}

/-- What every item keeps. -/
theorem Triple.times {I : Input → Prop} (hp : ∀ i, Triple I (p i) fun _ => I)
    (i n : Nat) : Triple I (times p i n) fun _ => I := by
  induction n generalizing i with
  | zero => exact triple_pure fun s hs => hs
  | succ n ih =>
    refine (hp i).bind fun a => (ih (i + 1)).bind fun as => ?_
    exact triple_pure fun s hs => hs

theorem length_of_times {i n : Nat} {s s' : Input} {as : List α}
    (h : Decoding.times p i n s = .ok (as, s')) : as.length = n := by
  induction n generalizing i s s' as with
  | zero => rw [← (Prod.mk.inj (Except.ok.inj h)).1, List.length_nil]
  | succ n ih =>
    obtain ⟨a, t, _, h⟩ := bind_eq_ok_iff.1 h
    obtain ⟨as', t', hrest, h⟩ := bind_eq_ok_iff.1 h
    rw [← (Prod.mk.inj (Except.ok.inj h)).1, List.length_cons, ih hrest]

theorem forall_mem_of_times {R : α → Prop}
    (hp : ∀ i s a s', p i s = .ok (a, s') → R a) {i n : Nat} {s s' : Input} {as : List α}
    (h : Decoding.times p i n s = .ok (as, s')) : ∀ a ∈ as, R a := by
  induction n generalizing i s s' as with
  | zero =>
    rw [← (Prod.mk.inj (Except.ok.inj h)).1]
    exact fun a ha => absurd ha List.not_mem_nil
  | succ n ih =>
    obtain ⟨a, t, ha, h⟩ := bind_eq_ok_iff.1 h
    obtain ⟨as', t', hrest, h⟩ := bind_eq_ok_iff.1 h
    rw [← (Prod.mk.inj (Except.ok.inj h)).1]
    intro b hb
    rcases List.mem_cons.1 hb with rfl | hb
    · exact hp i s b t ha
    · exact ih hrest b hb

theorem triple_look {f : Bytes → α} (h : ∀ s, P s → Q (f s.src) s) : Triple P (look f) Q :=
  triple_of_ok fun s hs => ⟨_, s, rfl, h s hs⟩

theorem triple_advance {n : Nat}
    (h : ∀ s, P s → n ≤ s.src.length ∧ R () { s with src := s.src.drop n }) :
    Triple P (advance n) R :=
  triple_of_ok fun s hs => ⟨(), _, if_pos (h s hs).1, (h s hs).2⟩

theorem benign_alloc_iff :
    Benign (alloc limit bytes s) ↔ Fits limit bytes := by
  unfold alloc Fits
  split_ifs with h1 h2
  · exact ⟨fun h => absurd trivial (h _ rfl), fun h => absurd h.1 (by omega)⟩
  · exact ⟨fun h => absurd trivial (h _ rfl), fun h => absurd h.2 (by omega)⟩
  · exact ⟨fun _ => ⟨by omega, by omega⟩, fun _ => benign_ok _⟩

theorem alloc_eq_ok (h : Fits limit bytes) :
    alloc limit bytes s = .ok ((), s) := by
  unfold alloc
  rw [if_neg (by have := h.1; omega), if_neg (by have := h.2; omega)]

theorem state_eq_of_alloc {s s' : Input} {u : Unit}
    (h : alloc limit bytes s = .ok (u, s')) : Fits limit bytes ∧ s' = s := by
  have hb : Benign (alloc limit bytes s) := by rw [h]; exact benign_ok _
  have hf := benign_alloc_iff.1 hb
  rw [alloc_eq_ok hf] at h
  exact ⟨hf, (Prod.mk.inj (Except.ok.inj h)).2.symm⟩

theorem alloc_bind {g : Unit → Decoder β} (h : Fits limit bytes) :
    (alloc limit bytes >>= g) s = g () s := bind_of_ok (alloc_eq_ok h)

theorem triple_alloc
    (h : ∀ s, P s → Fits limit bytes ∧ R () s) : Triple P (alloc limit bytes) R :=
  triple_of_ok fun s hs => ⟨(), s, alloc_eq_ok (h s hs).1, (h s hs).2⟩

theorem HashTable.withCapacity_eq_ok {limit count size : Nat}
    (h : H.Fits limit count size) (s : Input) : H.withCapacity limit count size s = .ok ((), s) := by
  obtain ⟨r, hr, hle⟩ := h
  unfold HashTable.withCapacity
  rw [hr]
  exact alloc_eq_ok ⟨(H.room hr).2, hle⟩

theorem HashTable.benign_withCapacity_iff {limit count size : Nat} :
    Benign (H.withCapacity limit count size s) ↔ H.Fits limit count size := by
  constructor
  · intro h
    unfold HashTable.withCapacity at h
    cases hr : H.bytes count size with
    | none =>
      rw [hr] at h
      exact absurd trivial (h _ rfl)
    | some r =>
      rw [hr] at h
      exact ⟨r, hr, (benign_alloc_iff.1 h).2⟩
  · intro h
    rw [HashTable.withCapacity_eq_ok h]
    exact benign_ok _

end Triple

/-! ## What is left -/

section Leaves

variable {α β : Type} {I : Bytes → Prop}

def skipTimes (skip : Bytes → Option Bytes) : Nat → Bytes → Option Bytes
  | 0, src => some src
  | n + 1, src => (skip src).bind (skipTimes skip n)

/-- The result of a decoder that either fails with an error or leaves the given bytes. -/
def Leaves (r : Except Fault (α × Input)) (s : Input) : Option Bytes → Prop
  | none => ∃ msg, r = .error (.error msg)
  | some tail => ∃ a, r = .ok (a, { s with src := tail })

theorem Leaves.benign {r : Except Fault (α × Input)} {s : Input} {o : Option Bytes}
    (h : Leaves r s o) : Benign r := by
  cases o with
  | none =>
    obtain ⟨msg, rfl⟩ := h
    exact benign_fail msg s
  | some tail =>
    obtain ⟨a, rfl⟩ := h
    exact benign_ok _

theorem Leaves.mapErr {p : Decoder α} {s : Input} {o : Option Bytes} (h : Leaves (p s) s o)
    (f : String → String) : Leaves (Decoding.mapErr f p s) s o := by
  cases o with
  | none =>
    obtain ⟨msg, h⟩ := h
    exact ⟨f msg, by rw [Decoding.mapErr, h]; rfl⟩
  | some tail =>
    obtain ⟨a, h⟩ := h
    exact ⟨a, mapErr_eq_ok_iff.2 h⟩

/-- A decoder that does the same whatever was decoded before it. -/
theorem Leaves.benign_bind_iff {p : Decoder α} {f : α → Decoder β} {s : Input} {o : Option Bytes}
    {P : Bytes → Prop} (h : Leaves (p s) s o)
    (hf : ∀ a tail, o = some tail → (Benign (f a { s with src := tail }) ↔ P tail)) :
    Benign ((p >>= f) s) ↔ ∀ tail, o = some tail → P tail := by
  rw [Decoding.benign_bind_iff]
  cases o with
  | none =>
    refine ⟨nofun, fun _ => ⟨h.benign, fun a s' ha => ?_⟩⟩
    obtain ⟨msg, h⟩ := h
    cases h.symm.trans ha
  | some tail =>
    refine ⟨fun hb tail' htail => ?_, fun hP => ⟨h.benign, fun a s' ha => ?_⟩⟩
    · cases htail
      obtain ⟨a, h⟩ := h
      exact (hf a tail rfl).1 (hb.2 a _ h)
    · obtain ⟨a', h⟩ := h
      obtain ⟨rfl, rfl⟩ := Prod.mk.inj (Except.ok.inj (h.symm.trans ha))
      exact (hf _ tail rfl).2 (hP tail rfl)

theorem Leaves.times {skip : Bytes → Option Bytes} {p : Nat → Decoder α}
    (hI : ∀ src tail, I src → skip src = some tail → I tail)
    (hp : ∀ i s, I s.src → Leaves (p i s) s (skip s.src)) (i n : Nat) (s : Input) (hs : I s.src) :
    Leaves (Decoding.times p i n s) s (skipTimes skip n s.src) := by
  induction n generalizing i s with
  | zero => exact ⟨[], rfl⟩
  | succ n ih =>
    have hitem := hp i s hs
    unfold Decoding.times
    change Leaves _ s ((skip s.src).bind (skipTimes skip n))
    cases hskip : skip s.src with
    | none =>
      rw [hskip] at hitem
      obtain ⟨msg, hitem⟩ := hitem
      exact ⟨msg, bind_of_error hitem⟩
    | some tail =>
      rw [hskip] at hitem
      obtain ⟨a, hitem⟩ := hitem
      rw [bind_of_ok hitem, Option.bind_some]
      have hrest := ih (i + 1) { s with src := tail } (hI s.src tail hs hskip)
      cases htail : skipTimes skip n tail with
      | none =>
        rw [htail] at hrest
        obtain ⟨msg, hrest⟩ := hrest
        exact ⟨msg, bind_of_error hrest⟩
      | some tail' =>
        rw [htail] at hrest
        obtain ⟨as, hrest⟩ := hrest
        exact ⟨a :: as, bind_of_ok hrest⟩

end Leaves

end EsLogs.Decoding
