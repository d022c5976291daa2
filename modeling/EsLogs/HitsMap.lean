import EsLogs.Tally
import EsLogs.BlockColumns

/-!
The maps in which `pipe_uniq.rs`, `pipe_top.rs` and `pipe_stats.rs` count the rows of each value of a
field. A value that parses as an unsigned integer is filed under its number, one that starts with a minus
and parses as a signed integer under its number among the negative ones, and every other value under its
bytes.
-/

namespace EsLogs.Hits

open NumberText ColumnValues Encoding List

variable {n : Int} {v : Bytes} (m : HitsMap)

/-- Where a value is filed: in which of the three maps, and under which key. -/
inductive Key where
  | u64 (n : Nat)
  | neg (n : Int)
  | str (b : Bytes)
  deriving DecidableEq, Repr

/-- The choice of `update_state_generic`, and of `get_group_generic`. -/
def genericKey (v : Bytes) : Key :=
  match tryParseUint64Bytes v with
  | some n => .u64 n
  | none =>
    if v.head? = some (byte '-') then
      match tryParseInt64Bytes v with
      | some n => .neg n
      | none => .str v
    else .str v

/-- The text that is written for a key of a single field. -/
def Key.text : Key → Bytes
  | .u64 n => marshalUint64String n
  | .neg n => marshalInt64String n
  | .str b => b

/-- `HitsMap`; the filter is empty in `top`. -/
structure HitsMap where
  filter : Bytes
  u64s : Tally Nat
  negs : Tally Int
  strings : Tally Bytes

namespace HitsMap

def new (filter : Bytes) : HitsMap := ⟨filter, .empty, .empty, .empty⟩

def entriesCount (m : HitsMap) : Nat := m.u64s.keys.length + m.negs.keys.length + m.strings.keys.length

/-- `HitsMap::passes_filter`; an empty filter is part of every value. -/
def passesFilter (m : HitsMap) (v : Bytes) : Bool := m.filter.isEmpty || decide (m.filter <:+: v)

def add (m : HitsMap) (k : Key) (hits : Nat) : HitsMap :=
  match k with
  | .u64 n => { m with u64s := m.u64s.add n hits }
  | .neg n => { m with negs := m.negs.add n hits }
  | .str b => { m with strings := m.strings.add b hits }

def updateStateGeneric (m : HitsMap) (v : Bytes) (hits : Nat) : HitsMap :=
  if !m.passesFilter v then m else m.add (genericKey v) hits

def updateStateString (m : HitsMap) (key : Bytes) (hits : Nat) : HitsMap := m.add (.str key) hits

def updateStateUint64 (m : HitsMap) (n hits : Nat) : HitsMap :=
  if !m.filter.isEmpty && !decide (m.filter <:+: marshalUint64String n) then m else m.add (.u64 n) hits

def updateStateInt64 (m : HitsMap) (n : Int) (hits : Nat) : HitsMap :=
  if n ≥ 0 then m.updateStateUint64 n.toNat hits
  else if !m.filter.isEmpty && !decide (m.filter <:+: marshalInt64String n) then m
  else m.add (.neg n) hits

def merge (m other : HitsMap) : HitsMap :=
  { m with
    u64s := m.u64s.merge other.u64s
    negs := m.negs.merge other.negs
    strings := m.strings.merge other.strings }

def keys (m : HitsMap) : List Key :=
  m.u64s.keys.map .u64 ++ (m.negs.keys.map .neg ++ m.strings.keys.map .str)

def get (m : HitsMap) : Key → Nat
  | .u64 n => m.u64s.get n
  | .neg n => m.negs.get n
  | .str b => m.strings.get b

end HitsMap

/-! ### Texts and keys -/

theorem genericKey_uint {n : Nat} (h : n < 2 ^ 64) : genericKey (marshalUint64String n) = .u64 n := by
  rw [genericKey, tryParseUint64Bytes_marshal h]

theorem genericKey_int (hlo : -2 ^ 63 ≤ n) (hhi : n < 2 ^ 63) :
    genericKey (marshalInt64String n) = if n ≥ 0 then .u64 n.toNat else .neg n := by
  split_ifs with hn
  · obtain ⟨k, rfl⟩ := Int.eq_ofNat_of_zero_le hn
    rw [marshalInt64String_natCast]
    exact genericKey_uint (by omega)
  · obtain ⟨k, hk⟩ := Int.eq_ofNat_of_zero_le (show 0 ≤ -n by omega)
    obtain rfl : n = -k := by omega
    have hk0 : k ≠ 0 := by omega
    have hparse := tryParseInt64Bytes_marshal hlo hhi
    rw [marshalInt64String_neg hk0] at hparse ⊢
    have huint : tryParseUint64Bytes (byte '-' :: decimal k) = none := by
      cases hu : tryParseUint64Bytes (byte '-' :: decimal k) with
      | none => rfl
      | some m => exact absurd rfl (head_ne_minus_of_uintText (tryParseUint64Bytes_eq_some.1 hu).1)
    rw [genericKey, huint]
    simp [hparse]

/-- A number that is filed under its value has been read from some text. -/
theorem genericKey_eq_u64 {n : Nat} (h : genericKey v = .u64 n) : tryParseUint64Bytes v = some n := by
  unfold genericKey at h
  split at h
  · rename_i n' hn'
    cases h
    exact hn'
  · split_ifs at h
    split at h <;> cases h

theorem genericKey_eq_neg (h : genericKey v = .neg n) : v.head? = some (byte '-') ∧ tryParseInt64Bytes v = some n := by
  unfold genericKey at h
  split at h
  · cases h
  · split_ifs at h with hminus
    split at h
    · rename_i n' hn'
      cases h
      exact ⟨hminus, hn'⟩
    · cases h

theorem genericKey_eq_str {v b : Bytes} (h : genericKey v = .str b) : b = v := by
  unfold genericKey at h
  split at h
  · cases h
  · split_ifs at h with hminus
    · split at h
      · cases h
      · cases h
        rfl
    · cases h
      rfl

theorem nonpos_of_genericKey_eq_neg (h : genericKey v = .neg n) : n ≤ 0 := by
  obtain ⟨hminus, hparse⟩ := genericKey_eq_neg h
  rcases tryParseInt64Bytes_eq_some.1 hparse with ⟨ht, -⟩ | ⟨t, -, -, -, rfl⟩
  · exact absurd hminus (head_ne_minus_of_uintText ht)
  · omega

/-- The text of a number that is filed as a negative one is filed as that number again, unless it is zero. -/
theorem genericKey_text_neg (h : genericKey v = .neg n) :
    genericKey (marshalInt64String n) = if n = 0 then .u64 0 else .neg n := by
  have hle := nonpos_of_genericKey_eq_neg h
  obtain ⟨hlo, hhi⟩ := tryParseInt64Bytes_range (genericKey_eq_neg h).2
  rw [genericKey_int hlo hhi]
  split_ifs with h1 h2 h2
  · rw [h2]
    rfl
  · omega
  · omega
  · rfl

/-- What the text of a key is filed under: the key itself, except for a negative zero. -/
theorem genericKey_text (v : Bytes) :
    genericKey (genericKey v).text = if genericKey v = .neg 0 then .u64 0 else genericKey v := by
  cases hv : genericKey v with
  | u64 n =>
    rw [if_neg (by simp)]
    exact genericKey_uint (tryParseUint64Bytes_lt (genericKey_eq_u64 hv))
  | neg n =>
    simp only [Key.neg.injEq]
    exact genericKey_text_neg hv
  | str b =>
    obtain rfl := genericKey_eq_str hv
    rw [if_neg (by simp)]
    exact hv

/-- Two keys of values have one text only if one is zero and the other one is negative zero. -/
theorem eq_of_text_eq {v w : Bytes} (h : (genericKey v).text = (genericKey w).text) :
    genericKey v = genericKey w ∨ genericKey v = .u64 0 ∧ genericKey w = .neg 0 ∨
      genericKey v = .neg 0 ∧ genericKey w = .u64 0 := by
  have hkey := congrArg genericKey h
  rw [genericKey_text, genericKey_text] at hkey
  split_ifs at hkey with h1 h2 h2
  · exact .inl (h1.trans h2.symm)
  · exact .inr (.inr ⟨h1, hkey.symm⟩)
  · exact .inr (.inl ⟨hkey, h2⟩)
  · exact .inl hkey

/-- What a typed column of unsigned integers adds is what its texts add. -/
theorem HitsMap.updateStateUint64_eq {n : Nat} (hits : Nat) (h : n < 2 ^ 64) :
    m.updateStateUint64 n hits = m.updateStateGeneric (marshalUint64String n) hits := by
  rw [updateStateUint64, updateStateGeneric, genericKey_uint h, passesFilter, Bool.not_or]

theorem HitsMap.updateStateInt64_eq (hits : Nat) (hlo : -2 ^ 63 ≤ n) (hhi : n < 2 ^ 63) :
    m.updateStateInt64 n hits = m.updateStateGeneric (marshalInt64String n) hits := by
  rw [updateStateInt64]
  split_ifs with hn hf
  · obtain ⟨k, rfl⟩ := Int.eq_ofNat_of_zero_le hn
    rw [marshalInt64String_natCast]
    exact m.updateStateUint64_eq hits (by omega)
  · rw [updateStateGeneric, passesFilter, Bool.not_or, if_pos hf]
  · rw [updateStateGeneric, passesFilter, Bool.not_or, if_neg hf, genericKey_int hlo hhi, if_neg hn]

/-! ### Keys and hits -/

namespace HitsMap

@[simp]
theorem filter_add (k : Key) (hits : Nat) : (m.add k hits).filter = m.filter := by
  cases k <;> rfl

@[simp]
theorem mem_keys_u64 {m : HitsMap} {n : Nat} : Key.u64 n ∈ m.keys ↔ n ∈ m.u64s.keys := by
  simp [keys]

@[simp]
theorem mem_keys_neg {m : HitsMap} : Key.neg n ∈ m.keys ↔ n ∈ m.negs.keys := by
  simp [keys]

@[simp]
theorem mem_keys_str {m : HitsMap} {b : Bytes} : Key.str b ∈ m.keys ↔ b ∈ m.strings.keys := by
  simp [keys]

theorem nodup_keys : m.keys.Nodup := by
  have hu : (m.u64s.keys.map Key.u64).Nodup := m.u64s.nodup_keys.map fun _ _ h => Key.u64.inj h
  have hn : (m.negs.keys.map Key.neg).Nodup := m.negs.nodup_keys.map fun _ _ h => Key.neg.inj h
  have hs : (m.strings.keys.map Key.str).Nodup := m.strings.nodup_keys.map fun _ _ h => Key.str.inj h
  unfold keys
  refine hu.append (hn.append hs ?_) ?_
  · intro k hk hk'
    obtain ⟨n, -, rfl⟩ := mem_map.1 hk
    simp at hk'
  · intro k hk hk'
    obtain ⟨n, -, rfl⟩ := mem_map.1 hk
    simp at hk'

theorem length_keys : m.keys.length = m.entriesCount := by
  simp [keys, entriesCount, Nat.add_assoc]

theorem keys_new (filter : Bytes) : (new filter).keys = [] := rfl

theorem get_new (filter : Bytes) (k : Key) : (new filter).get k = 0 := by
  cases k <;> rfl

theorem mem_keys_add {m : HitsMap} {k k' : Key} {hits : Nat} :
    k' ∈ (m.add k hits).keys ↔ k' ∈ m.keys ∨ k' = k := by
  cases k <;> cases k' <;> simp [add]

theorem get_add (k k' : Key) (hits : Nat) : (m.add k hits).get k' = m.get k' + if k' = k then hits else 0 := by
  cases k <;> cases k' <;> simp [add, get]

theorem mem_keys_merge {m other : HitsMap} {k : Key} : k ∈ (m.merge other).keys ↔ k ∈ m.keys ∨ k ∈ other.keys := by
  cases k <;> simp [merge]

theorem get_merge (m other : HitsMap) (k : Key) : (m.merge other).get k = m.get k + other.get k := by
  cases k <;> simp [merge, get]

end HitsMap

/-! ### What a map has counted -/

/-- The map has seen the keys of these rows and no others; if the hits are asked for, they are the numbers
of the rows. -/
structure Tracks (needHits : Bool) (m : HitsMap) (rows : List Key) : Prop where
  mem_keys : ∀ k, k ∈ m.keys ↔ k ∈ rows
  pos : ∀ k ∈ rows, 0 < m.get k
  exact_hits : needHits = true → ∀ k, m.get k = rows.count k

namespace Tracks

variable {needHits : Bool} {m other : HitsMap} {rows rows' : List Key}

theorem new (filter : Bytes) : Tracks needHits (HitsMap.new filter) [] where
  mem_keys := fun k => by rw [HitsMap.keys_new]
  pos := fun k hk => by cases hk
  exact_hits := fun _ k => by rw [HitsMap.get_new, count_nil]

section

variable (h : Tracks needHits m rows)
include h

theorem add (k : Key) {hits : Nat} (hpos : 0 < hits) :
    Tracks needHits (m.add k hits) (rows ++ replicate hits k) where
  mem_keys := by
    intro k'
    rw [HitsMap.mem_keys_add, h.mem_keys, mem_append, mem_replicate]
    simp [hpos.ne']
  pos := by
    intro k' hk'
    rw [HitsMap.get_add]
    rcases mem_append.1 hk' with hk' | hk'
    · have := h.pos k' hk'
      omega
    · rw [if_pos (eq_of_mem_replicate hk')]
      omega
  exact_hits := by
    intro hneed k'
    rw [HitsMap.get_add, h.exact_hits hneed, count_append, count_replicate]
    congr 1
    by_cases hk : k' = k
    · simp [hk]
    · simp [hk, Ne.symm hk]

/-- Without hits, a row with a known key needs no update. -/
theorem skip (hneed : needHits = false) {k : Key} (hk : k ∈ rows) :
    Tracks needHits m (rows ++ [k]) where
  mem_keys := by
    intro k'
    rw [h.mem_keys, mem_append, mem_singleton]
    constructor
    · exact .inl
    · rintro (hk' | rfl)
      · exact hk'
      · exact hk
  pos := by
    intro k' hk'
    rcases mem_append.1 hk' with hk' | hk'
    · exact h.pos k' hk'
    · rw [mem_singleton.1 hk']
      exact h.pos k hk
  exact_hits := fun htrue => by rw [hneed] at htrue; cases htrue

theorem merge (h' : Tracks needHits other rows') :
    Tracks needHits (m.merge other) (rows ++ rows') where
  mem_keys := fun k => by rw [HitsMap.mem_keys_merge, h.mem_keys, h'.mem_keys, mem_append]
  pos := by
    intro k hk
    rw [HitsMap.get_merge]
    rcases mem_append.1 hk with hk | hk
    · have := h.pos k hk
      omega
    · have := h'.pos k hk
      omega
  exact_hits := fun hneed k => by
    rw [HitsMap.get_merge, h.exact_hits hneed, h'.exact_hits hneed, count_append]

theorem perm (hperm : rows.Perm rows') : Tracks needHits m rows' where
  mem_keys := fun k => by rw [h.mem_keys, hperm.mem_iff]
  pos := fun k hk => h.pos k (hperm.mem_iff.2 hk)
  exact_hits := fun hneed k => by rw [h.exact_hits hneed, hperm.count_eq]

/-- The keys are the distinct keys of the rows. -/
theorem keys_perm : m.keys.Perm rows.dedup := by
  rw [perm_ext_iff_of_nodup m.nodup_keys rows.nodup_dedup]
  intro k
  rw [h.mem_keys, mem_dedup]

theorem entriesCount_eq : m.entriesCount = rows.dedup.length := by
  rw [← m.length_keys, h.keys_perm.length_eq]

end

end Tracks

end EsLogs.Hits
