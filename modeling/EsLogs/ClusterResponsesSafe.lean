import EsLogs.ClusterResponses

/-!
When the decoders of the responses of a storage node do not crash. The counts in the received bytes are
taken as sizes of allocations before the bytes they stand for are looked at, so the counts have to be small
enough; nothing else can go wrong. A count is where the format has it: `varUint64?` and `bytes?` are the
items at the front of some bytes together with what follows them.
-/

namespace EsLogs.ClusterResponses

open Decoding Encoding NumberText

variable {src tail : Bytes} {db : DataBlock} {n : Nat} {size : Int} {B : Int} (msg : Nat → String)

def varUint64? (src : Bytes) : Option (Nat × Bytes) :=
  if (unmarshalVarUint64 src).2 ≤ 0 then none
  else some ((unmarshalVarUint64 src).1, src.drop (unmarshalVarUint64 src).2.toNat)

def bytes? (src : Bytes) : Option (Bytes × Bytes) :=
  if (unmarshalBytes src).2 ≤ 0 then none
  else (unmarshalBytes src).1.map fun v => (v, src.drop (unmarshalBytes src).2.toNat)

/-! ### Items and their sizes -/

theorem uvarintLoop_size_le (src : Bytes) (i x : Nat) :
    (uvarintLoop src i x).2 ≤ ↑(i + src.length) := by
  induction src generalizing i x with
  | nil =>
    show (0 : Int) ≤ _
    positivity
  | cons b src ih =>
    unfold uvarintLoop
    rw [List.length_cons]
    split_ifs
    · show (-(i + 1) : Int) ≤ _
      omega
    · show (-(i + 1) : Int) ≤ _
      omega
    · show ((i : Int) + 1) ≤ _
      omega
    · have h := ih (i + 1) (x ||| (b.toNat &&& 0x7f) <<< (7 * i) % 2 ^ 64)
      have heq : i + 1 + src.length = i + (src.length + 1) := by omega
      rwa [heq] at h

theorem unmarshalVarUint64_size_le (src : Bytes) : (unmarshalVarUint64 src).2.toNat ≤ src.length := by
  have h := uvarintLoop_size_le src 0 0
  rw [unmarshalVarUint64_eq_uvarint, uvarint]
  omega

theorem length_of_varUint64? {src rest : Bytes} {u : Nat} (h : varUint64? src = some (u, rest)) :
    rest.length + 1 ≤ src.length := by
  unfold varUint64? at h
  split_ifs at h with hn
  have hle := unmarshalVarUint64_size_le src
  rw [← (Prod.mk.inj (Option.some.inj h)).2, List.length_drop]
  omega

/-- A byte string is behind the number that tells its length. -/
theorem unmarshalBytes_of_pos {src : Bytes} (h : ¬(unmarshalBytes src).2 ≤ 0) :
    ∃ v, (unmarshalBytes src).1 = some v ∧
      v.length + 1 ≤ (unmarshalBytes src).2.toNat ∧ (unmarshalBytes src).2.toNat ≤ src.length := by
  have hle := unmarshalVarUint64_size_le src
  unfold unmarshalBytes at h ⊢
  simp only at h ⊢
  split_ifs at h ⊢ with h1 h2
  · exact absurd le_rfl h
  · exact absurd le_rfl h
  · refine ⟨_, rfl, ?_, ?_⟩
    · rw [List.length_take, List.length_drop]
      omega
    · omega

theorem length_of_bytes? {src v rest : Bytes} (h : bytes? src = some (v, rest)) :
    v.length + 1 + rest.length ≤ src.length := by
  unfold bytes? at h
  split_ifs at h with hn
  obtain ⟨v', hv', hlen, hle⟩ := unmarshalBytes_of_pos hn
  rw [hv', Option.map_some] at h
  cases h
  rw [List.length_drop]
  omega

/-! ### The readers -/

section Readers

variable {α : Type} {limit : Nat} {s : Input}

/-- The result of a reader that takes an item off the input, if there is one. -/
def taken {β : Type} (item : Option (β × Bytes)) (msg : String) (s : Input) : Except Fault (β × Input) :=
  match item with
  | none => .error (.error msg)
  | some (v, rest) => .ok (v, { s with src := rest })

theorem benign_taken_bind_iff {β : Type} {p : Decoder β} {f : β → Decoder α} {item : Option (β × Bytes)}
    {msg : String} (hp : p s = taken item msg s) :
    Benign ((p >>= f) s) ↔ ∀ v rest, item = some (v, rest) → Benign (f v { s with src := rest }) := by
  cases item with
  | none =>
    rw [bind_of_error hp]
    exact ⟨nofun, fun _ => benign_fail msg s⟩
  | some r =>
    rw [bind_of_ok hp]
    refine ⟨fun h v rest hr => ?_, fun h => h _ _ rfl⟩
    cases hr
    exact h

theorem triple_of_taken {P : Input → Prop} {p : Decoder α} {Q : α → Input → Prop}
    (h : ∀ s, P s → ∃ item msg, p s = taken item msg s ∧
      ∀ v rest, item = some (v, rest) → Q v { s with src := rest }) : Triple P p Q := by
  intro s hs
  obtain ⟨item, msg, hp, hq⟩ := h s hs
  rw [hp]
  cases item with
  | none => exact ⟨benign_fail msg s, fun _ _ h => absurd h (by simp [taken])⟩
  | some r =>
    refine ⟨benign_ok _, fun v s' hr => ?_⟩
    cases hr
    exact hq _ _ rfl

theorem readVarUint64_eq (s : Input) : readVarUint64 msg s = taken (varUint64? s.src) (msg s.src.length) s := by
  have hle := unmarshalVarUint64_size_le s.src
  unfold readVarUint64 varUint64?
  rw [look_bind]
  generalize unmarshalVarUint64 s.src = r at hle ⊢
  obtain ⟨u, n⟩ := r
  by_cases hn : n ≤ 0
  · simp only [if_pos hn]
    rfl
  · simp only [if_neg hn]
    rw [advance_bind hle]
    rfl

/-- With room for the bytes that are left there is room for a part of them. -/
theorem fits_of_le {a b : Nat} (h : Fits limit b) (hab : a ≤ b) : Fits limit a :=
  ⟨hab.trans h.1, hab.trans h.2⟩

theorem readBytes_eq (hs : Fits limit s.src.length) :
    readBytes limit msg s = taken (bytes? s.src) (msg s.src.length) s := by
  have hpos := @unmarshalBytes_of_pos s.src
  unfold readBytes bytes?
  rw [look_bind]
  generalize unmarshalBytes s.src = r at hpos ⊢
  obtain ⟨v, n⟩ := r
  by_cases hn : n ≤ 0
  · simp only [if_pos hn]
    cases v with
    | none => rfl
    | some v =>
      simp only [if_neg (not_lt.2 hn)]
      rfl
  · obtain ⟨v', hv, hlen, hle⟩ := hpos hn
    obtain rfl : v = some v' := hv
    simp only [if_neg hn, if_pos (not_le.1 hn), Option.map_some]
    rw [alloc_bind (fits_of_le hs (by simp only at hlen hle; omega)), advance_bind hle]
    rfl

theorem readBytesUnwrap_eq (msg : String) (hs : Fits limit s.src.length) :
    readBytesUnwrap limit msg s = taken (bytes? s.src) msg s := by
  have hpos := @unmarshalBytes_of_pos s.src
  unfold readBytesUnwrap bytes?
  rw [look_bind]
  generalize unmarshalBytes s.src = r at hpos ⊢
  obtain ⟨v, n⟩ := r
  by_cases hn : n ≤ 0
  · simp only [if_pos hn]
    rfl
  · obtain ⟨v', hv, hlen, hle⟩ := hpos hn
    obtain rfl : v = some v' := hv
    simp only [if_neg hn, Option.map_some]
    rw [alloc_bind (fits_of_le hs (by simp only at hlen hle; omega)), advance_bind hle]
    rfl

theorem benign_readVarUint64_bind_iff {msg : Nat → String} {f : Nat → Decoder α} :
    Benign ((readVarUint64 msg >>= f) s) ↔
      ∀ u rest, varUint64? s.src = some (u, rest) → Benign (f u { s with src := rest }) :=
  benign_taken_bind_iff (readVarUint64_eq msg s)

theorem benign_alloc_bind_iff {bytes : Nat} {f : Unit → Decoder α} :
    Benign ((alloc limit bytes >>= f) s) ↔ Fits limit bytes ∧ Benign (f () s) := by
  rw [benign_bind_iff, benign_alloc_iff]
  refine ⟨fun h => ⟨h.1, h.2 () s (alloc_eq_ok h.1)⟩, fun h => ⟨h.1, fun u s' hr => ?_⟩⟩
  obtain ⟨_, rfl⟩ := state_eq_of_alloc hr
  exact h.2

/-- There is room for all the bytes that are left. -/
def Room (limit : Nat) (s : Input) : Prop := Fits limit s.src.length

theorem triple_readBytes :
    Triple (Room limit) (readBytes limit msg) fun v s => Fits limit v.length ∧ Room limit s := by
  refine triple_of_taken fun s hs => ⟨_, _, readBytes_eq msg hs, fun v rest hb => ?_⟩
  have hlen := length_of_bytes? hb
  exact ⟨fits_of_le hs (by omega), fits_of_le hs (by simp only; omega)⟩

theorem takeUint64_eq (h : 8 ≤ s.src.length) :
    takeUint64 s = .ok (unmarshalUint64 s.src, { s with src := s.src.drop 8 }) := by
  unfold takeUint64
  rw [look_bind, if_neg (not_lt.2 h), look_bind, advance_bind h]
  rfl

/-- The check at the end of the input. -/
theorem benign_checkTail (r : α) (s : Input) :
    Benign ((do let tail ← look List.length; if tail ≠ 0 then fail (msg tail) else return r) s) := by
  rw [look_bind]
  split_ifs
  · exact benign_fail _ s
  · exact benign_ok _

end Readers

/-! ### Data blocks -/

/-- The vector of columns fits, and so does the vector of the values of a column if the bytes get to the
type of the values of the first column. -/
def DataBlockFits (limit : Nat) (src : Bytes) : Prop :=
  ∀ rows rest, varUint64? src = some (rows, rest) →
    ∀ cols rest', varUint64? rest = some (cols, rest') →
      Fits limit (cols * sizeOfBlockColumn) ∧
        (0 < cols → ∀ name valuesType tail, bytes? rest' = some (name, valuesType :: tail) →
          Fits limit (rows * sizeOfVec))

section DataBlock

variable {limit : Nat} {debugName : Bytes → String} {s : Input}

theorem triple_unmarshalValues (rows i : Nat) (name : Bytes) (valuesType : UInt8) :
    Triple (Room limit) (unmarshalValues limit debugName rows i name valuesType) fun _ => Room limit := by
  unfold unmarshalValues
  split_ifs
  · refine (triple_readBytes _).bind fun v => ?_
    have hclone : ∀ j : Nat, Triple (fun s => Fits limit v.length ∧ Room limit s)
        (do alloc limit v.length; return v) fun _ s => Fits limit v.length ∧ Room limit s := by
      intro _
      apply Triple.bind (Q := fun _ s => Fits limit v.length ∧ Room limit s)
      · exact triple_alloc fun s hs => ⟨hs.1, hs⟩
      · exact fun _ => triple_pure fun s hs => hs
    exact (Triple.times hclone 0 rows).mono (fun _ h => h) fun _ _ h => h.2
  · apply Triple.times
    intro j
    exact (triple_readBytes _).mono (fun _ h => h) fun _ _ h => h.2
  · exact triple_fail _

theorem triple_unmarshalColumn {rows : Nat} (hrows : Fits limit (rows * sizeOfVec)) (i : Nat) :
    Triple (Room limit) (unmarshalColumn limit debugName rows i) fun _ => Room limit := by
  unfold unmarshalColumn
  refine (triple_readBytes _).bind fun name => ?_
  refine Triple.bind (Q := fun first s => first = s.src.head? ∧ Room limit s)
    (triple_look fun s hs => ⟨rfl, hs.2⟩) fun first => ?_
  cases first with
  | none => exact triple_fail _
  | some valuesType =>
    refine Triple.bind (Q := fun _ => Room limit) (triple_advance fun s hs => ?_) fun _ => ?_
    · have hne : s.src ≠ [] := by
        intro hnil
        rw [hnil] at hs
        exact absurd hs.1 (by simp)
      have hpos := List.length_pos_iff.2 hne
      exact ⟨hpos, fits_of_le hs.2 (by rw [List.length_drop]; omega)⟩
    · refine Triple.bind (Q := fun _ => Room limit) (triple_alloc fun s hs => ⟨hrows, hs⟩) fun _ => ?_
      refine (triple_unmarshalValues rows i name valuesType).bind fun values => ?_
      exact triple_pure fun s hs => hs

/-- A column is decoded only if there is room for its values. -/
theorem of_unmarshalColumn {rows i : Nat} {c : BlockColumn} {s' : Input}
    (h : unmarshalColumn limit debugName rows i s = .ok (c, s')) :
    Fits limit (rows * sizeOfVec) ∧ c.values.length = rows := by
  unfold unmarshalColumn at h
  obtain ⟨name, t, _, h⟩ := bind_eq_ok_iff.1 h
  rw [look_bind] at h
  cases hhead : t.src.head? with
  | none =>
    simp only [hhead] at h
    exact absurd h (by simp [fail])
  | some valuesType =>
    simp only [hhead] at h
    obtain ⟨_, t1, _, h⟩ := bind_eq_ok_iff.1 h
    obtain ⟨_, t2, halloc, h⟩ := bind_eq_ok_iff.1 h
    obtain ⟨values, t3, hvalues, h⟩ := bind_eq_ok_iff.1 h
    refine ⟨(state_eq_of_alloc halloc).1, ?_⟩
    rw [← (Prod.mk.inj (Except.ok.inj h)).1]
    unfold unmarshalValues at hvalues
    split_ifs at hvalues
    · obtain ⟨v, t4, _, hvalues⟩ := bind_eq_ok_iff.1 hvalues
      exact length_of_times hvalues
    · exact length_of_times hvalues
    · exact absurd hvalues (by simp [fail])

theorem benign_unmarshalColumn_iff {rows i : Nat} (hs : Room limit s) :
    Benign (unmarshalColumn limit debugName rows i s) ↔
      ∀ name valuesType tail, bytes? s.src = some (name, valuesType :: tail) →
        Fits limit (rows * sizeOfVec) := by
  constructor
  · intro h name valuesType tail hb
    unfold unmarshalColumn at h
    rw [benign_taken_bind_iff (readBytes_eq _ hs)] at h
    have hcol := h name _ hb
    rw [look_bind] at hcol
    change Benign ((advance 1 >>= _) _) at hcol
    rw [advance_bind (by simp), benign_alloc_bind_iff] at hcol
    exact hcol.1
  · intro h
    by_cases hrows : Fits limit (rows * sizeOfVec)
    · exact (triple_unmarshalColumn hrows i s hs).1
    · -- the bytes end before the values of the column
      unfold unmarshalColumn
      rw [benign_taken_bind_iff (readBytes_eq _ hs)]
      intro name rest hb
      cases rest with
      | nil =>
        rw [look_bind]
        exact benign_fail _ _
      | cons valuesType tail => exact absurd (h name valuesType tail hb) hrows

theorem benign_columns_iff {rows cols : Nat} (hs : Room limit s) :
    Benign (times (unmarshalColumn limit debugName rows) 0 cols s) ↔
      (0 < cols → ∀ name valuesType tail, bytes? s.src = some (name, valuesType :: tail) →
        Fits limit (rows * sizeOfVec)) := by
  cases cols with
  | zero => exact ⟨fun _ h => absurd h (lt_irrefl 0), fun _ => benign_ok _⟩
  | succ cols =>
    constructor
    · intro h _
      have hcol := (benign_bind_iff.1 h).1
      exact (benign_unmarshalColumn_iff hs).1 hcol
    · intro h
      have hcol : Benign (unmarshalColumn limit debugName rows 0 s) :=
        (benign_unmarshalColumn_iff hs).2 (h (Nat.succ_pos cols))
      refine benign_bind_iff.2 ⟨hcol, ?_⟩
      intro c s' hc
      have hrows := (of_unmarshalColumn hc).1
      have hroom := (triple_unmarshalColumn hrows 0 s hs).2 c s' hc
      have hkeep : ∀ i, Triple (Room limit) (unmarshalColumn limit debugName rows i)
          fun _ => Room limit := triple_unmarshalColumn hrows
      exact benign_bind_iff.2 ⟨(Triple.times hkeep 1 cols s' hroom).1, fun _ _ _ => benign_ok _⟩

theorem benign_unmarshalDataBlock_iff (hs : Room limit s) :
    Benign (unmarshalDataBlock limit debugName s) ↔ DataBlockFits limit s.src := by
  unfold unmarshalDataBlock DataBlockFits
  rw [benign_readVarUint64_bind_iff]
  refine forall_congr' fun rows => forall_congr' fun rest => imp_congr_right fun hrows => ?_
  rw [benign_readVarUint64_bind_iff]
  refine forall_congr' fun cols => forall_congr' fun rest' => imp_congr_right fun hcols => ?_
  rw [benign_alloc_bind_iff, benign_bind_iff]
  refine and_congr_right fun _ => ?_
  have hlen := length_of_varUint64? hrows
  have hlen' := length_of_varUint64? hcols
  have hroom : Room limit { s with src := rest' } := fits_of_le hs (by simp only at hlen' ⊢; omega)
  rw [benign_columns_iff hroom]
  exact ⟨fun h => h.1, fun h => ⟨h, fun _ _ _ => benign_ok _⟩⟩

/-- All columns of a decoded block have the same number of values. -/
theorem length_values_of_unmarshalDataBlock {s' : Input} (h : unmarshalDataBlock limit debugName s = .ok (db, s')) :
    ∀ c ∈ db.columns, c.values.length = db.rowsCount := by
  unfold unmarshalDataBlock at h
  obtain ⟨rows, t, _, h⟩ := bind_eq_ok_iff.1 h
  obtain ⟨cols, t', _, h⟩ := bind_eq_ok_iff.1 h
  obtain ⟨_, t'', _, h⟩ := bind_eq_ok_iff.1 h
  obtain ⟨columns, t3, hcolumns, h⟩ := bind_eq_ok_iff.1 h
  have hrows : ∀ c ∈ columns, c.values.length = rows :=
    forall_mem_of_times (fun _ _ _ _ hc => (of_unmarshalColumn hc).2) hcolumns
  obtain rfl := (Prod.mk.inj (Except.ok.inj h)).1
  intro c hc
  cases columns with
  | nil => cases hc
  | cons c' columns => exact (hrows c hc).trans (hrows c' List.mem_cons_self).symm

end DataBlock

/-! ### Values with hits -/

def skipValueWithHits (src : Bytes) : Option Bytes :=
  (bytes? src).bind fun r => if r.2.length < 8 then none else some (r.2.drop 8)

/-- The vector of values fits, and the data block behind the values does. -/
def ValuesWithHitsFit (limit : Nat) (src : Bytes) : Prop :=
  8 ≤ src.length →
    Fits limit (unmarshalUint64 src * sizeOfValueWithHits) ∧
      ∀ tail, skipTimes skipValueWithHits (unmarshalUint64 src) (src.drop 8) = some tail →
        DataBlockFits limit tail

section ValuesWithHits

variable {limit : Nat} {debugName : Bytes → String} {s : Input}

theorem length_of_skipValueWithHits (h : skipValueWithHits src = some tail) : tail.length ≤ src.length := by
  unfold skipValueWithHits at h
  obtain ⟨r, hr, h⟩ := Option.bind_eq_some_iff.1 h
  split_ifs at h with h8
  have hlen := length_of_bytes? hr
  rw [← Option.some.inj h, List.length_drop]
  omega

theorem length_of_skipTimes {skip : Bytes → Option Bytes}
    (hskip : ∀ src tail, skip src = some tail → tail.length ≤ src.length)
    (h : skipTimes skip n src = some tail) : tail.length ≤ src.length := by
  induction n generalizing src with
  | zero => rw [← Option.some.inj h]
  | succ n ih =>
    obtain ⟨mid, hmid, h⟩ := Option.bind_eq_some_iff.1 h
    exact (ih h).trans (hskip src mid hmid)

theorem leaves_unmarshalValueWithHits (hs : Fits limit s.src.length) :
    Leaves (unmarshalValueWithHits limit s) s (skipValueWithHits s.src) := by
  have hread := readBytes_eq (fun _ => "cannot unmarshal value") hs
  unfold unmarshalValueWithHits skipValueWithHits
  cases hb : bytes? s.src with
  | none =>
    rw [hb] at hread
    exact ⟨_, bind_of_error hread⟩
  | some r =>
    obtain ⟨v, rest⟩ := r
    rw [hb] at hread
    rw [bind_of_ok hread, look_bind, Option.bind_some]
    by_cases h8 : rest.length < 8
    · simp only [if_pos h8]
      exact ⟨_, rfl⟩
    · simp only [if_neg h8]
      have htake := takeUint64_eq (s := { s with src := rest }) (not_lt.1 h8)
      exact ⟨_, bind_of_ok htake⟩

theorem benign_getUint64Entry {name : String}
    (hdb : ∀ c ∈ db.columns, c.values.length = 1) : Benign (getUint64Entry db name s) := by
  unfold getUint64Entry
  cases hc : db.getColumnByName (ascii name) with
  | none => exact benign_ok _
  | some c =>
    have hlen := hdb c (List.mem_of_find?_eq_some hc)
    cases hv : c.values with
    | nil =>
      rw [hv] at hlen
      cases hlen
    | cons v vs => simp only [hv]; exact benign_ok _

theorem benign_updateFromDataBlock (hdb : ∀ c ∈ db.columns, c.values.length = db.rowsCount) :
    Benign (updateFromDataBlock db s) := by
  unfold updateFromDataBlock
  split_ifs with hrows
  · exact benign_fail _ s
  · rw [not_not] at hrows
    rw [hrows] at hdb
    have hentries : Triple (fun _ => True)
        (times (fun i => getUint64Entry db (queryStatsFields.getD i "")) 0 queryStatsFields.length)
        fun _ _ => True := by
      apply Triple.times
      intro i s _
      exact ⟨benign_getUint64Entry hdb, fun _ _ _ => trivial⟩
    refine benign_bind_iff.2 ⟨(hentries s trivial).1, ?_⟩
    intro entries s' _
    cases (queryStatsFields.zip entries).find? fun e => e.2.isNone with
    | none => exact benign_ok _
    | some e => exact benign_fail _ s'

theorem benign_unmarshalQueryStats_iff (hs : Room limit s) :
    Benign (unmarshalQueryStats limit debugName s) ↔ DataBlockFits limit s.src := by
  unfold unmarshalQueryStats
  rw [benign_bind_iff, benign_mapErr_iff, benign_unmarshalDataBlock_iff hs]
  refine ⟨fun h => h.1, fun h => ⟨h, fun db s' hdb => benign_mapErr_iff.2 ?_⟩⟩
  exact benign_updateFromDataBlock (length_values_of_unmarshalDataBlock (mapErr_eq_ok_iff.1 hdb))

theorem benign_unmarshalValuesWithHits_iff (hs : Room limit s) :
    Benign (unmarshalValuesWithHits limit debugName s) ↔ ValuesWithHitsFit limit s.src := by
  unfold unmarshalValuesWithHits ValuesWithHitsFit
  rw [look_bind]
  split_ifs with h8
  · exact ⟨fun _ h => absurd h (not_le.2 h8), fun _ => benign_fail _ s⟩
  · have hle := not_lt.1 h8
    have hroom : Room limit { s with src := s.src.drop 8 } :=
      fits_of_le hs (by simp only [List.length_drop]; omega)
    rw [bind_of_ok (takeUint64_eq hle), benign_alloc_bind_iff, forall_prop_of_true hle]
    refine and_congr_right fun _ => ?_
    have hleaves := Leaves.times (I := fun src => Fits limit src.length)
      (fun src tail h hskip => fits_of_le h (length_of_skipValueWithHits hskip))
      (fun i t ht => (leaves_unmarshalValueWithHits ht).mapErr fun err =>
        s!"cannot unmarshal ValueWithHits #{i} out of {unmarshalUint64 s.src}: {err}")
      0 (unmarshalUint64 s.src) { s with src := s.src.drop 8 } hroom
    apply hleaves.benign_bind_iff
    intro vhs tail htail
    have hlen := length_of_skipTimes (fun _ _ => length_of_skipValueWithHits) htail
    have hroom' : Room limit { s with src := tail } := fits_of_le hroom (by simpa using hlen)
    rw [benign_bind_iff, benign_mapErr_iff, benign_unmarshalQueryStats_iff hroom']
    exact ⟨fun h => h.1, fun h => ⟨h, fun qs s' _ => benign_checkTail _ _ s'⟩⟩

end ValuesWithHits

/-! ### Exported states -/

/-- Room for several times the bytes that are left, and bytes that are in memory. -/
def Ample (limit : Nat) (src : Bytes) : Prop := 8 * src.length ≤ limit ∧ src.length < 2 ^ 56

/-- A set of numbers: eight bytes for each of them are a number of bytes, and what follows is fine. -/
def Uint64SetFits (src : Bytes) (next : Bytes → Prop) : Prop :=
  ∀ n rest, varUint64? src = some (n, rest) →
    8 * n < 2 ^ 64 ∧ (8 * n ≤ rest.length → next (rest.drop (8 * n)))

def skipString (src : Bytes) : Option Bytes := (bytes? src).map Prod.snd

/-- A set of strings: the hash table for them fits, and what follows is fine. -/
def StringSetFits (limit : Nat) (H : HashTable) (src : Bytes) (next : Bytes → Prop) : Prop :=
  ∀ n rest, varUint64? src = some (n, rest) →
    H.Fits limit n sizeOfVec ∧ ∀ tail, skipTimes skipString n rest = some tail → next tail

/-- A number of shards, of four sets each. -/
def ShardsFit (limit : Nat) (H : HashTable) : Nat → Bytes → Prop
  | 0, _ => True
  | k + 1, src =>
    Uint64SetFits src fun src => Uint64SetFits src fun src => Uint64SetFits src fun src =>
      StringSetFits limit H src (ShardsFit limit H k)

/-- The vector of shards fits if there are several, and all sets in them do. -/
def CountUniqFits (limit : Nat) (H : HashTable) (src : Bytes) : Prop :=
  ∀ k rest, varUint64? src = some (k, rest) → 1 ≤ k →
    (1 < k → Fits limit (k * sizeOfStatsCountUniqSet)) ∧ ShardsFit limit H k rest

def StatsValuesFit (limit : Nat) (src : Bytes) : Prop :=
  ∀ n rest, varUint64? src = some (n, rest) → Fits limit (n * sizeOfVec)

theorem Ample.room {limit : Nat} {src : Bytes} (h : Ample limit src) : Fits limit src.length :=
  ⟨by have := h.2; unfold isizeMax; omega, by have := h.1; omega⟩

theorem Ample.mono {limit : Nat} (h : Ample limit src)
    (hle : tail.length ≤ src.length) : Ample limit tail := ⟨by have := h.1; omega, by have := h.2; omega⟩

theorem varUint64?_nil : varUint64? [] = none := rfl

theorem uint64SetFits_nil (next : Bytes → Prop) : Uint64SetFits [] next :=
  fun _ _ h => absurd (varUint64?_nil.symm.trans h) (by simp)

theorem stringSetFits_nil (limit : Nat) (H : HashTable) (next : Bytes → Prop) :
    StringSetFits limit H [] next :=
  fun _ _ h => absurd (varUint64?_nil.symm.trans h) (by simp)

theorem shardsFit_nil (limit : Nat) (H : HashTable) (k : Nat) : ShardsFit limit H k [] := by
  cases k with
  | zero => trivial
  | succ k => exact uint64SetFits_nil _

section States

variable {limit : Nat} {H : HashTable}

/-- The values of a state are decoded without a crash, whatever the size of the state so far, as long as
it and the bytes left are not too large together. -/
theorem benign_valuesEntries (n : Nat) {s : Input} (hs : Ample limit s.src) (h0 : 0 ≤ size)
    (hsize : size + s.src.length < 2 ^ 63) : Benign (valuesEntries limit n size s) := by
  induction n generalizing size s with
  | zero => exact benign_ok _
  | succ n ih =>
    unfold valuesEntries
    rw [benign_taken_bind_iff (readBytesUnwrap_eq _ hs.room)]
    intro v rest hb
    have hlen := length_of_bytes? hb
    rw [i64_bind (by omega), benign_bind_iff]
    refine ⟨ih (hs.mono (by simp only; omega)) (by omega) (by simp only; omega), ?_⟩
    exact fun _ _ _ => benign_ok _

theorem benign_importValues_iff {s : Input} (hs : Ample limit s.src) :
    Benign (importValues limit s) ↔ StatsValuesFit limit s.src := by
  unfold importValues StatsValuesFit
  rw [benign_readVarUint64_bind_iff]
  refine forall_congr' fun n => forall_congr' fun rest => imp_congr_right fun hn => ?_
  rw [benign_alloc_bind_iff]
  refine ⟨fun h => h.1, fun h => ⟨h, ?_⟩⟩
  have hlen := length_of_varUint64? hn
  have hshort := hs.2
  have hcap := h.1
  unfold sizeOfVec isizeMax at hcap
  have hrange : -2 ^ 63 ≤ stateSizeOfString * (n : Int) ∧ stateSizeOfString * (n : Int) < 2 ^ 63 := by
    unfold stateSizeOfString
    omega
  rw [i64_bind hrange, benign_bind_iff]
  constructor
  · apply benign_valuesEntries n (hs.mono (by simp only; omega))
    · unfold stateSizeOfString
      omega
    · unfold stateSizeOfString
      simp only
      omega
  · exact fun _ s' _ => benign_checkTail _ _ s'

/-! #### Sets -/

variable {α β : Type} {next : Bytes → Prop} {src : Bytes} {e : String → String}

/-- The bytes tell whether the decoder crashes: unless they fit, it does so if the flag is never set, and if they fit,
it does not, whatever the flag shows. -/
def Gauges (g : Decoder β) (src : Bytes) (fits : Prop) : Prop :=
  (Benign (g ⟨src, []⟩) → fits) ∧ (fits → ∀ stops, Benign (g ⟨src, stops⟩))

/-- How the decoder of a part of a state ends: with an error, at the given bytes, or without input because the flag
was set. The size of the state and what is left are bounded. -/
def Ends (p : Decoder (α × Int)) (src : Bytes) (o : Option Bytes) (B : Int) : Prop :=
  ∀ stops, (o = none ∧ ∃ msg, p ⟨src, stops⟩ = .error (.error msg)) ∨
    ∃ a size tail stops', p ⟨src, stops⟩ = .ok ((a, size), ⟨tail, stops'⟩) ∧ 0 ≤ size ∧
      size + 16 * (tail.length : Int) ≤ B ∧
      (o = some tail ∧ (stops = [] → stops' = []) ∨ tail = [] ∧ stops ≠ [])

theorem Gauges.bind {q : Decoder α} {k : α → Decoder β} {fits : Prop} (hq : Gauges q src fits)
    (hk : ∀ a s, Benign (k a s)) : Gauges (q >>= k) src fits :=
  ⟨fun h => hq.1 (benign_bind_iff.1 h).1,
    fun h stops => benign_bind_iff.2 ⟨hq.2 h stops, fun a s' _ => hk a s'⟩⟩

theorem gauges_readVarUint64 {msg : Nat → String} {g : Nat → Decoder β} {fits : Nat → Bytes → Prop}
    (h : ∀ u rest, varUint64? src = some (u, rest) → Gauges (g u) rest (fits u rest)) :
    Gauges (readVarUint64 msg >>= g) src (∀ u rest, varUint64? src = some (u, rest) → fits u rest) := by
  constructor
  · intro hb u rest hv
    exact (h u rest hv).1 (benign_readVarUint64_bind_iff.1 hb u rest hv)
  · intro hfits stops
    exact benign_readVarUint64_bind_iff.2 fun u rest hv => (h u rest hv).2 (hfits u rest hv) stops

theorem gauges_alloc {g : Unit → Decoder β} {fits : Prop} (h : Fits limit n → Gauges (g ()) src fits) :
    Gauges (alloc limit n >>= g) src (Fits limit n ∧ fits) := by
  constructor
  · intro hb
    obtain ⟨hn, hb⟩ := benign_alloc_bind_iff.1 hb
    exact ⟨hn, (h hn).1 hb⟩
  · rintro ⟨hn, hfits⟩ stops
    exact benign_alloc_bind_iff.2 ⟨hn, (h hn).2 hfits stops⟩

/-- The flag is set and the input is given up, or the decoder goes on. -/
theorem unlessStopped_cases {a : α} {q : Decoder α} (src : Bytes) (stops : List Bool) :
    (stops ≠ [] ∧ ∃ stops', (needStop >>= fun stop => if stop then clear >>= fun _ => pure a else q) ⟨src, stops⟩ =
        .ok (a, ⟨[], stops'⟩)) ∨
      ∃ stops', (stops = [] → stops' = []) ∧
        (needStop >>= fun stop => if stop then clear >>= fun _ => pure a else q) ⟨src, stops⟩ = q ⟨src, stops'⟩ := by
  match stops with
  | [] => exact .inr ⟨[], id, rfl⟩
  | true :: stops => exact .inl ⟨nofun, stops, rfl⟩
  | false :: stops => exact .inr ⟨stops, nofun, rfl⟩

theorem Ends.unlessStopped {a : α} {q : Decoder (α × Int)} {o : Option Bytes} {B : Int} (hB : 0 ≤ B)
    (hq : Ends q src o B) :
    Ends (needStop >>= fun stop => if stop then clear >>= fun _ => pure (a, 0) else q) src o B := by
  intro stops
  rcases unlessStopped_cases (a := (a, 0)) (q := q) src stops with ⟨hne, stops', heq⟩ | ⟨stops', hstops, heq⟩
  · exact .inr ⟨a, 0, [], stops', heq, le_rfl, by simpa using hB, .inr ⟨rfl, hne⟩⟩
  · rw [heq]
    refine (hq stops').imp_right ?_
    rintro ⟨b, size, tail, stops'', hok, h0, hsize, htail⟩
    refine ⟨b, size, tail, stops'', hok, h0, hsize, htail.imp ?_ ?_⟩
    · exact fun h => ⟨h.1, fun hnil => h.2 (hstops hnil)⟩
    · exact fun h => ⟨h.1, fun hnil => h.2 (hstops hnil)⟩

theorem Ends.gauges {p : Decoder (α × Int)} {f : α × Int → Decoder β} {o : Option Bytes}
    (h : Ends p src o B) (hnil : next [])
    (hf : ∀ a size tail, 0 ≤ size → size + 16 * (tail.length : Int) ≤ B → Gauges (f (a, size)) tail (next tail)) :
    Gauges (mapErr e p >>= f) src (∀ tail, o = some tail → next tail) := by
  constructor
  · rintro hb tail rfl
    rcases h [] with ⟨hnone, -⟩ | ⟨a, size, tail', stops', hok, h0, hsize, ⟨htail, hstops⟩ | ⟨-, hne⟩⟩
    · cases hnone
    · cases htail
      rw [hstops rfl] at hok
      rw [bind_of_ok (mapErr_eq_ok_iff.2 hok)] at hb
      exact (hf a size _ h0 hsize).1 hb
    · exact absurd rfl hne
  · intro hnext stops
    rcases h stops with ⟨-, msg, herr⟩ | ⟨a, size, tail, stops', hok, h0, hsize, htail⟩
    · refine benign_bind_iff.2 ⟨benign_mapErr_iff.2 ?_, fun a s' hok => ?_⟩
      · rw [herr]
        exact benign_fail msg ⟨src, stops⟩
      · cases herr.symm.trans (mapErr_eq_ok_iff.1 hok)
    · rw [bind_of_ok (mapErr_eq_ok_iff.2 hok)]
      refine (hf a size tail h0 hsize).2 ?_ stops'
      rcases htail with ⟨rfl, -⟩ | ⟨rfl, -⟩
      · exact hnext _ rfl
      · exact hnil

/-- A set is a count, which has to be fine, and as many entries. -/
theorem gauges_set {p : Decoder (α × Int)} {f : α × Int → Decoder β} {C : Nat → Prop} {k : Nat → Bytes → Option Bytes}
    (hcount : Benign (p ⟨src, []⟩) → ∀ n rest, varUint64? src = some (n, rest) → C n)
    (hends : (∀ n rest, varUint64? src = some (n, rest) → C n) →
      Ends p src ((varUint64? src).bind fun r => k r.1 r.2) B) (hnil : next [])
    (hf : ∀ a size tail, 0 ≤ size → size + 16 * (tail.length : Int) ≤ B → Gauges (f (a, size)) tail (next tail)) :
    Gauges (mapErr e p >>= f) src (∀ n rest, varUint64? src = some (n, rest) →
      C n ∧ ∀ tail, k n rest = some tail → next tail) := by
  constructor
  · intro hb
    have hC := hcount (benign_mapErr_iff.1 (benign_bind_iff.1 hb).1)
    refine fun n rest hv => ⟨hC n rest hv, fun tail htail => ((hends hC).gauges hnil hf).1 hb tail ?_⟩
    rw [hv]
    exact htail
  · intro hfits
    refine ((hends fun n rest hv => (hfits n rest hv).1).gauges hnil hf).2 fun tail htail => ?_
    obtain ⟨⟨n, rest⟩, hv, htail⟩ := Option.bind_eq_some_iff.1 htail
    exact (hfits n rest hv).2 tail htail

/-- The count at the front of a set, unless the flag is set. -/
theorem ends_count {a : α} {msg : Nat → String} {g : Nat → Decoder (α × Int)} {k : Nat → Bytes → Option Bytes} {B : Int}
    (hB : 0 ≤ B) (h : ∀ n rest, varUint64? src = some (n, rest) → Ends (g n) rest (k n rest) B) :
    Ends (needStop >>= fun stop => if stop then clear >>= fun _ => pure (a, 0) else readVarUint64 msg >>= g) src
      ((varUint64? src).bind fun r => k r.1 r.2) B := by
  refine Ends.unlessStopped hB fun stops => ?_
  have hread : readVarUint64 msg ⟨src, stops⟩ = taken (varUint64? src) _ _ := readVarUint64_eq _ _
  cases hv : varUint64? src with
  | none =>
    rw [hv] at hread
    exact .inl ⟨rfl, _, bind_of_error hread⟩
  | some r =>
    rw [hv] at hread
    rw [Option.bind_some, bind_of_ok hread]
    exact h r.1 r.2 hv stops

/-- A hash table for numbers that are there fits. -/
theorem hashTable_fits (hs : Ample limit src) (hn : 8 * n ≤ src.length) : H.Fits limit n sizeOfU64 := by
  have h1 := hs.1
  have h2 := hs.2
  have hcount : n * sizeOfU64 < 2 ^ 56 := by
    unfold sizeOfU64
    omega
  obtain ⟨r, hr, hle⟩ := H.linear le_rfl hcount
  exact ⟨r, hr, by omega⟩

theorem uint64Entries_cases (n : Nat) (hn : 8 * n ≤ src.length) (stops : List Bool) :
    (stops ≠ [] ∧ ∃ stops', uint64Entries n ⟨src, stops⟩ = .ok (none, ⟨[], stops'⟩)) ∨
      ∃ us stops', (stops = [] → stops' = []) ∧
        uint64Entries n ⟨src, stops⟩ = .ok (some us, ⟨src.drop (8 * n), stops'⟩) := by
  induction n generalizing src stops with
  | zero => exact .inr ⟨[], stops, id, rfl⟩
  | succ n ih =>
    have h8 : 8 ≤ src.length := by omega
    unfold uint64Entries
    rw [bind_of_ok (takeUint64_eq (s := ⟨src, stops⟩) h8), show 8 * (n + 1) = 8 + 8 * n by omega, ← List.drop_drop]
    rcases unlessStopped_cases (a := none)
      (q := uint64Entries n >>= fun us => pure (us.map (unmarshalUint64 src :: ·))) (src.drop 8) stops with
      hstop | ⟨stops', hstops, heq⟩
    · exact .inl hstop
    · rw [heq]
      have hrest : 8 * n ≤ (src.drop 8).length := by
        rw [List.length_drop]
        omega
      rcases ih hrest stops' with ⟨hne, stops'', hus⟩ | ⟨us, stops'', hstops', hus⟩
      · exact .inl ⟨fun hnil => hne (hstops hnil), stops'', bind_of_ok hus⟩
      · exact .inr ⟨_, stops'', fun hnil => hstops' (hstops hnil), bind_of_ok hus⟩

theorem ends_uint64Set (hs : Ample limit src)
    (hcount : ∀ n rest, varUint64? src = some (n, rest) → 8 * n < 2 ^ 64) :
    Ends (unmarshalUint64Set limit H) src ((varUint64? src).bind fun r =>
      if 8 * r.1 ≤ r.2.length then some (r.2.drop (8 * r.1)) else none) (16 * src.length) := by
  refine ends_count (k := fun n rest => if 8 * n ≤ rest.length then some (rest.drop (8 * n)) else none) (by omega)
    fun n rest hv stops => ?_
  have hn := hcount n rest hv
  have hlen := length_of_varUint64? hv
  have hshort := hs.2
  have hu64 : u64 (8 * n) ⟨rest, stops⟩ = .ok (8 * n, ⟨rest, stops⟩) := if_pos hn
  rw [bind_of_ok hu64, look_bind]
  by_cases hle : 8 * n ≤ rest.length
  · have hcap := HashTable.withCapacity_eq_ok (H := H) (hashTable_fits (hs.mono (by omega)) hle) ⟨rest, stops⟩
    simp only [if_neg (not_lt.2 hle), if_pos hle]
    rw [bind_of_ok hcap]
    rcases uint64Entries_cases n hle stops with ⟨hne, stops', hus⟩ | ⟨us, stops', hstops, hus⟩
    · exact .inr ⟨none, 0, [], stops', bind_of_ok hus, le_rfl, by simp, .inr ⟨rfl, hne⟩⟩
    · refine .inr ⟨some us.dedup, 8 * n, _, stops', ?_, by omega, ?_, .inl ⟨rfl, hstops⟩⟩
      · rw [bind_of_ok hus]
        exact i64_bind (by omega)
      · rw [List.length_drop]
        omega
  · simp only [if_pos (not_le.1 hle), if_neg hle]
    exact .inl ⟨trivial, _, rfl⟩

theorem gauges_uint64Set {f : Option (List Nat) × Int → Decoder β} (hs : Ample limit src) (hnil : next [])
    (hf : ∀ a size tail, 0 ≤ size → size + 16 * (tail.length : Int) ≤ 16 * src.length →
      Gauges (f (a, size)) tail (next tail)) :
    Gauges (mapErr e (unmarshalUint64Set limit H) >>= f) src (Uint64SetFits src next) := by
  have hset := gauges_set (e := e) (C := fun n => 8 * n < 2 ^ 64)
    (k := fun n rest => if 8 * n ≤ rest.length then some (rest.drop (8 * n)) else none) (fun hb n rest hv => ?_)
    (ends_uint64Set (H := H) hs) hnil hf
  · have hskip : ∀ n (rest : Bytes), (∀ tail, (if 8 * n ≤ rest.length then some (rest.drop (8 * n)) else none) =
        some tail → next tail) ↔ (8 * n ≤ rest.length → next (rest.drop (8 * n))) := by
      intro n rest
      split_ifs with hle
      · simp [hle]
      · simp [hle]
    simp only [hskip] at hset
    exact hset
  · unfold unmarshalUint64Set at hb
    rw [needStop_bind, if_neg Bool.false_ne_true, benign_readVarUint64_bind_iff] at hb
    by_contra hover
    exact (benign_bind_iff.1 (hb n rest hv)).1 .overflow (if_neg hover) trivial

theorem ends_stringEntries (n : Nat) (hs : Ample limit src) (h0 : 0 ≤ size)
    (hsize : size + 16 * (src.length : Int) ≤ B) (hB : B < 2 ^ 63) :
    Ends (stringEntries limit n size) src (skipTimes skipString n src) B := by
  induction n generalizing src size with
  | zero => exact fun stops => .inr ⟨some [], size, src, stops, rfl, h0, hsize, .inl ⟨rfl, id⟩⟩
  | succ n ih =>
    unfold stringEntries
    change Ends _ src ((skipString src).bind (skipTimes skipString n)) B
    have hread : ∀ stops, readBytesUnwrap limit "cannot unmarshal string entry" ⟨src, stops⟩ =
      taken (bytes? src) _ _ := fun stops => readBytesUnwrap_eq _ hs.room
    rw [skipString]
    cases hb : bytes? src with
    | none =>
      rw [hb] at hread
      exact fun stops => .inl ⟨rfl, _, bind_of_error (hread stops)⟩
    | some r =>
      obtain ⟨v, rest⟩ := r
      rw [hb] at hread
      have hlen := length_of_bytes? hb
      have hnew : 0 ≤ size + (stateSizeOfString + (v.length : Int)) ∧
          size + (stateSizeOfString + (v.length : Int)) + 16 * (rest.length : Int) ≤ B := by
        unfold stateSizeOfString
        omega
      have hrest : Ends (stringEntries limit n _ >>= fun r => pure (r.1.map (v :: ·), r.2)) rest _ B := fun stops =>
        (ih (hs.mono (by omega)) hnew.1 hnew.2 stops).imp (fun h => ⟨h.1, h.2.imp fun _ => bind_of_error⟩)
          fun ⟨a, size, tail, stops', hok, h⟩ => ⟨_, size, tail, stops', bind_of_ok hok, h⟩
      intro stops
      rw [bind_of_ok (hread stops), i64_bind (by omega)]
      exact hrest.unlessStopped (by omega) stops

theorem ends_stringSet (hs : Ample limit src)
    (hcount : ∀ n rest, varUint64? src = some (n, rest) → H.Fits limit n sizeOfVec) :
    Ends (unmarshalStringSet limit H) src ((varUint64? src).bind fun r => skipTimes skipString r.1 r.2)
      (16 * src.length) := by
  refine ends_count (by omega) fun n rest hv stops => ?_
  have hlen := length_of_varUint64? hv
  have hshort := hs.2
  have hrest : Ample limit rest := hs.mono (by omega)
  rw [bind_of_ok (HashTable.withCapacity_eq_ok (hcount n rest hv) _)]
  refine (ends_stringEntries n hrest le_rfl (B := 16 * src.length) (by omega) (by omega) stops).imp ?_ ?_
  · exact fun h => ⟨h.1, h.2.imp fun _ => bind_of_error⟩
  · exact fun ⟨a, size, tail, stops', hok, h⟩ => ⟨_, size, tail, stops', bind_of_ok hok, h⟩

theorem gauges_stringSet {f : Option (List Bytes) × Int → Decoder β} (hs : Ample limit src) (hnil : next [])
    (hf : ∀ a size tail, 0 ≤ size → size + 16 * (tail.length : Int) ≤ 16 * src.length →
      Gauges (f (a, size)) tail (next tail)) :
    Gauges (mapErr e (unmarshalStringSet limit H) >>= f) src (StringSetFits limit H src next) := by
  refine gauges_set (fun hb n rest hv => ?_) (ends_stringSet hs) hnil hf
  unfold unmarshalStringSet at hb
  rw [needStop_bind, if_neg Bool.false_ne_true, benign_readVarUint64_bind_iff] at hb
  exact HashTable.benign_withCapacity_iff.1 (benign_bind_iff.1 (hb n rest hv)).1

/-- The four sets of a shard. -/
theorem gauges_importSet {f : StatsCountUniqSet × Int → Decoder β} (hs : Ample limit src) (hnil : next [])
    (hf : ∀ a size tail, 0 ≤ size → size + 16 * (tail.length : Int) ≤ 16 * src.length →
      Gauges (f (a, size)) tail (next tail)) :
    Gauges (mapErr e (importSet limit H) >>= f) src (Uint64SetFits src fun src => Uint64SetFits src fun src =>
      Uint64SetFits src fun src => StringSetFits limit H src next) := by
  have hshort := hs.2
  unfold importSet
  rw [mapErr_bind, mapErr_mapErr, bind_assoc]
  refine gauges_uint64Set hs (uint64SetFits_nil _) fun timestamps s1 t1 h1 hsize1 => ?_
  dsimp only
  rw [mapErr_bind, mapErr_mapErr, bind_assoc]
  refine gauges_uint64Set (hs.mono (by omega)) (uint64SetFits_nil _) fun u s2 t2 h2 hsize2 => ?_
  dsimp only
  rw [i64_eq_pure (by omega), pure_bind, mapErr_bind, mapErr_mapErr, bind_assoc]
  refine gauges_uint64Set (hs.mono (by omega)) (stringSetFits_nil limit H _) fun negative s3 t3 h3 hsize3 => ?_
  dsimp only
  rw [i64_eq_pure (by omega), pure_bind, mapErr_bind, mapErr_mapErr, bind_assoc]
  refine gauges_stringSet (hs.mono (by omega)) hnil fun strings s4 t4 h4 hsize4 => ?_
  dsimp only
  rw [i64_eq_pure (by omega), pure_bind]
  exact hf _ (s1 + s2 + s3 + s4) t4 (by omega) (by omega)

/-- The shards of a state, with the size of the state so far. -/
theorem gauges_importSets (i k : Nat) (hs : Ample limit src) (h0 : 0 ≤ size)
    (hsize : size + 16 * (src.length : Int) < 2 ^ 63) :
    Gauges (importSets limit H i k size) src (ShardsFit limit H k src) := by
  induction k generalizing i size src with
  | zero => exact ⟨fun _ => trivial, fun _ _ => benign_ok _⟩
  | succ k ih =>
    refine gauges_importSet hs (shardsFit_nil limit H k) fun set size' tail h0' hsize' => ?_
    dsimp only
    rw [i64_eq_pure (by omega), pure_bind]
    exact (ih (i + 1) (hs.mono (by omega)) (by omega) (by omega)).bind fun _ _ => benign_ok _

theorem gauges_importCountUniq (hs : Ample limit src) :
    Gauges (importCountUniq limit H) src (CountUniqFits limit H src) := by
  have hshort := hs.2
  refine gauges_readVarUint64 fun k rest hv => ?_
  have hlen := length_of_varUint64? hv
  have hrest : Ample limit rest := hs.mono (by omega)
  by_cases h0 : k < 1
  · rw [if_pos h0]
    exact ⟨fun _ hk => absurd h0 (not_lt.2 hk), fun _ stops => benign_fail _ ⟨rest, stops⟩⟩
  rw [if_neg h0, forall_prop_of_true (not_lt.1 h0)]
  by_cases h1 : k = 1
  · subst h1
    rw [if_pos rfl, and_iff_right fun h => absurd h (lt_irrefl 1)]
    exact gauges_importSet hrest trivial fun set size tail _ _ =>
      ⟨fun _ => trivial, fun _ stops => benign_checkTail _ _ _⟩
  · rw [if_neg h1, forall_prop_of_true (by omega : 1 < k)]
    refine gauges_alloc fun hcap => ?_
    have hk := hcap.1
    unfold sizeOfStatsCountUniqSet isizeMax at hk
    rw [i64_eq_pure (by unfold stateSizeOfSet; omega), pure_bind]
    exact (gauges_importSets 0 k hrest (by unfold stateSizeOfSet; omega) (by unfold stateSizeOfSet; omega)).bind
      fun r s => benign_checkTail _ _ s

end States

/-- **Responses do not crash the frontend.** For every constant `K` that is large enough for the copies of
what is there, and all bytes received: decoding them as a data block, as values with hits, as a state of
`count_uniq` or as a state of `values` gives a value or an error, without a panic, an overflow or a request
for more than `K` times as many bytes, exactly when the counts at the places of the format where they
become sizes of allocations fit this bound. What `import_shards` does with a decoded state is left out. -/
theorem decoders_benign_iff (H : HashTable) (debugName : Bytes → String) (K : Nat) (hK : 8 ≤ K)
    (b : Bytes) (hb : b.length < 2 ^ 56) :
    (Benign (unmarshalDataBlock (K * b.length) debugName ⟨b, []⟩) ↔ DataBlockFits (K * b.length) b) ∧
    (Benign (unmarshalValuesWithHits (K * b.length) debugName ⟨b, []⟩) ↔
      ValuesWithHitsFit (K * b.length) b) ∧
    ((∀ stops, Benign (importCountUniq (K * b.length) H ⟨b, stops⟩)) ↔
      CountUniqFits (K * b.length) H b) ∧
    (Benign (importValues (K * b.length) ⟨b, []⟩) ↔ StatsValuesFit (K * b.length) b) := by
  have hample : Ample (K * b.length) b := ⟨Nat.mul_le_mul_right _ hK, hb⟩
  have hroom : Room (K * b.length) ⟨b, []⟩ := hample.room
  exact ⟨benign_unmarshalDataBlock_iff hroom, benign_unmarshalValuesWithHits_iff hroom,
    ⟨fun h => (gauges_importCountUniq hample).1 (h []), (gauges_importCountUniq hample).2⟩,
    benign_importValues_iff hample⟩

/-! ### A hash table, and bytes that crash -/

/-- The number of buckets for a number of elements: a power of two of which an eighth stays empty. -/
def buckets (n : Nat) : Nat :=
  if n < 4 then 4 else if n < 8 then 8 else if n < 15 then 16 else 2 ^ Nat.clog 2 (n * 8 / 7)

theorem le_buckets (n : Nat) : n ≤ buckets n := by
  unfold buckets
  split_ifs with h4 h8 h15
  · omega
  · omega
  · omega
  · have hpow := Nat.le_pow_clog (b := 2) (by omega) (n * 8 / 7)
    omega

theorem buckets_le (hn : 0 < n) : buckets n ≤ 4 * n := by
  unfold buckets
  split_ifs with h4 h8 h15
  · omega
  · omega
  · omega
  · have hpow := Nat.pow_pred_clog_lt_self (b := 2) (by omega) (x := n * 8 / 7) (by omega)
    have hclog : 0 < Nat.clog 2 (n * 8 / 7) := Nat.clog_pos (by omega) (by omega)
    obtain ⟨m, hm⟩ := Nat.exists_eq_succ_of_ne_zero hclog.ne'
    rw [hm] at hpow ⊢
    rw [Nat.succ_eq_add_one, Nat.pow_succ]
    simp only [Nat.pred_succ] at hpow
    omega

/-- The elements of all buckets, a control byte for each of them and sixteen more. -/
def swissTableBytes (count size : Nat) : Option Nat :=
  if count = 0 then some 0
  else if buckets count * size + buckets count + 16 ≤ isizeMax then
    some (buckets count * size + buckets count + 16)
  else none

def swissTable : HashTable where
  bytes := swissTableBytes
  room := by
    intro count size r hr
    unfold swissTableBytes at hr
    split_ifs at hr with h0 hmax
    · cases hr
      rw [h0, Nat.zero_mul]
      exact ⟨le_rfl, Nat.zero_le _⟩
    · cases hr
      have hle := Nat.mul_le_mul_right size (le_buckets count)
      exact ⟨by omega, hmax⟩
  linear := by
    intro count size hsize hcount
    unfold swissTableBytes
    by_cases h0 : count = 0
    · rw [if_pos h0]
      exact ⟨0, rfl, Nat.zero_le _⟩
    · have hle := buckets_le (Nat.pos_of_ne_zero h0)
      have hmul := Nat.mul_le_mul_right size hle
      have hpos : 8 * count ≤ count * size := by
        rw [Nat.mul_comm]
        exact Nat.mul_le_mul_left count hsize
      rw [Nat.mul_assoc] at hmul
      have hmax : buckets count * size + buckets count + 16 ≤ isizeMax := by
        unfold isizeMax
        omega
      rw [if_neg h0, if_pos hmax]
      exact ⟨_, rfl, by omega⟩

/-- A block without rows whose header tells of 2^63 columns. -/
def manyColumns : Bytes := 0 :: marshalVarUint64 (2 ^ 63)

def manyValues : Bytes := marshalUint64 (2 ^ 63)

/-- One shard whose first set has 2^61 numbers. -/
def manyNumbers : Bytes := 1 :: marshalVarUint64 (2 ^ 61)

theorem decoders_crash :
    unmarshalDataBlock (64 * manyColumns.length) (fun _ => "") ⟨manyColumns, []⟩ =
        .error (.panic "capacity overflow") ∧
      unmarshalValuesWithHits (64 * manyValues.length) (fun _ => "") ⟨manyValues, []⟩ =
        .error (.panic "capacity overflow") ∧
      importCountUniq (64 * manyNumbers.length) swissTable ⟨manyNumbers, []⟩ = .error .overflow ∧
      importValues (64 * manyColumns.tail.length) ⟨manyColumns.tail, []⟩ =
        .error (.panic "capacity overflow") := by
  decide +kernel

/-- A block with one column that has the same value in two rows. -/
def smallBlock : Bytes := [2, 1, 1, 97, 0, 1, 98]

/-- A value with three hits, and query stats whose counters are all 5. -/
def smallHits : Bytes :=
  marshalUint64 1 ++ 1 :: 97 :: marshalUint64 3 ++ 1 :: 12 ::
    queryStatsFields.flatMap fun name => UInt8.ofNat name.length :: ascii name ++ [0, 1, 53]

/-- One shard with a number and a text. -/
def smallShard : Bytes := 1 :: 0 :: 1 :: marshalUint64 7 ++ [0, 1, 1, 97]

def smallValues : Bytes := [1, 1, 97]

theorem and_of_run {α : Type} {run : Except Fault α} {a : α} {P : Prop} (hrun : run = .ok a) (h : Benign run → P) :
    run = .ok a ∧ P := ⟨hrun, h (hrun ▸ benign_ok a)⟩

theorem decoders_benign_smallBlock :
    (unmarshalDataBlock (64 * smallBlock.length) (fun _ => "") ⟨smallBlock, []⟩ =
        .ok (⟨[⟨[97], [[98], [98]]⟩]⟩, ⟨[], []⟩) ∧
      (Benign (unmarshalDataBlock (64 * smallBlock.length) (fun _ => "") ⟨smallBlock, []⟩) ↔
        DataBlockFits (64 * smallBlock.length) smallBlock)) ∧
    (unmarshalValuesWithHits (64 * smallHits.length) (fun _ => "") ⟨smallHits, []⟩ =
        .ok (([⟨[97], 3⟩], List.replicate 12 5), ⟨[], []⟩) ∧
      ValuesWithHitsFit (64 * smallHits.length) smallHits) ∧
    (importCountUniq (64 * smallShard.length) swissTable ⟨smallShard, []⟩ =
        .ok (([⟨[], [7], [], [[97]]⟩], 25), ⟨[], []⟩) ∧
      ∀ stops, Benign (importCountUniq (64 * smallShard.length) swissTable ⟨smallShard, stops⟩)) ∧
    (importValues (64 * smallValues.length) ⟨smallValues, []⟩ = .ok (([[97]], 17), ⟨[], []⟩) ∧
      StatsValuesFit (64 * smallValues.length) smallValues) := by
  have hiff := decoders_benign_iff swissTable (fun _ => "") 64 (by decide)
  refine ⟨⟨by decide +kernel, (hiff smallBlock (by decide)).1⟩, ?_, ?_, ?_⟩
  · refine and_of_run (by decide +kernel) fun h => ?_
    exact (hiff smallHits (by decide +kernel)).2.1.1 h
  · refine and_of_run (by decide +kernel) fun h => ?_
    exact (hiff smallShard (by decide)).2.2.1.2 ((gauges_importCountUniq ⟨by decide, by decide⟩).1 h)
  · refine and_of_run (by decide +kernel) fun h => ?_
    exact (hiff smallValues (by decide)).2.2.2.1 h

end EsLogs.ClusterResponses
