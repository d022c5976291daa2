import EsLogs.UniqRun
import EsLogs.ValuesRoundTrip

/-!
How many tuples `uniq by (...) limit N` writes. The pipe writes as many distinct tuples of the input as the limit
allows exactly when no shard has to refuse a block and the keys stand for tuples of the input: a refused block
makes the whole result empty, and a key stands for a text with another spelling when the value had underscores
or was a negative zero.
-/

namespace EsLogs.Uniq

open NumberText ColumnValues Encoding Hits List

variable {c : Float64Codec} {p : PipeUniq} {blocks : List (Nat × BlockResult)}

variable {d : Nat} {k : Key} (it : Iteration) (m : HitsMap)

/-! ### Which keys can be kept -/

def isU64 : Key → Bool
  | .u64 _ => true
  | _ => false

def isNeg : Key → Bool
  | .neg _ => true
  | _ => false

/-- A key can be among those that are left when a number of the keys is dropped, since the maps are emptied one
after the other. -/
def Survives (keys : List Key) (d : Nat) : Key → Prop
  | .u64 _ => d < keys.countP isU64
  | .neg _ => d < keys.countP isU64 + keys.countP isNeg
  | .str _ => d < keys.length

instance (keys : List Key) (d : Nat) : DecidablePred (Survives keys d)
  | .u64 _ => inferInstanceAs (Decidable (_ < _))
  | .neg _ => inferInstanceAs (Decidable (_ < _))
  | .str _ => inferInstanceAs (Decidable (_ < _))

theorem survives_congr {keys keys' : List Key} (h : keys.Perm keys') : Survives keys d k ↔ Survives keys' d k := by
  cases k <;> simp only [Survives, h.countP_eq, h.length_eq]

theorem countP_isU64 : m.keys.countP isU64 = m.u64s.keys.length := by
  simp [HitsMap.keys, countP_map, Function.comp_def, isU64]

theorem countP_isNeg : m.keys.countP isNeg = m.negs.keys.length := by
  simp [HitsMap.keys, countP_map, Function.comp_def, isNeg]

theorem length_keys_eq :
    m.keys.length = m.u64s.keys.length + m.negs.keys.length + m.strings.keys.length := m.length_keys

theorem length_kept (d : Nat) : (kept it m d).length = m.keys.length - d := by
  simp only [kept, length_append, length_map, length_drop, (it.perm_u64s _).length_eq,
    (it.perm_negs _).length_eq, (it.perm_strings _).length_eq, length_keys_eq]
  omega

theorem nodup_kept (d : Nat) : (kept it m d).Nodup :=
  ((kept_zero_perm it m).nodup_iff.2 m.nodup_keys).sublist (kept_sublist it m d)

theorem survives_of_mem_kept {it : Iteration} {m : HitsMap} (h : k ∈ kept it m d) : Survives m.keys d k := by
  have hlt : ∀ {α : Type} {a : α} {l : List α} {d : Nat}, a ∈ l.drop d → d < l.length := by
    intro α a l d ha
    have := length_pos_of_mem ha
    rw [length_drop] at this
    omega
  unfold kept at h
  rcases mem_append.1 h with h | h
  · obtain ⟨n, hn, rfl⟩ := mem_map.1 h
    have := hlt hn
    rw [(it.perm_u64s _).length_eq] at this
    simpa only [Survives, countP_isU64] using this
  rcases mem_append.1 h with h | h
  · obtain ⟨n, hn, rfl⟩ := mem_map.1 h
    have := hlt hn
    rw [(it.perm_negs _).length_eq] at this
    simp only [Survives, countP_isU64, countP_isNeg]
    omega
  · obtain ⟨b, hb, rfl⟩ := mem_map.1 h
    have := hlt hb
    rw [(it.perm_strings _).length_eq] at this
    simp only [Survives, length_keys_eq]
    omega

def moveLast {α : Type} [DecidableEq α] (a : α) (l : List α) : List α :=
  if a ∈ l then l.erase a ++ [a] else l

theorem moveLast_perm {α : Type} [DecidableEq α] (a : α) (l : List α) : (moveLast a l).Perm l := by
  unfold moveLast
  split_ifs with ha
  · exact (perm_append_singleton a _).trans (perm_cons_erase ha).symm
  · exact .refl l

theorem mem_drop_moveLast {α : Type} [DecidableEq α] {a : α} {l : List α} (ha : a ∈ l)
    (hd : d < l.length) : a ∈ (moveLast a l).drop d := by
  have hlen := length_erase_of_mem ha
  rw [moveLast, if_pos ha, drop_append_of_le_length (by omega)]
  simp

def Iteration.plain : Iteration := ⟨id, id, id, .refl, .refl, .refl⟩

/-- The maps in the order of their entries, but with a key at the end of its map. -/
def Iteration.lastly : Key → Iteration
  | .u64 n => { Iteration.plain with u64s := moveLast n, perm_u64s := moveLast_perm n }
  | .neg n => { Iteration.plain with negs := moveLast n, perm_negs := moveLast_perm n }
  | .str b => { Iteration.plain with strings := moveLast b, perm_strings := moveLast_perm b }

/-- A key that can be kept is kept when its map is emptied in the right order. -/
theorem mem_kept_lastly {m : HitsMap} (hk : k ∈ m.keys) (h : Survives m.keys d k) : k ∈ kept (.lastly k) m d := by
  unfold kept
  cases k with
  | u64 n =>
    rw [Survives, countP_isU64] at h
    apply mem_append_left
    exact mem_map_of_mem (mem_drop_moveLast (HitsMap.mem_keys_u64.1 hk) h)
  | neg n =>
    rw [Survives, countP_isU64, countP_isNeg] at h
    have hn := HitsMap.mem_keys_neg.1 hk
    have hpos := length_pos_of_mem hn
    apply mem_append_right
    apply mem_append_left
    exact mem_map_of_mem (mem_drop_moveLast hn (by omega))
  | str b =>
    rw [Survives, length_keys_eq] at h
    have hb := HitsMap.mem_keys_str.1 hk
    have hpos := length_pos_of_mem hb
    apply mem_append_right
    apply mem_append_right
    exact mem_map_of_mem (mem_drop_moveLast hb (by omega))

/-- While some unsigned number is kept, all negative ones are. -/
theorem neg_mem_kept {m : HitsMap} {n : Int} (hn : .neg n ∈ m.keys)
    (hd : d ≤ m.keys.countP isU64) : .neg n ∈ kept it m d := by
  rw [countP_isU64] at hd
  unfold kept
  rw [Nat.sub_eq_zero_of_le hd, drop_zero]
  apply mem_append_right
  apply mem_append_left
  exact mem_map_of_mem ((it.perm_negs _).mem_iff.2 (HitsMap.mem_keys_neg.1 hn))

/-! ### Tuples and keys -/

def PipeUniq.inputTuples (p : PipeUniq) (c : Float64Codec) (blocks : List (Nat × BlockResult)) :
    List (List Bytes) := blocks.flatMap fun b => p.tuples c b.2

def PipeUniq.keyOf (p : PipeUniq) (row : List Bytes) : Key :=
  if p.byFields.length = 1 then genericKey (row.headD []) else tupleKey row

theorem keyValues_single (h : p.byFields.length = 1) (k : Key) : p.keyValues k = [k.text] := if_pos h

theorem tuples_single {columnName : Bytes} (h : p.byFields = [columnName]) {br : BlockResult} (hbr : br.Valid c) :
    p.tuples c br = (br.valuesOf c columnName).map fun v => [v] := by
  apply ext_getElem
  · simp [PipeUniq.tuples, hbr.length_valuesOf]
  · intro i hi hi'
    rw [length_map] at hi'
    simp [PipeUniq.tuples, rowAt, h, List.getElem?_eq_getElem hi']

/-- Without a filter, each row is filed under the key of its tuple. -/
theorem allRows_eq (hf : p.filter = []) (hvalid : ∀ b ∈ blocks, b.2.Valid c) :
    p.allRows c blocks = (p.inputTuples c blocks).map p.keyOf := by
  rw [PipeUniq.allRows, PipeUniq.inputTuples, map_flatMap]
  refine flatMap_congr fun b hb => ?_
  by_cases hone : ∃ columnName, p.byFields = [columnName]
  · obtain ⟨columnName, hfields⟩ := hone
    rw [rowKeys_single hfields, tuples_single hfields (hvalid b hb), hf]
    simp [filteredKeys, PipeUniq.keyOf, hfields]
  · rw [rowKeys_many (not_exists.1 hone)]
    refine map_congr_left fun row _ => ?_
    rw [PipeUniq.keyOf, if_neg fun hlen => hone (length_eq_one_iff.1 hlen)]

theorem decodeKey_flatMap (row : List Bytes) (h : ∀ v ∈ row, v.length < 2 ^ 64) :
    decodeKey row.length (row.flatMap marshalBytes) = row := by
  induction row with
  | nil => rfl
  | cons v row ih =>
    have hv := h v mem_cons_self
    have hlen : 0 < (marshalBytes v).length := by
      rw [marshalBytes, length_append]
      have := (length_marshalVarUint64 hv).1
      omega
    have hne : marshalBytes v ++ row.flatMap marshalBytes ≠ [] := by
      intro hnil
      rw [(append_eq_nil_iff.1 hnil).1] at hlen
      cases hlen
    rw [flatMap_cons, length_cons, decodeKey, if_neg hne, unmarshalBytes_marshal hv]
    dsimp only
    rw [if_pos (by omega), Int.toNat_natCast, drop_left, ih fun w hw => h w (mem_cons_of_mem _ hw)]

/-- The row of a key of several fields has the values the key was made of. -/
theorem keyValues_keyOf_many (hone : p.byFields.length ≠ 1) (hvalid : ∀ b ∈ blocks, b.2.Valid c)
    {row : List Bytes} (hrow : row ∈ p.inputTuples c blocks) : p.keyValues (p.keyOf row) = row := by
  obtain ⟨b, hb, hrow⟩ := mem_flatMap.1 hrow
  obtain ⟨i, hi, rfl⟩ := mem_map.1 hrow
  rw [mem_range] at hi
  rw [PipeUniq.keyOf, if_neg hone, tupleKey, PipeUniq.keyValues, if_neg hone]
  have hwidth : (rowAt (p.byFields.map (b.2.valuesOf c)) i).length = p.byFields.length := by simp [rowAt]
  rw [← hwidth]
  apply decodeKey_flatMap
  intro v hv
  obtain ⟨vals, hvals, rfl⟩ := mem_map.1 hv
  obtain ⟨f, -, rfl⟩ := mem_map.1 hvals
  have hi' : i < (b.2.valuesOf c f).length := by
    rw [(hvalid b hb).length_valuesOf]
    exact hi
  rw [getD_eq_getElem _ _ hi']
  exact (hvalid b hb).length_lt (getElem_mem hi')

/-- Different keys of the input have different rows, except for zero and negative zero. -/
theorem eq_of_keyValues_eq (hf : p.filter = []) (hvalid : ∀ b ∈ blocks, b.2.Valid c) {k k' : Key}
    (hk : k ∈ p.allRows c blocks) (hk' : k' ∈ p.allRows c blocks) (h : p.keyValues k = p.keyValues k') :
    k = k' ∨ k = .u64 0 ∧ k' = .neg 0 ∨ k = .neg 0 ∧ k' = .u64 0 := by
  rw [allRows_eq hf hvalid] at hk hk'
  obtain ⟨row, hrow, rfl⟩ := mem_map.1 hk
  obtain ⟨row', hrow', rfl⟩ := mem_map.1 hk'
  by_cases hone : p.byFields.length = 1
  · rw [keyValues_single hone, keyValues_single hone, singleton_inj] at h
    rw [PipeUniq.keyOf, PipeUniq.keyOf, if_pos hone, if_pos hone] at h ⊢
    exact eq_of_text_eq h
  · rw [keyValues_keyOf_many hone hvalid hrow, keyValues_keyOf_many hone hvalid hrow'] at h
    exact .inl (congrArg p.keyOf h)

theorem length_dedup_map_le {α β : Type} [DecidableEq α] [DecidableEq β] (f : α → β) (l : List α) :
    (l.map f).dedup.length ≤ l.dedup.length := by
  have hsub : (l.map f).dedup ⊆ l.dedup.map f := by
    intro b hb
    obtain ⟨a, ha, rfl⟩ := mem_map.1 (mem_dedup.1 hb)
    exact mem_map_of_mem (mem_dedup.2 ha)
  have hle := ((nodup_dedup _).subperm hsub).length_le
  rwa [length_map] at hle

/-! ### The limit -/

/-- The tuples that are written are those of the keys that are kept. -/
theorem run_values (hlimit : 1 ≤ p.limit) {concurrency : Nat} (hvalid : ∀ b ∈ blocks, b.2.Valid c)
    (hno : ¬p.Overrun c (max concurrency 1) blocks) :
    ∃ m : HitsMap, Tracks p.counts m (p.allRows c blocks) ∧ ∀ trim out, ∃ rows,
      p.run c concurrency false trim out blocks = .ok rows ∧
        (rows.map Row.values).Perm ((kept trim m (m.keys.length - p.limit)).map p.keyValues) := by
  obtain ⟨m, htracks, hrun⟩ := run_spec p concurrency false hvalid
  refine ⟨m, htracks hno, fun trim out => ?_⟩
  obtain ⟨rows, hrows, -, hwrite⟩ := hrun trim out
  obtain ⟨hfull, hall⟩ := hwrite (by simpa using hno)
  refine ⟨rows, hrows, ?_⟩
  have hvalues : ∀ b : Bool, Row.values ∘ p.row m b = p.keyValues := fun _ => rfl
  by_cases hf : p.Full m
  · have hperm := (hfull hf).map Row.values
    rwa [map_map, hvalues, ← m.length_keys] at hperm
  · have hperm := (hall hf).map Row.values
    rw [map_map, hvalues] at hperm
    have hle : m.keys.length ≤ p.limit := by
      rw [m.length_keys]
      by_contra hgt
      exact hf ⟨hlimit, by omega⟩
    rw [Nat.sub_eq_zero_of_le hle]
    exact hperm.trans ((kept_zero_perm trim m).symm.map _)

/-- A run that refuses a block has rows. -/
theorem overrun_inputTuples (hf : p.filter = []) (hvalid : ∀ b ∈ blocks, b.2.Valid c) {n : Nat}
    (h : p.Overrun c n blocks) : 0 < (p.inputTuples c blocks).dedup.length := by
  obtain ⟨before, b, after, rfl, -, hlimit, hover⟩ := h
  have hpos : 0 < (p.shardRows c n before (min b.1 (n - 1))).dedup.length := by omega
  obtain ⟨k, hk⟩ := exists_mem_of_length_pos hpos
  obtain ⟨b', hb', hkb⟩ := mem_flatMap.1 (mem_dedup.1 hk)
  have hmem : k ∈ p.allRows c (before ++ b :: after) := by
    refine mem_flatMap.2 ⟨b', mem_append_left _ hb', ?_⟩
    split_ifs at hkb
    · exact hkb
    · cases hkb
  rw [allRows_eq hf hvalid] at hmem
  obtain ⟨row, hrow, -⟩ := mem_map.1 hmem
  exact length_pos_of_mem (mem_dedup.2 hrow)

/-- Enough tuples: as many distinct ones as the limit and the input allow, all of them from the input. -/
structure Enough (limit : Nat) (input out : List (List Bytes)) : Prop where
  nodup : out.Nodup
  length_eq : out.length = min limit input.dedup.length
  mem : ∀ row ∈ out, row ∈ input

theorem Enough.perm {limit : Nat} {input out out' : List (List Bytes)} (h : Enough limit input out)
    (hperm : out.Perm out') : Enough limit input out' where
  nodup := hperm.nodup_iff.1 h.nodup
  length_eq := by rw [← hperm.length_eq, h.length_eq]
  mem := fun row hrow => h.mem row (hperm.mem_iff.2 hrow)

def PipeUniq.distinctKeys (p : PipeUniq) (c : Float64Codec) (blocks : List (Nat × BlockResult)) : List Key :=
  (p.allRows c blocks).dedup

/-- The keys that can be kept stand for tuples of the input, each for another one, and there are enough keys. -/
structure FaithfulKeys (p : PipeUniq) (c : Float64Codec) (blocks : List (Nat × BlockResult)) : Prop where
  enough : p.limit ≤ (p.distinctKeys c blocks).length ∨
    (p.distinctKeys c blocks).length = (p.inputTuples c blocks).dedup.length
  in_input : ∀ k ∈ p.distinctKeys c blocks,
    Survives (p.distinctKeys c blocks) ((p.distinctKeys c blocks).length - p.limit) k →
      p.keyValues k ∈ p.inputTuples c blocks
  one_zero : .u64 0 ∈ p.distinctKeys c blocks → .neg 0 ∈ p.distinctKeys c blocks →
    ¬Survives (p.distinctKeys c blocks) ((p.distinctKeys c blocks).length - p.limit) (.u64 0)

/-- The tuples of the keys that are kept are enough, whatever is kept, exactly when the keys are faithful. -/
theorem enough_kept_iff (hf : p.filter = []) (hvalid : ∀ b ∈ blocks, b.2.Valid c) {m : HitsMap}
    (hm : Tracks p.counts m (p.allRows c blocks)) :
    (∀ trim, Enough p.limit (p.inputTuples c blocks) ((kept trim m (m.keys.length - p.limit)).map p.keyValues)) ↔
      FaithfulKeys p c blocks := by
  have hperm : m.keys.Perm (p.distinctKeys c blocks) := hm.keys_perm
  have hlen := hperm.length_eq
  have hle : (p.distinctKeys c blocks).length ≤ (p.inputTuples c blocks).dedup.length := by
    rw [PipeUniq.distinctKeys, allRows_eq hf hvalid]
    exact length_dedup_map_le _ _
  constructor
  · intro h
    constructor
    · have := (h .plain).length_eq
      rw [length_map, length_kept] at this
      omega
    · intro k hk hsurvives
      rw [← hlen, ← survives_congr hperm] at hsurvives
      exact (h (.lastly k)).mem _ (mem_map_of_mem (mem_kept_lastly (hperm.mem_iff.2 hk) hsurvives))
    -- both zeros are kept, and have one row
    · intro hzero hneg hsurvives
      rw [← hlen, ← survives_congr hperm] at hsurvives
      have hu := mem_kept_lastly (hperm.mem_iff.2 hzero) hsurvives
      have hn := neg_mem_kept (.lastly (.u64 0)) (hperm.mem_iff.2 hneg) (Nat.le_of_lt hsurvives)
      have hvalues : p.keyValues (.u64 0) = p.keyValues (.neg 0) := by
        unfold PipeUniq.keyValues
        split_ifs
        · decide
        · rfl
      cases inj_on_of_nodup_map (h (.lastly (.u64 0))).nodup hu hn hvalues
  · intro h trim
    have hsurvives : ∀ k ∈ kept trim m (m.keys.length - p.limit),
        Survives (p.distinctKeys c blocks) ((p.distinctKeys c blocks).length - p.limit) k := by
      intro k hk
      rw [← hlen, ← survives_congr hperm]
      exact survives_of_mem_kept hk
    constructor
    · refine (nodup_kept trim m _).map_on fun k hk k' hk' hvalues => ?_
      have hmem : ∀ {k}, k ∈ kept trim m (m.keys.length - p.limit) → k ∈ p.distinctKeys c blocks :=
        fun hk => hperm.mem_iff.1 (mem_of_mem_kept hk)
      rcases eq_of_keyValues_eq hf hvalid (mem_dedup.1 (hmem hk)) (mem_dedup.1 (hmem hk')) hvalues with
        heq | ⟨rfl, rfl⟩ | ⟨rfl, rfl⟩
      · exact heq
      · exact absurd (hsurvives _ hk) (h.one_zero (hmem hk) (hmem hk'))
      · exact absurd (hsurvives _ hk') (h.one_zero (hmem hk') (hmem hk))
    · rw [length_map, length_kept]
      have := h.enough
      omega
    · intro row hrow
      obtain ⟨k, hk, rfl⟩ := mem_map.1 hrow
      exact h.in_input k (hperm.mem_iff.1 (mem_of_mem_kept hk)) (hsurvives k hk)

/-- Whatever the orders of the maps, the pipe writes enough tuples. -/
def PipeUniq.WritesEnough (p : PipeUniq) (c : Float64Codec) (concurrency : Nat)
    (blocks : List (Nat × BlockResult)) : Prop :=
  ∀ trim out, ∃ rows, p.run c concurrency false trim out blocks = .ok rows ∧
    Enough p.limit (p.inputTuples c blocks) (rows.map Row.values)

/-- A run that refuses a block writes nothing. -/
theorem not_writesEnough_of_overrun (hlimit : 1 ≤ p.limit) (hf : p.filter = []) {concurrency : Nat}
    (hvalid : ∀ b ∈ blocks, b.2.Valid c) (hover : p.Overrun c (max concurrency 1) blocks) :
    ¬p.WritesEnough c concurrency blocks := by
  intro h
  obtain ⟨rows, hrows, henough⟩ := h .plain .plain
  obtain ⟨m, -, hrun⟩ := run_spec p concurrency false hvalid
  obtain ⟨rows', hrows', hempty, -⟩ := hrun .plain .plain
  cases hrows.symm.trans hrows'
  have hlen := henough.length_eq
  rw [hempty (.inr hover)] at hlen
  have hpos := overrun_inputTuples hf hvalid hover
  simp only [map_nil, length_nil] at hlen
  omega

/-- A limited `uniq` pipe without a filter writes enough tuples exactly when no shard refuses a block and the keys
are faithful. -/
theorem uniq_limit_iff (p : PipeUniq) (hlimit : 1 ≤ p.limit) (hf : p.filter = []) (concurrency : Nat)
    (blocks : List (Nat × BlockResult)) (hvalid : ∀ b ∈ blocks, b.2.Valid c) :
    p.WritesEnough c concurrency blocks ↔
      ¬p.Overrun c (max concurrency 1) blocks ∧ FaithfulKeys p c blocks := by
  by_cases hover : p.Overrun c (max concurrency 1) blocks
  · have hno := not_writesEnough_of_overrun hlimit hf hvalid hover
    exact ⟨fun h => absurd h hno, fun h => absurd hover h.1⟩
  · obtain ⟨m, htracks, hrun⟩ := run_values hlimit hvalid hover
    rw [← enough_kept_iff hf hvalid htracks]
    constructor
    · intro h
      refine ⟨hover, fun trim => ?_⟩
      obtain ⟨rows, hrows, henough⟩ := h trim .plain
      obtain ⟨rows', hrows', hperm⟩ := hrun trim .plain
      cases hrows.symm.trans hrows'
      exact henough.perm hperm
    · rintro ⟨-, h⟩ trim out
      obtain ⟨rows, hrows, hperm⟩ := hrun trim out
      exact ⟨rows, hrows, (h trim).perm hperm.symm⟩

/-! ### A limit of one -/

def textBlock (name : Bytes) (values : List Bytes) : BlockResult where
  rowsLen := values.length
  timestampsBuf := []
  csBuf := [⟨name, .encoded .string [] values⟩]
  csEmpty := []
  cs := []
  csInitialized := false

theorem valid_textBlock {name : Bytes} {values : List Bytes} (h : ∀ v ∈ values, v.length < 2 ^ 64) :
    (textBlock name values).Valid c where
  values_ok := by
    intro column hcolumn
    obtain rfl := mem_singleton.1 hcolumn
    refine ⟨values, ?_, rfl, h⟩
    rw [ColumnContent.values, outcome_mapM_eq_ok_iff]
    rfl
  empty_const := fun column hcolumn => by cases hcolumn

def uniqOne : PipeUniq := ⟨[ascii "f"], [], [], 1⟩

def twoValues : List (Nat × BlockResult) := [(0, textBlock (ascii "f") [ascii "a", ascii "b"])]

/-- Two values in one block, and another block for the same worker. -/
def threeValues : List (Nat × BlockResult) := twoValues ++ [(0, textBlock (ascii "f") [ascii "c"])]

theorem uniqOne_twoValues : uniqOne.WritesEnough noFloats 1 twoValues := by
  refine (uniq_limit_iff uniqOne (by decide) rfl 1 twoValues ?_).2 ⟨?_, ?_⟩
  · intro b hb
    obtain rfl := mem_singleton.1 hb
    exact valid_textBlock (by decide)
  · intro hover
    change uniqOne.Overrun noFloats 1 ([] ++ twoValues) at hover
    rcases overrun_concat.1 hover with hover | ⟨-, -, hover⟩
    · exact not_overrun_nil hover
    · exact absurd hover (by decide)
  · exact ⟨by decide +kernel, by decide +kernel, by decide +kernel⟩

/-- The second block sets the stop flag, and nothing is written for three values. -/
theorem uniqOne_threeValues : ¬uniqOne.WritesEnough noFloats 1 threeValues := by
  intro h
  obtain ⟨rows, hrows, henough⟩ := h .plain .plain
  have hempty : uniqOne.run noFloats 1 false .plain .plain threeValues = .ok [] := by rfl
  cases hrows.symm.trans hempty
  exact absurd henough.length_eq (by decide +kernel)

end EsLogs.Uniq
