import EsLogs.ValuesEncoder

/-!
When a column comes back from storage as it went in. The dictionary and the unchanged strings always
do. A typed representation gives back the canonical text of each number, address or timestamp, so a
column it accepts comes back exactly when every one of its texts is canonical already.
-/

namespace EsLogs.ColumnValues

open NumberText Encoding List

variable {n : Nat} {src : List Bytes} {ns : List Nat} {α : Type} {parse : Bytes → Option α}

variable (d : List Bytes)

/-! ### The dictionary -/

def DictFits (s : Finset Bytes) : Prop :=
  s.card ≤ maxDictLen ∧ ∑ v ∈ s, v.length ≤ maxDictSizeBytes

theorem DictFits.mono {s t : Finset Bytes} (h : DictFits t) (hst : s ⊆ t) : DictFits s :=
  ⟨(Finset.card_le_card hst).trans h.1, (Finset.sum_le_sum_of_subset hst).trans h.2⟩

theorem dictFits_toFinset {l : List Bytes} (h : l.Nodup) :
    DictFits l.toFinset ↔ l.length ≤ maxDictLen ∧ (l.map List.length).sum ≤ maxDictSizeBytes := by
  rw [DictFits, toFinset_card_of_nodup h, sum_toFinset _ h]

/-- What `get_or_add` gives for a dictionary without repetitions. -/
theorem getOrAdd_eq_some {d d' : ValuesDict} {k : Bytes} {id : UInt8} (hd : d.values.Nodup)
    (hfit : DictFits d.values.toFinset) (h : d.getOrAdd k = some (d', id)) :
    d'.values.Nodup ∧ DictFits d'.values.toFinset ∧ d.values <+: d'.values ∧
      d'.values.toFinset = insert k d.values.toFinset ∧ d'.values[id.toNat]? = some k := by
  have hlen := ((dictFits_toFinset hd).1 hfit).1
  unfold ValuesDict.getOrAdd at h
  split_ifs at h with hk
  cases hidx : d.values.idxOf? k with
  | some i =>
    simp only [hidx, Option.some.injEq, Prod.mk.injEq] at h
    obtain ⟨rfl, rfl⟩ := h
    obtain ⟨s, t, hs, rfl, -⟩ := idxOf?_eq_some_iff_append.1 hidx
    have hmem : k ∈ d.values := by simp [hs]
    have hsmall : s.length < 2 ^ 8 := by
      have := congrArg List.length hs
      simp only [length_append, length_cons] at this
      unfold maxDictLen at hlen
      omega
    refine ⟨hd, hfit, prefix_rfl, ?_, ?_⟩
    · rw [Finset.insert_eq_of_mem (mem_toFinset.2 hmem)]
    · rw [UInt8.toNat_ofNat', Nat.mod_eq_of_lt hsmall, hs]
      simp
  | none =>
    simp only [hidx] at h
    split_ifs at h with hfull
    cases h
    push Not at hfull
    have hnotin : k ∉ d.values := List.idxOf?_eq_none_iff.1 hidx
    have hnodup : (d.values ++ [k]).Nodup := concat_eq_append ▸ hd.concat hnotin
    have hsmall : d.values.length < 2 ^ 8 := by
      unfold maxDictLen at hlen
      omega
    refine ⟨hnodup, (dictFits_toFinset hnodup).2 ⟨?_, ?_⟩, prefix_append _ _, ?_, ?_⟩
    · rw [length_append, length_singleton]
      exact hfull.1
    · rw [map_append, sum_append]
      simpa using hfull.2
    · ext v
      simp
    · rw [UInt8.toNat_ofNat', Nat.mod_eq_of_lt hsmall]
      simp

/-- `get_or_add` refuses only what would make the dictionary too large. -/
theorem getOrAdd_eq_none {d : ValuesDict} {k : Bytes} (hd : d.values.Nodup)
    (h : d.getOrAdd k = none) : ¬DictFits (insert k d.values.toFinset) := by
  intro hfit
  have hk : k.length ≤ maxDictSizeBytes :=
    (Finset.single_le_sum (fun v _ => Nat.zero_le v.length)
      (Finset.mem_insert_self k d.values.toFinset)).trans hfit.2
  unfold ValuesDict.getOrAdd at h
  rw [if_neg (Nat.not_lt.2 hk)] at h
  cases hidx : d.values.idxOf? k with
  | some i => simp [hidx] at h
  | none =>
    have hnotin : k ∉ d.values.toFinset := by
      rw [mem_toFinset]
      exact List.idxOf?_eq_none_iff.1 hidx
    obtain ⟨hcard, hsize⟩ := hfit
    rw [Finset.card_insert_of_notMem hnotin, toFinset_card_of_nodup hd] at hcard
    rw [Finset.sum_insert hnotin, sum_toFinset _ hd] at hsize
    simp only [hidx] at h
    split_ifs at h with hfull
    rw [show (fun v : Bytes => v.length) = List.length from rfl] at hsize
    omega

/-- When all values together fit, the loop succeeds, and each identifier it stores stands for its
value in the final dictionary. Otherwise the loop fails. -/
theorem dictLoop_cases (e : ValuesEncoder) (d : ValuesDict) (vs : List Bytes)
    (hd : d.values.Nodup) (hown : DictFits d.values.toFinset) :
    (DictFits (d.values.toFinset ∪ vs.toFinset) ∧ ∃ (e' : ValuesEncoder) (d' : ValuesDict) (ids : List UInt8),
      dictLoop e d vs = some (e', d') ∧ d.values <+: d'.values ∧
        e'.values = e.values ++ ids.map ([·]) ∧
        ids.map (fun id => d'.values[id.toNat]?) = vs.map some) ∨
      ¬DictFits (d.values.toFinset ∪ vs.toFinset) ∧ dictLoop e d vs = none := by
  induction vs generalizing e d with
  | nil => exact .inl ⟨by simpa using hown, e, d, [], rfl, prefix_rfl, by simp, rfl⟩
  | cons v vs ih =>
    rw [dictLoop, toFinset_cons, Finset.union_insert, ← Finset.insert_union]
    cases hget : d.getOrAdd v with
    | none => exact .inr ⟨fun h => getOrAdd_eq_none hd hget (h.mono Finset.subset_union_left), rfl⟩
    | some r =>
      obtain ⟨d1, id⟩ := r
      obtain ⟨hd1, hown1, hpre, hset, hid⟩ := getOrAdd_eq_some hd hown hget
      rw [← hset]
      refine (ih (e.push [id]) d1 hd1 hown1).imp_left ?_
      rintro ⟨hfit, e', d', ids, hloop, hpre', hvals, hids⟩
      refine ⟨hfit, e', d', id :: ids, hloop, hpre.trans hpre', ?_, ?_⟩
      · rw [hvals, ValuesEncoder.values_push, append_assoc]
        rfl
      -- identifiers keep their meaning, because the dictionary only grows at its end
      · obtain ⟨t, ht⟩ := hpre'
        have hlt : id.toNat < d1.values.length := (List.getElem?_eq_some_iff.1 hid).1
        rw [map_cons, map_cons, hids, ← ht, List.getElem?_append_left hlt, hid]

/-- What the encoding with a dictionary starts with. -/
theorem dictLoop_nil_cases (e : ValuesEncoder) (src : List Bytes) :
    (DictFits src.toFinset ∧ ∃ (e' : ValuesEncoder) (d' : ValuesDict) (ids : List UInt8),
      dictLoop e ⟨[]⟩ src = some (e', d') ∧ e'.values = e.values ++ ids.map ([·]) ∧
        ids.map (fun id => d'.values[id.toNat]?) = src.map some) ∨
      ¬DictFits src.toFinset ∧ dictLoop e ⟨[]⟩ src = none := by
  have h := dictLoop_cases e ⟨[]⟩ src nodup_nil (by simp [DictFits])
  simpa using h

/-! ### The typed representations -/

/-- The kinds of text that `encode` looks for, in the order in which it tries them. -/
inductive TextKind where
  | uint
  | int
  | float
  | ipv4
  | timestamp
  deriving DecidableEq, Repr

def TextKind.Accepts (c : Float64Codec) : TextKind → Bytes → Prop
  | .uint, v => UintText v
  | .int, v => IntText v
  | .float, v => ∃ f, c.tryParseFloat64ExactBytes v = some f
  | .ipv4, v => Ipv4Text v
  | .timestamp, v => TimestampText v

/-- The texts of a kind that are written canonically: numbers without underscores, a zero without a
sign, addresses without leading zeros, dates of the calendar. -/
def TextKind.Plain : TextKind → Bytes → Prop
  | .uint, v => byte '_' ∉ v
  | .int, v => byte '_' ∉ v ∧ v ≠ ascii "-0"
  | .float, _ => True
  | .ipv4, v => DottedQuad v
  | .timestamp, v => CalendarText v

/-- The first of the kinds that takes every value of the column, if there is one, takes only plain
texts. -/
def FirstKindPlain (c : Float64Codec) (src : List Bytes) : List TextKind → Prop
  | [] => True
  | k :: ks =>
    ((∀ v ∈ src, k.Accepts c v) → ∀ v ∈ src, k.Plain v) ∧
      ((¬∀ v ∈ src, k.Accepts c v) → FirstKindPlain c src ks)

/-- What a typed encoding does: it stores a column exactly when it is made of texts of its kind, and
the column then decodes to itself exactly when all its texts are plain. -/
structure EncodesKind (c : Float64Codec) (k : TextKind)
    (f : ValuesEncoder → List Bytes → ValuesEncoder × ValueType × Nat × Nat) : Prop where
  rejects : ∀ {e src}, (¬∀ v ∈ src, k.Accepts c v) → (f e src).2.1 = .unknown
  stores : ∀ {e src}, (∀ v ∈ src, k.Accepts c v) → e.values = [] →
    (f e src).2.1 ≠ .unknown ∧ ∀ d,
      (decodeInplace c (f e src).1.values (f e src).2.1 d = .ok src ↔ ∀ v ∈ src, k.Plain v)

variable {c : Float64Codec} {vt : ValueType}

theorem decodeInplace_eq (hvt : ∀ code, vt ≠ .other code)
    (values d : List Bytes) :
    decodeInplace c values vt d = values.mapM (decodeValue c vt d) := by
  cases vt with
  | other code => exact absurd rfl (hvt code)
  | _ => rfl

/-- Marshaled numbers decode to the column exactly when each value is the rendering of its number. -/
theorem decode_marshaled_iff {d : List Bytes} {marshal render : α → Bytes} {ns : List α}
    (hvt : ∀ code, vt ≠ .other code) (hparse : src.map parse = ns.map some)
    (hdecode : ∀ n ∈ ns, decodeValue c vt d (marshal n) = .ok (render n)) :
    decodeInplace c (ns.map marshal) vt d = .ok src ↔ ∀ v ∈ src, ∀ n, parse v = some n → render n = v := by
  have hmap : (ns.map marshal).map (decodeValue c vt d) = (ns.map render).map .ok := by
    rw [map_map, map_map]
    exact map_congr_left hdecode
  rw [decodeInplace_eq hvt, outcome_mapM_eq_ok_iff, hmap,
    (map_injective_iff.2 fun _ _ h => Except.ok.inj h).eq_iff]
  clear hmap hdecode
  induction src generalizing ns with
  | nil =>
    have hnil : ns = [] := by simpa using hparse.symm
    simp [hnil]
  | cons v src ih =>
    cases ns with
    | nil => simp at hparse
    | cons n ns =>
      rw [map_cons, map_cons, List.cons.injEq] at hparse
      have htail := ih hparse.2
      rw [map_cons, List.cons.injEq, forall_mem_cons, hparse.1]
      simpa using and_congr_right fun _ => htail

theorem exists_parsed_iff : (∃ ns, src.mapM parse = some ns) ↔ ∀ v ∈ src, ∃ n, parse v = some n := by
  have hrange : (∃ ns : List α, ns.map some = src.map parse) ↔ ∀ x ∈ src.map parse, x ∈ Set.range some :=
    Set.ext_iff.1 (Set.range_list_map some) _
  rw [forall_mem_map] at hrange
  simpa [option_mapM_eq_some_iff, eq_comm] using hrange

/-- An encoding that stores the numbers its texts are parsed to does what a typed encoding has to do. -/
theorem encodesKind_of_stores {k : TextKind} {f : ValuesEncoder → List Bytes → ValuesEncoder × ValueType × Nat × Nat}
    (parse : Bytes → Option α) (render : α → Bytes) (haccepts : ∀ v, k.Accepts c v ↔ ∃ n, parse v = some n)
    (hplain : ∀ v n, parse v = some n → (render n = v ↔ k.Plain v))
    (hnone : ∀ {e src}, src.mapM parse = none → (f e src).2.1 = .unknown)
    (hsome : ∀ {e src ns}, src.mapM parse = some ns → (∀ n ∈ ns, ∃ v, parse v = some n) →
      ∃ (vt : ValueType) (marshal : α → Bytes), (∀ code, vt ≠ .other code) ∧
        (f e src).1 = e.pushAll (ns.map marshal) ∧ (f e src).2.1 = vt ∧
        ∀ d, ∀ n ∈ ns, decodeValue c vt d (marshal n) = .ok (render n)) :
    EncodesKind c k f := by
  have hall : ∀ src : List Bytes,
      (∀ v ∈ src, k.Accepts c v) ↔ ∃ ns, src.mapM parse = some ns := fun src => by
    simp only [haccepts, exists_parsed_iff]
  refine ⟨fun {e src} h => ?_, fun {e src} h he => ?_⟩
  · rw [hall] at h
    cases hns : src.mapM parse with
    | none => exact hnone hns
    | some ns => exact absurd ⟨ns, hns⟩ h
  · obtain ⟨ns, hns⟩ := (hall src).1 h
    have hmap := option_mapM_eq_some_iff.1 hns
    have hmem : ∀ n ∈ ns, ∃ v, parse v = some n := fun n hn => by
      obtain ⟨v, -, hv⟩ := mem_map.1 (hmap ▸ mem_map_of_mem hn : some n ∈ src.map parse)
      exact ⟨v, hv⟩
    obtain ⟨vt, marshal, hvt, he', hvt', hdecode⟩ := hsome (e := e) hns hmem
    rw [he', hvt', ValuesEncoder.values_pushAll, he, nil_append]
    refine ⟨hvt 0, fun d => ?_⟩
    rw [decode_marshaled_iff hvt hmap (hdecode d)]
    refine forall₂_congr fun v hv => ?_
    obtain ⟨n, hn⟩ := (haccepts v).1 (h v hv)
    rw [← hplain v n hn]
    simp [hn]

/-- The shared shape of the typed encodings. -/
theorem encodesKind_tryEncoding {k : TextKind} {marshal : α → Bytes} (render : α → Bytes) (less : α → α → Bool)
    (zero : α) (toU64 : α → Nat) (hvt : ∀ code, vt ≠ .other code)
    (haccepts : ∀ v, k.Accepts c v ↔ ∃ n, parse v = some n)
    (hdecode : ∀ v n, parse v = some n → ∀ d, decodeValue c vt d (marshal n) = .ok (render n))
    (hplain : ∀ v n, parse v = some n → (render n = v ↔ k.Plain v)) :
    EncodesKind c k (tryEncoding vt parse less zero marshal toU64) := by
  refine encodesKind_of_stores parse render haccepts hplain (fun hns => by simp [tryEncoding, hns]) fun {e src ns} hns hmem => ?_
  refine ⟨vt, marshal, hvt, by simp [tryEncoding, hns], by simp [tryEncoding, hns], fun d n hn => ?_⟩
  obtain ⟨v, hv⟩ := hmem n hn
  exact hdecode v n hv d

theorem checkLen_eq_ok {name : String} {want : Nat} {v : Bytes} (h : v.length = want) :
    checkLen name want v = .ok () := by
  simp [checkLen, h]

theorem asI64_asU64 {n : Int} (hlo : -2 ^ 63 ≤ n) (hhi : n < 2 ^ 63) : asI64 (asU64 n) = n := by
  unfold asI64 asU64
  split_ifs <;> omega

theorem asU64_lt (n : Int) : asU64 n < 2 ^ 64 := by
  unfold asU64
  omega

theorem encodesKind_int (c : Float64Codec) : EncodesKind c .int tryIntEncoding := by
  refine encodesKind_tryEncoding marshalInt64String _ _ _ (by simp)
    (fun v => intText_iff) (fun v n hn d => ?_) fun v n hn => marshal_int_eq_iff hn
  obtain ⟨hlo, hhi⟩ := tryParseInt64Bytes_range hn
  rw [decodeValue, unmarshalInt64_self hlo hhi, checkLen_eq_ok (length_marshalInt64 n)]
  rfl

theorem encodesKind_float (c : Float64Codec) : EncodesKind c .float (tryFloat64Encoding c) := by
  refine encodesKind_tryEncoding c.marshalFloat64String _ _ _ (by simp)
    (fun v => Iff.rfl) (fun v n hn d => ?_) fun v n hn => iff_of_true (c.lossless hn) trivial
  rw [decodeValue, unmarshalUint64_self (c.parse_lt hn), checkLen_eq_ok (length_marshalUint64 n)]
  rfl

theorem encodesKind_ipv4 (c : Float64Codec) : EncodesKind c .ipv4 tryIpv4Encoding := by
  refine encodesKind_tryEncoding marshalIpv4String _ _ _ (by simp)
    (fun v => ipv4Text_iff) (fun v n hn d => ?_) fun v n hn => marshal_ipv4_eq_iff hn
  rw [decodeValue, unmarshalUint32_self (tryParseIpv4Bytes_lt hn), checkLen_eq_ok (length_marshalUint32 n)]
  rfl

theorem encodesKind_timestamp (c : Float64Codec) :
    EncodesKind c .timestamp tryTimestampIso8601Encoding := by
  refine encodesKind_tryEncoding marshalTimestampIso8601String _ _ _ (by simp)
    (fun v => timestampText_iff) (fun v n hn d => ?_) fun v n hn => marshal_timestamp_eq_iff hn
  obtain ⟨⟨hlo, hhi⟩, -⟩ := tryParseTimestampIso8601Bytes_range hn
  rw [decodeValue, unmarshalUint64_self (asU64_lt n), checkLen_eq_ok (length_marshalUint64 _),
    asI64_asU64 (by omega) (by omega)]
  rfl

/-! ### The least and the greatest number -/

section Extremum

variable {α : Type} (less : α → α → Bool) (le : α → α → Prop) {P : α → Prop}
  (hrefl : ∀ a, P a → le a a) (htrans : ∀ a b d, le a b → le b d → le a d)
  (hless : ∀ a b, P a → P b → less a b = true → le a b) (hnot : ∀ a b, P a → P b → less a b = false → le b a)

include hrefl htrans hless hnot in
/-- The loop keeps a number that is before all the numbers it has seen. -/
theorem foldl_extremum_spec (ns : List α) (best : α) (hbest : P best) (hns : ∀ n ∈ ns, P n) :
    ns.foldl (fun best n => if less n best then n else best) best ∈ best :: ns ∧
      ∀ n ∈ best :: ns, le (ns.foldl (fun best n => if less n best then n else best) best) n := by
  induction ns generalizing best with
  | nil =>
    refine ⟨mem_singleton_self best, ?_⟩
    intro n hn
    rw [mem_singleton.1 hn]
    exact hrefl best hbest
  | cons a ns ih =>
    rw [forall_mem_cons] at hns
    rw [foldl_cons]
    cases hcmp : less a best with
    | true =>
      obtain ⟨hmem, hle⟩ := ih a hns.1 hns.2
      rw [if_pos rfl]
      refine ⟨mem_cons_of_mem best hmem, ?_⟩
      rw [forall_mem_cons]
      exact ⟨htrans _ a best (hle a mem_cons_self) (hless a best hns.1 hbest hcmp), hle⟩
    | false =>
      obtain ⟨hmem, hle⟩ := ih best hbest hns.2
      rw [if_neg (by decide)]
      have hfirst := hle best mem_cons_self
      refine ⟨?_, ?_⟩
      · rcases mem_cons.1 hmem with heq | hmem
        · rw [heq]
          exact mem_cons_self
        · exact mem_cons_of_mem best (mem_cons_of_mem a hmem)
      · rw [forall_mem_cons, forall_mem_cons]
        exact ⟨hfirst, htrans _ best a hfirst (hnot a best hns.1 hbest hcmp),
          fun n hn => hle n (mem_cons_of_mem best hn)⟩

include hrefl htrans hless hnot in
theorem extremum_spec {ns : List α} (zero : α) (hne : ns ≠ []) (hns : ∀ n ∈ ns, P n) :
    extremum less zero ns ∈ ns ∧ ∀ n ∈ ns, le (extremum less zero ns) n := by
  cases ns with
  | nil => exact absurd rfl hne
  | cons a ns =>
    rw [forall_mem_cons] at hns
    exact foldl_extremum_spec less le hrefl htrans hless hnot ns a hns.1 hns.2

end Extremum

/-! ### Unsigned numbers -/

/-- The running maximum bounds every number of the column. -/
theorem le_extremum_max (h : n ∈ ns) : n ≤ extremum (fun a b => decide (b < a)) 0 ns :=
  (extremum_spec (P := fun _ => True) _ (fun a b => b ≤ a) (fun _ _ => le_rfl) (fun _ _ _ h h' => h'.trans h)
    (fun _ _ _ _ h => (of_decide_eq_true h).le) (fun _ _ _ _ h => not_lt.1 (of_decide_eq_false h)) 0
    (ne_nil_of_mem h) fun _ _ => trivial).2 n h

/-- A width that the largest number fits decodes every number of the column. -/
theorem decodeValue_uint {marshal : Nat → Bytes} {w : Nat}
    (hmax : Nat.size (extremum (fun a b => decide (b < a)) 0 ns) ≤ w)
    (hread : ∀ n < 2 ^ w, decodeValue c vt d (marshal n) = .ok (decimal n)) :
    ∀ n ∈ ns, decodeValue c vt d (marshal n) = .ok (decimal n) := by
  intro n hn
  exact hread n ((le_extremum_max hn).trans_lt (Nat.size_le.1 hmax))

theorem decodeValue_uint8 (h : n < 2 ^ 8) : decodeValue c .uint8 d (beBytes 1 n) = .ok (decimal n) := by
  have hread := beNat_take_self 1 n (by simpa using h)
  rw [decodeValue, hread, marshalUint8String_eq h, checkLen_eq_ok (length_beBytes 1 n)]
  rfl

theorem decodeValue_uint16 (h : n < 2 ^ 16) : decodeValue c .uint16 d (marshalUint16 n) = .ok (decimal n) := by
  rw [decodeValue, unmarshalUint16_self h, checkLen_eq_ok (length_marshalUint16 n)]
  rfl

theorem decodeValue_uint32 (h : n < 2 ^ 32) : decodeValue c .uint32 d (marshalUint32 n) = .ok (decimal n) := by
  rw [decodeValue, unmarshalUint32_self h, checkLen_eq_ok (length_marshalUint32 n)]
  rfl

theorem decodeValue_uint64 (h : n < 2 ^ 64) : decodeValue c .uint64 d (marshalUint64 n) = .ok (decimal n) := by
  rw [decodeValue, unmarshalUint64_self h, checkLen_eq_ok (length_marshalUint64 n)]
  rfl

theorem encodesKind_uint (c : Float64Codec) : EncodesKind c .uint tryUintEncoding := by
  refine encodesKind_of_stores tryParseUint64Bytes decimal (fun v => ?_) (fun v n hn => ?_)
    (fun hns => by simp [tryUintEncoding, hns]) fun {e src ns} hns hmem => ?_
  · simp only [tryParseUint64Bytes_eq_some, TextKind.Accepts, exists_and_left, exists_eq, and_true]
  · obtain ⟨htext, rfl⟩ := tryParseUint64Bytes_eq_some.1 hn
    exact marshal_uint_eq_iff htext
  -- whatever width is picked, it decodes every number of the column
  · simp only [tryUintEncoding, hns]
    split_ifs with h8 h16 h32
    · exact ⟨.uint8, beBytes 1, by simp, rfl, rfl,
        fun d => decodeValue_uint d h8 fun n hn => decodeValue_uint8 d hn⟩
    · exact ⟨.uint16, marshalUint16, by simp, rfl, rfl,
        fun d => decodeValue_uint d h16 fun n hn => decodeValue_uint16 d hn⟩
    · exact ⟨.uint32, marshalUint32, by simp, rfl, rfl,
        fun d => decodeValue_uint d h32 fun n hn => decodeValue_uint32 d hn⟩
    · refine ⟨.uint64, marshalUint64, by simp, rfl, rfl, fun d n hn => ?_⟩
      obtain ⟨v, hv⟩ := hmem n hn
      exact decodeValue_uint64 d (tryParseUint64Bytes_lt hv)

/-! ### Columns -/

def textKinds : List TextKind := [.uint, .int, .float, .ipv4, .timestamp]

/-- The columns that come back from storage: those that fit a dictionary, and those whose first
matching kind of text, if there is one, takes only plain texts. -/
def Storable (c : Float64Codec) (src : List Bytes) : Prop :=
  DictFits src.toFinset ∨ FirstKindPlain c src textKinds

theorem decode_tryEncodings_iff (c : Float64Codec) (src d : List Bytes) (e : ValuesEncoder)
    {ks : List TextKind}
    {fs : List (ValuesEncoder → List Bytes → ValuesEncoder × ValueType × Nat × Nat)}
    (h : List.Forall₂ (EncodesKind c) ks fs) :
    decodeInplace c (tryEncodings e src fs).1.values (tryEncodings e src fs).2.1 d = .ok src ↔
      FirstKindPlain c src ks := by
  induction h generalizing e with
  | nil =>
    have hstring : decodeInplace c src .string d = .ok src := by
      rw [decodeInplace_eq (by simp), outcome_mapM_eq_ok_iff]
      exact map_congr_left fun v _ => rfl
    simpa [tryEncodings, FirstKindPlain] using hstring
  | @cons k f ks fs hk _ ih =>
    rw [tryEncodings, FirstKindPlain]
    by_cases hall : ∀ v ∈ src, k.Accepts c v
    · obtain ⟨hvt, hdecode⟩ := hk.stores hall e.values_reset
      simp only [hvt, ne_eq, not_false_eq_true, if_true, hdecode d]
      exact ⟨fun h => ⟨fun _ => h, fun hnot => absurd hall hnot⟩, fun h => h.1 hall⟩
    · simp only [hk.rejects hall, ne_eq, not_true_eq_false, if_false]
      simp only [ih, hall, false_implies, not_false_eq_true, true_implies, true_and]

/-- The dictionary gives every column back. -/
theorem decode_dict {dictValues src : List Bytes} {ids : List UInt8}
    (h : ids.map (fun id => dictValues[id.toNat]?) = src.map some) :
    decodeInplace c (ids.map ([·])) .dict dictValues = .ok src := by
  rw [decodeInplace_eq (by simp), outcome_mapM_eq_ok_iff, map_map]
  induction ids generalizing src with
  | nil =>
    have hnil : src = [] := by simpa using h.symm
    simp [hnil]
  | cons id ids ih =>
    cases src with
    | nil => simp at h
    | cons v src =>
      rw [map_cons, map_cons, List.cons.injEq] at h
      obtain ⟨hlt, hval⟩ := List.getElem?_eq_some_iff.1 h.1
      rw [map_cons, map_cons, ih h.2]
      simp [decodeValue, hlt, hval]

/-- Encoding a column and decoding the stored buffers gives the column back exactly when it is
storable, whatever the encoder and the dictionary held before. -/
theorem decode_encode_iff (c : Float64Codec) (e : ValuesEncoder) (dict : ValuesDict)
    (src : List Bytes) :
    decodeInplace c (encode c e src dict).encoder.values (encode c e src dict).vt
      (encode c e src dict).dict.values = .ok src ↔ Storable c src := by
  by_cases hnil : src = []
  · subst hnil
    have hfits : DictFits ([] : List Bytes).toFinset := by simp [DictFits]
    refine iff_of_true ?_ (.inl hfits)
    rfl
  rcases dictLoop_nil_cases e.reset src with ⟨hfits, e', d', ids, hloop, hvals, hids⟩ | ⟨hfits, hloop⟩
  · refine iff_of_true ?_ (.inl hfits)
    simp only [encode, hnil, if_false, tryDictEncoding, hloop]
    simpa [ValueType.unknown, hvals] using decode_dict hids
  · have hkinds : List.Forall₂ (EncodesKind c) textKinds [tryUintEncoding, tryIntEncoding,
        tryFloat64Encoding c, tryIpv4Encoding, tryTimestampIso8601Encoding] :=
      .cons (encodesKind_uint c) (.cons (encodesKind_int c) (.cons (encodesKind_float c)
        (.cons (encodesKind_ipv4 c) (.cons (encodesKind_timestamp c) .nil))))
    simp only [encode, hnil, if_false, tryDictEncoding, hloop, ne_eq, not_true_eq_false, Storable,
      hfits, false_or]
    exact decode_tryEncodings_iff c src _ _ hkinds

def noFloats : Float64Codec := ⟨fun _ => none, fun _ => [], fun _ _ => false, by simp, by simp⟩

/-- Nine numbers written with an underscore: too many for a dictionary. -/
def underscored : List Bytes :=
  ["1_000", "2_000", "3_000", "4_000", "5_000", "6_000", "7_000", "8_000", "9_000"].map ascii

/-- The nine numbers come back without their underscores. -/
theorem decode_encode_underscored :
    decodeInplace noFloats
        (encode noFloats ⟨[], [], by simp⟩ underscored ⟨[]⟩).encoder.values
        (encode noFloats ⟨[], [], by simp⟩ underscored ⟨[]⟩).vt
        (encode noFloats ⟨[], [], by simp⟩ underscored ⟨[]⟩).dict.values =
      .ok (["1000", "2000", "3000", "4000", "5000", "6000", "7000", "8000", "9000"].map ascii) ∧
    ["1000", "2000", "3000", "4000", "5000", "6000", "7000", "8000", "9000"].map ascii ≠
      underscored := by
  exact ⟨by rfl, by decide⟩

end EsLogs.ColumnValues
