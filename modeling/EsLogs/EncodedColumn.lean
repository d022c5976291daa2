import EsLogs.TypedText

/-!
The columns that `ValuesEncoder::encode` writes: whatever the values are, the stored ones decode, and the bounds that
go into the header of the column are the least and the greatest number.
-/

namespace EsLogs.ColumnValues

open Encoding NumberText List

variable {src : List Bytes}

/-! ### Numbers -/

variable {c : Float64Text} {c₀ : Float64Codec} {vt : ValueType} {d : List Bytes}

/-- A column of numbers as an encoding leaves it: the values stand for the numbers that the texts are read as, and the
bounds for the least and the greatest of these. -/
structure EncodesNumbers (c₀ : Float64Codec) (d src : List Bytes) (vt : ValueType) (minValue maxValue : Nat)
    (values : List Bytes) (ns : List Int) : Prop where
  numeric : vt.isNumeric = true
  parsed : src.map (parsedNumber vt) = ns.map some
  numbers : values.map (number vt) = ns
  decodes : ∀ v ∈ values, ∃ text, decodeValue c₀ vt d v = .ok text
  fits : minValue < 2 ^ 64 ∧ maxValue < 2 ^ 64
  least : IsLeast {n | n ∈ ns} (headerNumber vt minValue)
  greatest : IsGreatest {n | n ∈ ns} (headerNumber vt maxValue)

section Parsed

variable {α : Type} {parse : Bytes → Option α} {src : List Bytes} {ns : List α} {marshal : α → Bytes}
  {less : α → α → Bool}

theorem parsed_ne_nil (hne : src ≠ [])
    (h : src.map parse = ns.map some) : ns ≠ [] := by
  rintro rfl
  exact hne (map_eq_nil_iff.1 h)

theorem exists_parsed (h : src.map parse = ns.map some) {n : α} (hn : n ∈ ns) :
    ∃ v, parse v = some n := by
  have hmem : some n ∈ src.map parse := h ▸ mem_map_of_mem hn
  obtain ⟨v, -, hv⟩ := mem_map.1 hmem
  exact ⟨v, hv⟩

/-- The loops find the bounds of numbers that are compared by what they stand for. -/
theorem encodesNumbers (toU64 : α → Nat) (value : α → Int) (zero : α) (hnumeric : vt.isNumeric = true)
    (hne : src ≠ []) (hmap : src.map parse = ns.map some) (hparse : ∀ s, parsedNumber vt s = (parse s).map value)
    (hdecode : ∀ n ∈ ns, ∃ text, decodeValue c₀ vt d (marshal n) = .ok text)
    (hnumber : ∀ n ∈ ns, number vt (marshal n) = value n)
    (hless : ∀ a b, less a b = decide (value a < value b))
    (hheader : ∀ n ∈ ns, headerNumber vt (toU64 n) = value n)
    (hfits : ∀ n ∈ ns, toU64 n < 2 ^ 64) :
    EncodesNumbers c₀ d src vt (toU64 (extremum less zero ns)) (toU64 (extremum (fun a b => less b a) zero ns))
      (ns.map marshal) (ns.map value) := by
  have hns := parsed_ne_nil hne hmap
  have hlt : ∀ a b, less a b = true → value a ≤ value b := by
    intro a b h
    rw [hless, decide_eq_true_eq] at h
    exact h.le
  have hnot : ∀ a b, less a b = false → value b ≤ value a := by
    intro a b h
    rw [hless, decide_eq_false_iff_not] at h
    exact not_lt.1 h
  obtain ⟨hminMem, hmin⟩ := extremum_spec (P := fun _ => True) less (fun a b => value a ≤ value b) (by simp)
    (fun a b d => Int.le_trans) (fun a b _ _ => hlt a b) (fun a b _ _ => hnot a b) zero hns (by simp)
  obtain ⟨hmaxMem, hmax⟩ := extremum_spec (P := fun _ => True) (fun a b => less b a)
    (fun a b => value b ≤ value a) (by simp) (fun a b d h h' => Int.le_trans h' h)
    (fun a b _ _ => hlt b a) (fun a b _ _ => hnot b a) zero hns (by simp)
  constructor
  case numeric => exact hnumeric
  case parsed =>
    rw [funext hparse, ← Function.comp_def (Option.map value) parse, ← map_map, hmap, map_map, map_map]
    rfl
  case numbers =>
    rw [map_map]
    exact map_congr_left hnumber
  case decodes => exact forall_mem_map.2 hdecode
  case fits => exact ⟨hfits _ hminMem, hfits _ hmaxMem⟩
  case least =>
    rw [hheader _ hminMem]
    exact ⟨mem_map_of_mem hminMem, forall_mem_map.2 hmin⟩
  case greatest =>
    rw [hheader _ hmaxMem]
    exact ⟨mem_map_of_mem hmaxMem, forall_mem_map.2 hmax⟩

end Parsed

/-- Marshaled numbers are stored values. -/
theorem EncodesNumbers.stored {src values : List Bytes} {minValue maxValue : Nat} {ns : List Int}
    (h : EncodesNumbers c.codec d src vt minValue maxValue values ns) :
    StoredValues c vt d minValue maxValue values := by
  have hmem : ∀ v ∈ values, number vt v ∈ ns := fun v hv => h.numbers ▸ mem_map_of_mem hv
  constructor
  case known =>
    rintro code rfl
    cases h.numeric
  case fits => exact h.fits
  case decodes => exact h.decodes
  case dict =>
    rintro rfl
    cases h.numeric
  case bounds => exact fun _ v hv => ⟨h.least.2 (hmem v hv), h.greatest.2 (hmem v hv)⟩
  case attained =>
    intro _ _
    have hmax := h.greatest.1
    rw [← h.numbers] at hmax
    exact mem_map.1 hmax
  case timestamps =>
    rintro rfl v hv
    exact exists_parsed h.parsed (hmem v hv)
  case floats =>
    rintro rfl
    cases h.numeric

/-- What a typed encoding does with a column that it takes. -/
def Stores (c : Float64Text) (f : ValuesEncoder → List Bytes → ValuesEncoder × ValueType × Nat × Nat) : Prop :=
  ∀ (e : ValuesEncoder) (src d : List Bytes), e.values = [] → src ≠ [] → (f e src).2.1 ≠ .unknown →
    StoredValues c (f e src).2.1 d (f e src).2.2.1 (f e src).2.2.2 (f e src).1.values ∧
      (f e src).1.values.length = src.length

/-- What an encoding of numbers does with such a column. -/
def StoresNumbers (c₀ : Float64Codec)
    (f : ValuesEncoder → List Bytes → ValuesEncoder × ValueType × Nat × Nat) : Prop :=
  ∀ (e : ValuesEncoder) (src d : List Bytes), e.values = [] → src ≠ [] → (f e src).2.1 ≠ .unknown →
    ∃ ns, EncodesNumbers c₀ d src (f e src).2.1 (f e src).2.2.1 (f e src).2.2.2 (f e src).1.values ns

theorem StoresNumbers.stores {f : ValuesEncoder → List Bytes → ValuesEncoder × ValueType × Nat × Nat}
    (h : StoresNumbers c.codec f) : Stores c f := by
  intro e src d he hne hvt
  obtain ⟨ns, hns⟩ := h e src d he hne hvt
  refine ⟨hns.stored, ?_⟩
  rw [← length_map (number (f e src).2.1), hns.numbers, ← length_map some, ← hns.parsed, length_map]

/-- The shared shape of the typed encodings. -/
theorem tryEncoding_cases {α : Type} {parse : Bytes → Option α} {less : α → α → Bool} {zero : α}
    {marshal : α → Bytes} {toU64 : α → Nat} {e : ValuesEncoder}
    (hvt : (tryEncoding vt parse less zero marshal toU64 e src).2.1 ≠ .unknown) :
    ∃ ns, src.map parse = ns.map some ∧ tryEncoding vt parse less zero marshal toU64 e src =
      (e.pushAll (ns.map marshal), vt, toU64 (extremum less zero ns),
        toU64 (extremum (fun a b => less b a) zero ns)) := by
  unfold tryEncoding at hvt ⊢
  cases hns : src.mapM parse with
  | none =>
    rw [hns] at hvt
    exact absurd rfl hvt
  | some ns => exact ⟨ns, option_mapM_eq_some_iff.1 hns, rfl⟩

theorem storesNumbers_tryEncoding {α : Type} {parse : Bytes → Option α} {less : α → α → Bool} {zero : α}
    {marshal : α → Bytes} {toU64 : α → Nat}
    (h : ∀ {src : List Bytes} {ns : List α} (d : List Bytes), src ≠ [] → src.map parse = ns.map some →
      (∀ n ∈ ns, ∃ v, parse v = some n) → ∃ ns', EncodesNumbers c₀ d src vt (toU64 (extremum less zero ns))
        (toU64 (extremum (fun a b => less b a) zero ns)) (ns.map marshal) ns') :
    StoresNumbers c₀ (tryEncoding vt parse less zero marshal toU64) := by
  intro e src d he hne hvt
  obtain ⟨ns, hmap, heq⟩ := tryEncoding_cases hvt
  rw [heq, ValuesEncoder.values_pushAll, he, nil_append]
  exact h d hne hmap fun n hn => exists_parsed hmap hn

theorem storesNumbers_int (c₀ : Float64Codec) : StoresNumbers c₀ tryIntEncoding := by
  apply storesNumbers_tryEncoding
  intro src ns d hne hmap hparsed
  have hread : ∀ n ∈ ns, unmarshalInt64 (marshalInt64 n) = n ∧ -2 ^ 63 ≤ n ∧ n < 2 ^ 63 := by
    intro n hn
    obtain ⟨v, hv⟩ := hparsed n hn
    obtain ⟨hlo, hhi⟩ := tryParseInt64Bytes_range hv
    exact ⟨unmarshalInt64_self hlo hhi, hlo, hhi⟩
  refine ⟨_, encodesNumbers asU64 id 0 rfl hne hmap (fun s => Option.map_id.symm ▸ rfl) ?_
    (fun n hn => (hread n hn).1) (fun _ _ => rfl)
    (fun n hn => asI64_asU64 (hread n hn).2.1 (hread n hn).2.2) (fun n _ => asU64_lt n)⟩
  intro n hn
  rw [decodeValue, checkLen_eq_ok (length_marshalInt64 n)]
  exact ⟨_, rfl⟩

theorem storesNumbers_ipv4 (c₀ : Float64Codec) : StoresNumbers c₀ tryIpv4Encoding := by
  apply storesNumbers_tryEncoding
  intro src ns d hne hmap hparsed
  have hread : ∀ n ∈ ns, (unmarshalUint32 (marshalUint32 n) : Int) = n := by
    intro n hn
    obtain ⟨v, hv⟩ := hparsed n hn
    rw [unmarshalUint32_self (tryParseIpv4Bytes_lt hv)]
  refine ⟨_, encodesNumbers id Int.ofNat 0 rfl hne hmap (fun _ => rfl) ?_ hread ?_ (fun _ _ => rfl) ?_⟩
  · intro n hn
    rw [decodeValue, checkLen_eq_ok (length_marshalUint32 n)]
    exact ⟨_, rfl⟩
  · intro a b
    exact decide_eq_decide.2 Nat.cast_lt.symm
  · intro n hn
    obtain ⟨v, hv⟩ := hparsed n hn
    exact (tryParseIpv4Bytes_lt hv).trans (by norm_num)

theorem storesNumbers_timestamp (c₀ : Float64Codec) : StoresNumbers c₀ tryTimestampIso8601Encoding := by
  apply storesNumbers_tryEncoding
  intro src ns d hne hmap hparsed
  have hread : ∀ n ∈ ns, asI64 (asU64 n) = n := by
    intro n hn
    obtain ⟨v, hv⟩ := hparsed n hn
    obtain ⟨⟨hlo, hhi⟩, -⟩ := tryParseTimestampIso8601Bytes_range hv
    exact asI64_asU64 (by omega) (by omega)
  refine ⟨_, encodesNumbers asU64 id 0 rfl hne hmap (fun s => Option.map_id.symm ▸ rfl) ?_ ?_ (fun _ _ => rfl) hread
    (fun n _ => asU64_lt n)⟩
  · intro n hn
    rw [decodeValue, checkLen_eq_ok (length_marshalUint64 _)]
    exact ⟨_, rfl⟩
  · intro n hn
    rw [number, unmarshalUint64_self (asU64_lt n), hread n hn, id]

theorem storesNumbers_uint (c₀ : Float64Codec) : StoresNumbers c₀ tryUintEncoding := by
  intro e src d he hne hvt
  unfold tryUintEncoding at hvt ⊢
  cases hns : src.mapM tryParseUint64Bytes with
  | none =>
    rw [hns] at hvt
    exact absurd rfl hvt
  | some ns =>
    have hmap := option_mapM_eq_some_iff.1 hns
    have hall : ∀ n ∈ ns, n < 2 ^ 64 := by
      intro n hn
      obtain ⟨v, hv⟩ := exists_parsed hmap hn
      exact tryParseUint64Bytes_lt hv
    -- whatever the width is, the numbers that fit it are read back
    have hwidth : ∀ (vt : ValueType) (marshal : Nat → Bytes) (w : Nat), vt.isNumeric = true →
        (∀ bound, headerNumber vt bound = bound) →
        (∀ s, parsedNumber vt s = (tryParseUint64Bytes s).map Int.ofNat) →
        (∀ n < 2 ^ w, number vt (marshal n) = n ∧ ∃ text, decodeValue c₀ vt d (marshal n) = .ok text) →
        (∀ n ∈ ns, n < 2 ^ w) →
        ∃ ns', EncodesNumbers c₀ d src vt (extremum (fun a b => decide (a < b)) 0 ns)
          (extremum (fun a b => decide (b < a)) 0 ns) (ns.map marshal) ns' := by
      intro vt marshal w hnumeric hheader hparse hread hlt
      refine ⟨_, encodesNumbers id Int.ofNat 0 hnumeric hne hmap hparse
        (fun n hn => (hread n (hlt n hn)).2) (fun n hn => (hread n (hlt n hn)).1) ?_ (fun n _ => hheader n) hall⟩
      intro a b
      exact decide_eq_decide.2 Nat.cast_lt.symm
    have hfits : ∀ w, Nat.size (extremum (fun a b => decide (b < a)) 0 ns) ≤ w → ∀ n ∈ ns, n < 2 ^ w := by
      intro w hw n hn
      exact (le_extremum_max hn).trans_lt (Nat.size_le.1 hw)
    simp only
    split_ifs with h8 h16 h32
    all_goals simp only [ValuesEncoder.values_pushAll, he, nil_append]
    · refine hwidth .uint8 (beBytes 1) 8 rfl (fun _ => rfl) (fun _ => rfl) ?_ (hfits 8 h8)
      intro n hn
      have hread := beNat_take_self 1 n (by simpa using hn)
      exact ⟨by rw [number, hread], _, decodeValue_uint8 d hn⟩
    · refine hwidth .uint16 marshalUint16 16 rfl (fun _ => rfl) (fun _ => rfl) ?_ (hfits 16 h16)
      intro n hn
      exact ⟨by rw [number, unmarshalUint16_self hn], _, decodeValue_uint16 d hn⟩
    · refine hwidth .uint32 marshalUint32 32 rfl (fun _ => rfl) (fun _ => rfl) ?_ (hfits 32 h32)
      intro n hn
      exact ⟨by rw [number, unmarshalUint32_self hn], _, decodeValue_uint32 d hn⟩
    · refine hwidth .uint64 marshalUint64 64 rfl (fun _ => rfl) (fun _ => rfl) ?_ hall
      intro n hn
      exact ⟨by rw [number, unmarshalUint64_self hn], _, decodeValue_uint64 d hn⟩

/-! ### Floats -/

/-- A parser of floats that gives the bits of numbers, and a comparison of what it gives as numbers. -/
structure ComparesFloats (c₀ : Float64Codec) : Prop where
  number : ∀ {v f}, c₀.tryParseFloat64ExactBytes v = some f → F64.ofBits f ≠ .nan
  less : ∀ {v f w g}, c₀.tryParseFloat64ExactBytes v = some f → c₀.tryParseFloat64ExactBytes w = some g →
    c₀.less f g = (F64.ofBits f).lt (F64.ofBits g)

theorem stores_float (h₀ : ComparesFloats c₀) : Stores c (tryFloat64Encoding c₀) := by
  intro e src d he hsrc hvt
  obtain ⟨ns, hmap, heq⟩ := tryEncoding_cases hvt
  have hne := parsed_ne_nil hsrc hmap
  have hfits : ∀ n ∈ ns, n < 2 ^ 64 := by
    intro n hn
    obtain ⟨v, hv⟩ := exists_parsed hmap hn
    exact c₀.parse_lt hv
  have hself : ∀ a ∈ ns, (F64.ofBits a).le (F64.ofBits a) = true := by
    intro a ha
    obtain ⟨v, hv⟩ := exists_parsed hmap ha
    exact F64.le_refl (h₀.number hv)
  have hboth : ∀ a b, a ∈ ns → b ∈ ns → (c₀.less a b = true → (F64.ofBits a).le (F64.ofBits b) = true) ∧
      (c₀.less a b = false → (F64.ofBits b).le (F64.ofBits a) = true) := by
    intro a b ha hb
    obtain ⟨v, hv⟩ := exists_parsed hmap ha
    obtain ⟨w, hw⟩ := exists_parsed hmap hb
    rw [h₀.less hv hw]
    exact ⟨F64.le_of_lt, F64.le_of_not_lt (h₀.number hv) (h₀.number hw)⟩
  obtain ⟨hminMem, hmin⟩ := extremum_spec c₀.less (fun a b => (F64.ofBits a).le (F64.ofBits b) = true) hself
    (fun a b d => F64.le_trans) (fun a b ha hb => (hboth a b ha hb).1) (fun a b ha hb => (hboth a b ha hb).2) 0 hne
    fun n hn => hn
  obtain ⟨hmaxMem, hmax⟩ := extremum_spec (fun a b => c₀.less b a)
    (fun a b => (F64.ofBits b).le (F64.ofBits a) = true) hself (fun a b d h h' => F64.le_trans h' h)
    (fun a b ha hb => (hboth b a hb ha).1) (fun a b ha hb => (hboth b a hb ha).2) 0 hne fun n hn => hn
  rw [tryFloat64Encoding, heq, ValuesEncoder.values_pushAll, he, nil_append]
  refine ⟨?_, ?_⟩
  case refine_2 => rw [length_map, ← length_map some, ← hmap, length_map]
  constructor
  case fits => exact ⟨hfits _ hminMem, hfits _ hmaxMem⟩
  case decodes =>
    refine forall_mem_map.2 fun n _ => ?_
    rw [decodeValue, checkLen_eq_ok (length_marshalUint64 n)]
    exact ⟨_, rfl⟩
  case floats =>
    refine fun _ => forall_mem_map.2 fun n hn => ?_
    rw [unmarshalUint64_self (hfits n hn)]
    exact ⟨hmin n hn, hmax n hn⟩
  all_goals simp [ValueType.isNumeric]

/-! ### Columns -/

/-- Values that stand for themselves. -/
theorem storedValues_string (values : List Bytes) : StoredValues c .string d 0 0 values := by
  constructor
  case decodes => exact fun v _ => ⟨v, rfl⟩
  all_goals simp [ValueType.isNumeric]

theorem storedValues_dict {ids : List UInt8}
    (h : ids.map (fun id => d[id.toNat]?) = src.map some) : StoredValues c .dict d 0 0 (ids.map ([·])) := by
  constructor
  case decodes =>
    refine forall_mem_map.2 fun id hid => ?_
    have hmem : d[id.toNat]? ∈ src.map some := h ▸ mem_map_of_mem hid
    obtain ⟨text, -, htext⟩ := mem_map.1 hmem
    obtain ⟨hlt, hval⟩ := List.getElem?_eq_some_iff.1 htext.symm
    exact ⟨text, by simp [decodeValue, hlt, hval]⟩
  case dict => exact fun _ => forall_mem_map.2 fun id _ => rfl
  all_goals simp [ValueType.isNumeric]

/-- The values are left to the first encoding that takes them, or stay as they are. -/
theorem tryEncodings_cases (e : ValuesEncoder) (src : List Bytes)
    (fs : List (ValuesEncoder → List Bytes → ValuesEncoder × ValueType × Nat × Nat)) :
    (∃ e' : ValuesEncoder, e'.values = [] ∧ tryEncodings e src fs = (e'.pushAll src, .string, 0, 0)) ∨
      ∃ f ∈ fs, ∃ e', e'.values = [] ∧ (f e' src).2.1 ≠ .unknown ∧ tryEncodings e src fs = f e' src := by
  induction fs generalizing e with
  | nil => exact .inl ⟨e.reset, e.values_reset, rfl⟩
  | cons f fs ih =>
    rw [tryEncodings]
    by_cases hvt : (f e.reset src).2.1 = .unknown
    · rw [if_neg (not_not.2 hvt)]
      refine (ih _).imp_right ?_
      rintro ⟨g, hg, htaken⟩
      exact ⟨g, mem_cons_of_mem f hg, htaken⟩
    · rw [if_pos hvt]
      exact .inr ⟨f, mem_cons_self, e.reset, e.values_reset, hvt, rfl⟩

/-- Whatever the values of a column are, the encoder leaves stored values. -/
theorem storedValues_encode (h₀ : ComparesFloats c₀) (e : ValuesEncoder) (dict : ValuesDict) (hne : src ≠ []) :
    StoredValues c (encode c₀ e src dict).vt (encode c₀ e src dict).dict.values (encode c₀ e src dict).minValue
        (encode c₀ e src dict).maxValue (encode c₀ e src dict).encoder.values ∧
      (encode c₀ e src dict).encoder.values.length = src.length := by
  rcases dictLoop_nil_cases e.reset src with ⟨-, e', d', ids, hloop, hvals, hids⟩ | ⟨-, hloop⟩
  · have hlen : ids.length = src.length := by
      rw [← length_map (fun id => d'.values[id.toNat]?), hids, length_map]
    simp only [encode, hne, if_false, tryDictEncoding, hloop]
    simpa [ValueType.unknown, hvals, hlen] using storedValues_dict hids
  · simp only [encode, hne, if_false, tryDictEncoding, hloop, ne_eq, not_true_eq_false]
    rcases tryEncodings_cases e.reset src [tryUintEncoding, tryIntEncoding, tryFloat64Encoding c₀, tryIpv4Encoding,
      tryTimestampIso8601Encoding] with ⟨e', he', heq⟩ | ⟨f, hf, e', he', hvt, heq⟩
    · rw [heq, ValuesEncoder.values_pushAll, he', nil_append]
      exact ⟨storedValues_string src, rfl⟩
    · rw [heq]
      simp only [mem_cons, not_mem_nil, or_false] at hf
      rcases hf with rfl | rfl | rfl | rfl | rfl
      · exact (storesNumbers_uint _).stores e' src _ he' hne hvt
      · exact (storesNumbers_int _).stores e' src _ he' hne hvt
      · exact stores_float h₀ e' src _ he' hne hvt
      · exact (storesNumbers_ipv4 _).stores e' src _ he' hne hvt
      · exact (storesNumbers_timestamp _).stores e' src _ he' hne hvt

/-! ### Blocks with one column -/

theorem in_bounds_nil : ∀ r ∈ ([] : List (Nat × Nat)), r.1 ≤ r.2 ∧ r.2 ≤ ([] : Bytes).length := forall_mem_nil _

/-- The header of a column with the given values; the places of its data in the files are left open. -/
def encodedHeader (c₀ : Float64Codec) (name : Bytes) (src : List Bytes) : ColumnHeader :=
  let r := encode c₀ ⟨[], [], in_bounds_nil⟩ src ⟨[]⟩
  ⟨name, r.vt, UInt64.ofNat r.minValue, UInt64.ofNat r.maxValue, r.dict, 0, 0, 0, 0⟩

/-- A block whose only column has the given values. -/
def encodedBlock (c₀ : Float64Codec) (name : Bytes) (src : List Bytes) : BlockSearch BlockFiles where
  hiddenFieldsFilter := ⟨⟨[], []⟩, ⟨[], []⟩⟩
  columnsHeader := .ok ⟨[encodedHeader c₀ name src], []⟩
  cshCache := none
  caches :=
    { partPath := "part"
      constColumnValue := fun _ => []
      columnHeader := fun other => if other = name then some (encodedHeader c₀ name src) else none
      values := fun _ => (encode c₀ ⟨[], [], in_bounds_nil⟩ src ⟨[]⟩).encoder.values }

theorem getConstColumnValue_encodedBlock (c₀ : Float64Codec) (name other : Bytes) (src : List Bytes) :
    (encodedBlock c₀ name src).getConstColumnValue other = [] := by
  unfold BlockSearch.getConstColumnValue
  dsimp only
  split <;> rfl

theorem getColumnHeader_encodedBlock (c₀ : Float64Codec) {name : Bytes} (hname : getCanonicalFieldName name = name)
    (src : List Bytes) :
    (encodedBlock c₀ name src).getColumnHeader name = some (encodedHeader c₀ name src) := by
  unfold BlockSearch.getColumnHeader
  rw [hname]
  exact if_pos rfl

/-- The column of such a block is a stored one. -/
theorem stored_encodedBlock {c₀ : Float64Codec} (h₀ : ComparesFloats c₀) (name : Bytes)
    (hne : src ≠ []) :
    Stored c (encodedBlock c₀ name src) (encodedHeader c₀ name src) src.length := by
  obtain ⟨hvalues, hlen⟩ := storedValues_encode (c := c) h₀ ⟨[], [], by simp⟩ ⟨[]⟩ hne
  have hmin : (encodedHeader c₀ name src).minValue.toNat = (encode c₀ ⟨[], [], by simp⟩ src ⟨[]⟩).minValue :=
    UInt64.toNat_ofNat_of_lt hvalues.fits.1
  have hmax : (encodedHeader c₀ name src).maxValue.toNat = (encode c₀ ⟨[], [], by simp⟩ src ⟨[]⟩).maxValue :=
    UInt64.toNat_ofNat_of_lt hvalues.fits.2
  refine ⟨?_, hlen⟩
  rw [hmin, hmax]
  exact hvalues

theorem comparesFloats_noFloats : ComparesFloats noFloats where
  number := by simp [noFloats]
  less := by simp [noFloats]

end EsLogs.ColumnValues
