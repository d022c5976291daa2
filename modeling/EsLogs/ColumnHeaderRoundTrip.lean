import EsLogs.HeaderRoundTrip

/-!
A column header is read back. It is written without its name, and without the place of a bloom filter
when the column is a dictionary; the rest of it is restored when its smallest and largest values fit
the type.
-/

namespace EsLogs

open Encoding ColumnValues Unmarshal List

/-! ### Smallest and largest values -/

/-- The format restores the numbers below the bound. -/
structure MinMaxFormat.Lossless (f : MinMaxFormat) (bound : Nat) : Prop where
  length_eq : ∀ n, (f.marshal n).length = f.width
  restores : ∀ n < bound, ∀ tail, f.unmarshal (f.marshal n ++ tail) = n

theorem uint8MinMax_lossless : uint8MinMax.Lossless (2 ^ 8) :=
  ⟨length_beBytes 1, fun n hn => beNat_take_append 1 n hn⟩

theorem uint16MinMax_lossless : uint16MinMax.Lossless (2 ^ 16) :=
  ⟨length_marshalUint16, fun n hn => beNat_take_append 2 n hn⟩

theorem uint32MinMax_lossless : uint32MinMax.Lossless (2 ^ 32) :=
  ⟨length_marshalUint32, fun _ hn => unmarshalUint32_marshal hn⟩

theorem uint64MinMax_lossless : uint64MinMax.Lossless (2 ^ 64) :=
  ⟨length_marshalUint64, fun _ hn => unmarshalUint64_marshal hn⟩

theorem float64MinMax_lossless : float64MinMax.Lossless (2 ^ 64) :=
  ⟨length_marshalUint64, fun _ hn => unmarshalUint64_marshal hn⟩

theorem ipv4MinMax_lossless : ipv4MinMax.Lossless (2 ^ 32) :=
  ⟨length_marshalUint32, fun _ hn => unmarshalUint32_marshal hn⟩

theorem timestampIso8601MinMax_lossless : timestampIso8601MinMax.Lossless (2 ^ 64) :=
  ⟨length_marshalUint64, fun _ hn => unmarshalUint64_marshal hn⟩

theorem asI64_range {n : Nat} (h : n < 2 ^ 64) : InI64 (asI64 n) := by
  unfold InI64 asI64
  split_ifs <;> omega

theorem asU64_asI64 {n : Nat} (h : n < 2 ^ 64) : asU64 (asI64 n) = n := by
  unfold asU64 asI64
  split_ifs <;> omega

theorem int64MinMax_lossless : int64MinMax.Lossless (2 ^ 64) := by
  refine ⟨fun n => length_marshalInt64 _, fun n hn tail => ?_⟩
  show asU64 (unmarshalInt64 (marshalInt64 (asI64 n) ++ tail)) = n
  rw [unmarshalInt64_marshal (asI64_range hn).1 (asI64_range hn).2, asU64_asI64 hn]

/-! ### One column header -/

namespace ColumnHeader

/-- What is read back of a column header. -/
def stored (ch : ColumnHeader) : ColumnHeader :=
  if ch.valueType = .dict then
    { ch with name := [], bloomFilterOffset := 0, bloomFilterSize := 0 }
  else { ch with name := [] }

/-- The numbers that the smallest and the largest value of a type can be. -/
def valueRange : ValueType → Nat
  | .string | .dict => 1
  | .uint8 => 2 ^ 8
  | .uint16 => 2 ^ 16
  | .uint32 | .ipv4 => 2 ^ 32
  | .uint64 | .int64 | .float64 | .timestampIso8601 => 2 ^ 64
  | .other _ => 0

/-- A column header that the writer accepts and that the file format can hold. -/
structure Canonical (ch : ColumnHeader) : Prop where
  ordered : ch.checkMinMax = .ok ()
  min_lt : ch.minValue.toNat < valueRange ch.valueType
  max_lt : ch.maxValue.toNat < valueRange ch.valueType
  dict_len : ch.valuesDict.values.length ≤ maxDictLen
  dict_size : (ch.valuesDict.values.map List.length).sum ≤ maxDictSizeBytes
  no_dict : ch.valueType ≠ .dict → ch.valuesDict = ⟨[]⟩
  values_le : ch.valuesSize.toNat ≤ maxValuesBlockSize
  bloom_le : ch.bloomFilterSize.toNat ≤ maxBloomFilterBlockSize

def encoding (ch : ColumnHeader) : Bytes :=
  match ch.marshal with
  | .ok data => data
  | .error _ => []

theorem reads_values (ch₀ ch : ColumnHeader) (h : ch.valuesSize.toNat ≤ maxValuesBlockSize) :
    Reads ch₀.unmarshalValues
      { ch₀ with valuesOffset := ch.valuesOffset, valuesSize := ch.valuesSize } ch.marshalValues :=
  (reads_u64 ch.valuesOffset _).bind
    ((reads_u64 ch.valuesSize _).finish ((reads_ensure h _).skip (reads_pure _)))

theorem reads_bloomFilters (ch₀ ch : ColumnHeader)
    (h : ch.bloomFilterSize.toNat ≤ maxBloomFilterBlockSize) :
    Reads ch₀.unmarshalBloomFilters
      { ch₀ with bloomFilterOffset := ch.bloomFilterOffset, bloomFilterSize := ch.bloomFilterSize }
      ch.marshalBloomFilters :=
  (reads_u64 ch.bloomFilterOffset _).bind
    ((reads_u64 ch.bloomFilterSize _).finish ((reads_ensure h _).skip (reads_pure _)))

variable {ch : ColumnHeader} {partFormatVersion : Nat} {f : MinMaxFormat}

theorem reads_valuesAndBloomFilters (ch₀ : ColumnHeader) (h : ch.Canonical)
    (what : String) :
    Reads (ch₀.unmarshalValuesAndBloomFilters what)
      { ch₀ with
        valuesOffset := ch.valuesOffset, valuesSize := ch.valuesSize
        bloomFilterOffset := ch.bloomFilterOffset, bloomFilterSize := ch.bloomFilterSize }
      ch.marshalValuesAndBloomFilters :=
  (((reads_values ch₀ ch h.values_le).mapErr _).bind
    ((reads_bloomFilters _ ch h.bloom_le).mapErr _)).mapErr _

theorem reads_minMax {bound : Nat} (hf : f.Lossless bound) (ch₀ : ColumnHeader)
    (h : ch.Canonical) (hmin : ch.minValue.toNat < bound)
    (hmax : ch.maxValue.toNat < bound) :
    Reads (ch₀.unmarshalMinMax f)
      { ch₀ with
        minValue := ch.minValue, maxValue := ch.maxValue
        valuesOffset := ch.valuesOffset, valuesSize := ch.valuesSize
        bloomFilterOffset := ch.bloomFilterOffset, bloomFilterSize := ch.bloomFilterSize }
      (ch.marshalMinMax f) := by
  have hlen : (f.marshal ch.minValue.toNat ++ f.marshal ch.maxValue.toNat).length =
      f.width + f.width := by
    rw [length_append, hf.length_eq, hf.length_eq]
  refine (reads_take hlen _).bind ?_
  have hlow := hf.restores _ hmin (f.marshal ch.maxValue.toNat)
  have hhigh := hf.restores _ hmax []
  rw [append_nil] at hhigh
  rw [hlow, drop_left' (hf.length_eq _), hhigh, UInt64.ofNat_toNat, UInt64.ofNat_toNat]
  exact reads_valuesAndBloomFilters _ h _

theorem reads_valuesDict {d : ValuesDict} (hlen : d.values.length ≤ maxDictLen)
    (hsize : (d.values.map List.length).sum ≤ maxDictSizeBytes) :
    Reads unmarshalValuesDict d (UInt8.ofNat d.values.length :: d.values.flatMap marshalBytes) := by
  have hbyte : (UInt8.ofNat d.values.length).toNat = d.values.length := by
    rw [UInt8.toNat_ofNat']
    exact Nat.mod_eq_of_lt (lt_of_le_of_lt hlen (by decide))
  refine Reads.byte ?_
  show Reads (Unmarshal.times _ 0 (UInt8.ofNat d.values.length).toNat >>= _) _ _
  rw [hbyte]
  refine Reads.return_eq (Reads.times (fun i v hv => reads_bytes ?_ _) 0) rfl
  have hle : v.length ≤ (d.values.map List.length).sum :=
    single_le_sum (fun _ _ => Nat.zero_le _) _ (mem_map_of_mem hv)
  exact (hle.trans hsize).trans_lt (by decide)

/-- The value type comes first. -/
theorem reads_typed {vt : ValueType} (hvt : ∀ code, vt ≠ .other code)
    {data : Bytes} (h : Reads ({ empty with valueType := vt } : ColumnHeader).unmarshalByType ch data)
    (hv : partFormatVersion ≥ 1) :
    Reads (unmarshalInplace partFormatVersion) ch (valueTypeCode vt :: data) := by
  have hcode : valueTypeOfCode (valueTypeCode vt) = vt := by
    cases vt with
    | other code => exact absurd rfl (hvt code)
    | _ => rfl
  rw [unmarshalInplace, if_neg (by omega)]
  refine (reads_pure []).skip ?_
  refine Reads.byte ?_
  show Reads ({ empty with name := [], valueType := valueTypeOfCode (valueTypeCode vt) } :
    ColumnHeader).unmarshalByType _ _
  rw [hcode]
  exact h

/-- The bytes of the header are read back to what is stored of it. -/
structure Restored (partFormatVersion : Nat) (ch : ColumnHeader) : Prop where
  marshal_eq : ch.marshal = .ok ch.encoding
  reads : Reads (unmarshalInplace partFormatVersion) ch.stored ch.encoding
  length_le : ch.encoding.length ≤ 400

theorem Restored.of_fields (vt : ValueType) (data : Bytes)
    (hv : partFormatVersion ≥ 1) (hvt : ∀ code, vt ≠ .other code)
    (hmarshal : ch.marshal = .ok (valueTypeCode vt :: data))
    (hread : Reads ({ empty with valueType := vt } : ColumnHeader).unmarshalByType ch.stored data)
    (hlen : data.length ≤ 399) : Restored partFormatVersion ch := by
  have henc : ch.encoding = valueTypeCode vt :: data := by rw [encoding, hmarshal]
  refine ⟨hmarshal.trans (congrArg _ henc.symm), ?_, ?_⟩
  · rw [henc]
    exact reads_typed hvt hread hv
  · rw [henc, length_cons]
    omega

theorem length_marshalValues (ch : ColumnHeader) : ch.marshalValues.length ≤ 20 := by
  have h1 := length_marshalVarUint64 ch.valuesOffset.toNat_lt
  have h2 := length_marshalVarUint64 ch.valuesSize.toNat_lt
  rw [marshalValues, length_append]
  omega

theorem length_marshalValuesAndBloomFilters (ch : ColumnHeader) :
    ch.marshalValuesAndBloomFilters.length ≤ 40 := by
  have h1 := ch.length_marshalValues
  have h2 := length_marshalVarUint64 ch.bloomFilterOffset.toNat_lt
  have h3 := length_marshalVarUint64 ch.bloomFilterSize.toNat_lt
  rw [marshalValuesAndBloomFilters, marshalBloomFilters, length_append, length_append]
  omega

theorem eq_zero_of_lt_one {n : UInt64} (hn : n.toNat < 1) : n = 0 := by
  rw [← UInt64.toNat_inj]
  exact Nat.lt_one_iff.1 hn

theorem Canonical.restored_string (h : ch.Canonical)
    (hvt : ch.valueType = .string) (hv : partFormatVersion ≥ 1) :
    Restored partFormatVersion ch := by
  have hstored : ch.stored = ({ empty with
      valueType := .string, valuesOffset := ch.valuesOffset, valuesSize := ch.valuesSize
      bloomFilterOffset := ch.bloomFilterOffset, bloomFilterSize := ch.bloomFilterSize } :
        ColumnHeader) := by
    have hmin := h.min_lt
    have hmax := h.max_lt
    rw [hvt] at hmin hmax
    rw [stored, if_neg (by simp [hvt]), h.no_dict (by simp [hvt]), hvt, eq_zero_of_lt_one hmin,
      eq_zero_of_lt_one hmax]
    rfl
  refine Restored.of_fields .string ch.marshalValuesAndBloomFilters hv (by simp)
    ?_ ?_ (ch.length_marshalValuesAndBloomFilters.trans (by decide))
  · rw [marshal, h.ordered, except_ok_bind, hvt]
    rfl
  · rw [hstored]
    exact reads_valuesAndBloomFilters _ h _

theorem length_flatMap_marshalBytes {l : List Bytes} (h : ∀ v ∈ l, v.length < 2 ^ 64) :
    (l.flatMap marshalBytes).length ≤ 10 * l.length + (l.map List.length).sum := by
  induction l with
  | nil => exact le_rfl
  | cons v l ih =>
    have hv := length_marshalVarUint64 (h v mem_cons_self)
    have hl := ih fun w hw => h w (mem_cons_of_mem _ hw)
    rw [flatMap_cons, length_append, marshalBytes, length_append, map_cons,
      sum_cons, length_cons]
    omega

theorem Canonical.restored_dict (h : ch.Canonical) (hvt : ch.valueType = .dict)
    (hv : partFormatVersion ≥ 1) : Restored partFormatVersion ch := by
  have hstored : ch.stored = ({ empty with
      valueType := .dict, valuesDict := ch.valuesDict
      valuesOffset := ch.valuesOffset, valuesSize := ch.valuesSize } : ColumnHeader) := by
    have hmin := h.min_lt
    have hmax := h.max_lt
    rw [hvt] at hmin hmax
    rw [stored, if_pos hvt, hvt, eq_zero_of_lt_one hmin, eq_zero_of_lt_one hmax]
    rfl
  refine Restored.of_fields .dict
    (UInt8.ofNat ch.valuesDict.values.length :: ch.valuesDict.values.flatMap marshalBytes ++
      ch.marshalValues) hv (by simp) ?_ ?_ ?_
  · rw [marshal, h.ordered, except_ok_bind, hvt]
    show ((marshalValuesDict ch.valuesDict).map _ >>= _) = _
    rw [marshalValuesDict, if_neg (not_lt.2 h.dict_len)]
    rfl
  · rw [hstored]
    exact ((reads_valuesDict h.dict_len h.dict_size).mapErr _).bind
      ((reads_values _ ch h.values_le).mapErr _)
  · have hvalues := length_flatMap_marshalBytes (l := ch.valuesDict.values) fun v hm => by
      have hle : v.length ≤ (ch.valuesDict.values.map List.length).sum :=
        single_le_sum (fun _ _ => Nat.zero_le _) _ (mem_map_of_mem hm)
      exact (hle.trans h.dict_size).trans_lt (by decide)
    have hplaces := ch.length_marshalValues
    have hlen := h.dict_len
    have hsize := h.dict_size
    rw [show maxDictLen = 8 from rfl] at hlen
    rw [show maxDictSizeBytes = 256 from rfl] at hsize
    simp only [length_append, length_cons]
    omega

/-- The format of the smallest and the largest value, for the types that have one. -/
def formatOf : ValueType → Option MinMaxFormat
  | .string | .dict | .other _ => none
  | .uint8 => some uint8MinMax
  | .uint16 => some uint16MinMax
  | .uint32 => some uint32MinMax
  | .uint64 => some uint64MinMax
  | .int64 => some int64MinMax
  | .float64 => some float64MinMax
  | .ipv4 => some ipv4MinMax
  | .timestampIso8601 => some timestampIso8601MinMax

/-- Both directions take the branch of the type's format, which holds the numbers of the type. -/
theorem formatOf_spec {vt : ValueType} (h : formatOf vt = some f) :
    f.Lossless (valueRange vt) ∧ f.width ≤ 8 ∧ vt ≠ .dict ∧ (∀ code, vt ≠ .other code) ∧
      (∀ ch : ColumnHeader, ch.valueType = vt → ch.checkMinMax = .ok () →
        ch.marshal = .ok (valueTypeCode vt :: ch.marshalMinMax f)) ∧
      ∀ ch₀ : ColumnHeader, ch₀.valueType = vt → ch₀.unmarshalByType = ch₀.unmarshalMinMax f := by
  have hmarshal : ∀ ch : ColumnHeader, ch.valueType = vt → ch.checkMinMax = .ok () →
      ch.marshal = .ok (valueTypeCode vt :: ch.marshalMinMax f) := by
    intro ch hvt hordered
    rw [marshal, hordered, except_ok_bind, hvt]
    cases vt <;> cases h <;> rfl
  have hread : ∀ ch₀ : ColumnHeader, ch₀.valueType = vt →
      ch₀.unmarshalByType = ch₀.unmarshalMinMax f := by
    intro ch₀ hvt
    rw [unmarshalByType, hvt]
    cases vt <;> cases h <;> rfl
  refine ⟨?_, ?_, ?_, ?_, hmarshal, hread⟩
  · cases vt <;> cases h
    · exact uint8MinMax_lossless
    · exact uint16MinMax_lossless
    · exact uint32MinMax_lossless
    · exact uint64MinMax_lossless
    · exact int64MinMax_lossless
    · exact float64MinMax_lossless
    · exact ipv4MinMax_lossless
    · exact timestampIso8601MinMax_lossless
  · cases vt <;> cases h <;> decide
  · intro hd
    rw [hd] at h
    cases h
  · intro code hc
    rw [hc] at h
    cases h

theorem Canonical.restored_minMax (h : ch.Canonical)
    (hformat : formatOf ch.valueType = some f)
    (hv : partFormatVersion ≥ 1) : Restored partFormatVersion ch := by
  obtain ⟨hf, hwidth, hdict, hother, hmarshal, hread⟩ := formatOf_spec hformat
  have hstored : ch.stored = ({ empty with
      valueType := ch.valueType, minValue := ch.minValue, maxValue := ch.maxValue
      valuesOffset := ch.valuesOffset, valuesSize := ch.valuesSize
      bloomFilterOffset := ch.bloomFilterOffset, bloomFilterSize := ch.bloomFilterSize } :
        ColumnHeader) := by
    rw [stored, if_neg hdict, h.no_dict hdict]
    rfl
  refine Restored.of_fields _ _ hv hother (hmarshal ch rfl h.ordered) ?_ ?_
  · rw [hstored, hread ({ empty with valueType := ch.valueType } : ColumnHeader) rfl]
    exact reads_minMax hf _ h h.min_lt h.max_lt
  · have hplaces := ch.length_marshalValuesAndBloomFilters
    rw [marshalMinMax, length_append, length_append, hf.length_eq, hf.length_eq]
    omega

/-- A canonical column header is written, and read back but for its name and, with a dictionary, the
place of the bloom filter. -/
theorem Canonical.restored (h : ch.Canonical)
    (hv : partFormatVersion ≥ 1) : Restored partFormatVersion ch := by
  cases hformat : formatOf ch.valueType with
  | some f => exact h.restored_minMax hformat hv
  | none =>
    cases hvt : ch.valueType with
    | string => exact h.restored_string hvt hv
    | dict => exact h.restored_dict hvt hv
    | other code =>
      have hmin := h.min_lt
      rw [hvt] at hmin
      exact absurd hmin (Nat.not_lt_zero _)
    | _ =>
      rw [hvt] at hformat
      cases hformat

end ColumnHeader

end EsLogs
