import EsLogs.ColumnHeaderRoundTrip
import EsLogs.EncodedColumn

/-!
The bounds in the header of a column of numbers are the least and the greatest of the encoded numbers, and the file
format has room for them.
-/

namespace EsLogs.ColumnValues

open Encoding ColumnHeader Unmarshal List

variable {vt : ValueType} {ch : ColumnHeader}

/-- A column that is left as numbers was taken by an encoding of numbers, and has no dictionary. -/
theorem encodesNumbers_encode (c₀ : Float64Codec) (e : ValuesEncoder) (dict : ValuesDict) {src : List Bytes}
    (hnumeric : (encode c₀ e src dict).vt.isNumeric = true) :
    (encode c₀ e src dict).dict = ⟨[]⟩ ∧ ∃ ns, EncodesNumbers c₀ [] src (encode c₀ e src dict).vt
      (encode c₀ e src dict).minValue (encode c₀ e src dict).maxValue (encode c₀ e src dict).encoder.values ns := by
  by_cases hne : src = []
  · rw [encode, if_pos hne] at hnumeric
    cases hnumeric
  cases hloop : dictLoop e.reset ⟨[]⟩ src with
  | some r =>
    simp only [encode, hne, if_false, tryDictEncoding, hloop] at hnumeric
    cases hnumeric
  | none =>
    simp only [encode, hne, if_false, tryDictEncoding, hloop, ne_eq, not_true_eq_false] at hnumeric ⊢
    refine ⟨trivial, ?_⟩
    rcases tryEncodings_cases e.reset src [tryUintEncoding, tryIntEncoding, tryFloat64Encoding c₀, tryIpv4Encoding,
      tryTimestampIso8601Encoding] with ⟨e', -, heq⟩ | ⟨f, hf, e', he', hvt, heq⟩
    · rw [heq] at hnumeric
      cases hnumeric
    rw [heq] at hnumeric ⊢
    simp only [mem_cons, not_mem_nil, or_false] at hf
    rcases hf with rfl | rfl | rfl | rfl | rfl
    · exact storesNumbers_uint c₀ e' src [] he' hne hvt
    · exact storesNumbers_int c₀ e' src [] he' hne hvt
    · obtain ⟨ns, -, htaken⟩ := tryEncoding_cases hvt
      rw [tryFloat64Encoding, htaken] at hnumeric
      cases hnumeric
    · exact storesNumbers_ipv4 c₀ e' src [] he' hne hvt
    · exact storesNumbers_timestamp c₀ e' src [] he' hne hvt

/-- A bound that stands for an encoded number is not wider than the number. -/
theorem bound_lt_valueRange {v : Bytes} {bound : Nat} (hnumeric : vt.isNumeric = true) (hfits : bound < 2 ^ 64)
    (h : number vt v = headerNumber vt bound) : bound < valueRange vt := by
  cases vt with
  | uint8 => exact Int.ofNat.inj h ▸ beNat_take_lt 1 v
  | uint16 => exact Int.ofNat.inj h ▸ beNat_take_lt 2 v
  | uint32 | ipv4 => exact Int.ofNat.inj h ▸ beNat_take_lt 4 v
  | uint64 | int64 | timestampIso8601 => exact hfits
  | string | dict | float64 | other code => cases hnumeric

/-- The check of the writer is about the order of the numbers. -/
theorem checkMinMax_of_le (hnumeric : ch.valueType.isNumeric = true)
    (h : headerNumber ch.valueType ch.minValue.toNat ≤ headerNumber ch.valueType ch.maxValue.toNat) :
    ch.checkMinMax = .ok () := by
  unfold checkMinMax
  cases hvt : ch.valueType <;> rw [hvt] at h hnumeric
  case int64 => exact if_neg (not_lt.2 h)
  case timestampIso8601 => exact if_neg (not_lt.2 h)
  case float64 => cases hnumeric
  all_goals exact if_neg (not_lt.2 (Int.ofNat_le.1 h))

/-- The header of a column of numbers has the least and the greatest of them, in the order of their type, and still
has them when it is read back. -/
theorem numeric_bounds_tight (c₀ : Float64Codec) (e : ValuesEncoder) (dict : ValuesDict) (src : List Bytes)
    (hnumeric : (encode c₀ e src dict).vt.isNumeric = true) :
    let r := encode c₀ e src dict
    ∃ ns : List Int, src.map (parsedNumber r.vt) = ns.map some ∧ r.encoder.values.map (number r.vt) = ns ∧
      (∀ v ∈ r.encoder.values, decodeValue c₀ r.vt r.dict.values v = .ok (numberText r.vt (number r.vt v))) ∧
      IsLeast {n | n ∈ ns} (headerNumber r.vt r.minValue) ∧ IsGreatest {n | n ∈ ns} (headerNumber r.vt r.maxValue) ∧
      ∀ (ch : ColumnHeader) (partFormatVersion : Nat), ch.valueType = r.vt → ch.minValue.toNat = r.minValue →
        ch.maxValue.toNat = r.maxValue → ch.valuesDict = r.dict → ch.valuesSize.toNat ≤ maxValuesBlockSize →
        ch.bloomFilterSize.toNat ≤ maxBloomFilterBlockSize → 1 ≤ partFormatVersion →
        ∃ data ch', ch.marshal = .ok data ∧ Reads (unmarshalInplace partFormatVersion) ch' data ∧
          ch'.minValue.toNat = r.minValue ∧ ch'.maxValue.toNat = r.maxValue := by
  obtain ⟨hdict, ns, h⟩ := encodesNumbers_encode c₀ e dict hnumeric
  refine ⟨ns, h.parsed, h.numbers, ?_, h.least, h.greatest, ?_⟩
  · intro v hv
    obtain ⟨text, htext⟩ := h.decodes v hv
    rw [hdict, htext, ← decodeValue_eq_numberText hnumeric htext]
  intro ch partFormatVersion hvt hmin hmax hd hvalues hbloom hversion
  have hleast := h.least.1
  have hgreatest := h.greatest.1
  rw [← h.numbers] at hleast hgreatest
  obtain ⟨v, -, hv⟩ := mem_map.1 hleast
  obtain ⟨w, -, hw⟩ := mem_map.1 hgreatest
  have hcanonical : ch.Canonical := by
    constructor
    case ordered =>
      apply checkMinMax_of_le (hvt ▸ hnumeric)
      rw [hvt, hmin, hmax]
      exact h.least.2 h.greatest.1
    case min_lt =>
      rw [hvt, hmin]
      exact bound_lt_valueRange hnumeric h.fits.1 hv
    case max_lt =>
      rw [hvt, hmax]
      exact bound_lt_valueRange hnumeric h.fits.2 hw
    case no_dict => exact fun _ => hd.trans hdict
    case dict_len => simp [hd, hdict]
    case dict_size => simp [hd, hdict]
    case values_le => exact hvalues
    case bloom_le => exact hbloom
  have hrestored := hcanonical.restored hversion
  refine ⟨_, _, hrestored.marshal_eq, hrestored.reads, ?_⟩
  rw [stored]
  split_ifs <;> exact ⟨hmin, hmax⟩

theorem numeric_bounds_tight_digits :
    let r := encode noFloats ⟨[], [], by simp⟩ ((range 9).map fun i => [48 + UInt8.ofNat i]) ⟨[]⟩
    r.vt = .uint8 ∧ ∃ ns : List Int, r.encoder.values.map (number r.vt) = ns ∧ IsLeast {n | n ∈ ns} 0 ∧
      IsGreatest {n | n ∈ ns} 8 := by
  obtain ⟨ns, -, hns, -, hleast, hgreatest, -⟩ := numeric_bounds_tight noFloats ⟨[], [], by simp⟩ ⟨[]⟩
    ((range 9).map fun i => [48 + UInt8.ofNat i]) (by decide)
  exact ⟨by decide, ns, hns, hleast, hgreatest⟩

end EsLogs.ColumnValues
