import EsLogs.BlockHeader
import EsLogs.StreamFilter
import EsLogs.Block

/-!
Rows on the wire (`InsertRow` of `log_rows.rs`) and the canonical form of the stream tags in them
(`stream_tags.rs`). The tags are sorted before they are written, so their order does not matter, and a row
is read back into whatever the destination held before.
-/

namespace EsLogs

open Encoding Unmarshal List

variable {tags : List Field}

/-! ### Stream tags -/

/-- `Field::less`. -/
def Field.less (a b : Field) : Bool := if a.name ≠ b.name then a.name < b.name else a.value < b.value

namespace StreamTags

/-- What `StreamTags::add` appends to the tags. -/
def added (tag : Field) : List Field :=
  if tag.value = [] then [] else [⟨getCanonicalColumnName tag.name, tag.value⟩]

def add (tags : List Field) (tag : Field) : List Field := tags ++ added tag

/-- The tags after they have been added one after the other. -/
def addAll (tags : List Field) : List Field := tags.foldl add []

/-- The order in which `marshal_canonical` leaves the tags. -/
def sort (tags : List Field) : List Field := tags.mergeSort fun a b => !b.less a

def marshalCanonicalInternal (tags : List Field) : Bytes :=
  marshalVarUint64 tags.length ++ tags.flatMap fun tag => marshalBytes tag.name ++ marshalBytes tag.value

def marshalCanonical (tags : List Field) : Bytes := marshalCanonicalInternal (sort tags)

/-- `StreamTags::is_sorted`. -/
def isSortedTags : List Field → Bool
  | a :: b :: tags => !b.less a && isSortedTags (b :: tags)
  | _ => true

/-- `unmarshal_canonical_inplace`, where `text` is the text of bytes in an error. -/
def unmarshalCanonicalInplace (text : Bytes → String) : Unmarshal (List Field) := do
  let n ← readVarUint64 "cannot unmarshal tags len"
  let tags ← Unmarshal.times (fun _ => do
    let name ← readBytes "cannot unmarshal tag name"
    let value ← readBytes "cannot unmarshal tag value"
    return Field.mk name value) 0 n
  Unmarshal.ensure (isSortedTags (addAll tags))
    ("stream tags must be sorted in alphabetical order; got unsorted: " ++
      text (marshalString (addAll tags)))
  return addAll tags

/-- The name and the value of a tag, as tags are compared. -/
def key (tag : Field) : Bytes ×ₗ Bytes := toLex (tag.name, tag.value)

theorem less_eq_decide (a b : Field) : a.less b = decide (key a < key b) := by
  rw [Field.less, ← Bool.coe_iff_coe, decide_eq_true_iff, key, key, Prod.Lex.toLex_lt_toLex]
  split_ifs with h
  · simp [h]
  · simp [not_not.1 h]

theorem pairwise_sort (tags : List Field) : (sort tags).Pairwise fun a b => key a ≤ key b := by
  have hle : ∀ a b : Field, (!b.less a) = decide (key a ≤ key b) := fun a b => by
    rw [less_eq_decide, ← decide_not, decide_eq_decide, not_lt]
  simp only [sort, hle]
  refine (pairwise_mergeSort (fun a b c hab hbc => ?_) (fun a b => ?_) tags).imp of_decide_eq_true
  · exact decide_eq_true ((of_decide_eq_true hab).trans (of_decide_eq_true hbc))
  · simpa using le_total (key a) (key b)

theorem sort_eq_of_perm {tags tags' : List Field} (h : tags ~ tags') : sort tags = sort tags' := by
  refine Perm.eq_of_pairwise (fun a b _ _ hab hba => ?_) (pairwise_sort tags) (pairwise_sort tags')
    ((mergeSort_perm _ _).trans (h.trans (mergeSort_perm _ _).symm))
  have hkey := toLex_inj.1 (le_antisymm hab hba)
  cases a
  cases b
  cases hkey
  rfl

theorem isSortedTags_of_pairwise (h : tags.Pairwise fun a b => key a ≤ key b) : isSortedTags tags = true := by
  induction tags with
  | nil => rfl
  | cons a tags ih =>
    cases tags with
    | nil => rfl
    | cons b tags =>
      have hab := rel_of_pairwise_cons h mem_cons_self
      rw [isSortedTags, less_eq_decide, decide_eq_false (not_lt.2 hab), ih h.of_cons]
      rfl

theorem addAll_eq_flatMap (tags : List Field) : addAll tags = tags.flatMap added :=
  flatMap_eq_foldl.symm

theorem addAll_eq_self (h : ∀ tag ∈ tags, tag.name ≠ [] ∧ tag.value ≠ []) : addAll tags = tags := by
  have hsame : ∀ tag ∈ tags, added tag = [tag] := fun tag htag => by
    rw [added, if_neg (h tag htag).2, getCanonicalColumnName, if_neg (h tag htag).1]
  rw [addAll_eq_flatMap, flatMap_congr hsame]
  exact flatMap_singleton' tags

theorem ne_nil_of_mem_addAll {tag : Field} (h : tag ∈ addAll tags) : tag.name ≠ [] ∧ tag.value ≠ [] := by
  rw [addAll_eq_flatMap] at h
  obtain ⟨tag, -, htag⟩ := mem_flatMap.1 h
  rw [added] at htag
  split_ifs at htag with hvalue
  · cases htag
  · rw [mem_singleton.1 htag, getCanonicalColumnName]
    split_ifs with hname
    · exact ⟨show ascii "_msg" ≠ [] by decide, hvalue⟩
    · exact ⟨hname, hvalue⟩

/-- The order in which tags are added does not matter for the canonical bytes, and these are read back as
the sorted tags. -/
theorem canonical_of_tags {tags tags' : List Field} (hperm : tags ~ tags')
    (hcount : (addAll tags).length < 2 ^ 64)
    (hsize : ∀ tag ∈ addAll tags, tag.name.length < 2 ^ 64 ∧ tag.value.length < 2 ^ 64) :
    marshalCanonical (addAll tags) = marshalCanonical (addAll tags') ∧
      (sort (addAll tags)).Pairwise (fun a b => key a ≤ key b) ∧ sort (addAll tags) ~ addAll tags ∧
      ((∀ tag ∈ tags, tag.name ≠ [] ∧ tag.value ≠ []) → addAll tags = tags) ∧
      ∀ text tail, unmarshalCanonicalInplace text (marshalCanonical (addAll tags) ++ tail) =
        .ok (sort (addAll tags), tail) := by
  have hsort : sort (addAll tags) ~ addAll tags := mergeSort_perm _ _
  refine ⟨?_, pairwise_sort _, hsort, addAll_eq_self, fun text => ?_⟩
  · have hadded : addAll tags ~ addAll tags' := by
      rw [addAll_eq_flatMap, addAll_eq_flatMap]
      exact hperm.flatMap_right _
    rw [marshalCanonical, marshalCanonical, sort_eq_of_perm hadded]
  · have hself := addAll_eq_self fun tag htag => ne_nil_of_mem_addAll (hsort.mem_iff.1 htag)
    refine (reads_varUint64 (hsort.length_eq ▸ hcount) _).bind ?_
    refine (Reads.times (fun i tag htag => ?_) 0).finish ?_
    · have hlen := hsize tag (hsort.mem_iff.1 htag)
      exact (reads_bytes hlen.1 _).bind (reads_bytes hlen.2 _).return
    · rw [hself]
      exact (reads_ensure (isSortedTags_of_pairwise (pairwise_sort _)) _).skip (reads_pure _)

theorem canonical_of_two_tags :
    marshalCanonical (addAll [⟨ascii "job", ascii "api"⟩, ⟨ascii "env", ascii "dev"⟩]) =
      marshalCanonical (addAll [⟨ascii "env", ascii "dev"⟩, ⟨ascii "job", ascii "api"⟩]) :=
  (canonical_of_tags (.swap _ _ _) (by decide) (by decide)).1

end StreamTags

/-! ### Rows on the wire -/

structure InsertRow where
  tenantId : TenantID
  streamTagsCanonical : Bytes
  timestamp : Int64
  fields : List Field
  deriving DecidableEq

def InsertRow.marshal (r : InsertRow) : Bytes :=
  r.tenantId.marshal ++ (marshalBytes r.streamTagsCanonical ++
    (marshalUint64 r.timestamp.toUInt64.toNat ++ (marshalVarUint64 r.fields.length ++
      r.fields.flatMap fun f => f.marshal true)))

/-- `Field::unmarshal_inplace` over a field `f` that is there already. -/
def Field.unmarshalOver (f : Field) (unmarshalFieldName : Bool) : Unmarshal Field := do
  let name ← if unmarshalFieldName then readBytes "cannot unmarshal field name" else pure f.name
  let value ← readBytes "cannot unmarshal field value"
  return ⟨name, value⟩

/-- `slicesutil::set_length`. -/
def setLength (fields : List Field) (n : Nat) : List Field :=
  fields.take n ++ replicate (n - fields.length) ⟨[], []⟩

def unmarshalFieldsOver : Nat → List Field → Unmarshal (List Field)
  | _, [] => pure []
  | i, f :: fields => do
    let f ← (f.unmarshalOver true).mapErr fun err => "cannot unmarshal field #" ++ toString i ++ ": " ++ err
    let fields ← unmarshalFieldsOver (i + 1) fields
    return f :: fields

/-- `InsertRow::unmarshal_inplace` into the row `r`. -/
def InsertRow.unmarshalInplace (r : InsertRow) : Unmarshal InsertRow := do
  let tenantId ← TenantID.unmarshal.mapErr fun err => "cannot unmarshal tenantID: " ++ err
  let streamTagsCanonical ← readBytes "cannot unmarshal streamTagCanonical"
  let timestamp ← Unmarshal.take 8 fun _ => "cannot unmarshal timestamp"
  let fieldsLen ← readVarUint64 "cannot unmarshal the number of fields"
  Unmarshal.ensure (fieldsLen ≤ maxColumnsPerBlock) ("too many fields in the log entry: " ++
    toString fieldsLen ++ "; mustn't exceed " ++ toString maxColumnsPerBlock)
  let fields ← unmarshalFieldsOver 0 (setLength r.fields fieldsLen)
  return ⟨tenantId, streamTagsCanonical, (UInt64.ofNat (unmarshalUint64 timestamp)).toInt64, fields⟩

theorem length_setLength (fields : List Field) (n : Nat) : (setLength fields n).length = n := by
  rw [setLength, length_append, length_take, length_replicate]
  omega

/-- Nothing of the fields that were there before is left. -/
theorem reads_fieldsOver {fields before : List Field} (hlen : before.length = fields.length)
    (hsize : ∀ f ∈ fields, f.name.length < 2 ^ 64 ∧ f.value.length < 2 ^ 64) (i : Nat) :
    Reads (unmarshalFieldsOver i before) fields (fields.flatMap fun f => f.marshal true) := by
  induction fields generalizing before i with
  | nil =>
    rw [eq_nil_of_length_eq_zero hlen]
    exact reads_pure []
  | cons f fields ih =>
    cases before with
    | nil => cases hlen
    | cons g before =>
      obtain ⟨hname, hvalue⟩ := hsize f mem_cons_self
      have hfield : Reads (g.unmarshalOver true) f (f.marshal true) :=
        (reads_bytes hname _).bind (reads_bytes hvalue _).return
      have hrest := ih (Nat.succ.inj hlen) (fun f hf => hsize f (mem_cons_of_mem _ hf)) (i + 1)
      rw [flatMap_cons]
      exact (hfield.mapErr _).bind hrest.return

/-- A row within the limit on fields is read back, whatever the destination held and whatever follows. -/
theorem insert_row_round_trip {r : InsertRow} (hfields : r.fields.length ≤ maxColumnsPerBlock)
    (htags : r.streamTagsCanonical.length < 2 ^ 64)
    (hsize : ∀ f ∈ r.fields, f.name.length < 2 ^ 64 ∧ f.value.length < 2 ^ 64) (dst : InsertRow)
    (tail : Bytes) : dst.unmarshalInplace (r.marshal ++ tail) = .ok (r, tail) := by
  have hcount : r.fields.length < 2 ^ 64 := hfields.trans_lt (by decide)
  have htime := unmarshalUint64_self r.timestamp.toUInt64.toNat_lt
  have hread : Reads dst.unmarshalInplace r r.marshal := by
    refine (r.tenantId.reads_marshal.mapErr _).bind ?_
    refine (reads_bytes htags _).bind ?_
    refine (reads_take (length_marshalUint64 _) _).bind ?_
    refine (reads_varUint64 hcount _).bind ?_
    refine (reads_ensure hfields _).skip ?_
    refine (reads_fieldsOver (length_setLength _ _) hsize 0).return_eq ?_
    rw [htime, UInt64.ofNat_toNat, Int64.toInt64_toUInt64]
  exact hread tail

theorem insert_row_round_trip_one :
    let r : InsertRow := ⟨⟨1, 2⟩, [0], -7, [⟨ascii "_msg", ascii "hello"⟩]⟩
    let dst : InsertRow := ⟨⟨3, 4⟩, [9, 9], 5, [⟨ascii "a", ascii "b"⟩, ⟨ascii "c", []⟩]⟩
    dst.unmarshalInplace (r.marshal ++ [1, 2]) = .ok (r, [1, 2]) :=
  insert_row_round_trip (by decide) (by decide) (by decide) _ _

end EsLogs
