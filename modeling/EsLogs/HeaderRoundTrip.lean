import EsLogs.BlockHeader
import EsLogs.BlockPacking
import EsLogs.ValuesRoundTrip

/-!
Block headers and index block headers are read back as they were written, one after the other, when
they are in the order in which a part holds them.
-/

namespace EsLogs

open Encoding ColumnValues Unmarshal List

variable {partFormatVersion : Nat}

@[simp]
theorem TimestampsHeader.length_marshal (th : TimestampsHeader) : th.marshal.length = 33 := by
  simp [TimestampsHeader.marshal]

/-- What is left behind a number. -/
theorem drop_marshalUint64 (n k : Nat) (tail : Bytes) :
    (marshalUint64 n ++ tail).drop (k + 8) = tail.drop k := by
  rw [Nat.add_comm, ← drop_drop, drop_left' (length_marshalUint64 n)]

theorem TimestampsHeader.reads_marshal {th : TimestampsHeader} (hmin : InI64 th.minTimestamp)
    (hmax : InI64 th.maxTimestamp) : Reads TimestampsHeader.unmarshal th th.marshal := by
  refine (reads_take th.length_marshal _).return_eq ?_
  have hlast : th.marshal.getD 32 0 = th.marshalType := by
    rw [getD_eq_getElem?_getD, ← List.head?_drop, TimestampsHeader.marshal,
      drop_marshalUint64 _ 24, drop_marshalUint64 _ 16, drop_marshalUint64 _ 8,
      drop_marshalUint64 _ 0]
    rfl
  rw [hlast, TimestampsHeader.marshal, drop_marshalUint64 _ 0, drop_marshalUint64 _ 8,
    drop_marshalUint64 _ 0, drop_marshalUint64 _ 16, drop_marshalUint64 _ 8, drop_marshalUint64 _ 0,
    drop_zero, drop_zero, drop_zero, unmarshalUint64_marshal th.blockOffset.toNat_lt,
    unmarshalUint64_marshal th.blockSize.toNat_lt, unmarshalUint64_marshal (asU64_lt _),
    unmarshalUint64_marshal (asU64_lt _), asI64_asU64 hmin.1 hmin.2, asI64_asU64 hmax.1 hmax.2,
    UInt64.ofNat_toNat, UInt64.ofNat_toNat]

/-- A block header as it can stand in an index file. -/
structure BlockHeader.Valid (bh : BlockHeader) : Prop where
  rows_le : bh.rowsCount.toNat ≤ maxRowsPerBlock
  columnsHeaderSize_le : bh.columnsHeaderSize.toNat ≤ maxColumnsHeaderSize
  min_in : InI64 bh.timestampsHeader.minTimestamp
  max_in : InI64 bh.timestampsHeader.maxTimestamp

theorem reads_columnsHeaderIndexRef (hv : partFormatVersion ≥ 1) (offset size : UInt64) :
    Reads (unmarshalColumnsHeaderIndexRef partFormatVersion) (offset, size)
      (marshalVarUint64 offset.toNat ++ marshalVarUint64 size.toNat) := by
  rw [unmarshalColumnsHeaderIndexRef, if_pos hv]
  exact (reads_u64 offset _).bind (reads_u64 size _).return

theorem BlockHeader.Valid.reads_marshal {bh : BlockHeader} (h : bh.Valid) (hv : partFormatVersion ≥ 1) :
    Reads (BlockHeader.unmarshal partFormatVersion) bh bh.marshal := by
  refine (bh.streamId.reads_marshal.mapErr _).bind ?_
  refine (reads_u64 bh.uncompressedSizeBytes _).bind ?_
  refine (reads_u64 bh.rowsCount _).bind ?_
  refine (reads_ensure h.rows_le _).skip ?_
  refine ((TimestampsHeader.reads_marshal h.min_in h.max_in).mapErr _).bind ?_
  rw [← append_assoc]
  refine (reads_columnsHeaderIndexRef hv bh.columnsHeaderIndexOffset
    bh.columnsHeaderIndexSize).bind ?_
  refine (reads_u64 bh.columnsHeaderOffset _).bind ?_
  refine (reads_u64 bh.columnsHeaderSize _).finish ?_
  exact (reads_ensure h.columnsHeaderSize_le _).skip (reads_pure bh)

theorem BlockHeader.length_marshal (bh : BlockHeader) :
    57 ≤ bh.marshal.length ∧ bh.marshal.length ≤ 117 := by
  have h1 := length_marshalVarUint64 bh.uncompressedSizeBytes.toNat_lt
  have h2 := length_marshalVarUint64 bh.rowsCount.toNat_lt
  have h3 := length_marshalVarUint64 bh.columnsHeaderIndexOffset.toNat_lt
  have h4 := length_marshalVarUint64 bh.columnsHeaderIndexSize.toNat_lt
  have h5 := length_marshalVarUint64 bh.columnsHeaderOffset.toNat_lt
  have h6 := length_marshalVarUint64 bh.columnsHeaderSize.toNat_lt
  simp only [BlockHeader.marshal, length_append, StreamID.length_marshal,
    TimestampsHeader.length_marshal]
  omega

/-- Items take at least a byte each. -/
theorem length_flatMap_le {α : Type} {enc : α → Bytes} {l : List α} {c : Nat}
    (h : ∀ a ∈ l, (enc a).length ≤ c) : (l.flatMap enc).length ≤ c * l.length := by
  induction l with
  | nil => exact Nat.zero_le _
  | cons a l ih =>
    have ha := h a mem_cons_self
    have hl := ih fun b hb => h b (mem_cons_of_mem _ hb)
    rw [flatMap_cons, length_append, length_cons, Nat.mul_succ]
    omega

/-- Block headers in the order in which an index file holds them. -/
def BlockHeader.Precedes (a b : BlockHeader) : Prop :=
  a.streamId ≤ b.streamId ∧ (a.streamId = b.streamId →
    a.timestampsHeader.minTimestamp ≤ b.timestampsHeader.minTimestamp)

theorem validateBlockHeaders_eq_ok {bhs : List BlockHeader}
    (h : bhs.Pairwise BlockHeader.Precedes) (i : Nat) : validateBlockHeaders i bhs = .ok () := by
  induction bhs generalizing i with
  | nil => rfl
  | cons prev bhs ih =>
    cases bhs with
    | nil => rfl
    | cons curr bhs =>
      obtain ⟨hsid, hmin⟩ := rel_of_pairwise_cons h mem_cons_self
      have hless : curr.streamId.less prev.streamId = false := by
        rw [StreamID.less_eq_decide]
        exact decide_eq_false (not_lt.2 hsid)
      have htime : ¬(curr.streamId = prev.streamId ∧
          curr.timestampsHeader.minTimestamp < prev.timestampsHeader.minTimestamp) :=
        fun ⟨he, hlt⟩ => absurd (hmin he.symm) (not_le.2 hlt)
      rw [validateBlockHeaders, hless, if_neg Bool.false_ne_true, if_neg htime]
      exact ih h.of_cons (i + 1)

theorem unmarshalBlockHeaders_marshal {bhs : List BlockHeader} (h : ∀ bh ∈ bhs, bh.Valid)
    (hsorted : bhs.Pairwise BlockHeader.Precedes) (hv : partFormatVersion ≥ 1) :
    unmarshalBlockHeaders partFormatVersion (bhs.flatMap BlockHeader.marshal) = .ok bhs := by
  have hne : ∀ bh ∈ bhs, bh.marshal ≠ [] := fun bh _ =>
    ne_nil_of_length_pos (by have := bh.length_marshal; omega)
  rw [unmarshalBlockHeaders, untilEmpty_flatMap (fun _ bh hbh =>
    ((h bh hbh).reads_marshal hv).mapErr _) hne (length_le_length_flatMap hne), except_ok_bind,
    validateBlockHeaders_eq_ok hsorted]
  rfl

/-- The headers of a sorted list within the limits are read back from their concatenation, and the check
of the order passes. -/
theorem block_headers_round_trip {bhs : List BlockHeader}
    (hsorted : bhs.Pairwise BlockHeader.Precedes) (h : ∀ bh ∈ bhs, bh.Valid) {partFormatVersion : Nat}
    (hv : partFormatVersion ≥ 1) :
    unmarshalBlockHeaders partFormatVersion (bhs.flatMap BlockHeader.marshal) = .ok bhs ∧
      validateBlockHeaders 1 bhs = .ok () :=
  ⟨unmarshalBlockHeaders_marshal h hsorted hv, validateBlockHeaders_eq_ok hsorted 1⟩

theorem block_headers_round_trip_two :
    let bh : BlockHeader := ⟨default, 300, 2, ⟨0, 9, -5, 5, 1⟩, 0, 4, 0, 70⟩
    unmarshalBlockHeaders 1 ([bh, bh].flatMap BlockHeader.marshal) = .ok [bh, bh] ∧
      validateBlockHeaders 1 [bh, bh] = .ok () := by
  refine block_headers_round_trip ?_ ?_ le_rfl
  · exact pairwise_pair.2 ⟨le_rfl, fun _ => le_rfl⟩
  · intro bh hbh
    obtain rfl : bh = _ := by simpa using hbh
    exact ⟨by decide, by decide, by decide, by decide⟩

theorem too_many_rows_not_read :
    let bh : BlockHeader := ⟨default, 300, 8388609, ⟨0, 9, -5, 5, 1⟩, 0, 4, 0, 70⟩
    [bh].Pairwise BlockHeader.Precedes ∧
      unmarshalBlockHeaders 1 ([bh].flatMap BlockHeader.marshal) ≠ .ok [bh] :=
  ⟨pairwise_singleton _ _, by decide +kernel⟩

@[simp]
theorem IndexBlockHeader.length_marshal (ih : IndexBlockHeader) : ih.marshal.length = 56 := by
  simp [IndexBlockHeader.marshal]

theorem IndexBlockHeader.reads_marshal {ih : IndexBlockHeader} (hmin : InI64 ih.minTimestamp)
    (hmax : InI64 ih.maxTimestamp) : Reads IndexBlockHeader.unmarshal ih ih.marshal := by
  refine (ih.streamId.reads_marshal.mapErr _).bind ?_
  refine (reads_take (by simp) _).return_eq ?_
  have hend := unmarshalUint64_self ih.indexBlockSize.toNat_lt
  rw [drop_marshalUint64 _ 0, drop_marshalUint64 _ 8, drop_marshalUint64 _ 0,
    drop_marshalUint64 _ 16, drop_marshalUint64 _ 8, drop_marshalUint64 _ 0, drop_zero,
    drop_zero, drop_zero, hend, unmarshalUint64_marshal ih.indexBlockOffset.toNat_lt,
    unmarshalUint64_marshal (asU64_lt _), unmarshalUint64_marshal (asU64_lt _),
    asI64_asU64 hmin.1 hmin.2, asI64_asU64 hmax.1 hmax.2, UInt64.ofNat_toNat, UInt64.ofNat_toNat]

theorem validateIndexBlockHeaders_eq_ok {ihs : List IndexBlockHeader}
    (h : ihs.Pairwise fun a b => a.streamId ≤ b.streamId) :
    validateIndexBlockHeaders ihs = .ok () := by
  induction ihs with
  | nil => rfl
  | cons prev ihs ih =>
    cases ihs with
    | nil => rfl
    | cons curr ihs =>
      have hless : curr.streamId.less prev.streamId = false := by
        rw [StreamID.less_eq_decide]
        exact decide_eq_false (not_lt.2 (rel_of_pairwise_cons h mem_cons_self))
      rw [validateIndexBlockHeaders, hless, if_neg Bool.false_ne_true]
      exact ih h.of_cons

theorem unmarshalIndexBlockHeaders_marshal {ihs : List IndexBlockHeader}
    (h : ∀ ih ∈ ihs, InI64 ih.minTimestamp ∧ InI64 ih.maxTimestamp)
    (hsorted : ihs.Pairwise fun a b => a.streamId ≤ b.streamId) :
    unmarshalIndexBlockHeaders (ihs.flatMap IndexBlockHeader.marshal) = .ok ihs := by
  have hne : ∀ ih ∈ ihs, ih.marshal ≠ [] := fun ih _ => ne_nil_of_length_pos (by simp)
  rw [unmarshalIndexBlockHeaders, untilEmpty_flatMap (fun _ ih hih =>
    (IndexBlockHeader.reads_marshal (h ih hih).1 (h ih hih).2).mapErr _) hne
    (length_le_length_flatMap hne), except_ok_bind, validateIndexBlockHeaders_eq_ok hsorted]
  rfl

end EsLogs
