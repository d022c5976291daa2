import EsLogs.TagRows
import EsLogs.InmemoryBlockRoundTrip

/-!
Merging rows keeps what they say. The loop keeps an account of the items it has consumed: the associations
of the items written and of the pending ids are those of the consumed items, other rows are written as they
are, and what is written and pending takes no more bytes than what was consumed.
-/

namespace EsLogs

open Encoding Unmarshal List

/-! ### Tag values are read back -/

namespace StreamTags

theorem tagSeparatorChar_notMem_escape (ch : UInt8) : tagSeparatorChar ∉ escape ch := by
  rw [escape]
  split_ifs with h0 h1 h2
  · decide
  · decide
  · decide
  · rw [mem_singleton]
    exact fun h => h1 h.symm

theorem unescape_cons_of_ne {c : UInt8} (h : c ≠ escapeChar) (b : Bytes) :
    unescape (c :: b) = (unescape b).map (c :: ·) := by
  cases b with
  | nil | cons d b => exact if_neg h

theorem unescape_escape (ch : UInt8) (b : Bytes) :
    unescape (escape ch ++ b) = (unescape b).map (ch :: ·) := by
  rw [escape]
  split_ifs with h0 h1 h2
  · rw [h0]
    rfl
  · rw [h1]
    rfl
  · rw [h2]
    rfl
  · rw [singleton_append, unescape_cons_of_ne h0]

theorem unescape_flatMap_escape (src : Bytes) : unescape (src.flatMap escape) = .ok src := by
  induction src with
  | nil => rfl
  | cons ch src ih =>
    rw [flatMap_cons, unescape_escape, ih]
    rfl

/-- The fast path is the slow path for values without special characters. -/
theorem marshalTagValue_eq (src : Bytes) :
    marshalTagValue src = src.flatMap escape ++ [tagSeparatorChar] := by
  rw [marshalTagValue]
  split_ifs with h
  · have hsame : src.flatMap escape = src := by
      obtain ⟨h0, h1, h2⟩ := h
      have hone : ∀ ch ∈ src, escape ch = [ch] := fun ch hch => by
        rw [escape, if_neg (ne_of_mem_of_not_mem hch h0), if_neg (ne_of_mem_of_not_mem hch h1),
          if_neg (ne_of_mem_of_not_mem hch h2)]
      rw [flatMap_congr hone]
      exact flatMap_singleton' src
    rw [hsame]
  · rfl

theorem reads_tagValue (src : Bytes) : Reads unmarshalTagValue src (marshalTagValue src) := by
  intro tail
  have hfind : (src.flatMap escape ++ [tagSeparatorChar] ++ tail).idxOf? tagSeparatorChar =
      some (src.flatMap escape).length := by
    rw [append_assoc, singleton_append]
    refine idxOf?_eq_some_iff_append.2 ⟨_, _, rfl, rfl, fun hmem => ?_⟩
    obtain ⟨ch, -, hch⟩ := mem_flatMap.1 hmem
    exact tagSeparatorChar_notMem_escape ch hch
  rw [marshalTagValue_eq, unmarshalTagValue, hfind]
  simp only [append_assoc, take_left, unescape_flatMap_escape]
  rw [← drop_drop, drop_left]
  rfl

end StreamTags

open StreamTags

theorem Field.reads_indexdbMarshal (f : Field) : Reads Field.indexdbUnmarshal f f.indexdbMarshal := by
  refine ((reads_tagValue f.name).mapErr _).bind ?_
  exact ((reads_tagValue f.value).mapErr _).return

namespace Indexdb

open Mergeset InmemoryBlock ByteOrder

/-! ### Rows are read back -/

structure TagRow where
  tenantId : TenantID
  tag : Field
  streamIds : List U128

def TagRow.marshal (row : TagRow) : Bytes :=
  marshalCommonPrefix nsPrefixTagToStreamIDs row.tenantId ++ row.tag.indexdbMarshal ++
    row.streamIds.flatMap U128.marshal

theorem length_flatMap_marshal (ids : List U128) :
    (ids.flatMap U128.marshal).length = 16 * ids.length := by
  induction ids with
  | nil => rfl
  | cons id ids ih =>
    rw [flatMap_cons, length_append, ih, U128.length_marshal, length_cons]
    omega

theorem reads_commonPrefix (ns : UInt8) (t : TenantID) :
    Reads unmarshalCommonPrefix (ns, t) (marshalCommonPrefix ns t) := by
  intro tail
  have hlen : ¬(marshalCommonPrefix ns t ++ tail).length < commonPrefixLength := by
    rw [marshalCommonPrefix, commonPrefixLength, cons_append, length_cons,
      length_append, TenantID.length_marshal]
    omega
  rw [unmarshalCommonPrefix, if_neg hlen]
  show ((TenantID.unmarshal (t.marshal ++ tail)).mapError _).map _ = _
  rw [t.reads_marshal tail]
  rfl

variable {tsm : TagToStreamIDsRowsMerger} {dst : InmemoryBlock} {done : List Bytes} {row : TagRow}

/-- The parser reads a row with stream ids. -/
theorem init_marshal (h : row.streamIds ≠ []) :
    TagToStreamIDsRowParser.init row.marshal =
      .ok ⟨row.tenantId, row.tag, row.streamIds.flatMap U128.marshal⟩ := by
  have hids := length_flatMap_marshal row.streamIds
  have hpos := length_pos_of_ne_nil h
  have hne : row.streamIds.flatMap U128.marshal ≠ [] := by
    intro hnil
    rw [hnil, length_nil] at hids
    omega
  have hmod : (row.streamIds.flatMap U128.marshal).length % 16 = 0 := by omega
  rw [TagToStreamIDsRowParser.init, TagRow.marshal, append_assoc, reads_commonPrefix,
    except_mapError_ok, except_ok_bind]
  simp only [ensure_true, except_ok_bind, Field.reads_indexdbMarshal row.tag _, except_mapError_ok,
    TagToStreamIDsRowParser.checkTail, hne, hmod, ne_eq, not_false_eq_true]
  rfl

theorem parseStreamIDs_marshal (t : TenantID) (tag : Field) (ids : List U128) :
    TagToStreamIDsRowParser.parseStreamIDs ⟨t, tag, ids.flatMap U128.marshal⟩ = .ok ids := by
  have hread : Reads (Unmarshal.times (fun _ => U128.unmarshal) 0 ids.length) ids
      (ids.flatMap U128.marshal) := Reads.times (fun _ id _ => id.reads_marshal) 0
  have hids := hread []
  rw [append_nil] at hids
  rw [TagToStreamIDsRowParser.parseStreamIDs, length_flatMap_marshal,
    Nat.mul_div_cancel_left _ (by decide), hids]
  rfl

/-! ### What rows say -/

abbrev Association := TenantID × Field × U128

/-- The associations that an item stands for, as the parser reads it; items of other kinds have none. -/
def rowAssociations (item : Bytes) : List Association :=
  match TagToStreamIDsRowParser.init item with
  | .error _ => []
  | .ok sp =>
    match sp.parseStreamIDs with
    | .error _ => []
    | .ok ids => ids.map fun id => (sp.tenantId, sp.tag, id)

def associations (items : List Bytes) : List Association := items.flatMap rowAssociations

theorem rowAssociations_marshal (h : row.streamIds ≠ []) :
    rowAssociations row.marshal = row.streamIds.map fun id => (row.tenantId, row.tag, id) := by
  simp only [rowAssociations, init_marshal h, parseStreamIDs_marshal]

/-- Whether an item is a row that leads from a tag to streams. -/
def isTagRow (item : Bytes) : Bool := item.head? == some nsPrefixTagToStreamIDs

/-- An item as the index writes it: a row for a tag has the form that the parser reads, other items are
arbitrary. -/
def IndexItem (item : Bytes) : Prop :=
  isTagRow item = true → ∃ row : TagRow, row.streamIds ≠ [] ∧ item = row.marshal

/-! ### Sorting and removing duplicates -/

section Dedup

variable {α : Type} [DecidableEq α]

theorem mem_dedupAdjacent {a : α} {l : List α} : a ∈ dedupAdjacent l ↔ a ∈ l := by
  fun_induction dedupAdjacent l with
  | case1 b l ih => rw [ih, mem_cons (l := b :: l), or_iff_right_of_imp fun h => h ▸ mem_cons_self]
  | case2 b c l _ ih => rw [mem_cons, ih, mem_cons (l := c :: l)]
  | case3 => rfl

theorem length_dedupAdjacent_le (l : List α) : (dedupAdjacent l).length ≤ l.length := by
  fun_induction dedupAdjacent l with
  | case1 b l ih => exact ih.trans (Nat.le_succ _)
  | case2 b c l _ ih => exact Nat.succ_le_succ ih
  | case3 => exact le_rfl

end Dedup

/-- The ids that a row gets for the pending ones. -/
def mergedStreamIDs (ids : List U128) : List U128 := dedupAdjacent (sortStreamIDs ids)

theorem mem_mergedStreamIDs {id : U128} {ids : List U128} : id ∈ mergedStreamIDs ids ↔ id ∈ ids := by
  rw [mergedStreamIDs, mem_dedupAdjacent, sortStreamIDs]
  exact (mergeSort_perm ids _).mem_iff

theorem length_mergedStreamIDs_le (ids : List U128) :
    (mergedStreamIDs ids).length ≤ ids.length := by
  refine (length_dedupAdjacent_le _).trans ?_
  rw [sortStreamIDs, (mergeSort_perm ids _).length_eq]

theorem mergedStreamIDs_ne_nil {ids : List U128} (h : ids ≠ []) : mergedStreamIDs ids ≠ [] := by
  obtain ⟨id, hid⟩ := exists_mem_of_ne_nil ids h
  exact ne_nil_of_mem (mem_mergedStreamIDs.2 hid)

/-! ### The account of the loop -/

def pendingAssociations (tsm : TagToStreamIDsRowsMerger) : List Association :=
  tsm.pendingStreamIds.map fun id => (tsm.spPrev.tenantId, tsm.spPrev.tag, id)

/-- The bytes that a row for the pending ids takes at most. -/
def pendingSize (tsm : TagToStreamIDsRowsMerger) : Nat :=
  if tsm.pendingStreamIds = [] then 0
  else tsm.spPrev.marshalPrefix.length + 16 * tsm.pendingStreamIds.length

/-- What has been written and what is pending stand for the items that have been consumed. -/
structure Account (done : List Bytes) (tsm : TagToStreamIDsRowsMerger) (dst : InmemoryBlock) :
    Prop where
  inBounds : dst.InBounds
  first : dst.itemList.head? = done.head?
  pending_done : tsm.pendingStreamIds ≠ [] → done ≠ []
  others : dst.itemList.filter (!isTagRow ·) = done.filter (!isTagRow ·)
  assoc : ∀ a, a ∈ associations dst.itemList ∨ a ∈ pendingAssociations tsm ↔ a ∈ associations done
  size : dst.data.length + pendingSize tsm ≤ (done.map List.length).sum

theorem account_start : Account [] ⟨[], .empty⟩ InmemoryBlock.empty where
  inBounds := inBounds_empty
  first := rfl
  pending_done := fun h => absurd rfl h
  others := rfl
  assoc := by
    intro a
    exact or_self_iff
  size := le_rfl

def pendingRow (tsm : TagToStreamIDsRowsMerger) : TagRow :=
  ⟨tsm.spPrev.tenantId, tsm.spPrev.tag, mergedStreamIDs tsm.pendingStreamIds⟩

theorem length_marshal_pendingRow_le
    (h : tsm.pendingStreamIds ≠ []) : (pendingRow tsm).marshal.length ≤ pendingSize tsm := by
  have hids := length_mergedStreamIDs_le tsm.pendingStreamIds
  rw [pendingSize, if_neg h, TagRow.marshal, length_append, length_flatMap_marshal]
  show tsm.spPrev.marshalPrefix.length + 16 * (mergedStreamIDs tsm.pendingStreamIds).length ≤ _
  omega

theorem mem_rowAssociations_pendingRow
    (h : tsm.pendingStreamIds ≠ []) (a : Association) :
    a ∈ rowAssociations (pendingRow tsm).marshal ↔ a ∈ pendingAssociations tsm := by
  rw [rowAssociations_marshal (mergedStreamIDs_ne_nil h), pendingAssociations, mem_map,
    mem_map]
  exact exists_congr fun id => and_congr_left fun _ => mem_mergedStreamIDs

theorem associations_concat (items : List Bytes) (item : Bytes) :
    associations (items ++ [item]) = associations items ++ rowAssociations item := by
  rw [associations, flatMap_append, flatMap_singleton]
  rfl

/-- Flushing turns the pending ids into a row. -/
theorem Account.flush
    (h : Account done tsm dst) (hsize : (done.map List.length).sum < 2 ^ 32) :
    Account done (flushPendingStreamIDs tsm dst).1 (flushPendingStreamIDs tsm dst).2 ∧
      (flushPendingStreamIDs tsm dst).1.pendingStreamIds = [] := by
  rw [flushPendingStreamIDs]
  split_ifs with hnil
  · exact ⟨h, hnil⟩
  · have hrow := length_marshal_pendingRow_le hnil
    have hle := h.size
    obtain ⟨hin, hitems⟩ := push_spec h.inBounds (x := (pendingRow tsm).marshal) (by omega)
    have hdata : (dst.push (pendingRow tsm).marshal).data.length =
        dst.data.length + (pendingRow tsm).marshal.length := length_append
    refine ⟨⟨hin, ?_, fun hne => absurd rfl hne, ?_, fun a => ?_, ?_⟩, rfl⟩
    · -- something has been consumed, so that the first item is there already
      obtain ⟨first, rest, hdone⟩ := exists_cons_of_ne_nil (h.pending_done hnil)
      have hfirst := h.first
      rw [hdone, List.head?_cons] at hfirst ⊢
      show (dst.push (pendingRow tsm).marshal).itemList.head? = _
      rw [hitems, List.head?_append, hfirst]
      rfl
    · show (dst.push (pendingRow tsm).marshal).itemList.filter _ = _
      rw [hitems, filter_append, h.others]
      exact append_nil _
    · show a ∈ associations (dst.push (pendingRow tsm).marshal).itemList ∨ a ∈ [] ↔ _
      rw [hitems, associations_concat, mem_append, mem_rowAssociations_pendingRow hnil a,
        ← h.assoc a]
      exact or_iff_left not_mem_nil
    · show (dst.push (pendingRow tsm).marshal).data.length + 0 ≤ _
      omega

/-- An item that is written as it is. -/
theorem Account.write
    (h : Account done tsm dst) (item : Bytes)
    (hsize : ((done ++ [item]).map List.length).sum < 2 ^ 32) :
    Account (done ++ [item]) (writeItem tsm dst item).1 (writeItem tsm dst item).2 ∧
      (writeItem tsm dst item).1.pendingStreamIds = [] ∧
      (writeItem tsm dst item).2.itemList.getLast? = some item := by
  have hsum : ((done ++ [item]).map List.length).sum = (done.map List.length).sum + item.length := by
    simp
  obtain ⟨hflush, hnil⟩ := h.flush (by omega)
  unfold writeItem
  generalize flushPendingStreamIDs tsm dst = r at hflush hnil ⊢
  have hle := hflush.size
  obtain ⟨hin, hitems⟩ := push_spec hflush.inBounds (x := item) (by omega)
  refine ⟨⟨hin, ?_, fun hne => absurd hnil hne, ?_, fun a => ?_, ?_⟩, hnil, ?_⟩
  · rw [hitems, List.head?_append, hflush.first, List.head?_append]
  · rw [hitems, filter_append, hflush.others, filter_append]
  · rw [hitems, associations_concat, associations_concat, mem_append, mem_append,
      ← hflush.assoc a]
    exact or_right_comm
  · have hdata : (r.2.push item).data.length = r.2.data.length + item.length := length_append
    show (r.2.push item).data.length + pendingSize r.1 ≤ _
    omega
  · rw [hitems, List.getLast?_concat]

/-- The ids of a row join the pending ones, which are of the same tag. -/
theorem Account.collect
    (h : Account done tsm dst) (hdone : done ≠ []) (hrow : row.streamIds ≠ [])
    (tail : Bytes) (hsame : tsm.pendingStreamIds = [] ∨
      (tsm.spPrev.tenantId = row.tenantId ∧ tsm.spPrev.tag = row.tag)) :
    Account (done ++ [row.marshal])
      ⟨tsm.pendingStreamIds ++ row.streamIds, ⟨row.tenantId, row.tag, tail⟩⟩ dst := by
  have hold : pendingAssociations tsm =
      tsm.pendingStreamIds.map fun id => (row.tenantId, row.tag, id) := by
    rw [pendingAssociations]
    rcases hsame with hnil | ⟨ht, htag⟩
    · rw [hnil]
      rfl
    · rw [ht, htag]
  refine ⟨h.inBounds, ?_, fun _ => by simp, ?_, fun a => ?_, ?_⟩
  · obtain ⟨first, rest, rfl⟩ := exists_cons_of_ne_nil hdone
    exact h.first
  · rw [filter_append, h.others]
    exact (append_nil _).symm
  · rw [associations_concat, mem_append, ← h.assoc a, rowAssociations_marshal hrow, hold,
      pendingAssociations, map_append, mem_append, or_assoc]
  · have hle := h.size
    have hlen : row.marshal.length = (marshalCommonPrefix nsPrefixTagToStreamIDs row.tenantId ++
        row.tag.indexdbMarshal).length + 16 * row.streamIds.length := by
      rw [TagRow.marshal, length_append, length_flatMap_marshal]
    have hnew : pendingSize ⟨tsm.pendingStreamIds ++ row.streamIds, ⟨row.tenantId, row.tag, tail⟩⟩ =
        (marshalCommonPrefix nsPrefixTagToStreamIDs row.tenantId ++ row.tag.indexdbMarshal).length +
          16 * (tsm.pendingStreamIds ++ row.streamIds).length :=
      if_neg fun hnil => hrow (append_eq_nil_iff.1 hnil).2
    have hpending : 16 * tsm.pendingStreamIds.length ≤ pendingSize tsm := by
      rw [pendingSize]
      split_ifs with hnil
      · rw [hnil, length_nil]
      · exact Nat.le_add_left _ _
    have happend : (tsm.pendingStreamIds ++ row.streamIds).length =
        tsm.pendingStreamIds.length + row.streamIds.length := length_append
    rw [map_append, sum_append, map_singleton, sum_singleton]
    omega

/-- What an item does to the account. -/
theorem mergeItem_spec
    (h : Account done tsm dst) {item : Bytes} (hitem : IndexItem item) (edge : Bool)
    (hedge : edge = false → done ≠ [])
    (hsize : ((done ++ [item]).map List.length).sum < 2 ^ 32) :
    ∃ tsm' dst', mergeItem edge tsm dst item = .ok (tsm', dst') ∧
      Account (done ++ [item]) tsm' dst' ∧
      (edge = true → tsm'.pendingStreamIds = [] ∧ dst'.itemList.getLast? = some item) := by
  obtain ⟨hwrite, hnil, hlast⟩ := h.write item hsize
  by_cases hasis : item.head? ≠ some nsPrefixTagToStreamIDs ∨ edge = true
  · exact ⟨_, _, if_pos hasis, hwrite, fun _ => ⟨hnil, hlast⟩⟩
  rw [not_or, not_not, Bool.not_eq_true] at hasis
  obtain ⟨hns, rfl⟩ := hasis
  obtain ⟨row, hrow, rfl⟩ := hitem (by rw [isTagRow, hns]; rfl)
  rw [mergeItem, if_neg (by simp [hns]), init_marshal hrow, except_mapError_ok, except_ok_bind]
  by_cases hbig : row.streamIds.length ≥ maxStreamIDsPerRow
  · refine ⟨_, _, if_pos ?_, hwrite, fun he => absurd he Bool.false_ne_true⟩
    rwa [TagToStreamIDsRowParser.streamIDsLen, length_flatMap_marshal,
      Nat.mul_div_cancel_left _ (by decide)]
  · rw [if_neg (by rwa [TagToStreamIDsRowParser.streamIDsLen, length_flatMap_marshal,
      Nat.mul_div_cancel_left _ (by decide)])]
    have hsum : ((done ++ [row.marshal]).map List.length).sum =
        (done.map List.length).sum + row.marshal.length := by simp
    obtain ⟨hflush, hempty⟩ := h.flush (by omega)
    -- the ids are added to pending ones of the same tag, or to none
    obtain ⟨⟨tsm', dst'⟩, heq, hacc, hsame⟩ : ∃ r, (if ¬TagToStreamIDsRowParser.equalPrefix
        ⟨row.tenantId, row.tag, row.streamIds.flatMap U128.marshal⟩ tsm.spPrev then
          flushPendingStreamIDs tsm dst else (tsm, dst)) = r ∧ Account done r.1 r.2 ∧
        (r.1.pendingStreamIds = [] ∨ (r.1.spPrev.tenantId = row.tenantId ∧ r.1.spPrev.tag = row.tag)) := by
      refine ⟨_, rfl, ?_⟩
      split_ifs with hprev
      · rw [TagToStreamIDsRowParser.equalPrefix, Bool.and_eq_true, beq_iff_eq, beq_iff_eq] at hprev
        exact ⟨h, .inr ⟨hprev.1.symm, hprev.2.symm⟩⟩
      · exact ⟨hflush, .inl hempty⟩
    have hcollect := hacc.collect (hedge rfl) hrow (row.streamIds.flatMap U128.marshal) hsame
    rw [heq]
    simp only [parseStreamIDs_marshal, except_ok_bind]
    split_ifs
    · exact ⟨_, _, rfl, (hcollect.flush hsize).1, False.elim⟩
    · exact ⟨_, _, rfl, hcollect, False.elim⟩

/-- The whole loop: the account covers all the items, and nothing is pending after the last one. -/
theorem mergeItems_spec {done items : List Bytes}
    (h : Account done tsm dst) (hitems : ∀ item ∈ items, IndexItem item)
    (isFirst : Bool) (hfirst : isFirst = false → done ≠ [])
    (hsize : ((done ++ items).map List.length).sum < 2 ^ 32) :
    ∃ tsm' dst', mergeItems isFirst items tsm dst = .ok (tsm', dst') ∧
      Account (done ++ items) tsm' dst' ∧
      (items ≠ [] → tsm'.pendingStreamIds = [] ∧ dst'.itemList.getLast? = items.getLast?) := by
  induction items generalizing done tsm dst isFirst with
  | nil =>
    rw [append_nil]
    exact ⟨tsm, dst, rfl, h, fun hne => absurd rfl hne⟩
  | cons item items ih =>
    have hassoc : done ++ item :: items = done ++ [item] ++ items := by simp
    rw [hassoc] at hsize ⊢
    have hsize' : ((done ++ [item]).map List.length).sum < 2 ^ 32 := by
      rw [map_append, sum_append] at hsize
      omega
    obtain ⟨tsm', dst', hstep, hacc, hlast⟩ := mergeItem_spec h (hitems item mem_cons_self)
      (isFirst || items.isEmpty) (fun he => hfirst (Bool.or_eq_false_iff.1 he).1) hsize'
    obtain ⟨tsm'', dst'', hrun, hacc', hlast'⟩ := ih hacc
      (fun b hb => hitems b (mem_cons_of_mem _ hb)) false (fun _ => by simp) hsize
    refine ⟨tsm'', dst'', ?_, hacc', fun _ => ?_⟩
    · rw [mergeItems, hstep, except_ok_bind]
      exact hrun
    · cases items with
      | nil =>
        cases hrun
        exact hlast (Bool.or_true _)
      | cons b items =>
        rw [List.getLast?_cons_cons]
        exact hlast' (cons_ne_nil _ _)

/-- A block of sorted index items is turned into a sorted block with the same first and last item, the
same other rows and the same associations, in no more bytes; no panic is reached. -/
theorem mergeTagToStreamIDsRows_preserves {xs : List Bytes} {ib : InmemoryBlock}
    (h : InmemoryBlock.empty.addAll xs = some ib) (hsorted : Sorted xs)
    (hitems : ∀ item ∈ xs, IndexItem item) :
    ∃ data items, mergeTagToStreamIDsRows ib.data ib.items = .ok (data, items) ∧
      Sorted (InmemoryBlock.mk [] data items).itemList ∧
      (InmemoryBlock.mk [] data items).itemList.head? = xs.head? ∧
      (InmemoryBlock.mk [] data items).itemList.getLast? = xs.getLast? ∧
      (InmemoryBlock.mk [] data items).itemList.filter (!isTagRow ·) = xs.filter (!isTagRow ·) ∧
      (∀ a, a ∈ associations (InmemoryBlock.mk [] data items).itemList ↔ a ∈ associations xs) ∧
      data.length ≤ ib.data.length := by
  obtain ⟨-, hlist, hdata, hmax⟩ := addAll_empty h
  have hlist' : (InmemoryBlock.mk [] ib.data ib.items).itemList = xs := hlist
  have hsame : ∀ ys, ys = xs → Sorted ys ∧ ys.head? = xs.head? ∧ ys.getLast? = xs.getLast? ∧
      ys.filter (!isTagRow ·) = xs.filter (!isTagRow ·) ∧ (∀ a, a ∈ associations ys ↔ a ∈ associations xs) ∧
      ib.data.length ≤ ib.data.length := by
    rintro ys rfl
    exact ⟨hsorted, rfl, rfl, rfl, fun _ => Iff.rfl, le_rfl⟩
  -- the original items are sorted, so that they can stay
  have horig : (InmemoryBlock.mk [] ib.data ib.items).isSorted = true := by
    rw [isSorted, hlist']
    exact (isSortedList_iff xs).2 hsorted
  simp only [mergeTagToStreamIDsRows, hlist', horig, not_true_eq_false, if_false]
  split_ifs with hfew hhigh hlow
  · exact ⟨_, _, rfl, hsame _ hlist⟩
  · exact ⟨_, _, rfl, hsame _ hlist⟩
  · exact ⟨_, _, rfl, hsame _ hlist⟩
  · have hne : xs ≠ [] := by
      rintro rfl
      have hlen := congrArg List.length hlist
      rw [itemList, length_map, length_nil] at hlen
      omega
    have hsize : (([] ++ xs).map List.length).sum < 2 ^ 32 := hmax.trans_lt (by decide)
    obtain ⟨tsm, dst, hrun, hacc, hlast⟩ := mergeItems_spec account_start hitems true
      (fun he => absurd he.symm Bool.false_ne_true) hsize
    obtain ⟨hnil, hlast⟩ := hlast hne
    rw [nil_append] at hacc
    rw [hrun, except_ok_bind]
    simp only [hnil, ne_eq, not_true_eq_false, if_false]
    by_cases hdst : dst.isSorted = true
    · rw [if_neg (not_not.2 hdst)]
      refine ⟨_, _, rfl, (isSortedList_iff _).1 hdst, hacc.first, hlast, hacc.others, fun a => ?_, ?_⟩
      · rw [← hacc.assoc a, pendingAssociations, hnil]
        exact (or_iff_left not_mem_nil).symm
      · have hle := hacc.size
        omega
    · rw [if_pos hdst]
      exact ⟨_, _, rfl, hsame _ hlist⟩

def sampleRow (id : UInt64) : TagRow := ⟨default, ⟨ascii "job", ascii "app"⟩, [⟨0, id⟩]⟩

/-- Two rows for the same tag between two other items. -/
def sampleItems : List Bytes := [[0], (sampleRow 1).marshal, (sampleRow 2).marshal, [3]]

theorem sampleItems_indexItem : ∀ item ∈ sampleItems, IndexItem item := by
  intro item hitem
  simp only [sampleItems, mem_cons, not_mem_nil, or_false] at hitem
  rcases hitem with rfl | rfl | rfl | rfl
  · exact fun h => absurd h (by decide)
  · exact fun _ => ⟨sampleRow 1, by decide, rfl⟩
  · exact fun _ => ⟨sampleRow 2, by decide, rfl⟩
  · exact fun h => absurd h (by decide)

theorem sampleItems_sorted : Sorted sampleItems :=
  (isSortedList_iff sampleItems).1 (by decide +kernel)

theorem mergeTagToStreamIDsRows_sampleItems :
    ∃ ib, InmemoryBlock.empty.addAll sampleItems = some ib ∧ Sorted sampleItems ∧
      (∀ item ∈ sampleItems, IndexItem item) ∧
      ∃ data items, mergeTagToStreamIDsRows ib.data ib.items = .ok (data, items) ∧
        Sorted (InmemoryBlock.mk [] data items).itemList ∧
        (InmemoryBlock.mk [] data items).itemList.head? = sampleItems.head? ∧
        (InmemoryBlock.mk [] data items).itemList.getLast? = sampleItems.getLast? ∧
        (InmemoryBlock.mk [] data items).itemList.filter (!isTagRow ·) =
          sampleItems.filter (!isTagRow ·) ∧
        (∀ a, a ∈ associations (InmemoryBlock.mk [] data items).itemList ↔
          a ∈ associations sampleItems) ∧
        data.length ≤ ib.data.length :=
  ⟨_, rfl, sampleItems_sorted, sampleItems_indexItem,
    mergeTagToStreamIDsRows_preserves rfl sampleItems_sorted sampleItems_indexItem⟩

end Indexdb

end EsLogs
