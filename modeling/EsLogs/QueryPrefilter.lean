import EsLogs.FilterSemantics
import EsLogs.QueryFilter

/-!
What is read off from the filter of a query before blocks are searched never excludes a row that the filter
accepts: neither the time range, nor the stream ids, nor the stream filter, nor what a partition makes of
them.
-/

namespace EsLogs

open List

variable {R L F κ : Type}

variable {sf : StreamFilter R}

/-! ### Stream ids as texts -/

theorem unhex_marshalByteHex (x : UInt8) :
    Strconv.unhexAll 0 (marshalByteHex x) = some x.toNat := by
  revert x
  decide +kernel

theorem marshalByteHex_injective : Function.Injective marshalByteHex := by
  intro x y h
  have hx := unhex_marshalByteHex x
  rw [h, unhex_marshalByteHex y] at hx
  exact UInt8.toNat_inj.1 (Option.some.inj hx).symm

theorem flatMap_marshalByteHex_injective : Function.Injective (List.flatMap marshalByteHex) := by
  intro xs
  induction xs with
  | nil =>
    intro ys h
    cases ys with
    | nil => rfl
    | cons y ys => cases h
  | cons x xs ih =>
    intro ys h
    cases ys with
    | nil => cases h
    | cons y ys =>
      rw [flatMap_cons, flatMap_cons] at h
      obtain ⟨hhead, htail⟩ := append_inj h rfl
      rw [marshalByteHex_injective hhead, ih htail]

theorem length_marshalUint64Hex (n : Nat) : (marshalUint64Hex n).length = 16 := rfl

theorem marshalUint64Hex_injOn {m n : Nat} (hm : m < 2 ^ 64) (hn : n < 2 ^ 64)
    (h : marshalUint64Hex m = marshalUint64Hex n) : m = n :=
  beBytes_injOn (w := 8) (by omega) (by omega) (flatMap_marshalByteHex_injective h)

theorem StreamID.marshalString_injective : Function.Injective StreamID.marshalString := by
  intro ⟨⟨a, p⟩, ⟨h, l⟩⟩ ⟨⟨a', p'⟩, ⟨h', l'⟩⟩ heq
  simp only [StreamID.marshalString, TenantID.marshalString, U128.marshalString] at heq
  obtain ⟨htenant, hid⟩ := append_inj heq (length_marshalUint64Hex _)
  obtain ⟨hhi, hlo⟩ := append_inj hid (length_marshalUint64Hex _)
  have hp := p.toNat_lt
  have hp' := p'.toNat_lt
  have ha := a.toNat_lt
  have ha' := a'.toNat_lt
  have htenant := marshalUint64Hex_injOn (by omega) (by omega) htenant
  have hhi := marshalUint64Hex_injOn h.toNat_lt h'.toNat_lt hhi
  have hlo := marshalUint64Hex_injOn l.toNat_lt l'.toNat_lt hlo
  have hacc : a = a' := UInt32.toNat_inj.1 (by omega)
  have hproj : p = p' := UInt32.toNat_inj.1 (by omega)
  rw [hacc, hproj, UInt64.toNat_inj.1 hhi, UInt64.toNat_inj.1 hlo]

/-! ### Streams in the index -/

theorem mem_intersectTagFilters {is : IndexSearch R} {tenantId : TenantID} {id : U128}
    (m : Option (List U128)) (tagFilters : List (StreamTagFilter R)) :
    id ∈ is.intersectTagFilters tenantId m tagFilters ↔
      (m ≠ none ∨ tagFilters ≠ []) ∧ (∀ cur ∈ m, id ∈ cur) ∧
        ∀ tf ∈ tagFilters, id ∈ is.getStreamIdsForTagFilter tenantId tf := by
  induction tagFilters generalizing m with
  | nil =>
    rw [IndexSearch.intersectTagFilters]
    cases m with
    | none | some cur => simp
  | cons tf tagFilters ih =>
    rw [IndexSearch.intersectTagFilters]
    simp only
    split_ifs with hempty
    · rw [List.isEmpty_iff] at hempty
      simp [hempty]
    · rw [ih]
      cases m with
      | none => simp
      | some cur =>
        simp only [ne_eq, reduceCtorEq, not_false_eq_true, true_or, true_and, Option.mem_def,
          Option.some.injEq, forall_eq', Option.elim_some, mem_filter, contains_eq_mem, decide_eq_true_eq,
          mem_cons, forall_eq_or_imp, and_assoc]

/-- A stream is found if it belongs to one of the tenants and has what every tag filter of one of the
conjunctions asks for. -/
theorem mem_searchStreamIds {is : IndexSearch R} {tenantIds : List TenantID} {sid : StreamID} :
    sid ∈ is.searchStreamIds tenantIds sf ↔ sid.tenantId ∈ tenantIds ∧ ∃ af ∈ sf.orFilters, af.tagFilters ≠ [] ∧
        ∀ tf ∈ af.tagFilters, sid.id ∈ is.getStreamIdsForTagFilter sid.tenantId tf := by
  simp only [IndexSearch.searchStreamIds, mem_flatMap, mem_map, mem_intersectTagFilters]
  constructor
  · rintro ⟨tenantId, htenant, af, haf, id, ⟨hne, -, hids⟩, rfl⟩
    exact ⟨htenant, af, haf, by simpa using hne, hids⟩
  · rintro ⟨htenant, af, haf, hne, hids⟩
    exact ⟨sid.tenantId, htenant, af, haf, sid.id, ⟨.inr hne, by simp, hids⟩, rfl⟩

/-! ### Stored blocks -/

/-- A block of a partition with what the leaves read of it. Its timestamps lie within the bounds of its
header. -/
structure StoredBlock (R κ : Type) where
  blockHeader : BlockHeader
  timestamps : List Int
  tenantIds : List TenantID
  idb : IndexSearch R
  hiddenFieldsFilter : NameFilter
  columnsHeader : ColumnsHeader
  caches : κ → Prop
  within : ∀ t ∈ timestamps, blockHeader.timestampsHeader.minTimestamp ≤ t ∧
    t ≤ blockHeader.timestampsHeader.maxTimestamp
  in_i64 : ∀ t ∈ timestamps, InI64 t

namespace StoredBlock

/-- The block as compound filters see it. -/
def searched (b : StoredBlock R κ) : SearchedBlock (SearchContext R κ) where
  rows := b.timestamps.length
  hiddenFieldsFilter := b.hiddenFieldsFilter
  columnsHeader := b.columnsHeader
  caches ctx := ctx.blockHeader = b.blockHeader ∧ ctx.timestamps = .ok b.timestamps ∧
    ctx.streamFilterTenantIds = b.tenantIds ∧ ctx.idb = b.idb ∧ b.caches ctx.caches

/-- What the leaves select of the rows of a block. -/
def LeafHolds (b : StoredBlock R κ) (otherHolds : L → Nat → Prop) : QueryLeaf R L → Nat → Prop
  | .noop, _ => True
  | .time minTimestamp maxTimestamp, i =>
    ∃ t, b.timestamps[i]? = some t ∧ minTimestamp ≤ t ∧ t ≤ maxTimestamp
  | .stream sf, _ => sf.isEmpty = true ∨ b.blockHeader.streamId ∈ b.idb.searchStreamIds b.tenantIds sf
  | .streamId streamIds, _ => b.blockHeader.streamId ∈ streamIds
  | .other l, i => otherHolds l i

variable (b : StoredBlock R κ)

/-- A step that leaves all rows or none selects a property of the block. -/
theorem selects_of_block {p : Prop} {apply : BitmapStep (BlockSearch (SearchContext R κ))}
    (htrue : p → ∀ bs bm, BlockSearch.Searches b.searched bs → apply bs bm = .ok (bs, bm))
    (hfalse : ¬p → ∀ bs bm, BlockSearch.Searches b.searched bs → apply bs bm = .ok (bs, bm.resetBits)) :
    Selects b.searched.rows (BlockSearch.Searches b.searched) (fun _ => p) apply := by
  intro bs bm hbs hbm
  by_cases hp : p
  · exact ⟨bs, bm, htrue hp bs bm hbs, hbs, hbm, fun i => by simp [hp]⟩
  · exact ⟨bs, bm.resetBits, hfalse hp bs bm hbs, hbs, hbm, fun i => by simp [hp]⟩

theorem applyFilterTime_selects (minTimestamp maxTimestamp : Int) :
    Selects b.searched.rows (BlockSearch.Searches b.searched)
      (fun i => ∃ t, b.timestamps[i]? = some t ∧ minTimestamp ≤ t ∧ t ≤ maxTimestamp)
      (applyFilterTime minTimestamp maxTimestamp) := by
  intro bs bm hbs hbm
  obtain ⟨hheader, htimestamps, -⟩ := hbs.caches
  -- no row, if the range is empty or misses the one of the header
  have hnone : (∀ t ∈ b.timestamps, ¬(minTimestamp ≤ t ∧ t ≤ maxTimestamp)) →
      ∀ i, bm.resetBits.isSetBit i = true ↔ bm.isSetBit i = true ∧
        ∃ t, b.timestamps[i]? = some t ∧ minTimestamp ≤ t ∧ t ≤ maxTimestamp := by
    intro hnot i
    rw [Bitmap.isSetBit_resetBits]
    constructor
    · intro h
      cases h
    · rintro ⟨-, t, ht, hrange⟩
      exact absurd hrange (hnot t (mem_of_getElem? ht))
  unfold applyFilterTime
  simp only [hheader]
  split_ifs with hempty hmiss hcover
  · refine ⟨bs, _, rfl, hbs, hbm, hnone ?_⟩
    rintro t - ⟨hlo, hhi⟩
    omega
  · refine ⟨bs, _, rfl, hbs, hbm, hnone ?_⟩
    rintro t ht ⟨hlo, hhi⟩
    have hwithin := b.within t ht
    omega
  · refine ⟨bs, bm, rfl, hbs, hbm, ?_⟩
    intro i
    constructor
    · intro hi
      have hlt : i < b.timestamps.length := (Bitmap.lt_of_isSetBit hi).trans_eq hbm
      have hwithin := b.within _ (getElem_mem hlt)
      exact ⟨hi, b.timestamps[i], List.getElem?_eq_getElem hlt, by omega⟩
    · exact fun h => h.1
  · rw [htimestamps, except_ok_bind]
    refine ⟨bs, _, rfl, hbs, hbm, ?_⟩
    intro i
    rw [Bitmap.isSetBit_forEachSetBit, Bool.and_eq_true]
    apply and_congr_right
    intro _
    cases b.timestamps[i]? with
    | none | some t => simp

theorem applyFilterStream_selects (sf : StreamFilter R) :
    Selects b.searched.rows (BlockSearch.Searches b.searched)
      (fun _ => sf.isEmpty = true ∨ b.blockHeader.streamId ∈ b.idb.searchStreamIds b.tenantIds sf)
      (applyFilterStream sf) := by
  apply selects_of_block
  · intro hp bs bm hbs
    obtain ⟨hheader, -, htenants, hidb, -⟩ := hbs.caches
    unfold applyFilterStream
    simp only
    split_ifs with hempty hmiss
    · rfl
    · rw [hheader, htenants, hidb] at hmiss
      simp [hp.resolve_left hempty] at hmiss
    · rfl
  · intro hp bs bm hbs
    obtain ⟨hheader, -, htenants, hidb, -⟩ := hbs.caches
    rw [not_or] at hp
    unfold applyFilterStream
    rw [if_neg hp.1, hheader, htenants, hidb, if_pos (by simp [hp.2])]

theorem applyFilterStreamId_selects (streamIds : List StreamID) :
    Selects b.searched.rows (BlockSearch.Searches b.searched)
      (fun _ => b.blockHeader.streamId ∈ streamIds) (applyFilterStreamId streamIds) := by
  have hmem : (streamIds.map StreamID.marshalString).contains b.blockHeader.streamId.marshalString =
      true ↔ b.blockHeader.streamId ∈ streamIds := by
    rw [contains_eq_mem, decide_eq_true_iff,
      mem_map_of_injective StreamID.marshalString_injective]
  apply selects_of_block
  · intro hp bs bm hbs
    obtain ⟨hheader, -⟩ := hbs.caches
    have hne : (streamIds.map StreamID.marshalString).isEmpty = false := by
      rw [isEmpty_eq_false_iff]
      exact ne_nil_of_mem (mem_map_of_mem hp)
    unfold applyFilterStreamId
    simp only [hne, hheader, hmem.2 hp]
    rfl
  · intro hp bs bm hbs
    obtain ⟨hheader, -⟩ := hbs.caches
    unfold applyFilterStreamId
    simp only
    split_ifs with hempty hmiss
    · rfl
    · rfl
    · rw [hheader, Bool.not_eq_true', Bool.not_eq_false] at hmiss
      exact absurd (hmem.1 hmiss) hp

theorem leaf_selects [LeafFilter L (SearchContext R κ)] {otherHolds : L → Nat → Prop}
    (hother : ∀ l, Selects b.searched.rows (BlockSearch.Searches b.searched) (otherHolds l)
      (LeafFilter.applyToBlockSearch l)) (l : QueryLeaf R L) :
    Selects b.searched.rows (BlockSearch.Searches b.searched) (b.LeafHolds otherHolds l)
      l.applyToBlockSearch := by
  cases l with
  | noop =>
    intro bs bm hbs hbm
    exact ⟨bs, bm, rfl, hbs, hbm, fun i => by simp [LeafHolds]⟩
  | time lo hi => exact b.applyFilterTime_selects lo hi
  | stream sf => exact b.applyFilterStream_selects sf
  | streamId ids => exact b.applyFilterStreamId_selects ids
  | other l => exact hother l

/-- What a filter selects of the rows of a block. -/
def Holds (otherHolds : L → Nat → Prop) (fieldHolds : F → Bytes → Nat → Prop) (f : QueryFilter R L F)
    (i : Nat) : Prop := Filter.Holds (b.LeafHolds otherHolds) fieldHolds b.searched.columns i f

theorem applyToBlockSearch_selects [LeafFilter L (SearchContext R κ)] [FieldFilter F (SearchContext R κ)]
    {otherHolds : L → Nat → Prop} {fieldHolds : F → Bytes → Nat → Prop}
    (hother : ∀ l, Selects b.searched.rows (BlockSearch.Searches b.searched) (otherHolds l)
      (LeafFilter.applyToBlockSearch l))
    (hfield : ∀ g name, Selects b.searched.rows (BlockSearch.Searches b.searched) (fieldHolds g name)
      (FieldFilter.applyToBlockSearchByField g name)) (f : QueryFilter R L F) :
    Selects b.searched.rows (BlockSearch.Searches b.searched) (b.Holds otherHolds fieldHolds f)
      f.applyToBlockSearch :=
  Filter.applyWith_selects (b.leaf_selects hother)
    (fun g => FilterGeneric.applyToBlockSearch_selects (hfield g.f)) f

/-! ### What is read off -/

section Prefilters

variable {otherHolds : L → Nat → Prop} {fieldHolds : F → Bytes → Nat → Prop} {i : Nat}

variable {children : List (QueryFilter R L F)} {f : QueryFilter R L F} {ids : List StreamID}

theorem holds_and : b.Holds otherHolds fieldHolds (.and children) i ↔
    ∀ child ∈ children, b.Holds otherHolds fieldHolds child i := by
  unfold Holds
  rw [Filter.Holds, Filter.holdsAll_iff]

theorem holds_or : b.Holds otherHolds fieldHolds (.or children) i ↔
    ∃ child ∈ children, b.Holds otherHolds fieldHolds child i := by
  unfold Holds
  rw [Filter.Holds, Filter.holdsAny_iff]

theorem holds_of_andChildren
    (hand : f.andChildren = some children) (h : b.Holds otherHolds fieldHolds f i) :
    ∀ child ∈ children, b.Holds otherHolds fieldHolds child i := by
  unfold QueryFilter.andChildren at hand
  split at hand
  · cases hand
    exact b.holds_and.1 h
  · cases hand

/-- The child that is a time filter, and what it asks for. -/
theorem within_of_filterTimeRange {lo hi : Int}
    (hrange : QueryFilter.filterTimeRange f = some (lo, hi))
    (h : b.Holds otherHolds fieldHolds f i) :
    ∃ t, b.timestamps[i]? = some t ∧ lo ≤ t ∧ t ≤ hi := by
  unfold QueryFilter.filterTimeRange at hrange
  split at hrange
  · cases hrange
    rw [Holds, Filter.Holds] at h
    exact h
  · cases hrange

theorem within_intersectTimeRanges {range : Int × Int} {t : Int}
    (ht : b.timestamps[i]? = some t) (hrange : range.1 ≤ t ∧ t ≤ range.2)
    (h : ∀ child ∈ children, b.Holds otherHolds fieldHolds child i) :
    (QueryFilter.intersectTimeRanges range children).1 ≤ t ∧
      t ≤ (QueryFilter.intersectTimeRanges range children).2 := by
  induction children generalizing range with
  | nil => exact hrange
  | cons child children ih =>
    have hrest := fun c hc => h c (mem_cons_of_mem _ hc)
    rw [QueryFilter.intersectTimeRanges]
    split
    · rename_i lo hi hchild
      obtain ⟨t', ht', hlo, hhi⟩ := b.within_of_filterTimeRange hchild (h child mem_cons_self)
      cases ht.symm.trans ht'
      apply ih _ hrest
      constructor
      · simp only
        split_ifs
        · exact hlo
        · exact hrange.1
      · simp only
        split_ifs
        · exact hhi
        · exact hrange.2
    · exact ih hrange hrest

/-- The time range has the timestamps of the rows that the filter accepts. -/
theorem within_getFilterTimeRange {t : Int} (ht : b.timestamps[i]? = some t)
    (h : b.Holds otherHolds fieldHolds f i) :
    f.getFilterTimeRange.1 ≤ t ∧ t ≤ f.getFilterTimeRange.2 := by
  have hall : QueryFilter.i64Min ≤ t ∧ t ≤ QueryFilter.i64Max := by
    have hin := b.in_i64 t (mem_of_getElem? ht)
    unfold InI64 at hin
    unfold QueryFilter.i64Min QueryFilter.i64Max
    omega
  unfold QueryFilter.getFilterTimeRange
  split
  · rename_i children hand
    exact b.within_intersectTimeRanges ht hall (b.holds_of_andChildren hand h)
  · cases hrange : QueryFilter.filterTimeRange f with
    | none => exact hall
    | some range =>
      obtain ⟨t', ht', hwithin⟩ := b.within_of_filterTimeRange hrange h
      cases ht.symm.trans ht'
      exact hwithin

theorem mem_of_filterStreamIds
    (hids : QueryFilter.filterStreamIds f = some ids) (h : b.Holds otherHolds fieldHolds f i) :
    b.blockHeader.streamId ∈ ids := by
  unfold QueryFilter.filterStreamIds at hids
  split at hids
  · cases hids
    rw [Holds, Filter.Holds] at h
    exact h
  · cases hids

/-- The union has the ids that were there and those of every child. -/
theorem mem_unionStreamIds {n : Nat} {acc ids : List StreamID}
    (hunion : QueryFilter.unionStreamIds n acc children = (ids, true)) :
    (∀ sid ∈ acc, sid ∈ ids) ∧ ∀ child ∈ children, ∃ childIds,
      QueryFilter.filterStreamIds child = some childIds ∧ ∀ sid ∈ childIds, sid ∈ ids := by
  induction children generalizing n acc with
  | nil =>
    obtain ⟨rfl, -⟩ := Prod.mk.inj hunion
    exact ⟨fun _ hsid => hsid, fun _ hchild => by cases hchild⟩
  | cons child children ih =>
    rw [QueryFilter.unionStreamIds] at hunion
    split at hunion
    · rename_i childIds hchild
      obtain ⟨hacc, hrest⟩ := ih hunion
      obtain ⟨hacc, hids⟩ := forall_mem_append.1 hacc
      exact ⟨hacc, forall_mem_cons.2 ⟨⟨childIds, hchild, hids⟩, hrest⟩⟩
    · cases hunion

theorem mem_getStreamIdsFromFilterOr
    (hids : QueryFilter.getStreamIdsFromFilterOr f = (ids, true))
    (h : b.Holds otherHolds fieldHolds f i) : b.blockHeader.streamId ∈ ids := by
  unfold QueryFilter.getStreamIdsFromFilterOr at hids
  split at hids
  · rename_i children hor
    unfold QueryFilter.orChildren at hor
    split at hor
    · cases hor
      obtain ⟨child, hchild, hholds⟩ := b.holds_or.1 h
      obtain ⟨childIds, hchildIds, hsub⟩ := (mem_unionStreamIds hids).2 child hchild
      exact hsub _ (b.mem_of_filterStreamIds hchildIds hholds)
    · cases hor
  · split at hids
    · rename_i ids' hleaf
      obtain ⟨rfl, -⟩ := Prod.mk.inj hids
      exact b.mem_of_filterStreamIds hleaf h
    · cases hids

theorem mem_firstStreamIds
    (h : ∀ child ∈ children, b.Holds otherHolds fieldHolds child i)
    (hne : QueryFilter.firstStreamIds children ≠ []) :
    b.blockHeader.streamId ∈ QueryFilter.firstStreamIds children := by
  induction children with
  | nil => exact absurd rfl hne
  | cons child children ih =>
    rw [QueryFilter.firstStreamIds] at hne ⊢
    split at hne
    · rename_i ids hids
      exact b.mem_getStreamIdsFromFilterOr hids (h child mem_cons_self)
    · exact ih (fun c hc => h c (mem_cons_of_mem _ hc)) hne

theorem unionStreamIds_of_false {n : Nat}
    {acc ids : List StreamID} (hacc : n = 0 → acc = [])
    (hunion : QueryFilter.unionStreamIds n acc children = (ids, false)) : ids = [] := by
  induction children generalizing n acc with
  | nil =>
    obtain ⟨rfl, hn⟩ := Prod.mk.inj hunion
    exact hacc (by simpa using hn)
  | cons child children ih =>
    rw [QueryFilter.unionStreamIds] at hunion
    split at hunion
    · exact ih (fun hzero => by cases hzero) hunion
    · exact (Prod.mk.inj hunion).1.symm

theorem getStreamIdsFromFilterOr_of_false
    (hids : QueryFilter.getStreamIdsFromFilterOr f = (ids, false)) : ids = [] := by
  unfold QueryFilter.getStreamIdsFromFilterOr at hids
  split at hids
  · exact unionStreamIds_of_false (fun _ => rfl) hids
  · split at hids
    · cases (Prod.mk.inj hids).2
    · exact (Prod.mk.inj hids).1.symm

/-- The stream ids, if there are any, have the streams of the rows that the filter accepts. -/
theorem mem_getStreamIds (h : b.Holds otherHolds fieldHolds f i)
    (hne : f.getStreamIds ≠ []) : b.blockHeader.streamId ∈ f.getStreamIds := by
  unfold QueryFilter.getStreamIds at hne ⊢
  split at hne
  · rename_i children hand
    exact b.mem_firstStreamIds (b.holds_of_andChildren hand h) hne
  · rcases hpair : QueryFilter.getStreamIdsFromFilterOr f with ⟨ids, ok⟩
    rw [hpair] at hne
    cases ok with
    | true => exact b.mem_getStreamIdsFromFilterOr hpair h
    | false => exact absurd (getStreamIdsFromFilterOr_of_false hpair) hne

/-- A stream filter that is not empty has the streams of the rows that it accepts. -/
theorem mem_of_asStreamFilter (hsf : QueryFilter.asStreamFilter f = some sf) (hne : sf.isEmpty = false)
    (h : b.Holds otherHolds fieldHolds f i) : b.blockHeader.streamId ∈ b.idb.searchStreamIds b.tenantIds sf := by
  unfold QueryFilter.asStreamFilter at hsf
  split at hsf
  · cases hsf
    rw [Holds, Filter.Holds] at h
    rcases h with hempty | hmem
    · rw [hne] at hempty
      cases hempty
    · exact hmem
  · cases hsf

/-- The streams of the rows that the filter accepts satisfy the common stream filter. -/
theorem mem_getCommonStreamFilter (hsf : f.getCommonStreamFilter = some sf) (h : b.Holds otherHolds fieldHolds f i) :
    b.blockHeader.streamId ∈ b.idb.searchStreamIds b.tenantIds sf := by
  unfold QueryFilter.getCommonStreamFilter at hsf
  split at hsf
  · rename_i children hand
    have hne : sf.isEmpty = false := by simpa using List.find?_some hsf
    obtain ⟨child, hchild, hchildsf⟩ := mem_filterMap.1 (mem_of_find?_eq_some hsf)
    exact b.mem_of_asStreamFilter hchildsf hne (b.holds_of_andChildren hand h child hchild)
  · obtain ⟨hleaf, hne⟩ := Option.filter_eq_some_iff.1 hsf
    exact b.mem_of_asStreamFilter hleaf (by simpa using hne) h

/-- What a partition makes of the options has the streams of the rows that the filter accepts, or their
tenants. -/
theorem mem_partitionSearchOptions (h : b.Holds otherHolds fieldHolds f i)
    (htenant : b.blockHeader.streamId.tenantId ∈ b.tenantIds) :
    let pso := partitionSearchOptions (getSearchOptions b.tenantIds f) b.idb
    if pso.tenantIds = [] then b.blockHeader.streamId ∈ pso.streamIds
    else b.blockHeader.streamId.tenantId ∈ pso.tenantIds := by
  unfold partitionSearchOptions getSearchOptions
  simp only
  split
  · rename_i sf hsf
    have hmem := b.mem_getCommonStreamFilter hsf h
    simp only [if_true]
    split_ifs with hids
    · rw [mem_filter, contains_eq_mem, decide_eq_true_iff]
      refine ⟨hmem, b.mem_getStreamIds h ?_⟩
      simpa using hids
    · exact hmem
  · by_cases hids : f.getStreamIds = []
    · have hne : b.tenantIds ≠ [] := ne_nil_of_mem htenant
      simp [hids, hne, htenant]
    · have hisEmpty : f.getStreamIds.isEmpty = false := isEmpty_eq_false_iff.2 hids
      simp only [hisEmpty, Bool.not_false, if_true, mem_filter, contains_eq_mem,
        decide_eq_true_eq]
      exact ⟨b.mem_getStreamIds h hids, htenant⟩

end Prefilters

/-- A row that is left after a filter was applied to a block is one that everything read off from the
filter allows. -/
theorem prefilters_sound [LeafFilter L (SearchContext R κ)] [FieldFilter F (SearchContext R κ)]
    (f : QueryFilter R L F) (otherHolds : L → Nat → Prop) (fieldHolds : F → Bytes → Nat → Prop)
    (hother : ∀ l, Selects b.searched.rows (BlockSearch.Searches b.searched) (otherHolds l)
      (LeafFilter.applyToBlockSearch l))
    (hfield : ∀ g name, Selects b.searched.rows (BlockSearch.Searches b.searched) (fieldHolds g name)
      (FieldFilter.applyToBlockSearchByField g name))
    (bs : BlockSearch (SearchContext R κ)) (hbs : BlockSearch.Searches b.searched bs)
    (bm : Bitmap) (hbm : bm.bitsLen = b.timestamps.length) :
    ∃ bs' bm', f.applyToBlockSearch bs bm = .ok (bs', bm') ∧ ∀ i, bm'.isSetBit i = true →
      (∃ t, b.timestamps[i]? = some t ∧ f.getFilterTimeRange.1 ≤ t ∧ t ≤ f.getFilterTimeRange.2) ∧
      (f.getStreamIds ≠ [] → b.blockHeader.streamId ∈ f.getStreamIds) ∧
      (∀ sf, f.getCommonStreamFilter = some sf →
        b.blockHeader.streamId ∈ b.idb.searchStreamIds b.tenantIds sf) ∧
      (b.blockHeader.streamId.tenantId ∈ b.tenantIds →
        let pso := partitionSearchOptions (getSearchOptions b.tenantIds f) b.idb
        if pso.tenantIds = [] then b.blockHeader.streamId ∈ pso.streamIds
        else b.blockHeader.streamId.tenantId ∈ pso.tenantIds) := by
  obtain ⟨bs', bm', happly, -, -, hbits⟩ := b.applyToBlockSearch_selects hother hfield f bs bm hbs hbm
  refine ⟨bs', bm', happly, ?_⟩
  intro i hi
  obtain ⟨hset, hholds⟩ := (hbits i).1 hi
  have ht := List.getElem?_eq_getElem ((Bitmap.lt_of_isSetBit hset).trans_eq hbm)
  refine ⟨⟨_, ht, b.within_getFilterTimeRange ht hholds⟩, b.mem_getStreamIds hholds, ?_, ?_⟩
  · intro sf hsf
    exact b.mem_getCommonStreamFilter hsf hholds
  · exact b.mem_partitionSearchOptions hholds

end StoredBlock

/-! ### A sample -/

abbrev SampleContext := SearchContext Empty Unit

instance : LeafFilter Empty SampleContext where
  applyToBlockSearch l := nomatch l
  applyToBlockResult l := nomatch l

instance : FieldFilter Empty SampleContext where
  matchRowByField f := nomatch f
  applyToBlockSearchByField f := nomatch f
  applyToBlockResultByField f := nomatch f

/-- The index has the stream `default` under `app="web"` and no stream under other values. -/
def sampleStoredBlock : StoredBlock Empty Unit where
  blockHeader := ⟨default, 0, 2, ⟨0, 0, 5, 7, 0⟩, 0, 0, 0, 0⟩
  timestamps := [5, 7]
  tenantIds := [default]
  idb := ⟨fun _ tf => if tf.value = ascii "web" then [default] else []⟩
  hiddenFieldsFilter := ⟨⟨[], []⟩, ⟨[], []⟩⟩
  columnsHeader := ⟨[], []⟩
  caches _ := True
  within := by decide
  in_i64 := by decide

def sampleStreamFilter : StreamFilter Empty where
  orFilters := [⟨[⟨⟨ascii "app", by decide⟩, .equal, ascii "web"⟩]⟩]
  shape := .inr (by simp)

/-- `_time:[6, 9] _stream_id:… {app="web"}`. -/
def samplePlannedFilter : QueryFilter Empty Empty Empty :=
  .and [.leaf (.time 6 9), .leaf (.streamId [default]), .leaf (.stream sampleStreamFilter)]

def sampleBlockSearch : BlockSearch SampleContext :=
  ⟨sampleStoredBlock.hiddenFieldsFilter, .ok sampleStoredBlock.columnsHeader, none,
    ⟨sampleStoredBlock.blockHeader, .ok sampleStoredBlock.timestamps, sampleStoredBlock.tenantIds,
      sampleStoredBlock.idb, ()⟩⟩

theorem prefilters_sound_samplePlannedFilter :
    ∃ bs' bm', samplePlannedFilter.applyToBlockSearch sampleBlockSearch (Bitmap.init 2).setBits =
        .ok (bs', bm') ∧ bm'.isSetBit 1 = true ∧
      ∀ i, bm'.isSetBit i = true →
        (∃ t, sampleStoredBlock.timestamps[i]? = some t ∧ 6 ≤ t ∧ t ≤ 9) ∧
          sampleStoredBlock.blockHeader.streamId ∈ [default] ∧
          sampleStoredBlock.blockHeader.streamId ∈
            sampleStoredBlock.idb.searchStreamIds sampleStoredBlock.tenantIds sampleStreamFilter := by
  obtain ⟨bs', bm', happly, hbits⟩ := sampleStoredBlock.prefilters_sound samplePlannedFilter
    (fun l _ => nomatch l) (fun g _ _ => nomatch g) (fun l => nomatch l) (fun g _ => nomatch g)
    sampleBlockSearch ⟨rfl, rfl, fun _ hcsh => (nomatch hcsh), rfl, rfl, rfl, rfl, trivial⟩
    (Bitmap.init 2).setBits rfl
  have hrow : (samplePlannedFilter.applyToBlockSearch sampleBlockSearch (Bitmap.init 2).setBits).map
      (fun r => r.2.isSetBit 1) = .ok true := by decide +kernel
  rw [happly] at hrow
  refine ⟨bs', bm', happly, Except.ok.inj hrow, ?_⟩
  intro i hi
  obtain ⟨htime, hids, hstream, -⟩ := hbits i hi
  exact ⟨htime, hids (by decide), hstream _ rfl⟩

end EsLogs
