import EsLogs.QueryPrefilter

/-!
What optimizing the filter of a query does to the rows that it accepts. Flattening and merging stream
filters keep them. Removing star filters reads a star filter that is not below a negation as true; it asks
for a message that is not empty. So a filter and its negation may both accept a row without a message.
-/

namespace EsLogs.StoredBlock

open List

variable {R L F κ : Type} (b : StoredBlock R κ) {otherHolds : L → Nat → Prop}
  {fieldHolds : F → Bytes → Nat → Prop} {i : Nat}

/-! ### Formulas -/

variable {children : List (QueryFilter R L F)} {f : QueryFilter R L F}

theorem holds_not :
    b.Holds otherHolds fieldHolds (.not f) i ↔ ¬b.Holds otherHolds fieldHolds f i := by
  unfold Holds
  rw [Filter.Holds]

theorem holds_noop : b.Holds otherHolds fieldHolds (QueryFilter.newFilterNoop : QueryFilter R L F) i := by
  unfold Holds QueryFilter.newFilterNoop
  rw [Filter.Holds]
  trivial

/-! ### Stream filters -/

/-- What a stream filter with one conjunction asks for. -/
theorem holds_stream_of_single {sf : StreamFilter R} {af : AndStreamFilter R} (h : sf.orFilters = [af]) :
    b.Holds otherHolds fieldHolds (.leaf (.stream sf) : QueryFilter R L F) i ↔
      ∀ tf ∈ af.tagFilters, b.blockHeader.streamId.tenantId ∈ b.tenantIds ∧
        b.blockHeader.streamId.id ∈
          b.idb.getStreamIdsForTagFilter b.blockHeader.streamId.tenantId tf := by
  have hempty : sf.isEmpty = true ↔ af.tagFilters = [] := by
    rw [StreamFilter.isEmpty, h, all_cons, all_nil, Bool.and_true, List.isEmpty_iff]
  unfold Holds
  rw [Filter.Holds, LeafHolds, hempty, mem_searchStreamIds, h, exists_mem_cons_iff]
  constructor
  · rintro (hnil | ⟨htenant, ⟨-, hids⟩ | hnone⟩)
    · intro tf htf
      rw [hnil] at htf
      cases htf
    · exact fun tf htf => ⟨htenant, hids tf htf⟩
    · obtain ⟨_, hmem, -⟩ := hnone
      cases hmem
  · intro hall
    by_cases hnil : af.tagFilters = []
    · exact .inl hnil
    · obtain ⟨tf, htf⟩ := exists_mem_of_ne_nil _ hnil
      exact .inr ⟨(hall tf htf).1, .inl ⟨hnil, fun tf htf => (hall tf htf).2⟩⟩

theorem holds_stream_merged {fss : List (StreamFilter R)}
    (hone : ∀ sf ∈ fss, sf.orFilters.length = 1) :
    b.Holds otherHolds fieldHolds (.leaf (.stream (.merged fss)) : QueryFilter R L F) i ↔
      ∀ sf ∈ fss, b.Holds otherHolds fieldHolds (.leaf (.stream sf) : QueryFilter R L F) i := by
  rw [b.holds_stream_of_single rfl]
  constructor
  · intro h sf hsf
    obtain ⟨af, haf⟩ := length_eq_one_iff.1 (hone sf hsf)
    rw [b.holds_stream_of_single haf]
    intro tf htf
    apply h
    rw [mem_flatMap]
    refine ⟨sf, hsf, ?_⟩
    rwa [haf, flatMap_singleton]
  · intro h tf htf
    obtain ⟨sf, hsf, htf⟩ := mem_flatMap.1 htf
    obtain ⟨af, haf⟩ := length_eq_one_iff.1 (hone sf hsf)
    rw [haf, flatMap_singleton] at htf
    exact (b.holds_stream_of_single haf).1 (h sf hsf) tf htf

theorem holds_mergeFiltersStreamInternal (fss : List (StreamFilter R)) :
    (∀ sf ∈ mergeFiltersStreamInternal fss,
        b.Holds otherHolds fieldHolds (.leaf (.stream sf) : QueryFilter R L F) i) ↔
      ∀ sf ∈ fss, b.Holds otherHolds fieldHolds (.leaf (.stream sf) : QueryFilter R L F) i := by
  unfold mergeFiltersStreamInternal
  split_ifs with hshort hany
  · exact Iff.rfl
  · exact Iff.rfl
  · rw [forall_mem_singleton]
    apply holds_stream_merged
    intro sf hsf
    by_contra hne
    exact hany (any_eq_true.2 ⟨sf, hsf, by simpa using hne⟩)

theorem asStreamFilter_eq_some {sf : StreamFilter R} :
    f.asStreamFilter = some sf ↔ f = .leaf (.stream sf) := by
  constructor
  · intro h
    unfold QueryFilter.asStreamFilter at h
    split at h
    · rw [Option.some.inj h]
    · cases h
  · rintro rfl
    rfl

/-- Merging the stream filters of a conjunction does not change what it says. -/
theorem holds_mergeFiltersStream (f : QueryFilter R L F) :
    b.Holds otherHolds fieldHolds f.mergeFiltersStream i ↔ b.Holds otherHolds fieldHolds f i := by
  cases f with
  | leaf l | generic g | or children | not f => exact Iff.rfl
  | and children =>
    -- the children are the stream filters and the other ones
    have hsplit : (∀ child ∈ children, b.Holds otherHolds fieldHolds child i) ↔
        (∀ sf ∈ children.filterMap QueryFilter.asStreamFilter,
          b.Holds otherHolds fieldHolds (.leaf (.stream sf) : QueryFilter R L F) i) ∧
        ∀ child ∈ children.filter fun child => (QueryFilter.asStreamFilter child).isNone,
          b.Holds otherHolds fieldHolds child i := by
      constructor
      · intro h
        constructor
        · intro sf hsf
          obtain ⟨child, hchild, heq⟩ := mem_filterMap.1 hsf
          exact asStreamFilter_eq_some.1 heq ▸ h child hchild
        · intro child hchild
          exact h child (mem_filter.1 hchild).1
      · rintro ⟨hstream, hother⟩ child hchild
        cases hsf : QueryFilter.asStreamFilter child with
        | some sf =>
          have hmem := mem_filterMap.2 ⟨child, hchild, hsf⟩
          rw [asStreamFilter_eq_some.1 hsf]
          exact hstream sf hmem
        | none =>
          apply hother
          rw [mem_filter, hsf]
          exact ⟨hchild, rfl⟩
    rw [QueryFilter.mergeFiltersStream, holds_and, hsplit]
    split_ifs with hempty
    · rw [List.isEmpty_iff] at hempty
      rw [holds_and, hempty]
      simp
    · rw [holds_and, forall_mem_append, forall_mem_map, holds_mergeFiltersStreamInternal]

/-! ### Star filters -/

variable [EmptyPrefix F]

section

variable (otherHolds fieldHolds i)

mutual

/-- What a filter says about a row if its star filters that are not below a negation are read as `star`. -/
def HoldsWithStars (star : Prop) : QueryFilter R L F → Prop
  | .and children => HoldsWithStarsAll star children
  | .or children => HoldsWithStarsAny star children
  | .generic g => if g.isMatchAll then star else b.Holds otherHolds fieldHolds (.generic g) i
  | .leaf l => b.Holds otherHolds fieldHolds (.leaf l) i
  | .not f => b.Holds otherHolds fieldHolds (.not f) i

def HoldsWithStarsAll (star : Prop) : List (QueryFilter R L F) → Prop
  | [] => True
  | child :: children => HoldsWithStars star child ∧ HoldsWithStarsAll star children

def HoldsWithStarsAny (star : Prop) : List (QueryFilter R L F) → Prop
  | [] => False
  | child :: children => HoldsWithStars star child ∨ HoldsWithStarsAny star children

end

end

theorem holdsWithStars_and {star : Prop} :
    b.HoldsWithStars otherHolds fieldHolds i star (.and children) ↔
      ∀ child ∈ children, b.HoldsWithStars otherHolds fieldHolds i star child := by
  rw [HoldsWithStars]
  induction children with
  | nil =>
    rw [HoldsWithStarsAll]
    simp
  | cons child children ih => rw [HoldsWithStarsAll, ih, forall_mem_cons]

theorem holdsWithStars_or {star : Prop} :
    b.HoldsWithStars otherHolds fieldHolds i star (.or children) ↔
      ∃ child ∈ children, b.HoldsWithStars otherHolds fieldHolds i star child := by
  rw [HoldsWithStars]
  induction children with
  | nil =>
    rw [HoldsWithStarsAny]
    simp
  | cons child children ih => rw [HoldsWithStarsAny, ih, exists_mem_cons_iff]

/-! ### Flattening -/

section Flatten

variable {star : Prop}

theorem holdsWithStars_flattenAndChildren (h : ∀ child ∈ children,
    (b.HoldsWithStars otherHolds fieldHolds i star child.flattenFiltersAnd ↔
      b.HoldsWithStars otherHolds fieldHolds i star child)) :
    (∀ c ∈ QueryFilter.flattenAndChildren children, b.HoldsWithStars otherHolds fieldHolds i star c) ↔
      ∀ child ∈ children, b.HoldsWithStars otherHolds fieldHolds i star child := by
  induction children with
  | nil => rw [QueryFilter.flattenAndChildren]
  | cons child children ih =>
    obtain ⟨hchild, hchildren⟩ := forall_mem_cons.1 h
    rw [QueryFilter.flattenAndChildren, forall_mem_cons]
    split
    · -- a conjunction gives way to its children
      rename_i grandchildren hflat
      rw [hflat, holdsWithStars_and] at hchild
      rw [forall_mem_append, hchild, ih hchildren]
    · rw [forall_mem_cons, hchild, ih hchildren]

theorem holdsWithStars_flattenAnyChildren (h : ∀ child ∈ children,
    (b.HoldsWithStars otherHolds fieldHolds i star child.flattenFiltersOr ↔
      b.HoldsWithStars otherHolds fieldHolds i star child)) :
    (∃ c ∈ QueryFilter.flattenAnyChildren children, b.HoldsWithStars otherHolds fieldHolds i star c) ↔
      ∃ child ∈ children, b.HoldsWithStars otherHolds fieldHolds i star child := by
  induction children with
  | nil => rw [QueryFilter.flattenAnyChildren]
  | cons child children ih =>
    obtain ⟨hchild, hchildren⟩ := forall_mem_cons.1 h
    rw [QueryFilter.flattenAnyChildren, exists_mem_cons_iff]
    split
    · rename_i grandchildren hflat
      rw [hflat, holdsWithStars_or] at hchild
      simp only [mem_append, or_and_right, exists_or]
      rw [hchild, ih hchildren]
    · rw [exists_mem_cons_iff, hchild, ih hchildren]

theorem holdsWithStars_flattenFiltersAnd (f : QueryFilter R L F) :
    b.HoldsWithStars otherHolds fieldHolds i star f.flattenFiltersAnd ↔
      b.HoldsWithStars otherHolds fieldHolds i star f := by
  induction f using Filter.induction with
  | leaf l | generic g | not f => rw [QueryFilter.flattenFiltersAnd]
  | and children ih =>
    rw [QueryFilter.flattenFiltersAnd, holdsWithStars_and, holdsWithStars_and]
    exact b.holdsWithStars_flattenAndChildren ih
  | or children ih =>
    rw [QueryFilter.flattenFiltersAnd, HoldsWithStars, HoldsWithStars]
    induction children with
    | nil => rw [QueryFilter.flattenOrChildren]
    | cons child children ihs =>
      obtain ⟨hchild, hchildren⟩ := forall_mem_cons.1 ih
      rw [QueryFilter.flattenOrChildren, HoldsWithStarsAny, HoldsWithStarsAny, hchild, ihs hchildren]

theorem holdsWithStars_flattenFiltersOr (f : QueryFilter R L F) :
    b.HoldsWithStars otherHolds fieldHolds i star f.flattenFiltersOr ↔
      b.HoldsWithStars otherHolds fieldHolds i star f := by
  induction f using Filter.induction with
  | leaf l | generic g | not f => rw [QueryFilter.flattenFiltersOr]
  | or children ih =>
    rw [QueryFilter.flattenFiltersOr, holdsWithStars_or, holdsWithStars_or]
    exact b.holdsWithStars_flattenAnyChildren ih
  | and children ih =>
    rw [QueryFilter.flattenFiltersOr, HoldsWithStars, HoldsWithStars]
    induction children with
    | nil => rw [QueryFilter.flattenAllChildren]
    | cons child children ihs =>
      obtain ⟨hchild, hchildren⟩ := forall_mem_cons.1 ih
      rw [QueryFilter.flattenAllChildren, HoldsWithStarsAll, HoldsWithStarsAll, hchild, ihs hchildren]

end Flatten

/-! ### Removing star filters -/

/-- A filter without star filters that matches everything is the one that does nothing. -/
theorem removeStarFilters_of_isMatchAll
    (h : f.removeStarFilters.isMatchAll = true) :
    f.removeStarFilters = QueryFilter.newFilterNoop := by
  cases f with
  | leaf l =>
    rw [QueryFilter.removeStarFilters] at h ⊢
    split_ifs at h ⊢
    · rfl
    · contradiction
  | generic g =>
    rw [QueryFilter.removeStarFilters] at h ⊢
    split_ifs at h ⊢ with hg
    · rfl
    · exact absurd h hg
  | or children =>
    rw [QueryFilter.removeStarFilters] at h ⊢
    split_ifs at h ⊢
    · rfl
    · cases h
  | and children =>
    rw [QueryFilter.removeStarFilters] at h ⊢
    split at h
    · rfl
    · rename_i child hchild
      have hmem : child ∈ (QueryFilter.removeStarChildren children).filter fun c => !c.isMatchAll := by
        rw [hchild]
        exact mem_singleton_self child
      have hnot := (mem_filter.1 hmem).2
      rw [h] at hnot
      cases hnot
    · cases h
  | not f =>
    rw [QueryFilter.removeStarFilters] at h
    cases h

theorem mem_removeStarChildren {c : QueryFilter R L F} :
    c ∈ QueryFilter.removeStarChildren children ↔ ∃ child ∈ children, child.removeStarFilters = c := by
  induction children with
  | nil =>
    rw [QueryFilter.removeStarChildren]
    simp
  | cons child children ih =>
    rw [QueryFilter.removeStarChildren, mem_cons, ih, exists_mem_cons_iff, eq_comm]

theorem holds_of_isMatchAll (h : f.removeStarFilters.isMatchAll = true) :
    b.Holds otherHolds fieldHolds f.removeStarFilters i := by
  rw [removeStarFilters_of_isMatchAll h]
  exact b.holds_noop

/-- The children that are dropped from a conjunction hold. -/
theorem holds_and_filter (children : List (QueryFilter R L F)) :
    (∀ c ∈ (QueryFilter.removeStarChildren children).filter fun c => !c.isMatchAll,
        b.Holds otherHolds fieldHolds c i) ↔
      ∀ child ∈ children, b.Holds otherHolds fieldHolds child.removeStarFilters i := by
  constructor
  · intro h child hchild
    by_cases hall : child.removeStarFilters.isMatchAll = true
    · exact b.holds_of_isMatchAll hall
    · apply h
      rw [mem_filter, mem_removeStarChildren]
      exact ⟨⟨child, hchild, rfl⟩, by simpa using hall⟩
  · intro h c hc
    obtain ⟨child, hchild, rfl⟩ := mem_removeStarChildren.1 (mem_filter.1 hc).1
    exact h child hchild

/-- Without its star filters, a filter says what it says if they are read as true. -/
theorem holds_removeStarFilters (f : QueryFilter R L F) : b.Holds otherHolds fieldHolds f.removeStarFilters i ↔
    b.HoldsWithStars otherHolds fieldHolds i True f := by
  induction f using Filter.induction with
  | leaf l =>
    rw [QueryFilter.removeStarFilters, HoldsWithStars]
    split_ifs with hl
    · cases l with
      | noop => exact Iff.rfl
      | time lo hi | stream sf | streamId ids | other l => cases hl
    · exact Iff.rfl
  | generic g =>
    rw [QueryFilter.removeStarFilters, HoldsWithStars]
    split_ifs
    · exact iff_of_true (b.holds_noop) trivial
    · exact Iff.rfl
  | not f => rw [QueryFilter.removeStarFilters, HoldsWithStars]
  | or children hchildren =>
    rw [QueryFilter.removeStarFilters, holdsWithStars_or]
    split_ifs with hany
    · refine iff_of_true (b.holds_noop) ?_
      obtain ⟨c, hc, hall⟩ := any_eq_true.1 hany
      obtain ⟨child, hchild, rfl⟩ := mem_removeStarChildren.1 hc
      refine ⟨child, hchild, (hchildren child hchild).1 ?_⟩
      exact b.holds_of_isMatchAll hall
    · rw [holds_or]
      constructor
      · rintro ⟨c, hc, hholds⟩
        obtain ⟨child, hchild, rfl⟩ := mem_removeStarChildren.1 hc
        exact ⟨child, hchild, (hchildren child hchild).1 hholds⟩
      · rintro ⟨child, hchild, hholds⟩
        exact ⟨_, mem_removeStarChildren.2 ⟨child, hchild, rfl⟩, (hchildren child hchild).2 hholds⟩
  | and children hchildren =>
    have hkept := (b.holds_and_filter children).trans (forall₂_congr hchildren)
    rw [← holdsWithStars_and] at hkept
    rw [QueryFilter.removeStarFilters]
    split
    · rename_i hnil
      rw [hnil] at hkept
      exact iff_of_true (b.holds_noop) (hkept.1 (forall_mem_nil _))
    · rename_i child hone
      rw [hone, forall_mem_singleton] at hkept
      exact hkept
    · rw [holds_and]
      exact hkept

/-- A filter says what it says if its star filters are read as what they say. -/
theorem holdsWithStars_of_star {star : Prop}
    (hstar : ∀ g : FilterGeneric F, g.isMatchAll = true →
      (b.Holds otherHolds fieldHolds (.generic g : QueryFilter R L F) i ↔ star)) (f : QueryFilter R L F) :
    b.HoldsWithStars otherHolds fieldHolds i star f ↔ b.Holds otherHolds fieldHolds f i := by
  induction f using Filter.induction with
  | leaf l | not f => rw [HoldsWithStars]
  | generic g =>
    rw [HoldsWithStars]
    split_ifs with hg
    · exact (hstar g hg).symm
    · exact Iff.rfl
  | and children ih =>
    rw [holdsWithStars_and, holds_and]
    exact forall₂_congr ih
  | or children ih =>
    rw [holdsWithStars_or, holds_or]
    apply exists_congr
    intro child
    apply and_congr_right
    exact ih child

/-- The optimized filter says what the filter says if its star filters that are not below a negation are
read as true. -/
theorem holds_optimizeFilters (f : QueryFilter R L F) :
    b.Holds otherHolds fieldHolds f.optimizeFilters i ↔
      b.HoldsWithStars otherHolds fieldHolds i True f := by
  rw [QueryFilter.optimizeFilters, holds_mergeFiltersStream, holds_removeStarFilters,
    holdsWithStars_flattenFiltersOr, holdsWithStars_flattenFiltersAnd]

/-! ### Negations -/

/-- A negation is not optimized. -/
theorem optimizeFilters_not (f : QueryFilter R L F) :
    QueryFilter.optimizeFilters (.not f) = .not f := by
  rw [QueryFilter.optimizeFilters, QueryFilter.flattenFiltersAnd, QueryFilter.flattenFiltersOr,
    QueryFilter.removeStarFilters, QueryFilter.mergeFiltersStream]
  intro children h
  cases h

/-- The optimized filter is the filter, and exactly one of the optimized filter and the optimized negation
accepts the row, if and only if the star filters do not matter for what the filter, or the one below its
negation, says about the row. -/
theorem preserved_iff_stars {star : Prop}
    (hstar : ∀ g : FilterGeneric F, g.isMatchAll = true →
      (b.Holds otherHolds fieldHolds (.generic g : QueryFilter R L F) i ↔ star)) (f : QueryFilter R L F) :
    ((b.Holds otherHolds fieldHolds f.optimizeFilters i ↔ b.Holds otherHolds fieldHolds f i) ∧
      (b.Holds otherHolds fieldHolds f.optimizeFilters i ↔
        ¬b.Holds otherHolds fieldHolds f.parseFilterNot.optimizeFilters i)) ↔
      (b.HoldsWithStars otherHolds fieldHolds i True f.unnegated ↔
        b.HoldsWithStars otherHolds fieldHolds i star f.unnegated) := by
  have hread := b.holdsWithStars_of_star hstar
  by_cases hnot : ∃ g, f = .not g
  · obtain ⟨g, rfl⟩ := hnot
    show (_ ∧ (_ ↔ ¬b.Holds otherHolds fieldHolds (QueryFilter.optimizeFilters g) i)) ↔
      (b.HoldsWithStars otherHolds fieldHolds i True g ↔ b.HoldsWithStars otherHolds fieldHolds i star g)
    rw [optimizeFilters_not, holds_not, holds_optimizeFilters, hread g]
    tauto
  · obtain ⟨hneg, hself⟩ : f.parseFilterNot = .not f ∧ f.unnegated = f := by
      cases f with
      | not g => exact absurd ⟨g, rfl⟩ hnot
      | leaf l | generic g | and children | or children => exact ⟨rfl, rfl⟩
    rw [hneg, hself, optimizeFilters_not, holds_not, holds_optimizeFilters, hread f]
    tauto

/-! ### Runs -/

/-- A run gives the bits of the rows that are selected. -/
theorem exists_run {P : Nat → Prop} {apply : BitmapStep (BlockSearch (SearchContext R κ))}
    (h : Selects b.searched.rows (BlockSearch.Searches b.searched) P apply) {bs : BlockSearch (SearchContext R κ)}
    (hbs : BlockSearch.Searches b.searched bs) {bm : Bitmap} (hbm : bm.bitsLen = b.timestamps.length) :
    ∃ r, apply bs bm = .ok r ∧ ∀ i, bm.isSetBit i = true → (r.2.isSetBit i = true ↔ P i) := by
  obtain ⟨bs', bm', happly, -, -, hbits⟩ := h bs bm hbs hbm
  refine ⟨(bs', bm'), happly, ?_⟩
  intro i hi
  rw [hbits i]
  exact and_iff_right hi

/-- The optimized filter leaves a row if and only if the filter does, and exactly one of the optimized
filter and the optimized negation leaves it, exactly if the row has a message or the star filters do not
matter for it. -/
theorem optimizeFilters_preserves_iff [LeafFilter L (SearchContext R κ)]
    [FieldFilter F (SearchContext R κ)] (f : QueryFilter R L F) (otherHolds : L → Nat → Prop)
    (fieldHolds : F → Bytes → Nat → Prop) (hasMessage : Nat → Prop)
    (hother : ∀ l, Selects b.searched.rows (BlockSearch.Searches b.searched) (otherHolds l)
      (LeafFilter.applyToBlockSearch l))
    (hfield : ∀ g name, Selects b.searched.rows (BlockSearch.Searches b.searched) (fieldHolds g name)
      (FieldFilter.applyToBlockSearchByField g name))
    (hstar : ∀ g name i, EmptyPrefix.isEmptyPrefix g = true → isMsgFieldName name = true →
      (fieldHolds g name i ↔ hasMessage i))
    (bs : BlockSearch (SearchContext R κ)) (hbs : BlockSearch.Searches b.searched bs)
    (bm : Bitmap) (hbm : bm.bitsLen = b.timestamps.length) :
    ∃ original optimized negated, f.applyToBlockSearch bs bm = .ok original ∧
      f.optimizeFilters.applyToBlockSearch bs bm = .ok optimized ∧
      f.parseFilterNot.optimizeFilters.applyToBlockSearch bs bm = .ok negated ∧
      ∀ i, bm.isSetBit i = true →
        (optimized.2.isSetBit i = original.2.isSetBit i ∧
            optimized.2.isSetBit i = !negated.2.isSetBit i ↔
          hasMessage i ∨ (b.HoldsWithStars otherHolds fieldHolds i True f.unnegated ↔
            b.HoldsWithStars otherHolds fieldHolds i False f.unnegated)) := by
  have hselects := b.applyToBlockSearch_selects hother hfield
  obtain ⟨original, horiginal, hbits⟩ := b.exists_run (hselects f) hbs hbm
  obtain ⟨optimized, hoptimized, hbits'⟩ := b.exists_run (hselects f.optimizeFilters) hbs hbm
  obtain ⟨negated, hnegated, hbits''⟩ := b.exists_run (hselects f.parseFilterNot.optimizeFilters) hbs hbm
  refine ⟨original, optimized, negated, horiginal, hoptimized, hnegated, ?_⟩
  intro i hi
  have hgeneric : ∀ g : FilterGeneric F, g.isMatchAll = true →
      (b.Holds otherHolds fieldHolds (.generic g : QueryFilter R L F) i ↔ hasMessage i) := by
    intro g hg
    simp only [FilterGeneric.isMatchAll, Bool.and_eq_true, Bool.not_eq_true'] at hg
    unfold Holds
    rw [Filter.Holds, FilterGeneric.Holds, if_neg (by simp [hg.1.1])]
    exact hstar g.f g.fieldName i hg.2 hg.1.2
  have hpreserved := b.preserved_iff_stars hgeneric f
  rw [← hbits i hi, ← hbits' i hi, ← hbits'' i hi, ← Bool.eq_iff_iff, Bool.not_eq_true,
    ← Bool.not_eq_true', ← Bool.eq_iff_iff] at hpreserved
  rw [hpreserved]
  by_cases hmessage : hasMessage i
  · rw [eq_true hmessage]
    simp
  · rw [eq_false hmessage, false_or]

end EsLogs.StoredBlock

namespace EsLogs

/-! ### Samples -/

/-- `*`, over blocks whose messages are known. -/
inductive AnyMessage where
  | star

def AnyMessage.apply (name : Bytes) : BitmapStep (BlockSearch (SearchContext Empty (List Bytes))) :=
  fun bs bm =>
    .ok (bs, bm.forEachSetBit fun i => isMsgFieldName name && (bs.caches.caches.getD i []) != [])

instance : FieldFilter AnyMessage (SearchContext Empty (List Bytes)) where
  matchRowByField _ fields name := fields.any fun f => f.name == name && f.value != []
  applyToBlockSearchByField _ name := AnyMessage.apply name
  applyToBlockResultByField _ _ := fun br bm => .ok (br, bm)

/-- No leaves but those that the planner knows. -/
inductive NoLeaf

instance : LeafFilter NoLeaf (SearchContext Empty (List Bytes)) where
  applyToBlockSearch l := nomatch l
  applyToBlockResult l := nomatch l

instance : EmptyPrefix AnyMessage where
  isEmptyPrefix _ := true

/-- A block of a row with a message and a row without one. -/
def sampleMessages : StoredBlock Empty (List Bytes) where
  blockHeader := ⟨default, 0, 2, ⟨0, 0, 5, 7, 0⟩, 0, 0, 0, 0⟩
  timestamps := [5, 7]
  tenantIds := []
  idb := ⟨fun _ _ => []⟩
  hiddenFieldsFilter := ⟨⟨[], []⟩, ⟨[], []⟩⟩
  columnsHeader := ⟨[], []⟩
  caches messages := messages = [ascii "foo", []]
  within := sampleStoredBlock.within
  in_i64 := sampleStoredBlock.in_i64

def sampleMessagesSearch : BlockSearch (SearchContext Empty (List Bytes)) where
  hiddenFieldsFilter := ⟨⟨[], []⟩, ⟨[], []⟩⟩
  columnsHeader := .ok ⟨[], []⟩
  cshCache := none
  caches := ⟨sampleMessages.blockHeader, .ok [5, 7], [], ⟨fun _ _ => []⟩, [ascii "foo", []]⟩

def sampleStar : QueryFilter Empty NoLeaf AnyMessage := .generic (.new [] .star)

theorem AnyMessage.apply_selects (name : Bytes) :
    Selects sampleMessages.searched.rows (BlockSearch.Searches sampleMessages.searched)
      (fun i => isMsgFieldName name = true ∧ i = 0) (AnyMessage.apply name) := by
  intro bs bm hbs hbm
  refine ⟨bs, _, rfl, hbs, hbm, ?_⟩
  intro i
  have hmessages : bs.caches.caches = [ascii "foo", []] := hbs.caches.2.2.2.2
  rw [Bitmap.isSetBit_forEachSetBit, Bool.and_eq_true, hmessages, Bool.and_eq_true]
  apply and_congr_right
  intro hi
  have hlt : i < 2 := (Bitmap.lt_of_isSetBit hi).trans_eq hbm
  interval_cases i
  · simp [ascii]
  · simp

theorem optimizeFilters_preserves_sampleStar :
    ∃ original optimized negated,
      sampleStar.applyToBlockSearch sampleMessagesSearch (Bitmap.init 2).setBits = .ok original ∧
      sampleStar.optimizeFilters.applyToBlockSearch sampleMessagesSearch (Bitmap.init 2).setBits =
        .ok optimized ∧
      sampleStar.parseFilterNot.optimizeFilters.applyToBlockSearch sampleMessagesSearch
        (Bitmap.init 2).setBits = .ok negated ∧
      optimized.2.isSetBit 0 = original.2.isSetBit 0 ∧
      optimized.2.isSetBit 0 = !negated.2.isSetBit 0 := by
  obtain ⟨original, optimized, negated, horiginal, hoptimized, hnegated, hbits⟩ :=
    sampleMessages.optimizeFilters_preserves_iff sampleStar (fun l _ => nomatch l)
      (fun _ name i => isMsgFieldName name = true ∧ i = 0) (fun i => i = 0) (fun l => nomatch l)
      (fun _ name => AnyMessage.apply_selects name) (fun _ _ _ _ hname => and_iff_right hname)
      sampleMessagesSearch ⟨rfl, rfl, fun _ hcsh => (nomatch hcsh), rfl, rfl, rfl, rfl, rfl⟩
      (Bitmap.init 2).setBits rfl
  exact ⟨original, optimized, negated, horiginal, hoptimized, hnegated, (hbits 0 (by decide)).2 (.inl rfl)⟩

/-- The row without a message: `*` asks for a message, but is optimized to a filter that accepts the row,
and so does `!*`, which is not optimized. -/
theorem optimizeFilters_star_differs :
    (sampleStar.applyToBlockSearch sampleMessagesSearch (Bitmap.init 2).setBits).toOption.map
        (fun r => r.2.isSetBit 1) = some false ∧
      (sampleStar.optimizeFilters.applyToBlockSearch sampleMessagesSearch
        (Bitmap.init 2).setBits).toOption.map (fun r => r.2.isSetBit 1) = some true ∧
      (sampleStar.parseFilterNot.optimizeFilters.applyToBlockSearch sampleMessagesSearch
        (Bitmap.init 2).setBits).toOption.map (fun r => r.2.isSetBit 1) = some true := by
  decide +kernel

end EsLogs
