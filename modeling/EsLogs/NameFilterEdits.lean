import EsLogs.FilterTree

/-!
Editing a filter by name (`prefix_filter.rs`). A filter has a list of what it allows and one of what it denies, each of
full strings and of wildcards. Both lists are pruned with every edit, and the denied names are dropped when no wildcard
is allowed any more. As sets of strings the edits are a difference and an extension; this rests on the invariant that
no string which is allowed in full is denied.
-/

namespace EsLogs

open List

/-! ### Edits of one list -/

namespace InnerFilter

/-- `InnerFilter::default` and `InnerFilter::reset`. -/
def empty : InnerFilter := ⟨[], []⟩

def addFullString (f : InnerFilter) (s : Bytes) : InnerFilter :=
  if !f.matchString s then { f with fullStrings := f.fullStrings ++ [s] } else f

def removeFullString (f : InnerFilter) (s : Bytes) : InnerFilter :=
  { f with fullStrings := f.fullStrings.filter fun x => x != s }

def dropWildcard (f : InnerFilter) (wildcard : Bytes) : InnerFilter where
  wildcards := f.wildcards.filter fun wc => !wildcard.isPrefixOf wc
  fullStrings := f.fullStrings.filter fun s => !wildcard.isPrefixOf s

def addWildcard (f : InnerFilter) (wildcard : Bytes) : InnerFilter :=
  if !f.matchWildcard wildcard then
    let f := f.dropWildcard wildcard
    { f with wildcards := f.wildcards ++ [wildcard] }
  else f

def addFilter (f : InnerFilter) (filter : Bytes) : InnerFilter :=
  if !isWildcardFilter filter then f.addFullString filter else f.addWildcard filter.dropLast

def removeFilter (f : InnerFilter) (filter : Bytes) (removeBroaderWildcards : Bool) : InnerFilter :=
  let f := if !isWildcardFilter filter then f.removeFullString filter else f.dropWildcard filter.dropLast
  if removeBroaderWildcards then
    let s := if isWildcardFilter filter then filter.dropLast else filter
    { f with wildcards := f.wildcards.filter fun wc => !wc.isPrefixOf s }
  else f

def matchWildcardFilter (f : InnerFilter) (wildcard : Bytes) : Bool :=
  f.wildcards.any (fun wc => wc.isPrefixOf wildcard || wildcard.isPrefixOf wc) ||
    f.fullStrings.any fun s => wildcard.isPrefixOf s

end InnerFilter

/-! ### Edits of a filter -/

def matchFilter (filter s : Bytes) : Bool :=
  if !isWildcardFilter filter then filter == s else filter.dropLast.isPrefixOf s

namespace NameFilter

def empty : NameFilter := ⟨.empty, .empty⟩

def matchStringOrWildcard (f : NameFilter) (s : Bytes) : Bool :=
  if !isWildcardFilter s then f.matchString s
  else f.allow.matchWildcardFilter s.dropLast && !f.deny.matchWildcard s.dropLast

def normalize (f : NameFilter) : NameFilter := if f.allow.wildcards.isEmpty then { f with deny := .empty } else f

def addAllowFilter (f : NameFilter) (filter : Bytes) : NameFilter :=
  normalize ⟨f.allow.addFilter filter, f.deny.removeFilter filter true⟩

def addDenyFilter (f : NameFilter) (filter : Bytes) : NameFilter :=
  if !f.matchStringOrWildcard filter then f
  else normalize ⟨f.allow.removeFilter filter false, f.deny.addFilter filter⟩

inductive Edit where
  | allow (filter : Bytes)
  | deny (filter : Bytes)
  deriving DecidableEq, Repr

def edit (f : NameFilter) : Edit → NameFilter
  | .allow filter => f.addAllowFilter filter
  | .deny filter => f.addDenyFilter filter

def edited (edits : List Edit) : NameFilter := edits.foldl edit .empty

end NameFilter

/-! ### Sets of strings -/

/-- The strings that match a filter text: one string, or all with the text in front of the `*`. -/
def filterStrings (filter : Bytes) : Set Bytes := {s | matchFilter filter s = true}

theorem mem_filterStrings_full {filter s : Bytes} (h : isWildcardFilter filter = false) :
    s ∈ filterStrings filter ↔ s = filter := by
  simp [filterStrings, matchFilter, h]

theorem mem_filterStrings_wildcard {filter s : Bytes} (h : isWildcardFilter filter = true) :
    s ∈ filterStrings filter ↔ filter.dropLast <+: s := by
  simp [filterStrings, matchFilter, h]

namespace InnerFilter

variable (f : InnerFilter) (filter s : Bytes)

/-- The strings that match a list. -/
def strings : Set Bytes := {s | (∃ wc ∈ f.wildcards, wc <+: s) ∨ s ∈ f.fullStrings}

theorem matchWildcard_iff : f.matchWildcard s = true ↔ ∃ wc ∈ f.wildcards, wc <+: s := by
  simp [matchWildcard]

theorem matchString_iff : f.matchString s = true ↔ s ∈ f.strings := by
  rw [matchString, strings, Set.mem_ofPred_eq, ← matchWildcard_iff]
  by_cases hempty : (f.fullStrings.isEmpty && f.wildcards.isEmpty) = true
  · rw [if_pos hempty]
    rw [Bool.and_eq_true, List.isEmpty_iff, List.isEmpty_iff] at hempty
    simp [matchWildcard, hempty]
  · rw [if_neg hempty]
    simp

@[simp]
theorem strings_empty : empty.strings = ∅ := by
  ext s
  simp [strings, empty]

theorem mem_fullStrings_removeFilter {broader : Bool} :
    s ∈ (f.removeFilter filter broader).fullStrings ↔ s ∈ f.fullStrings ∧ s ∉ filterStrings filter := by
  cases hwild : isWildcardFilter filter with
  | false =>
    rw [mem_filterStrings_full hwild]
    cases broader <;> simp [removeFilter, hwild, removeFullString]
  | true =>
    rw [mem_filterStrings_wildcard hwild]
    cases broader <;> simp [removeFilter, hwild, dropWildcard, ← Bool.not_eq_true]

theorem mem_wildcards_removeFilter {broader : Bool} {wc : Bytes} :
    wc ∈ (f.removeFilter filter broader).wildcards ↔ wc ∈ f.wildcards ∧
      (isWildcardFilter filter = true → ¬filter.dropLast <+: wc) ∧
      (broader = true → ¬wc <+: if isWildcardFilter filter then filter.dropLast else filter) := by
  cases hwild : isWildcardFilter filter <;> cases broader <;>
    simp [removeFilter, hwild, removeFullString, dropWildcard, ← Bool.not_eq_true, and_comm]

theorem removeFilter_subset (broader : Bool) : (f.removeFilter filter broader).strings ⊆ f.strings := by
  rintro s (⟨wc, hwc, hs⟩ | hs)
  · exact .inl ⟨wc, ((f.mem_wildcards_removeFilter filter).1 hwc).1, hs⟩
  · exact .inr ((f.mem_fullStrings_removeFilter filter s).1 hs).1

/-- Without the broader wildcards, only strings of the filter are lost. -/
theorem strings_removeFilter : f.strings \ filterStrings filter ⊆ (f.removeFilter filter false).strings := by
  rintro s ⟨⟨wc, hwc, hle⟩ | hs, hfilter⟩
  · -- a wildcard that was dropped has only strings that are dropped
    refine .inl ⟨wc, (f.mem_wildcards_removeFilter filter).2 ⟨hwc, fun hwild hlong => hfilter ?_, nofun⟩, hle⟩
    exact (mem_filterStrings_wildcard hwild).2 (hlong.trans hle)
  · exact .inr ((f.mem_fullStrings_removeFilter filter s).2 ⟨hs, hfilter⟩)

/-- A filter that is added extends the list by its strings. -/
theorem strings_addFilter : (f.addFilter filter).strings = f.strings ∪ filterStrings filter := by
  ext s
  rw [Set.mem_union]
  unfold addFilter
  cases hwild : isWildcardFilter filter with
  | false =>
    rw [mem_filterStrings_full hwild, Bool.not_false, if_pos rfl, addFullString]
    by_cases hmatch : f.matchString filter = true
    · have hmem := (f.matchString_iff filter).1 hmatch
      rw [hmatch, Bool.not_true, if_neg (by decide), iff_comm, or_iff_left_iff_imp]
      rintro rfl
      exact hmem
    · rw [Bool.not_eq_true] at hmatch
      rw [hmatch, Bool.not_false, if_pos rfl]
      simp only [strings, Set.mem_ofPred_eq, mem_append, mem_singleton, or_assoc]
  | true =>
    rw [mem_filterStrings_wildcard hwild, Bool.not_true, if_neg (by decide), addWildcard]
    by_cases hmatch : f.matchWildcard filter.dropLast = true
    · obtain ⟨wc, hwc, hle⟩ := (f.matchWildcard_iff _).1 hmatch
      rw [hmatch, Bool.not_true, if_neg (by decide), iff_comm, or_iff_left_iff_imp]
      exact fun hs => .inl ⟨wc, hwc, hle.trans hs⟩
    · rw [Bool.not_eq_true] at hmatch
      rw [hmatch, Bool.not_false, if_pos rfl]
      have hdrop : f.dropWildcard filter.dropLast = f.removeFilter filter false := by simp [removeFilter, hwild]
      have hadded : s ∈ ({ f.removeFilter filter false with
          wildcards := (f.removeFilter filter false).wildcards ++ [filter.dropLast] } : InnerFilter).strings ↔
          s ∈ (f.removeFilter filter false).strings ∨ filter.dropLast <+: s := by
        simp only [strings, Set.mem_ofPred_eq, mem_append, mem_singleton, or_and_right, exists_or,
          exists_eq_left]
        exact or_right_comm
      rw [hdrop, hadded]
      constructor
      · exact Or.imp_left fun hs => f.removeFilter_subset filter false hs
      · intro hs
        refine or_iff_not_imp_right.2 fun hle => f.strings_removeFilter filter ⟨hs.resolve_right hle, ?_⟩
        rwa [mem_filterStrings_wildcard hwild]

/-- With the broader wildcards, no string of the filter is left. -/
theorem notMem_removeFilter_broader (hs : s ∈ filterStrings filter) : s ∉ (f.removeFilter filter true).strings := by
  rintro (⟨wc, hwc, hle⟩ | hfull)
  · obtain ⟨-, hlong, hshort⟩ := (f.mem_wildcards_removeFilter filter).1 hwc
    cases hwild : isWildcardFilter filter with
    | false =>
      rw [hwild, if_neg (by decide), ← (mem_filterStrings_full hwild).1 hs] at hshort
      exact hshort rfl hle
    | true =>
      -- both texts start the string, so one of them starts the other
      rw [hwild, if_pos rfl] at hshort
      rcases prefix_or_prefix_of_prefix hle ((mem_filterStrings_wildcard hwild).1 hs) with hle | hle
      · exact hshort rfl hle
      · exact hlong hwild hle
  · exact ((f.mem_fullStrings_removeFilter filter s).1 hfull).2 hs

theorem fullStrings_addFilter (hs : s ∈ (f.addFilter filter).fullStrings) :
    s ∈ f.fullStrings ∨ s ∈ filterStrings filter := by
  unfold addFilter at hs
  cases hwild : isWildcardFilter filter with
  | false =>
    rw [hwild, Bool.not_false, if_pos rfl, addFullString] at hs
    rw [mem_filterStrings_full hwild]
    split at hs
    · simpa using hs
    · exact .inl hs
  | true =>
    rw [hwild, Bool.not_true, if_neg (by decide), addWildcard] at hs
    left
    split at hs
    · exact mem_of_mem_filter hs
    · exact hs

/-- A wildcard meets the list if a string that starts with it matches. -/
theorem matchWildcardFilter_of_mem {w : Bytes} (hs : s ∈ f.strings) (hw : w <+: s) :
    f.matchWildcardFilter w = true := by
  rw [matchWildcardFilter, Bool.or_eq_true]
  rcases hs with ⟨wc, hwc, hle⟩ | hs
  · left
    refine any_eq_true.2 ⟨wc, hwc, ?_⟩
    simpa using prefix_or_prefix_of_prefix hle hw
  · right
    exact any_eq_true.2 ⟨s, hs, by simpa using hw⟩

end InnerFilter

/-! ### Filters as sets -/

namespace NameFilter

variable {f : NameFilter} {filter s : Bytes}

/-- The strings that match a filter. -/
def strings (f : NameFilter) : Set Bytes := {s | f.matchString s = true}

theorem mem_strings_iff : s ∈ f.strings ↔ s ∈ f.allow.strings ∧ s ∉ f.deny.strings := by
  rw [strings, Set.mem_ofPred_eq, matchString, Bool.and_eq_true, Bool.not_eq_true', ← Bool.not_eq_true,
    InnerFilter.matchString_iff, InnerFilter.matchString_iff]

/-- No string that is allowed in full is denied. -/
def Consistent (f : NameFilter) : Prop := ∀ s ∈ f.allow.fullStrings, s ∉ f.deny.strings

/-- Without wildcards only full strings match, and none of them is denied. -/
theorem Consistent.strings_normalize (h : f.Consistent) : f.normalize.strings = f.strings := by
  unfold normalize
  split
  case isFalse => rfl
  case isTrue hempty =>
      ext s
      rw [mem_strings_iff, mem_strings_iff, InnerFilter.strings_empty]
      rw [List.isEmpty_iff] at hempty
      constructor
      · rintro ⟨hs, -⟩
        refine ⟨hs, ?_⟩
        rcases hs with ⟨wc, hwc, -⟩ | hs
        · rw [hempty] at hwc
          cases hwc
        · exact h s hs
      · rintro ⟨hs, -⟩
        exact ⟨hs, Set.notMem_empty s⟩

theorem Consistent.normalize (h : f.Consistent) : f.normalize.Consistent := by
  unfold NameFilter.normalize
  split
  · intro s _
    rw [InnerFilter.strings_empty]
    exact Set.notMem_empty s
  · exact h

theorem Consistent.allowed (h : f.Consistent) (filter : Bytes) :
    Consistent ⟨f.allow.addFilter filter, f.deny.removeFilter filter true⟩ := by
  intro s hs hdeny
  rcases f.allow.fullStrings_addFilter filter s hs with hs | hs
  · exact h s hs (f.deny.removeFilter_subset filter true hdeny)
  · exact f.deny.notMem_removeFilter_broader filter s hs hdeny

theorem Consistent.denied (h : f.Consistent) (filter : Bytes) :
    Consistent ⟨f.allow.removeFilter filter false, f.deny.addFilter filter⟩ := by
  intro s hs hdeny
  obtain ⟨hfull, hfilter⟩ := (f.allow.mem_fullStrings_removeFilter filter s).1 hs
  rw [InnerFilter.strings_addFilter] at hdeny
  rcases hdeny with hdeny | hdeny
  · exact h s hfull hdeny
  · exact hfilter hdeny

/-- One step: an edit keeps the invariant. -/
theorem Consistent.edit (h : f.Consistent) (e : Edit) : (f.edit e).Consistent := by
  cases e with
  | allow filter => exact (h.allowed filter).normalize
  | deny filter =>
    unfold NameFilter.edit addDenyFilter
    dsimp only
    split
    · exact h
    · exact (h.denied filter).normalize

/-- Whole runs: the invariant holds after any edits. -/
theorem consistent_edited (edits : List Edit) : (edited edits).Consistent := by
  unfold edited
  have hempty : NameFilter.empty.Consistent := fun s hs => nomatch hs
  generalize NameFilter.empty = f at hempty
  induction edits generalizing f with
  | nil => exact hempty
  | cons e edits ih => exact ih _ (hempty.edit e)

/-! ### What the edits do -/

/-- A filter text that meets no string of the filter has nothing to deny. -/
theorem disjoint_of_not_match (h : f.matchStringOrWildcard filter = false) (hs : s ∈ filterStrings filter) :
    s ∉ f.strings := by
  rw [mem_strings_iff]
  rintro ⟨hallow, hdeny⟩
  unfold matchStringOrWildcard at h
  cases hwild : isWildcardFilter filter with
  | false =>
    rw [mem_filterStrings_full hwild] at hs
    rw [hwild, Bool.not_false, if_pos rfl] at h
    have hmem : filter ∈ f.strings := mem_strings_iff.2 (hs ▸ ⟨hallow, hdeny⟩)
    rw [strings, Set.mem_ofPred_eq, h] at hmem
    cases hmem
  | true =>
    rw [mem_filterStrings_wildcard hwild] at hs
    rw [hwild, Bool.not_true, if_neg (by decide), f.allow.matchWildcardFilter_of_mem s hallow hs, Bool.true_and,
      Bool.not_eq_false', InnerFilter.matchWildcard_iff] at h
    obtain ⟨wc, hwc, hle⟩ := h
    exact hdeny (.inl ⟨wc, hwc, hle.trans hs⟩)

theorem strings_addDenyFilter (h : f.Consistent) (filter : Bytes) :
    (f.addDenyFilter filter).strings = f.strings \ filterStrings filter := by
  unfold addDenyFilter
  cases hmatch : f.matchStringOrWildcard filter with
  | false =>
    rw [Bool.not_false, if_pos rfl]
    exact (sdiff_eq_left.2 (Set.disjoint_right.2 fun s => disjoint_of_not_match hmatch)).symm
  | true =>
    rw [Bool.not_true, if_neg (by decide), (h.denied filter).strings_normalize]
    ext s
    rw [Set.mem_sdiff, mem_strings_iff, mem_strings_iff, InnerFilter.strings_addFilter, Set.mem_union, not_or]
    constructor
    · rintro ⟨hallow, hdeny, hfilter⟩
      exact ⟨⟨f.allow.removeFilter_subset filter false hallow, hdeny⟩, hfilter⟩
    · rintro ⟨⟨hallow, hdeny⟩, hfilter⟩
      exact ⟨f.allow.strings_removeFilter filter ⟨hallow, hfilter⟩, hdeny, hfilter⟩

theorem subset_addAllowFilter (h : f.Consistent) (filter : Bytes) :
    f.strings ∪ filterStrings filter ⊆ (f.addAllowFilter filter).strings := by
  rw [addAllowFilter, (h.allowed filter).strings_normalize]
  rintro s (hs | hs)
  · rw [mem_strings_iff] at hs ⊢
    rw [InnerFilter.strings_addFilter]
    exact ⟨.inl hs.1, fun hdeny => hs.2 (f.deny.removeFilter_subset filter true hdeny)⟩
  · rw [mem_strings_iff, InnerFilter.strings_addFilter]
    exact ⟨.inr hs, f.deny.notMem_removeFilter_broader filter s hs⟩

theorem matchStringOrWildcard_of_mem {w : Bytes} (hs : s ∈ f.strings) (hw : w <+: s) :
    f.matchStringOrWildcard (w ++ [byte '*']) = true := by
  have hwild : isWildcardFilter (w ++ [byte '*']) = true := by simp [isWildcardFilter]
  by_contra hmatch
  rw [Bool.not_eq_true] at hmatch
  refine disjoint_of_not_match hmatch ?_ hs
  rw [mem_filterStrings_wildcard hwild, dropLast_concat]
  exact hw

/-- After any calls, a filter that is denied takes exactly its strings away, a filter that is allowed adds its strings
and takes none away, and a wildcard meets the filter whenever a string that starts with it matches. -/
theorem edited_exact (edits : List Edit) (filter : Bytes) :
    ((edited edits).addDenyFilter filter).strings = (edited edits).strings \ filterStrings filter ∧
      (edited edits).strings ∪ filterStrings filter ⊆ ((edited edits).addAllowFilter filter).strings ∧
      ∀ w s, s ∈ (edited edits).strings → w <+: s →
        (edited edits).matchStringOrWildcard (w ++ [byte '*']) = true := by
  have hconsistent := consistent_edited edits
  refine ⟨strings_addDenyFilter hconsistent filter, subset_addAllowFilter hconsistent filter, ?_⟩
  intro w s hs hw
  exact matchStringOrWildcard_of_mem hs hw

/-- With `a*` allowed and `ab` denied, denying `ac` leaves `ad`. -/
theorem edited_exact_sample :
    ascii "ad" ∈ ((edited [.allow (ascii "a*"), .deny (ascii "ab")]).addDenyFilter (ascii "ac")).strings := by
  rw [(edited_exact _ _).1]
  constructor
  · show matchString _ _ = true
    decide +kernel
  · show ¬matchFilter _ _ = true
    decide +kernel

end NameFilter

end EsLogs
