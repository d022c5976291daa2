import EsLogs.LastN
import EsLogs.Largest

/-!
When the search for the last rows finds them. The loop keeps all rows from the end of its range on, and
below the range it has come from there are enough rows for what is missing. Which ranges it comes to depends
on the numbers of rows alone. As long as these can be halved, it goes wrong exactly where a row lies at the
end of a range that is sorted, because that end is taken twice.
-/

namespace EsLogs.LastN

open Largest List

/-! ### Rows from a time on -/

def countSince (rows : List Row) (t : Int) : Nat := rows.countP fun r => t ≤ r.timestamp

section Counting

variable {rows l : List Row} {start stop : Int}

theorem countSince_append (a b : List Row) (t : Int) : countSince (a ++ b) t = countSince a t + countSince b t :=
  countP_append

theorem countSince_perm (h : rows.Perm l) (t : Int) : countSince rows t = countSince l t :=
  h.countP_eq _

theorem countSince_le (h : start ≤ stop) : countSince rows stop ≤ countSince rows start :=
  countP_mono_left fun _ _ hr => decide_eq_true (h.trans (of_decide_eq_true hr))

theorem countSince_eq_length (h : ∀ r ∈ rows, start ≤ r.timestamp) : countSince rows start = rows.length :=
  countP_eq_length.2 fun r hr => decide_eq_true (h r hr)

end Counting

namespace Query

variable (q : Query) {start stop : Int}

def count (t : Int) : Nat := countSince q.selected t

def since (t : Int) : List Row := q.selected.filter fun r => t ≤ r.timestamp

/-- The selected rows from one time up to another one. -/
def within (start stop : Int) : List Row :=
  q.selected.filter fun r => start ≤ r.timestamp ∧ r.timestamp < stop

theorem count_le (h : start ≤ stop) : q.count stop ≤ q.count start := countSince_le h

theorem length_since (t : Int) : (q.since t).length = q.count t := countP_eq_length_filter.symm

theorem countSince_since (t bound : Int) :
    countSince (q.since t) bound = min (q.count t) (q.count bound) := by
  have hmax : countSince (q.since t) bound = q.count (max t bound) := by
    rw [since, countSince, countP_filter]
    apply countP_congr
    intro r _
    simp only [Bool.and_eq_true, decide_eq_true_eq, max_le_iff]
    exact and_comm
  rcases le_total t bound with h | h
  · rw [hmax, max_eq_right h, min_eq_right (q.count_le h)]
  · rw [hmax, max_eq_left h, min_eq_left (q.count_le h)]

theorem since_perm (h : start ≤ stop) : (q.since start).Perm (q.since stop ++ q.within start stop) := by
  have hsplit := filter_append_perm (fun r : Row => decide (stop ≤ r.timestamp)) (q.since start)
  rw [since, filter_filter, filter_filter] at hsplit
  refine hsplit.symm.trans (Perm.append ?_ ?_) <;> apply Perm.of_eq <;> apply filter_congr <;> intro r _
  · rw [← Bool.decide_and, decide_eq_decide]
    omega
  · rw [← decide_not, ← Bool.decide_and, decide_eq_decide]
    omega

theorem countSince_within (h : start ≤ stop) (bound : Int) :
    countSince (q.within start stop) bound + min (q.count stop) (q.count bound) =
      min (q.count start) (q.count bound) := by
  rw [← countSince_since, ← countSince_since, countSince_perm (q.since_perm h), countSince_append, Nat.add_comm]

theorem length_within (h : start ≤ stop) : (q.within start stop).length + q.count stop = q.count start := by
  have hall : countSince (q.within start stop) start = (q.within start stop).length :=
    countSince_eq_length fun r hr => (of_decide_eq_true (mem_filter.1 hr).2).1
  have hcount := q.countSince_within h start
  rwa [hall, min_eq_left (q.count_le h), min_self] at hcount

/-- Where the number of rows does not change, there are no rows. -/
theorem within_eq_nil (h : start ≤ stop) (heq : q.count start = q.count stop) : q.within start stop = [] := by
  have hlen := q.length_within h
  exact eq_nil_of_length_eq_zero (by omega)

theorem within_eq_within {t : Int} (h : stop ≤ t) (heq : q.count stop = q.count t) (start : Int) :
    q.within start t = q.within start stop := by
  have hnil := q.within_eq_nil h heq
  apply filter_congr
  intro r hr
  have hout := filter_eq_nil_iff.1 hnil r hr
  rw [decide_eq_true_eq] at hout
  rw [decide_eq_decide]
  omega

/-- What the search takes for granted: the option `time_offset` is not used, the subqueries give the same for
the rows of a range when they see that range only, and no row has the last time there is. -/
structure Plain : Prop where
  timeOffset_eq : q.timeOffset = 0
  subqueries : ∀ start stop,
    (q.rows (max q.minSubqueries start) (min q.maxSubqueries stop)).filter
        (fun r => start ≤ r.timestamp ∧ r.timestamp ≤ stop) =
      (q.rows q.minSubqueries q.maxSubqueries).filter fun r => start ≤ r.timestamp ∧ r.timestamp ≤ stop
  maxTimestamp_le : q.maxTimestamp ≤ QueryFilter.i64Max
  not_last : ∀ r ∈ q.selected, r.timestamp ≠ QueryFilter.i64Max

variable {q}

theorem Plain.selected_cloneWithTimeFilter (hq : q.Plain) (start stop : Int) :
    (q.cloneWithTimeFilter start stop).selected =
      q.selected.filter fun r => start ≤ r.timestamp ∧ r.timestamp ≤ stop := by
  have hrows := congrArg (filter fun r : Row => q.minTimestamp ≤ r.timestamp ∧ r.timestamp ≤ q.maxTimestamp)
    (hq.subqueries start stop)
  rw [filter_filter, filter_filter] at hrows
  rw [selected, selected, filter_filter, cloneWithTimeFilter]
  simp only [hq.timeOffset_eq, Int.sub_zero]
  refine Eq.trans ?_ (hrows.trans ?_) <;> apply filter_congr <;> intro r _ <;> rw [← Bool.decide_and]
  · rw [decide_eq_decide, max_le_iff, le_min_iff]
    tauto
  · rw [← Bool.decide_and, decide_eq_decide]
    exact and_comm

theorem Plain.selected_below (hq : q.Plain) (start stop : Int) :
    (q.cloneWithTimeFilter start (stop - 1)).selected = q.within start stop := by
  rw [hq.selected_cloneWithTimeFilter, within]
  apply filter_congr
  intro r _
  rw [decide_eq_decide, Int.le_sub_one_iff]

/-- All rows are in the range that the search begins with. -/
theorem Plain.count_ends (hq : q.Plain) :
    q.count q.minTimestamp = q.selected.length ∧ q.count (nextTime q.maxTimestamp) = 0 := by
  have hin : ∀ r ∈ q.selected, q.minTimestamp ≤ r.timestamp ∧ r.timestamp ≤ q.maxTimestamp := by
    intro r hr
    have hrange := of_decide_eq_true (mem_filter.1 hr).2
    rwa [hq.timeOffset_eq, Int.sub_zero] at hrange
  refine ⟨countSince_eq_length fun r hr => (hin r hr).1, countP_eq_zero.2 ?_⟩
  intro r hr
  have hlast := hq.not_last r hr
  have hmax := hq.maxTimestamp_le
  have hle := (hin r hr).2
  rw [decide_eq_true_eq, nextTime, min_le_iff]
  omega

end Query

/-! ### The ranges of the search -/

def middle (lo stop : Int) : Int := lo + halfLength lo stop

theorem middle_spec {lo stop : Int} (h : lo ≤ stop) : lo ≤ middle lo stop ∧ middle lo stop ≤ stop := by
  have h1 := half_spec lo
  have h2 := half_spec stop
  simp only [middle, halfLength]
  omega

/-- What has been taken off is found again: the range below ends where the range from `lo` on has its
half. -/
theorem middle_extend (lo stop : Int) :
    middle lo stop - halfLength (middle lo stop) stop = middle lo (middle lo stop) := by
  simp only [middle, halfLength]
  omega

/-- The ranges, from `lo` up to `stop`, whose upper halves the search looks at; they depend on the numbers of rows
only. The upper half comes next if it has twice as many rows as are missing, and the lower half if it has too
few. -/
inductive Query.Visits (q : Query) (limit : Nat) : Int → Int → Prop where
  | whole : 0 < limit → 2 * limit ≤ q.count q.minTimestamp →
      q.Visits limit q.minTimestamp (nextTime q.maxTimestamp)
  | narrow {lo stop : Int} : q.Visits limit lo stop → 2 * limit ≤ q.count (middle lo stop) + q.count stop →
      canApplyLastNResultsOptimization (middle lo stop) stop = true → q.Visits limit (middle lo stop) stop
  | extend {lo stop : Int} : q.Visits limit lo stop → 0 < halfLength (middle lo stop) stop →
      q.count (middle lo stop) < limit → q.Visits limit lo (middle lo stop)

variable {c : Choices} {q : Query} {limit : Nat} {lo stop : Int} {rowsFound lastNonEmptyRows : List Row}

theorem Query.Visits.enough (h : q.Visits limit lo stop) : 0 < limit ∧ 2 * limit ≤ q.count q.minTimestamp := by
  induction h with
  | whole hpos hmany => exact ⟨hpos, hmany⟩
  | narrow _ _ _ ih => exact ih
  | extend _ _ _ ih => exact ih

/-- Some rows are missing, and there are twice as many from `lo` on. -/
theorem Query.Visits.spec (hq : q.Plain) (h : q.Visits limit lo stop) :
    lo ≤ stop ∧ q.count stop < limit ∧ 2 * limit ≤ q.count lo + q.count stop := by
  induction h with
  | whole hpos hmany =>
    have hlast := hq.count_ends.2
    refine ⟨?_, by omega, by omega⟩
    by_contra hlt
    have := q.count_le (not_le.1 hlt).le
    omega
  | narrow _ hmany _ ih => exact ⟨(middle_spec ih.1).2, ih.2.1, hmany⟩
  | extend _ hpos hless ih =>
    obtain ⟨hle, -, henough⟩ := ih
    obtain ⟨hlo, hstop⟩ := middle_spec hle
    have hcount := q.count_le hstop
    exact ⟨hlo, hless, by omega⟩

/-! ### The loop -/

/-- The rows of the upper half. -/
def upperRows (c : Choices) (q : Query) (limit : Nat) (lo stop : Int) : List Row :=
  c.limited (q.cloneWithTimeFilter (middle lo stop) (stop - 1)) (2 * (limit - q.count stop))

/-- The loop at a range that it visits. -/
def loop (c : Choices) (q : Query) (limit : Nat) (lo stop : Int) (rowsFound lastNonEmptyRows : List Row) : List Row :=
  searchLastN c q limit (middle lo stop) stop (limit - q.count stop) rowsFound lastNonEmptyRows

theorem isLargest_getLastNRows (c : Choices) (rows : List Row) (limit : Nat) :
    IsLargest Row.timestamp limit rows (getLastNRows c rows limit) := by
  have htake : getLastNRows c rows limit = (c.sortLogRows.sort rows).take limit := by
    rw [getLastNRows]
    split_ifs with hlen
    · rfl
    · rw [take_of_length_le (not_lt.1 hlen)]
  rw [htake]
  exact isLargest_take (c.sortLogRows.perm rows) (c.sortLogRows.sorted rows)

/-- What is found is right if it comes from some of the rows and if these have as many rows from every time
on, as far as so many are asked for. -/
theorem isLargest_of_count {part : List Row} (hsub : (getLastNRows c part limit).Subperm q.selected)
    (hcount : ∀ bound, min limit (countSince part bound) = min limit (q.count bound)) :
    IsLargest Row.timestamp limit q.selected (getLastNRows c part limit) :=
  ⟨hsub, (isLargest_getLastNRows c part limit).keys_eq_iff.2 hcount⟩

theorem subperm_of_low {low : List Row} (hfound : rowsFound.Perm (q.since stop)) (hle : lo ≤ stop)
    (hlow : low.Subperm (q.within lo stop)) : (getLastNRows c (rowsFound ++ low) limit).Subperm q.selected :=
  (isLargest_getLastNRows c _ limit).subperm.trans
    (((hfound.subperm.append hlow).trans (q.since_perm hle).symm.subperm).trans filter_sublist.subperm)

section Loop

variable (hq : q.Plain) (hv : q.Visits limit lo stop)
include hq hv

theorem upperRows_spec (c : Choices) :
    (upperRows c q limit lo stop).Subperm (q.within (middle lo stop) stop) ∧
      (upperRows c q limit lo stop).length =
        min (2 * (limit - q.count stop)) (q.count (middle lo stop) - q.count stop) := by
  have hsub := c.subperm (q.cloneWithTimeFilter (middle lo stop) (stop - 1)) (2 * (limit - q.count stop))
  have hlen := c.length_eq (q.cloneWithTimeFilter (middle lo stop) (stop - 1)) (2 * (limit - q.count stop))
  rw [hq.selected_below] at hsub hlen
  refine ⟨hsub, hlen.trans ?_⟩
  rw [← q.length_within (middle_spec (hv.spec hq).1).2, Nat.add_sub_cancel]

theorem many_iff : (upperRows c q limit lo stop).length ≥ 2 * (limit - q.count stop) ↔
    2 * limit ≤ q.count (middle lo stop) + q.count stop := by
  obtain ⟨hle, hmissing, -⟩ := hv.spec hq
  have hlen := (upperRows_spec hq hv c).2
  have hcount := q.count_le (middle_spec hle).2
  omega

section

variable (hmany : 2 * limit ≤ q.count (middle lo stop) + q.count stop)
include hmany

theorem loop_narrow (happly : canApplyLastNResultsOptimization (middle lo stop) stop = true) :
    loop c q limit lo stop rowsFound lastNonEmptyRows =
      loop c q limit (middle lo stop) stop rowsFound (upperRows c q limit lo stop) := by
  rw [loop, searchLastN, dif_neg (not_le.2 (halfLength_pos happly))]
  exact (if_pos ((many_iff hq hv).2 hmany)).trans (dif_pos happly)

theorem loop_sorted (hpos : 0 < halfLength (middle lo stop) stop)
    (happly : canApplyLastNResultsOptimization (middle lo stop) stop = false) :
    loop c q limit lo stop rowsFound lastNonEmptyRows = getLastNRows c (rowsFound ++
      getLogRowsLastN c q (middle lo stop) stop (limit - q.count stop)) limit := by
  rw [loop, searchLastN, dif_neg (not_le.2 hpos)]
  exact (if_pos ((many_iff hq hv).2 hmany)).trans (dif_neg (Bool.eq_false_iff.1 happly))

end

variable (hfound : rowsFound.Perm (q.since stop))
include hfound

section

variable (hfew : ¬2 * limit ≤ q.count (middle lo stop) + q.count stop)
include hfew

/-- A limit that is not reached leaves all rows of the range. -/
theorem append_perm : (rowsFound ++ upperRows c q limit lo stop).Perm (q.since (middle lo stop)) := by
  have hstop := (middle_spec (hv.spec hq).1).2
  obtain ⟨hsub, hlen⟩ := upperRows_spec hq hv c
  have hwithin := q.length_within hstop
  have hmany := (many_iff hq hv (c := c)).not.2 hfew
  exact (hfound.append (hsub.perm_of_length_le (by omega))).trans (q.since_perm hstop).symm

theorem loop_few (hpos : 0 < halfLength (middle lo stop) stop) :
    loop c q limit lo stop rowsFound lastNonEmptyRows =
      if limit ≤ q.count (middle lo stop) then getLastNRows c (rowsFound ++ upperRows c q limit lo stop) limit
      else loop c q limit lo (middle lo stop) (rowsFound ++ upperRows c q limit lo stop) lastNonEmptyRows := by
  have hlen := (append_perm hq hv hfound hfew (c := c)).length_eq
  have hlast := hfound.length_eq
  rw [length_append, q.length_since] at hlen
  rw [q.length_since] at hlast
  have hn : limit - q.count stop - (upperRows c q limit lo stop).length = limit - q.count (middle lo stop) := by
    omega
  rw [loop, searchLastN, dif_neg (not_le.2 hpos)]
  refine (if_neg ((many_iff hq hv).not.2 hfew)).trans ?_
  change (if rowsFound.length + (upperRows c q limit lo stop).length ≥ limit then _
    else searchLastN c q limit _ _ (limit - q.count stop - (upperRows c q limit lo stop).length) _ _) = _
  rw [hlen, hn, middle_extend]
  rfl

/-- The rows of the range complete those that are found. -/
theorem isLargest_append (hlimit : limit ≤ q.count (middle lo stop)) : IsLargest Row.timestamp limit q.selected
    (getLastNRows c (rowsFound ++ upperRows c q limit lo stop) limit) := by
  have hstop := (middle_spec (hv.spec hq).1).2
  apply isLargest_of_count (subperm_of_low hfound hstop (upperRows_spec hq hv c).1)
  intro bound
  rw [countSince_perm (append_perm hq hv hfound hfew), q.countSince_since]
  omega

end

/-- A range that is sorted gives the rows that are missing exactly if no row is at its end. -/
theorem isLargest_sorted_iff (hmany : 2 * limit ≤ q.count (middle lo stop) + q.count stop) :
    IsLargest Row.timestamp limit q.selected (getLastNRows c (rowsFound ++
        getLogRowsLastN c q (middle lo stop) stop (limit - q.count stop)) limit) ↔
      q.count (stop + 1) = q.count stop := by
  obtain ⟨hle, hmissing, -⟩ := hv.spec hq
  have hstart := (middle_spec hle).2
  generalize middle lo stop = start at hstart hmany ⊢
  have hselected : (q.cloneWithTimeFilter start stop).selected = q.within start (stop + 1) := by
    rw [← hq.selected_below, Int.add_sub_cancel]
  have hsorted : IsLargest Row.timestamp (limit - q.count stop) (q.within start (stop + 1))
      (getLogRowsLastN c q start stop (limit - q.count stop)) := by
    rw [getLogRowsLastN, hselected]
    exact isLargest_take (c.pipeSort.perm _) (c.pipeSort.sorted _)
  have hcount : ∀ bound,
      countSince (rowsFound ++ getLogRowsLastN c q start stop (limit - q.count stop)) bound =
        min (q.count stop) (q.count bound) + min (limit - q.count stop)
          (min (q.count start) (q.count bound) - min (q.count (stop + 1)) (q.count bound)) := by
    intro bound
    have hrows : countSince (getLogRowsLastN c q start stop (limit - q.count stop)) bound =
      min _ (countSince (q.within start (stop + 1)) bound) := hsorted.countP_eq bound
    have hwithin := q.countSince_within (show start ≤ stop + 1 by omega) bound
    rw [countSince_append, countSince_perm hfound, q.countSince_since, hrows]
    omega
  have hless := q.count_le (show stop ≤ stop + 1 by omega)
  constructor
  · intro hright
    have hat : min limit (countSince _ stop) = min limit (q.count stop) :=
      (isLargest_getLastNRows c _ limit).keys_eq_iff.1 hright.keys_eq stop
    have hge := q.count_le hstart
    rw [hcount] at hat
    omega
  · intro heq
    have hlow := hsorted.subperm
    rw [q.within_eq_within (show stop ≤ stop + 1 by omega) heq.symm] at hlow
    apply isLargest_of_count (subperm_of_low hfound hstart hlow)
    intro bound
    rw [hcount, heq]
    omega

end Loop

/-! ### The query -/

/-- The timestamps are those at the positions from the offset up to the limit among all timestamps from the
latest one on, and no row is returned twice. -/
structure Query.LastRows (q : Query) (offset limit : Nat) (out : List Row) : Prop where
  timestamps : out.map Row.timestamp = ((descending (q.selected.map Row.timestamp)).drop offset).take limit
  subperm : out.Subperm q.selected

/-- No row is at the end of a range that the search sorts. -/
def Query.EndsClear (q : Query) (limit : Nat) : Prop := ∀ lo stop, q.Visits limit lo stop →
  canApplyLastNResultsOptimization (middle lo stop) stop = false →
    2 * limit ≤ q.count (middle lo stop) + q.count stop → q.count (stop + 1) = q.count stop

/-- The search comes to no range that it cannot halve. -/
def Query.Halvable (q : Query) (limit : Nat) : Prop := ∀ lo stop, q.Visits limit lo stop →
  0 < halfLength (middle lo stop) stop

/-- The loop finds the last rows. -/
theorem isLargest_loop (c : Choices) (hq : q.Plain) (hv : q.Visits limit lo stop) (hhalf : q.Halvable limit)
    (hclear : q.EndsClear limit) (hfound : rowsFound.Perm (q.since stop)) :
    IsLargest Row.timestamp limit q.selected (loop c q limit lo stop rowsFound lastNonEmptyRows) := by
  induction hleft : searchLeft (middle lo stop) stop using Nat.strong_induction_on
    generalizing lo stop rowsFound lastNonEmptyRows with
  | _ left ih =>
    subst hleft
    have hpos := hhalf _ _ hv
    by_cases hmany : 2 * limit ≤ q.count (middle lo stop) + q.count stop
    · cases happly : canApplyLastNResultsOptimization (middle lo stop) stop with
      | false =>
        rw [loop_sorted hq hv hmany hpos happly]
        exact (isLargest_sorted_iff hq hv hfound hmany).2 (hclear _ _ hv happly hmany)
      | true =>
        rw [loop_narrow hq hv hmany happly]
        exact ih _ (searchLeft_narrow hpos) (hv.narrow hmany happly) hfound rfl
    · rw [loop_few hq hv hfound hmany hpos]
      split_ifs with hlimit
      · exact isLargest_append hq hv hfound hmany hlimit
      · have hless := searchLeft_extend hpos
        rw [middle_extend] at hless
        exact ih _ hless (hv.extend hpos (not_le.1 hlimit)) (append_perm hq hv hfound hmany) rfl

/-- The search comes to the ranges that it visits, whatever the sub-queries return. -/
theorem exists_loop (c : Choices) (hq : q.Plain) (hv : q.Visits limit lo stop) :
    ∃ rowsFound lastNonEmptyRows, rowsFound.Perm (q.since stop) ∧
      getLastNQueryResults c q limit = loop c q limit lo stop rowsFound lastNonEmptyRows := by
  induction hv with
  | whole hpos hmany =>
    obtain ⟨hfirst, hlast⟩ := hq.count_ends
    refine ⟨[], [], ?_, ?_⟩
    · rw [eq_nil_of_length_eq_zero ((q.length_since _).trans hlast)]
    · rw [getLastNQueryResults, loop, hlast]
      exact if_neg (by rw [c.length_eq]; omega)
  | narrow hv hmany happly ih =>
    obtain ⟨rowsFound, _, hfound, heq⟩ := ih
    exact ⟨rowsFound, _, hfound, heq.trans (loop_narrow hq hv hmany happly)⟩
  | @extend lo stop hv hpos hless ih =>
    obtain ⟨rowsFound, _, hfound, heq⟩ := ih
    have hmissing := (hv.spec hq).2.1
    have hfew : ¬2 * limit ≤ q.count (middle lo stop) + q.count stop := by omega
    exact ⟨_, _, append_perm hq hv hfound hfew,
      heq.trans ((loop_few hq hv hfound hfew hpos).trans (if_neg (not_le.2 hless)))⟩

theorem runOptimizedLastNResultsQuery_eq (c : Choices) (q : Query) (offset limit : Nat) :
    runOptimizedLastNResultsQuery c q offset limit =
      (getLastNQueryResults c q (offset + limit)).drop offset := by
  rw [runOptimizedLastNResultsQuery]
  split_ifs with hlen
  · rw [drop_of_length_le hlen]
  · rfl

theorem length_getLastNRows_le (c : Choices) (rows : List Row) (limit : Nat) :
    (getLastNRows c rows limit).length ≤ limit := by
  rw [(isLargest_getLastNRows c rows limit).length_eq]
  exact min_le_left _ _

/-- No more rows are returned than are asked for. -/
theorem length_getLastNQueryResults_le (c : Choices) (q : Query) (limit : Nat) :
    (getLastNQueryResults c q limit).length ≤ limit := by
  have hloop : ∀ start stop n rowsFound lastNonEmptyRows,
      (searchLastN c q limit start stop n rowsFound lastNonEmptyRows).length ≤ limit := by
    intro start stop n rowsFound lastNonEmptyRows
    fun_induction searchLastN c q limit start stop n rowsFound lastNonEmptyRows with
    | case1 | case3 | case4 => exact length_getLastNRows_le c _ limit
    | case2 | case5 =>
      rename_i ih
      exact ih
  rw [getLastNQueryResults]
  split_ifs
  · exact length_getLastNRows_le c _ limit
  · exact hloop _ _ _ _ _

theorem isLargest_getLastNQueryResults (c : Choices) (hq : 0 < limit → 2 * limit ≤ q.selected.length → q.Plain)
    (hhalf : q.Halvable limit) (hclear : q.EndsClear limit) :
    IsLargest Row.timestamp limit q.selected (getLastNQueryResults c q limit) := by
  rcases Nat.eq_zero_or_pos limit with rfl | hpos
  · have hnil := eq_nil_of_length_eq_zero (Nat.le_zero.1 (length_getLastNQueryResults_le c q 0))
    rw [hnil]
    exact ⟨nil_subperm, rfl⟩
  by_cases hmany : 2 * limit ≤ q.selected.length
  · have hq := hq hpos hmany
    have hv : q.Visits limit _ _ := .whole hpos (hq.count_ends.1.symm ▸ hmany)
    obtain ⟨rowsFound, _, hfound, heq⟩ := exists_loop c hq hv
    rw [heq]
    exact isLargest_loop c hq hv hhalf hclear hfound
  · have hlen := c.length_eq q (2 * limit)
    have hperm := (c.subperm q (2 * limit)).perm_of_length_le (by omega)
    rw [getLastNQueryResults, if_pos (by omega)]
    apply isLargest_of_count ((isLargest_getLastNRows c _ limit).subperm.trans hperm.subperm)
    intro bound
    rw [countSince_perm hperm, Query.count]

def sampleSort : TimeSort where
  sort rows := rows.insertionSort fun a b => b.timestamp ≤ a.timestamp
  perm rows := perm_insertionSort _ rows
  sorted rows := by
    have : Std.Total fun a b : Row => b.timestamp ≤ a.timestamp := ⟨fun a b => le_total _ _⟩
    have : IsTrans Row fun a b => b.timestamp ≤ a.timestamp := ⟨fun a b c hab hbc => hbc.trans hab⟩
    exact pairwise_insertionSort _ rows

def sampleChoices : Choices where
  limited q limit := q.selected.take limit
  subperm q limit := (take_sublist limit q.selected).subperm
  length_eq _ _ := length_take
  pipeSort := sampleSort
  sortLogRows := sampleSort

/-- A query without subqueries. -/
def queryOf (rows : List Row) (minTimestamp maxTimestamp : Int) : Query where
  rows _ _ := rows
  minSubqueries := QueryFilter.i64Min
  maxSubqueries := QueryFilter.i64Max
  minTimestamp := minTimestamp
  maxTimestamp := maxTimestamp
  timeOffset := 0

/-- Four rows of one time. -/
def sampleQuery : Query := queryOf (List.replicate 4 ⟨3000000001, []⟩) 0 4294967295

theorem plain_sampleQuery : sampleQuery.Plain where
  timeOffset_eq := rfl
  subqueries _ _ := rfl
  maxTimestamp_le := by decide
  not_last := by decide +kernel

/-- The search goes on in the upper half, goes down there and sorts the range. -/
theorem visits_sampleQuery {lo stop : Int} (h : sampleQuery.Visits 2 lo stop) :
    (lo, stop) = (0, 4294967296) ∨ (lo, stop) = (2147483648, 4294967296) ∨ (lo, stop) = (2147483648, 3221225472) := by
  induction h with
  | whole => exact .inl rfl
  | narrow _ hmany happly ih =>
    rcases ih with ih | ih | ih <;> cases ih
    · exact .inr (.inl rfl)
    · exact absurd hmany (by decide +kernel)
    · exact absurd happly (by decide +kernel)
  | extend _ hpos hless ih =>
    rcases ih with ih | ih | ih <;> cases ih
    · exact absurd hless (by decide +kernel)
    · exact .inr (.inr rfl)
    · exact absurd hless (by decide +kernel)

theorem halvable_sampleQuery : sampleQuery.Halvable 2 := by
  intro lo stop hv
  rcases visits_sampleQuery hv with h | h | h <;> cases h <;> decide +kernel

theorem endsClear_sampleQuery : sampleQuery.EndsClear 2 := by
  intro lo stop hv _ _
  rcases visits_sampleQuery hv with h | h | h <;> cases h <;> decide +kernel

def sampleBorder : Query :=
  queryOf [⟨2147483648, []⟩, ⟨2147483643, []⟩, ⟨2147483639, []⟩, ⟨2147483635, []⟩] 0 4294967295

def sampleBottom : Query := queryOf [⟨1, []⟩, ⟨1, []⟩] 1 4294967296

/-- The later row is in the answer only if the subqueries see the earlier one. -/
def sampleSubquery : Query :=
  { queryOf [] 0 4294967295 with
    rows := fun start _ => ⟨1000000000, []⟩ :: if start ≤ 1000000000 then [⟨4000000000, []⟩] else [] }

/-- Two rows, shown an hour later than they are. -/
def sampleOffset : Query :=
  { queryOf [⟨3601000000000, []⟩, ⟨3604000000000, []⟩] 0 4294967295 with timeOffset := 3600000000000 }

end EsLogs.LastN
