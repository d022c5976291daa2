import EsLogs.QueryFilter
import EsLogs.Rows
import Mathlib.Data.List.Perm.Subperm

/-!
The last rows of a query (`lastn_optimization.rs`). Instead of sorting all rows by time, the range of times
is halved until its upper part has few rows; what is found there is kept, and the search goes on below it.
The sub-queries have a limit and no order, so that it is open which rows they return when there are more.
-/

namespace EsLogs.LastN

def nsecsPerSecond : Int := 1000000000

def half (t : Int) : Int := t.tdiv 2

/-- Half of the length of a time range, as the code computes it. -/
def halfLength (start stop : Int) : Int := half stop - half start

def canApplyLastNResultsOptimization (start stop : Int) : Bool := halfLength start stop > nsecsPerSecond

/-! ### Queries -/

/-- A query: the rows that its filters and pipes give at any time, if its `in(...)`, `join` and `union`
subqueries see the rows of a range of times only; that range; the range of its own time filters; and the
option `time_offset`, which has been taken off the time filters and is added to the times of the results. -/
structure Query where
  rows : Int → Int → List Row
  minSubqueries : Int
  maxSubqueries : Int
  minTimestamp : Int
  maxTimestamp : Int
  timeOffset : Int

def Query.selected (q : Query) : List Row :=
  (q.rows q.minSubqueries q.maxSubqueries).filter fun r =>
    q.minTimestamp ≤ r.timestamp - q.timeOffset ∧ r.timestamp - q.timeOffset ≤ q.maxTimestamp

/-- `Query::clone_with_time_filter`: the time filter is added to the query and to all of its subqueries,
and the offset is taken off it, also where it comes from `get_filter_time_range`. The option
`ignore_global_time_filter`, with which nothing is added, is left out. -/
def Query.cloneWithTimeFilter (q : Query) (start stop : Int) : Query :=
  { q with
    minTimestamp := max q.minTimestamp (start - q.timeOffset)
    maxTimestamp := min q.maxTimestamp (stop - q.timeOffset)
    minSubqueries := max q.minSubqueries start
    maxSubqueries := min q.maxSubqueries stop }

structure TimeSort where
  sort : List Row → List Row
  perm : ∀ rows, (sort rows).Perm rows
  sorted : ∀ rows, (sort rows).Pairwise fun a b => b.timestamp ≤ a.timestamp

/-- What is left open: which rows of those a query selects are returned within a limit, and the order of
rows with equal timestamps, in the `sort` pipe and in `sort_log_rows`. -/
structure Choices where
  limited : Query → Nat → List Row
  subperm : ∀ q limit, (limited q limit).Subperm q.selected
  length_eq : ∀ q limit, (limited q limit).length = min limit q.selected.length
  pipeSort : TimeSort
  sortLogRows : TimeSort

section Search

variable (c : Choices)

def getLastNRows (rows : List Row) (limit : Nat) : List Row :=
  let rows := c.sortLogRows.sort rows
  if rows.length > limit then rows.take limit else rows

def getLogRowsLastN (q : Query) (start stop : Int) (n : Nat) : List Row :=
  (c.pipeSort.sort (q.cloneWithTimeFilter start stop).selected).take n

def searchLeft (start stop : Int) : Nat := (stop - start + halfLength start stop).toNat

theorem half_spec (t : Int) : (0 ≤ t → 2 * half t ≤ t ∧ t ≤ 2 * half t + 1) ∧
    (t ≤ 0 → t ≤ 2 * half t ∧ 2 * half t ≤ t + 1) := by
  have hsplit := Int.mul_tdiv_add_tmod t 2
  rw [half]
  constructor
  · intro h
    have := Int.tmod_nonneg 2 h
    have := Int.tmod_lt_of_pos t (show (0 : Int) < 2 by decide)
    omega
  · intro h
    have := Int.tmod_nonneg 2 (show 0 ≤ -t by omega)
    have := Int.tmod_lt_of_pos (-t) (show (0 : Int) < 2 by decide)
    rw [Int.neg_tmod] at *
    omega

theorem searchLeft_narrow {start stop : Int} (h : 0 < halfLength start stop) :
    searchLeft (start + halfLength start stop) stop < searchLeft start stop := by
  have h1 := half_spec start
  have h2 := half_spec stop
  have h3 := half_spec (start + halfLength start stop)
  simp only [searchLeft, halfLength] at *
  omega

theorem searchLeft_extend {start stop : Int} (h : 0 < halfLength start stop) :
    searchLeft (start - halfLength start stop) start < searchLeft start stop := by
  have h1 := half_spec start
  have h2 := half_spec stop
  have h3 := half_spec (start - halfLength start stop)
  simp only [searchLeft, halfLength] at *
  omega

theorem halfLength_pos {start stop : Int} (h : canApplyLastNResultsOptimization start stop = true) :
    0 < halfLength start stop := by
  have hlt : nsecsPerSecond < halfLength start stop := of_decide_eq_true h
  rw [nsecsPerSecond] at hlt
  omega

def searchLastN (q : Query) (limit : Nat) (start stop : Int) (n : Nat)
    (rowsFound lastNonEmptyRows : List Row) : List Row :=
  let rows := c.limited (q.cloneWithTimeFilter start (stop - 1)) (2 * n)
  if hlen : halfLength start stop ≤ 0 then
    -- the range cannot be halved any more
    getLastNRows c (rowsFound ++ lastNonEmptyRows ++ rows) limit
  else if rows.length ≥ 2 * n then
    if happly : canApplyLastNResultsOptimization start stop then
      have := searchLeft_narrow (halfLength_pos happly)
      searchLastN q limit (start + halfLength start stop) stop n rowsFound rows
    else getLastNRows c (rowsFound ++ getLogRowsLastN c q start stop n) limit
  else if rowsFound.length + rows.length ≥ limit then
    getLastNRows c (rowsFound ++ rows) limit
  else
    have := searchLeft_extend (not_le.1 hlen)
    searchLastN q limit (start - halfLength start stop) start (n - rows.length) (rowsFound ++ rows)
      lastNonEmptyRows
termination_by searchLeft start stop

def nextTime (t : Int) : Int := min (t + 1) QueryFilter.i64Max

def getLastNQueryResults (q : Query) (limit : Nat) : List Row :=
  let rows := c.limited q (2 * limit)
  if rows.length < 2 * limit then getLastNRows c rows limit
  else
    let start := q.minTimestamp
    let stop := nextTime q.maxTimestamp
    searchLastN c q limit (start + halfLength start stop) stop limit [] []

/-- `run_optimized_last_n_results_query`: the rows in the order in which they are written; both numbers
are at most 50000 (`get_offset_limit_from_pipe_sort`). -/
def runOptimizedLastNResultsQuery (q : Query) (offset limit : Nat) : List Row :=
  let rows := getLastNQueryResults c q (offset + limit)
  if offset ≥ rows.length then [] else rows.drop offset

end Search

end EsLogs.LastN
