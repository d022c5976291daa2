import EsLogs.PipeStats

/-!
Runs of `stats by (f) count()`: what the groups of the workers count, and when the budget of the query is used up.
-/

namespace EsLogs.Stats

open NumberText ColumnValues Encoding Hits Uniq List

variable {c : Float64Codec} {f : Bytes} {n : Nat} {blocks : List (Nat × BlockResult)}

variable {rows : List Key} {taken : Nat} {s : Shard}

/-- The rows of a field are those that `uniq` sees. -/
def byField (f : Bytes) : PipeUniq := ⟨[f], [], [], 0⟩

theorem rowKeys_byField (f : Bytes) (br : BlockResult) :
    (byField f).rowKeys c br = (br.valuesOf c f).map genericKey := by
  rw [rowKeys_single (p := byField f) rfl]
  exact filteredKeys_nil _

/-! ### The cost of groups -/

def cost (rows : List Key) : Int := ∑ k ∈ rows.toFinset, groupCost k

/-- How many chunks cover the cost. -/
def chunksFor (rows : List Key) : Nat := ((cost rows + (stateSizeBudgetChunk - 1)) / stateSizeBudgetChunk).toNat

theorem groupCost_nonneg (k : Key) : 0 ≤ groupCost k := by
  cases k <;> simp only [groupCost, newGroupSizeBytes] <;> omega

theorem cost_nonneg (rows : List Key) : 0 ≤ cost rows := Finset.sum_nonneg fun k _ => groupCost_nonneg k

theorem cost_append_replicate (rows : List Key) (k : Key) {hits : Nat} (hpos : 0 < hits) :
    cost (rows ++ replicate hits k) = cost rows + if k ∈ rows then 0 else groupCost k := by
  have hset : (rows ++ replicate hits k).toFinset = insert k rows.toFinset := by
    ext k'
    simp only [mem_toFinset, mem_append, mem_replicate, Finset.mem_insert]
    constructor
    · rintro (h | ⟨-, h⟩)
      · exact .inr h
      · exact .inl h
    · rintro (h | h)
      · exact .inr ⟨by omega, h⟩
      · exact .inl h
  rw [cost, hset]
  split_ifs with hk
  · rw [Finset.insert_eq_of_mem (mem_toFinset.2 hk), Int.add_zero]
    rfl
  · rw [Finset.sum_insert (fun h => hk (mem_toFinset.1 h)), Int.add_comm]
    rfl

/-- The chunks are the least number that covers the cost. -/
theorem chunksFor_le_iff (rows : List Key) (q : Nat) : chunksFor rows ≤ q ↔ cost rows ≤ stateSizeBudgetChunk * q := by
  have h := cost_nonneg rows
  unfold chunksFor stateSizeBudgetChunk
  omega

/-- What holds of a shard: its groups know its rows, and what it has taken has paid for them. -/
structure Paid (s : Shard) (rows : List Key) (taken : Nat) : Prop where
  filter_eq : s.groups.filter = []
  tracks : Tracks true s.groups rows
  budget : s.stateSizeBudget = stateSizeBudgetChunk * taken - cost rows

theorem Paid.addRows (h : Paid s rows taken) (v : Bytes) {hits : Nat}
    (hpos : 0 < hits) : Paid (s.addRows v hits) (rows ++ replicate hits (genericKey v)) taken where
  filter_eq := (s.groups.filter_add _ _).trans h.filter_eq
  tracks := h.tracks.add (genericKey v) hpos
  budget := by
    rw [cost_append_replicate rows _ hpos]
    simp only [Shard.addRows, h.budget, h.tracks.mem_keys]
    omega

theorem Paid.foldl (h : Paid s rows taken) (values : List Bytes) :
    Paid (values.foldl (fun s v => s.addRows v 1) s) (rows ++ values.map genericKey) taken := by
  induction values generalizing s rows with
  | nil => simpa using h
  | cons v values ih =>
    rw [foldl_cons, map_cons, append_cons]
    exact ih (h.addRows v Nat.one_pos)

/-- `update_stats_single_column` adds the rows of the column. -/
theorem updateStatsSingleColumn_spec {br : BlockResult} (hbr : br.Valid c) (hrows : br.rowsLen ≠ 0) (h : Paid s rows taken) :
    ∃ s', updateStatsSingleColumn c s br f = .ok s' ∧ Paid s' (rows ++ (byField f).rowKeys c br) taken := by
  obtain ⟨column, hcol, hcontent⟩ := hbr.col_getColumnByName f
  have hvalues := hbr.values_eq f
  have hget := hbr.columnGetValues f
  have hfold := h.foldl (br.valuesOf c f)
  rw [rowKeys_byField]
  unfold updateStatsSingleColumn
  dsimp only
  rw [hcol, except_ok_bind, hcontent]
  cases hc : br.contentOf f with
  | const v =>
    rw [hc] at hvalues
    obtain hv : replicate br.rowsLen v = br.valuesOf c f := Except.ok.inj hvalues
    dsimp only
    rw [← hv, BlockResult.rowsLen_getColumnByName, map_replicate]
    exact ⟨_, rfl, h.addRows v (Nat.pos_of_ne_zero hrows)⟩
  | time | encoded vt d vs =>
    dsimp only
    rw [hget]
    exact ⟨_, rfl, hfold⟩

/-! ### Taking chunks -/

/-- What the loop takes: the least number of chunks that makes the budget of the worker non-negative, or more than
there are. -/
theorem steal_spec (budget global : Int) :
    (∃ q : Nat, steal budget global =
        (budget + stateSizeBudgetChunk * q, global - stateSizeBudgetChunk * q, none) ∧
        0 ≤ budget + stateSizeBudgetChunk * q ∧ (q ≠ 0 → budget + stateSizeBudgetChunk * q < stateSizeBudgetChunk)) ∨
      ∃ (q : Nat) (stop : Bool), steal budget global =
        (budget + stateSizeBudgetChunk * q, global - stateSizeBudgetChunk * (q + 1), some stop) ∧
        budget + stateSizeBudgetChunk * q < 0 ∧ global - stateSizeBudgetChunk * (q + 1) < 0 := by
  induction budget, global using steal.induct with
  | case1 budget global hneg remaining hfail =>
    right
    refine ⟨0, decide (remaining + stateSizeBudgetChunk ≥ 0), ?_, by simpa using hneg, ?_⟩
    · rw [steal, if_pos hneg]
      dsimp only
      rw [if_pos hfail]
      simp [remaining]
    · simpa [remaining] using hfail
  | case2 budget global hneg remaining hok ih =>
    have hstep : steal budget global = steal (budget + stateSizeBudgetChunk) remaining := by
      rw [steal, if_pos hneg]
      dsimp only
      rw [if_neg hok]
    rw [hstep]
    have hremaining : remaining = global - stateSizeBudgetChunk := rfl
    rcases ih with ⟨q, heq, hnonneg, hlt⟩ | ⟨q, stop, heq, hbudget, hglobal⟩
    · left
      rw [heq]
      unfold stateSizeBudgetChunk at *
      refine ⟨q + 1, ?_, by push_cast; omega, ?_⟩
      · simp only [Prod.mk.injEq, and_true]
        push_cast
        omega
      · intro _
        push_cast
        by_cases hq : q = 0
        · omega
        · have := hlt hq
          omega
    · right
      rw [heq]
      unfold stateSizeBudgetChunk at *
      refine ⟨q + 1, stop, ?_, by push_cast; omega, by push_cast; omega⟩
      simp only [Prod.mk.injEq, and_true]
      push_cast
      omega
  | case3 budget global hnonneg =>
    left
    refine ⟨0, ?_, by simpa using hnonneg, fun h => absurd rfl h⟩
    rw [steal, if_neg hnonneg]
    simp

/-! ### The budget of the query -/

/-- The chunks a worker has taken after some blocks, the last one first: at each block with rows, as many as the
groups of the blocks before need. -/
def takenFrom (c : Float64Codec) (f : Bytes) (n i : Nat) : List (Nat × BlockResult) → Nat
  | [] => 0
  | b :: before =>
    if b.2.rowsLen ≠ 0 ∧ min b.1 (n - 1) = i then
      max (takenFrom c f n i before) (chunksFor ((byField f).shardRows c n before.reverse i))
    else takenFrom c f n i before

def takenChunks (c : Float64Codec) (f : Bytes) (n : Nat) (blocks : List (Nat × BlockResult)) (i : Nat) : Nat :=
  takenFrom c f n i blocks.reverse

def budgetLeft (c : Float64Codec) (f : Bytes) (n : Nat) (maxStateSize : Int) (blocks : List (Nat × BlockResult)) : Int :=
  maxStateSize - stateSizeBudgetChunk * ((∑ i ∈ Finset.range n, takenChunks c f n blocks i : Nat) : Int)

theorem takenChunks_concat (blocks : List (Nat × BlockResult)) (b : Nat × BlockResult) (i : Nat) :
    takenChunks c f n (blocks ++ [b]) i =
      if b.2.rowsLen ≠ 0 ∧ min b.1 (n - 1) = i then
        max (takenChunks c f n blocks i) (chunksFor ((byField f).shardRows c n blocks i))
      else takenChunks c f n blocks i := by
  rw [takenChunks, reverse_append, reverse_singleton, singleton_append, takenFrom, reverse_reverse]
  rfl

theorem budgetLeft_concat_le (maxStateSize : Int) (blocks : List (Nat × BlockResult)) (b : Nat × BlockResult) :
    budgetLeft c f n maxStateSize (blocks ++ [b]) ≤ budgetLeft c f n maxStateSize blocks := by
  have hsum : ∑ i ∈ Finset.range n, takenChunks c f n blocks i ≤
      ∑ i ∈ Finset.range n, takenChunks c f n (blocks ++ [b]) i := by
    refine Finset.sum_le_sum fun i _ => ?_
    rw [takenChunks_concat]
    split_ifs
    · exact le_max_left _ _
    · exact le_rfl
  unfold budgetLeft stateSizeBudgetChunk
  omega

/-- Only the worker of a block takes chunks for it. -/
theorem budgetLeft_concat (maxStateSize : Int) (blocks : List (Nat × BlockResult)) (b : Nat × BlockResult)
    (hn : 0 < n) :
    budgetLeft c f n maxStateSize (blocks ++ [b]) = budgetLeft c f n maxStateSize blocks - stateSizeBudgetChunk *
      ((takenChunks c f n (blocks ++ [b]) (min b.1 (n - 1)) : Int) - takenChunks c f n blocks (min b.1 (n - 1))) := by
  have hmem : min b.1 (n - 1) ∈ Finset.range n := by
    rw [Finset.mem_range]
    omega
  have hothers : ∑ i ∈ (Finset.range n).erase (min b.1 (n - 1)), takenChunks c f n (blocks ++ [b]) i =
      ∑ i ∈ (Finset.range n).erase (min b.1 (n - 1)), takenChunks c f n blocks i := by
    refine Finset.sum_congr rfl fun i hi => ?_
    rw [takenChunks_concat, if_neg fun h => (Finset.mem_erase.1 hi).1 h.2.symm]
  have hafter := Finset.add_sum_erase (Finset.range n) (takenChunks c f n (blocks ++ [b])) hmem
  have hbefore := Finset.add_sum_erase (Finset.range n) (takenChunks c f n blocks) hmem
  unfold budgetLeft stateSizeBudgetChunk
  omega

/-! ### Feeding blocks -/

/-- The budget of the query has not been exceeded: every worker knows its rows. -/
structure Alive (c : Float64Codec) (f : Bytes) (n : Nat) (maxStateSize : Int) (blocks : List (Nat × BlockResult))
    (s : Processor) : Prop where
  stop_eq : s.stop = false
  shard : ∀ i shard, s.shards[i]? = some shard →
    Paid shard ((byField f).shardRows c n blocks i) (takenChunks c f n blocks i)
  budget : s.stateSizeBudget = budgetLeft c f n maxStateSize blocks

/-- The budget of the query has been exceeded. -/
structure Dead (c : Float64Codec) (f : Bytes) (n : Nat) (maxStateSize : Int) (blocks : List (Nat × BlockResult))
    (s : Processor) : Prop where
  budget_neg : s.stateSizeBudget < 0
  left_neg : budgetLeft c f n maxStateSize blocks < 0
  shard : ∀ (i : Nat) shard, s.shards[i]? = some shard → ∃ rows taken, Paid shard rows taken

/-- What holds after some blocks. -/
structure Fed (c : Float64Codec) (f : Bytes) (n : Nat) (maxStateSize : Int) (blocks : List (Nat × BlockResult))
    (s : Processor) : Prop where
  length_shards : s.shards.length = n
  cases : Alive c f n maxStateSize blocks s ∨ Dead c f n maxStateSize blocks s

/-- A worker that has taken chunks has taken as many as its groups need. -/
theorem taken_eq_max {taken q : Nat}
    (hnonneg : 0 ≤ stateSizeBudgetChunk * taken - cost rows + stateSizeBudgetChunk * q)
    (hleast : q ≠ 0 → stateSizeBudgetChunk * taken - cost rows + stateSizeBudgetChunk * q < stateSizeBudgetChunk) :
    taken + q = max taken (chunksFor rows) := by
  have hle := (chunksFor_le_iff rows (taken + q)).2 (by push_cast; unfold stateSizeBudgetChunk at *; omega)
  by_cases hq : q = 0
  · omega
  · have hgt : ¬chunksFor rows ≤ taken + q - 1 := by
      rw [chunksFor_le_iff]
      have := hleast hq
      unfold stateSizeBudgetChunk at *
      omega
    omega

theorem Paid.withBudget (h : Paid s rows taken) (q : Nat) :
    Paid { s with stateSizeBudget := s.stateSizeBudget + stateSizeBudgetChunk * q } rows (taken + q) where
  filter_eq := h.filter_eq
  tracks := h.tracks
  budget := by
    dsimp only
    rw [h.budget]
    push_cast
    unfold stateSizeBudgetChunk
    omega

/-- One block. -/
theorem Fed.writeBlock {maxStateSize : Int} {s : Processor} (h : Fed c f n maxStateSize blocks s) (hn : 0 < n)
    {b : Nat × BlockResult} (hbr : b.2.Valid c) :
    ∃ s', writeBlock c f s b.1 b.2 = .ok s' ∧ Fed c f n maxStateSize (blocks ++ [b]) s' := by
  have hless := budgetLeft_concat_le (c := c) (f := f) (n := n) maxStateSize blocks b
  rw [Stats.writeBlock]
  by_cases hempty : b.2.rowsLen = 0
  -- nothing changes
  · rw [if_pos hempty]
    have htaken : ∀ i, takenChunks c f n (blocks ++ [b]) i = takenChunks c f n blocks i := by
      intro i
      rw [takenChunks_concat, if_neg fun h => h.1 hempty]
    refine ⟨s, rfl, h.length_shards, h.cases.imp (fun ha => ?_) fun hd => ?_⟩
    · refine ⟨ha.stop_eq, fun i shard hi => ?_, ?_⟩
      · rw [shardRows_concat, rowKeys_of_empty hbr hempty, ite_self, append_nil, htaken]
        exact ha.shard i shard hi
      · rw [ha.budget]
        unfold budgetLeft
        simp only [htaken]
    · exact ⟨hd.budget_neg, by have := hd.left_neg; omega, hd.shard⟩
  rw [if_neg hempty]
  dsimp only
  rw [h.length_shards]
  have hidx : min b.1 (n - 1) < s.shards.length := by
    rw [h.length_shards]
    omega
  rw [getElem?_eq_getElem hidx]
  dsimp only
  have hshard := getElem?_eq_getElem hidx
  generalize s.shards[min b.1 (n - 1)] = shard at hshard ⊢
  have hbudget := budgetLeft_concat (c := c) (f := f) maxStateSize blocks b hn
  have htaken := takenChunks_concat (c := c) (f := f) (n := n) blocks b (min b.1 (n - 1))
  rw [if_pos ⟨hempty, rfl⟩] at htaken
  rcases h.cases with ha | hd
  · have hpaid := ha.shard _ shard hshard
    rcases steal_spec shard.stateSizeBudget s.stateSizeBudget with
      ⟨q, hsteal, hnonneg, hleast⟩ | ⟨q, stop, hsteal, hneg, hglobal⟩
    · rw [hsteal]
      dsimp only
      rw [hpaid.budget] at hnonneg hleast
      have hmax := taken_eq_max hnonneg hleast
      obtain ⟨shard', hshard', hpaid'⟩ := updateStatsSingleColumn_spec (f := f) hbr hempty (hpaid.withBudget q)
      rw [hshard', except_ok_bind]
      refine ⟨_, rfl, by simp [h.length_shards], .inl ⟨ha.stop_eq, fun i sh hi => ?_, ?_⟩⟩
      · rcases getElem?_set_cases hi with ⟨rfl, rfl⟩ | ⟨hne, hi⟩
        · rw [shardRows_concat, if_pos rfl, htaken, ← hmax]
          exact hpaid'
        · rw [shardRows_concat, if_neg (Ne.symm hne), append_nil, takenChunks_concat, if_neg fun hb => hne hb.2.symm]
          exact ha.shard i sh hi
      · dsimp only
        rw [hbudget, htaken, ← hmax, ha.budget]
        push_cast
        unfold stateSizeBudgetChunk
        omega
    -- the worker needs more than there is
    · rw [hsteal]
      dsimp only
      rw [hpaid.budget] at hneg
      have hmore : ¬chunksFor ((byField f).shardRows c n blocks (min b.1 (n - 1))) ≤
          takenChunks c f n blocks (min b.1 (n - 1)) + q := by
        rw [chunksFor_le_iff]
        push_cast
        unfold stateSizeBudgetChunk at *
        omega
      refine ⟨_, rfl, by simp [h.length_shards], .inr ⟨hglobal, ?_, fun i sh hi => ?_⟩⟩
      · rw [hbudget, htaken]
        rw [ha.budget] at hglobal
        unfold stateSizeBudgetChunk at *
        omega
      · rcases getElem?_set_cases hi with ⟨rfl, rfl⟩ | ⟨hne, hi⟩
        · exact ⟨_, _, hpaid.withBudget q⟩
        · exact ⟨_, _, ha.shard i sh hi⟩
  -- nothing can make up for what is missing
  · obtain ⟨rows, taken, hpaid⟩ := hd.shard _ shard hshard
    have hneg := hd.budget_neg
    have hleft := hd.left_neg
    rcases steal_spec shard.stateSizeBudget s.stateSizeBudget with
      ⟨q, hsteal, -, -⟩ | ⟨q, stop, hsteal, -, hglobal⟩
    · rw [hsteal]
      dsimp only
      obtain ⟨shard', hshard', hpaid'⟩ := updateStatsSingleColumn_spec (f := f) hbr hempty (hpaid.withBudget q)
      rw [hshard', except_ok_bind]
      refine ⟨_, rfl, by simp [h.length_shards], .inr ⟨?_, by omega, fun i sh hi => ?_⟩⟩
      · dsimp only
        unfold stateSizeBudgetChunk
        omega
      · rcases getElem?_set_cases hi with ⟨rfl, rfl⟩ | ⟨hne, hi⟩
        · exact ⟨_, _, hpaid'⟩
        · exact hd.shard i sh hi
    · rw [hsteal]
      dsimp only
      refine ⟨_, rfl, by simp [h.length_shards], .inr ⟨hglobal, by omega, fun i sh hi => ?_⟩⟩
      rcases getElem?_set_cases hi with ⟨rfl, rfl⟩ | ⟨hne, hi⟩
      · exact ⟨_, _, hpaid.withBudget q⟩
      · exact hd.shard i sh hi

theorem fed_new (c : Float64Codec) (f : Bytes) (concurrency : Nat) (maxStateSize : Int) :
    Fed c f (max concurrency 1) maxStateSize []
      ⟨replicate (max concurrency 1) ⟨HitsMap.new [], 0⟩, maxStateSize, false⟩ where
  length_shards := length_replicate
  cases := by
    refine .inl ⟨rfl, fun i shard hi => ?_, ?_⟩
    · obtain rfl := eq_of_mem_replicate (mem_of_getElem? hi)
      exact ⟨rfl, Tracks.new [], by simp [takenChunks, takenFrom, cost, PipeUniq.shardRows]⟩
    · simp [budgetLeft, takenChunks, takenFrom]

/-- Any number of blocks. -/
theorem feed_spec (maxStateSize : Int) (concurrency : Nat) (hvalid : ∀ b ∈ blocks, b.2.Valid c) :
    ∃ s, blocks.foldlM (fun s b => writeBlock c f s b.1 b.2)
        (⟨replicate (max concurrency 1) ⟨HitsMap.new [], 0⟩, maxStateSize, false⟩ : Processor) = .ok s ∧
      Fed c f (max concurrency 1) maxStateSize blocks s := by
  induction blocks using List.reverseRecOn with
  | nil => exact ⟨_, rfl, fed_new c f concurrency maxStateSize⟩
  | append_singleton blocks b ih =>
    obtain ⟨s, hs, hfed⟩ := ih fun b hb => hvalid b (mem_append_left _ hb)
    obtain ⟨s', hs', hfed'⟩ := hfed.writeBlock (by omega) (hvalid b (by simp))
    refine ⟨s', ?_, hfed'⟩
    rw [foldlM_append, hs, except_ok_bind, foldlM_cons, hs', except_ok_bind]
    rfl

/-- A run fails when the budget of the query is used up, and otherwise writes the groups of a map that knows all
rows. -/
theorem run_spec (psStr : String) (maxStateSize : Int) (concurrency : Nat) (hvalid : ∀ b ∈ blocks, b.2.Valid c) :
    (budgetLeft c f (max concurrency 1) maxStateSize blocks ≤ 0 →
      ∀ it rows, run c f psStr maxStateSize concurrency it blocks ≠ .ok rows) ∧
    (0 < budgetLeft c f (max concurrency 1) maxStateSize blocks →
      ∃ m, Tracks true m ((byField f).allRows c blocks) ∧
        ∀ it, run c f psStr maxStateSize concurrency it blocks = .ok (writeMerged it m)) := by
  obtain ⟨s, hs, hfed⟩ := feed_spec (f := f) maxStateSize concurrency hvalid
  have hrun : ∀ it, run c f psStr maxStateSize concurrency it blocks = flush psStr maxStateSize it s := by
    intro it
    rw [run, hs]
    rfl
  constructor
  · intro hleft it rows hok
    have hbudget : s.stateSizeBudget ≤ 0 := by
      rcases hfed.cases with ha | hd
      · rw [ha.budget]
        exact hleft
      · exact le_of_lt hd.budget_neg
    rw [hrun, flush, if_pos hbudget] at hok
    cases hok
  · intro hleft
    have ha : Alive c f (max concurrency 1) maxStateSize blocks s := by
      refine hfed.cases.resolve_right fun hd => ?_
      have := hd.left_neg
      omega
    refine ⟨(s.shards.map (·.groups)).foldl HitsMap.merge (HitsMap.new []), ?_, fun it => ?_⟩
    · apply tracks_merged (by omega : 0 < max concurrency 1)
      · rw [length_map, hfed.length_shards]
      · intro i m hm
        rw [getElem?_map, Option.map_eq_some_iff] at hm
        obtain ⟨shard, hshard, rfl⟩ := hm
        exact (ha.shard i shard hshard).tracks
    · rw [hrun, flush, if_neg (by rw [ha.budget]; omega)]
      dsimp only
      rw [ha.stop_eq]
      exact if_neg Bool.false_ne_true

end EsLogs.Stats
