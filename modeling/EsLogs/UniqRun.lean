import EsLogs.UniqCounting

/-!
Runs of a `uniq` pipe: what its shards hold after any sequence of blocks, when the stop flag is set, and which
rows a flush writes.
-/

namespace EsLogs.Uniq

open NumberText ColumnValues Encoding Hits List

variable {c : Float64Codec} {p : PipeUniq} {n : Nat} {stop : Bool} {blocks : List (Nat × BlockResult)}

variable {m : HitsMap} (it : Iteration)

/-! ### Feeding blocks -/

/-- The keys of the rows of the blocks that belong to a shard. -/
def PipeUniq.shardRows (p : PipeUniq) (c : Float64Codec) (n : Nat) (blocks : List (Nat × BlockResult)) (i : Nat) :
    List Key := blocks.flatMap fun b => if min b.1 (n - 1) = i then p.rowKeys c b.2 else []

def PipeUniq.allRows (p : PipeUniq) (c : Float64Codec) (blocks : List (Nat × BlockResult)) : List Key :=
  blocks.flatMap fun b => p.rowKeys c b.2

/-- Some shard has more distinct keys than the limit when another block with rows arrives at it. -/
def PipeUniq.Overrun (p : PipeUniq) (c : Float64Codec) (n : Nat) (blocks : List (Nat × BlockResult)) : Prop :=
  ∃ before b after, blocks = before ++ b :: after ∧ b.2.rowsLen ≠ 0 ∧ 0 < p.limit ∧
    p.limit < (p.shardRows c n before (min b.1 (n - 1))).dedup.length

theorem shardRows_concat (blocks : List (Nat × BlockResult)) (b : Nat × BlockResult) (i : Nat) :
    p.shardRows c n (blocks ++ [b]) i =
      p.shardRows c n blocks i ++ if min b.1 (n - 1) = i then p.rowKeys c b.2 else [] := by
  simp [PipeUniq.shardRows]

theorem getElem?_set_cases {α : Type} {l : List α} {i j : Nat} {a b : α} (h : (l.set i a)[j]? = some b) :
    j = i ∧ b = a ∨ j ≠ i ∧ l[j]? = some b := by
  by_cases hij : j = i
  · subst hij
    have hlt : j < l.length := by
      have := (List.getElem?_eq_some_iff.1 h).1
      rwa [length_set] at this
    rw [List.getElem?_set_self hlt] at h
    exact .inl ⟨rfl, (Option.some.inj h).symm⟩
  · rw [List.getElem?_set_ne (Ne.symm hij)] at h
    exact .inr ⟨hij, h⟩

theorem not_overrun_nil : ¬p.Overrun c n [] := by
  rintro ⟨before, b, after, h, -⟩
  simp at h

theorem overrun_concat {b : Nat × BlockResult} :
    p.Overrun c n (blocks ++ [b]) ↔ p.Overrun c n blocks ∨ b.2.rowsLen ≠ 0 ∧ 0 < p.limit ∧
      p.limit < (p.shardRows c n blocks (min b.1 (n - 1))).dedup.length := by
  constructor
  · rintro ⟨before, b', after, heq, hrows, hlimit, hover⟩
    rcases eq_nil_or_concat after with rfl | ⟨after, last, rfl⟩
    · obtain ⟨rfl, hb⟩ := append_inj' heq rfl
      cases hb
      exact .inr ⟨hrows, hlimit, hover⟩
    · have heq' : blocks ++ [b] = (before ++ b' :: after) ++ [last] := by simpa using heq
      obtain ⟨rfl, -⟩ := append_inj' heq' rfl
      exact .inl ⟨before, b', after, rfl, hrows, hlimit, hover⟩
  · rintro (⟨before, b', after, rfl, hrest⟩ | ⟨hrows, hlimit, hover⟩)
    · exact ⟨before, b', after ++ [b], by simp, hrest⟩
    · exact ⟨blocks, b, [], rfl, hrows, hlimit, hover⟩

/-- What holds of a processor after some blocks. A shard that refuses a block keeps its map from then on. -/
structure Fed (p : PipeUniq) (c : Float64Codec) (n : Nat) (stop : Bool) (blocks : List (Nat × BlockResult))
    (s : Processor) : Prop where
  length_shards : s.shards.length = n
  stop_iff : s.stop = true ↔ stop = true ∨ p.Overrun c n blocks
  shard : ∀ i m, s.shards[i]? = some m → m.filter = p.filter ∧
    (Tracks p.counts m (p.shardRows c n blocks i) ∨ p.Full m ∧ p.Overrun c n blocks)

theorem fed_new (p : PipeUniq) (c : Float64Codec) (concurrency : Nat) (stop : Bool) :
    Fed p c (max concurrency 1) stop [] (p.newPipeProcessor concurrency stop) where
  length_shards := length_replicate
  stop_iff := by
    rw [or_iff_left not_overrun_nil]
    rfl
  shard := by
    intro i m hm
    obtain rfl := eq_of_mem_replicate (mem_of_getElem? hm)
    exact ⟨rfl, .inl (Tracks.new p.filter)⟩

theorem rowKeys_of_empty {br : BlockResult} (hbr : br.Valid c) (h : br.rowsLen = 0) : p.rowKeys c br = [] := by
  by_cases hfields : ∃ columnName, p.byFields = [columnName]
  · obtain ⟨columnName, hfields⟩ := hfields
    have hnil : br.valuesOf c columnName = [] :=
      length_eq_zero_iff.1 ((hbr.length_valuesOf columnName).trans h)
    rw [rowKeys_single hfields, hnil]
    rfl
  · rw [rowKeys_many (not_exists.1 hfields), PipeUniq.tuples, h]
    rfl

/-- One block. -/
theorem Fed.writeBlock {s : Processor} (h : Fed p c n stop blocks s) (hn : 0 < n) {b : Nat × BlockResult}
    (hbr : b.2.Valid c) : ∃ s', p.writeBlock c s b.1 b.2 = .ok s' ∧ Fed p c n stop (blocks ++ [b]) s' := by
  rw [PipeUniq.writeBlock]
  by_cases hempty : b.2.rowsLen = 0
  -- nothing changes
  · rw [if_pos hempty]
    have hover : p.Overrun c n (blocks ++ [b]) ↔ p.Overrun c n blocks := by
      rw [overrun_concat]
      exact or_iff_left fun hb => hb.1 hempty
    refine ⟨s, rfl, h.length_shards, by rw [h.stop_iff, hover], ?_⟩
    intro i m hm
    rw [shardRows_concat, rowKeys_of_empty hbr hempty, ite_self, append_nil, hover]
    exact h.shard i m hm
  rw [if_neg hempty]
  dsimp only
  rw [h.length_shards]
  have hidx : min b.1 (n - 1) < s.shards.length := by
    rw [h.length_shards]
    omega
  rw [getElem?_eq_getElem hidx]
  dsimp only
  have hm := getElem?_eq_getElem hidx
  generalize s.shards[min b.1 (n - 1)] = m at hm ⊢
  obtain ⟨hfilter, hcase⟩ := h.shard _ m hm
  -- the other shards keep what they have
  have hothers : ∀ i m', i ≠ min b.1 (n - 1) → s.shards[i]? = some m' → m'.filter = p.filter ∧
      (Tracks p.counts m' (p.shardRows c n (blocks ++ [b]) i) ∨ p.Full m' ∧ p.Overrun c n (blocks ++ [b])) := by
    intro i m' hi hm'
    rw [shardRows_concat, if_neg (Ne.symm hi), append_nil, overrun_concat]
    obtain ⟨hf, hc⟩ := h.shard i m' hm'
    exact ⟨hf, hc.imp id fun hc => ⟨hc.1, .inl hc.2⟩⟩
  by_cases hfull : p.Full m
  · rw [writeBlockInto_of_full hfull, except_ok_bind]
    have hover : p.Overrun c n (blocks ++ [b]) := by
      rw [overrun_concat]
      rcases hcase with htracks | ⟨-, hover⟩
      · right
        refine ⟨hempty, hfull.1, ?_⟩
        rw [← htracks.entriesCount_eq]
        exact hfull.2
      · exact .inl hover
    refine ⟨_, rfl, by simp [h.length_shards], by simp [hover], ?_⟩
    intro i m' hm'
    rcases getElem?_set_cases hm' with ⟨rfl, rfl⟩ | ⟨hi, hm'⟩
    · exact ⟨hfilter, .inr ⟨hfull, hover⟩⟩
    · exact hothers i m' hi hm'
  · have htracks : Tracks p.counts m (p.shardRows c n blocks (min b.1 (n - 1))) :=
      hcase.resolve_right fun hc => hfull hc.1
    obtain ⟨m', hm', hfilter', htracks'⟩ := writeBlockInto_spec hfull hbr hempty hfilter htracks
    rw [hm', except_ok_bind]
    have hover : p.Overrun c n (blocks ++ [b]) ↔ p.Overrun c n blocks := by
      rw [overrun_concat]
      refine or_iff_left fun hb => hfull ⟨hb.2.1, ?_⟩
      rw [htracks.entriesCount_eq]
      exact hb.2.2
    refine ⟨_, rfl, by simp [h.length_shards], by simp [h.stop_iff, hover], ?_⟩
    intro i m'' hm''
    rcases getElem?_set_cases hm'' with ⟨rfl, rfl⟩ | ⟨hi, hm''⟩
    · rw [shardRows_concat, if_pos rfl]
      exact ⟨hfilter', .inl htracks'⟩
    · exact hothers i m'' hi hm''

/-- Any number of blocks. -/
theorem feed_spec (p : PipeUniq) (concurrency : Nat) (stop : Bool) (hvalid : ∀ b ∈ blocks, b.2.Valid c) :
    ∃ s, p.feed c (p.newPipeProcessor concurrency stop) blocks = .ok s ∧
      Fed p c (max concurrency 1) stop blocks s := by
  induction blocks using List.reverseRecOn with
  | nil => exact ⟨_, rfl, fed_new p c concurrency stop⟩
  | append_singleton blocks b ih =>
    obtain ⟨s, hs, hfed⟩ := ih fun b hb => hvalid b (mem_append_left _ hb)
    obtain ⟨s', hs', hfed'⟩ := hfed.writeBlock (by omega) (hvalid b (by simp))
    refine ⟨s', ?_, hfed'⟩
    rw [PipeUniq.feed] at hs ⊢
    rw [foldlM_append, hs, except_ok_bind, foldlM_cons, hs', except_ok_bind]
    rfl

/-! ### Merging the shards -/

theorem tracks_foldl_merge {needHits : Bool} {ms : List HitsMap} {rs : List (List Key)}
    (h : List.Forall₂ (Tracks needHits) ms rs) {rows : List Key} (hm : Tracks needHits m rows) :
    Tracks needHits (ms.foldl HitsMap.merge m) (rows ++ rs.flatten) := by
  induction h generalizing m rows with
  | nil => simpa using hm
  | cons hmr _ ih =>
    rw [foldl_cons, flatten_cons, ← append_assoc]
    exact ih (hm.merge hmr)

theorem flatMap_range_ite {α : Type} (i n : Nat) (r : List α) :
    ((range n).flatMap fun j => if i = j then r else []) = if i < n then r else [] := by
  induction n with
  | zero => rfl
  | succ n ih =>
    rw [range_succ, flatMap_append, ih, flatMap_singleton]
    by_cases hlt : i < n
    · rw [if_pos hlt, if_neg (by omega), if_pos (by omega), append_nil]
    · rw [if_neg hlt, nil_append]
      by_cases heq : i = n
      · rw [if_pos heq, if_pos (by omega)]
      · rw [if_neg heq, if_neg (by omega)]

/-- Every block belongs to one shard. -/
theorem flatMap_shardRows_perm (hn : 0 < n) (blocks : List (Nat × BlockResult)) :
    ((range n).flatMap (p.shardRows c n blocks)).Perm (p.allRows c blocks) := by
  induction blocks with
  | nil => simp [PipeUniq.shardRows, PipeUniq.allRows]
  | cons b blocks ih =>
    have hsplit : p.shardRows c n (b :: blocks) = fun i =>
        (if min b.1 (n - 1) = i then p.rowKeys c b.2 else []) ++ p.shardRows c n blocks i := rfl
    have hown : ((range n).flatMap fun i => if min b.1 (n - 1) = i then p.rowKeys c b.2 else []) =
        p.rowKeys c b.2 := by
      rw [flatMap_range_ite, if_pos (by omega)]
    have hperm : ((range n).flatMap (p.shardRows c n (b :: blocks))).Perm
        (p.rowKeys c b.2 ++ (range n).flatMap (p.shardRows c n blocks)) := by
      have happend := flatMap_append_perm (range n)
        (fun i => if min b.1 (n - 1) = i then p.rowKeys c b.2 else []) (p.shardRows c n blocks)
      rw [hown] at happend
      rw [hsplit]
      exact happend.symm
    exact hperm.trans (ih.append_left _)

/-- Maps that know the rows of their shards are merged into one that knows all rows. -/
theorem tracks_merged (hn : 0 < n) {needHits : Bool} {shards : List HitsMap} (hlen : shards.length = n)
    (h : ∀ i m, shards[i]? = some m → Tracks needHits m (p.shardRows c n blocks i)) :
    Tracks needHits (shards.foldl HitsMap.merge (HitsMap.new [])) (p.allRows c blocks) := by
  have hshards : List.Forall₂ (Tracks needHits) shards ((range n).map (p.shardRows c n blocks)) := by
    rw [List.forall₂_iff_get]
    refine ⟨by rw [length_map, length_range, hlen], ?_⟩
    intro i hi hi'
    simpa using h i (shards.get ⟨i, hi⟩) (getElem?_eq_getElem hi)
  have hmerged := tracks_foldl_merge hshards (Tracks.new [])
  rw [nil_append, ← flatMap_def] at hmerged
  exact hmerged.perm (flatMap_shardRows_perm hn blocks)

/-- The merged map knows the rows of all blocks, unless a shard has refused one. -/
theorem Fed.tracks_merged {s : Processor} (h : Fed p c n stop blocks s) (hn : 0 < n) (hno : ¬p.Overrun c n blocks) :
    Tracks p.counts (s.shards.foldl HitsMap.merge (HitsMap.new [])) (p.allRows c blocks) := by
  refine Uniq.tracks_merged hn h.length_shards fun i m hm => ?_
  obtain ⟨-, hcase⟩ := h.shard i m hm
  exact hcase.resolve_right fun hc => hno hc.2

/-! ### Cutting down to the limit -/

section Trim

variable {κ : Type} [DecidableEq κ]

theorem filter_notMem_take {l : List κ} (h : l.Nodup) (d : Nat) : (l.filter fun k => k ∉ l.take d) = l.drop d := by
  have hdisjoint := disjoint_take_drop h (le_refl d)
  have hfirst : ((l.take d).filter fun k => k ∉ l.take d) = [] := by
    rw [filter_eq_nil_iff]
    intro k hk
    simpa using hk
  have hsecond : ((l.drop d).filter fun k => k ∉ l.take d) = l.drop d := by
    rw [filter_eq_self]
    intro k hk
    exact decide_eq_true fun hk' => hdisjoint hk' hk
  calc (l.filter fun k => k ∉ l.take d)
      = (l.take d ++ l.drop d).filter fun k => k ∉ l.take d := by simp only [take_append_drop]
    _ = l.drop d := by rw [filter_append, hfirst, hsecond, nil_append]

/-- The loop removes as many keys as there are too many. -/
theorem dropFrom_spec (limit : Nat) (keys : List κ) (t : Tally κ) (count : Nat) :
    (dropFrom limit keys t count).1.keys = (t.keys.filter fun k => k ∉ keys.take (count - limit)) ∧
      (dropFrom limit keys t count).2 = count - min (count - limit) keys.length := by
  induction keys generalizing t count with
  | nil => simp [dropFrom]
  | cons k keys ih =>
    rw [dropFrom]
    by_cases hle : count ≤ limit
    · rw [if_pos hle, Nat.sub_eq_zero_of_le hle]
      simp
    · rw [if_neg hle]
      obtain ⟨hkeys, hcount⟩ := ih (t.remove k) (count - 1)
      obtain ⟨d, hd⟩ : ∃ d, count - limit = d + 1 := ⟨count - limit - 1, by omega⟩
      have hd' : count - 1 - limit = d := by omega
      rw [hd'] at hkeys hcount
      rw [hkeys, hcount, hd, take_succ_cons, Tally.keys_remove, filter_filter, length_cons]
      refine ⟨filter_congr fun k' _ => ?_, by omega⟩
      simp only [mem_cons, not_or, Bool.decide_and, ne_eq, Bool.and_comm]

theorem keys_dropFrom_perm (limit : Nat) {keys : List κ} {t : Tally κ} (h : keys.Perm t.keys) (count : Nat) :
    (dropFrom limit keys t count).1.keys.Perm (keys.drop (count - limit)) := by
  rw [(dropFrom_spec limit keys t count).1, ← filter_notMem_take (h.nodup_iff.2 t.nodup_keys)]
  exact (h.symm).filter _

end Trim

/-- The keys that are left when a number of entries has been dropped, from the unsigned numbers first. -/
def kept (it : Iteration) (m : HitsMap) (d : Nat) : List Key :=
  ((it.u64s m.u64s.keys).drop d).map .u64 ++
    (((it.negs m.negs.keys).drop (d - m.u64s.keys.length)).map .neg ++
      ((it.strings m.strings.keys).drop (d - m.u64s.keys.length - m.negs.keys.length)).map .str)

theorem keys_trimToLimit_perm (m : HitsMap) (limit : Nat) :
    (trimToLimit it m limit).keys.Perm (kept it m (m.entriesCount - limit)) := by
  -- a loop that is not entered drops nothing, as a loop with nothing to drop
  have hskip : ∀ {κ : Type} [DecidableEq κ] (keys : List κ) (t : Tally κ) (count : Nat),
      (if count > limit then dropFrom limit keys t count else (t, count)) = dropFrom limit keys t count := by
    intro κ _ keys t count
    split_ifs with hgt
    · rfl
    · cases keys with
      | nil => rfl
      | cons k keys => rw [dropFrom, if_pos (by omega)]
  unfold trimToLimit kept HitsMap.keys
  simp only [hskip]
  have hu := keys_dropFrom_perm limit (it.perm_u64s m.u64s.keys) m.entriesCount
  have hucount := (dropFrom_spec limit (it.u64s m.u64s.keys) m.u64s m.entriesCount).2
  rw [(it.perm_u64s _).length_eq] at hucount
  generalize (dropFrom limit (it.u64s m.u64s.keys) m.u64s m.entriesCount).2 = count at hucount ⊢
  have hg := keys_dropFrom_perm limit (it.perm_negs m.negs.keys) count
  have hgcount := (dropFrom_spec limit (it.negs m.negs.keys) m.negs count).2
  rw [(it.perm_negs _).length_eq] at hgcount
  generalize (dropFrom limit (it.negs m.negs.keys) m.negs count).2 = count' at hgcount ⊢
  have hs := keys_dropFrom_perm limit (it.perm_strings m.strings.keys) count'
  refine (hu.map _).append (.append ?_ ?_)
  · rw [show m.entriesCount - limit - m.u64s.keys.length = count - limit by omega]
    exact hg.map _
  · rw [show m.entriesCount - limit - m.u64s.keys.length - m.negs.keys.length = count' - limit by omega]
    exact hs.map _

/-! ### The rows of the result -/

theorem writeOutput_perm (resetHits : Bool) (hstr : p.byFields.length ≠ 1 → ∀ k ∈ m.keys, ∃ b, k = .str b) :
    (p.writeOutput it m resetHits).Perm (m.keys.map (p.row m resetHits)) := by
  unfold PipeUniq.writeOutput HitsMap.keys
  split_ifs with hone
  · rw [map_append, map_append, map_map, map_map, map_map]
    exact ((it.perm_u64s _).map _).append (((it.perm_negs _).map _).append ((it.perm_strings _).map _))
  -- with several fields there are no numbers
  · have hu : m.u64s.keys = [] := by
      rw [eq_nil_iff_forall_not_mem]
      intro n hn
      obtain ⟨b, hb⟩ := hstr hone (.u64 n) (HitsMap.mem_keys_u64.2 hn)
      cases hb
    have hg : m.negs.keys = [] := by
      rw [eq_nil_iff_forall_not_mem]
      intro n hn
      obtain ⟨b, hb⟩ := hstr hone (.neg n) (HitsMap.mem_keys_neg.2 hn)
      cases hb
    rw [hu, hg, map_nil, map_nil, nil_append, nil_append, map_map]
    exact (it.perm_strings _).map _

theorem kept_zero_perm (m : HitsMap) : (kept it m 0).Perm m.keys := by
  unfold kept HitsMap.keys
  rw [Nat.zero_sub, Nat.zero_sub, drop_zero, drop_zero, drop_zero]
  exact ((it.perm_u64s _).map _).append (((it.perm_negs _).map _).append ((it.perm_strings _).map _))

theorem kept_sublist (m : HitsMap) (d : Nat) : (kept it m d).Sublist (kept it m 0) := by
  unfold kept
  rw [Nat.zero_sub, Nat.zero_sub, drop_zero, drop_zero, drop_zero]
  exact ((drop_sublist _ _).map _).append (((drop_sublist _ _).map _).append ((drop_sublist _ _).map _))

theorem mem_of_mem_kept {it : Iteration} {d : Nat} {k : Key} (h : k ∈ kept it m d) : k ∈ m.keys :=
  (kept_zero_perm it m).mem_iff.1 ((kept_sublist it m d).subset h)

theorem allRows_str (h : p.byFields.length ≠ 1) {k : Key} (hk : k ∈ p.allRows c blocks) : ∃ b, k = .str b := by
  obtain ⟨b, -, hkb⟩ := mem_flatMap.1 hk
  rw [rowKeys_many (fun columnName hc => h (by rw [hc]; rfl))] at hkb
  obtain ⟨row, -, rfl⟩ := mem_map.1 hkb
  exact ⟨_, rfl⟩

/-- What a run writes: nothing after a stop; otherwise a row for each key of a map that knows all rows, or, when
these are too many, for the keys that are kept, with no hits. -/
theorem run_spec (p : PipeUniq) (concurrency : Nat) (stop : Bool) (hvalid : ∀ b ∈ blocks, b.2.Valid c) :
    ∃ m : HitsMap, (¬p.Overrun c (max concurrency 1) blocks → Tracks p.counts m (p.allRows c blocks)) ∧
      ∀ trim out, ∃ rows, p.run c concurrency stop trim out blocks = .ok rows ∧
        (stop = true ∨ p.Overrun c (max concurrency 1) blocks → rows = []) ∧
        (¬(stop = true ∨ p.Overrun c (max concurrency 1) blocks) →
          (p.Full m → rows.Perm ((kept trim m (m.entriesCount - p.limit)).map (p.row m true))) ∧
          (¬p.Full m → rows.Perm (m.keys.map (p.row m false)))) := by
  obtain ⟨s, hs, hfed⟩ := feed_spec p concurrency stop hvalid
  have htracks := hfed.tracks_merged (by omega)
  refine ⟨s.shards.foldl HitsMap.merge (HitsMap.new []), htracks, fun trim out => ⟨p.flush trim out s, ?_, ?_, ?_⟩⟩
  · rw [PipeUniq.run, hs]
    rfl
  · intro hstop
    unfold PipeUniq.flush
    exact if_pos (hfed.stop_iff.2 hstop)
  · intro hstop
    have hrun : ¬s.stop = true := fun hs => hstop (hfed.stop_iff.1 hs)
    have htracks := htracks fun hover => hstop (.inr hover)
    unfold PipeUniq.flush
    dsimp only
    rw [if_neg hrun]
    have hstr : p.byFields.length ≠ 1 → ∀ k ∈ (s.shards.foldl HitsMap.merge (HitsMap.new [])).keys,
        ∃ b, k = .str b := fun hone k hk => allRows_str hone ((htracks.mem_keys k).1 hk)
    generalize s.shards.foldl HitsMap.merge (HitsMap.new []) = m at hstr ⊢
    constructor
    · intro hfull
      rw [if_pos (show p.limit > 0 ∧ m.entriesCount > p.limit from hfull)]
      have hkeys := keys_trimToLimit_perm trim m p.limit
      refine (writeOutput_perm out true ?_).trans (hkeys.map _)
      intro hone k hk
      exact hstr hone k (mem_of_mem_kept (hkeys.mem_iff.1 hk))
    · intro hfull
      rw [if_neg (show ¬(p.limit > 0 ∧ m.entriesCount > p.limit) from hfull)]
      exact writeOutput_perm out false hstr

end EsLogs.Uniq
