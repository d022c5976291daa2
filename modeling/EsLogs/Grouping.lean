import EsLogs.PipeTop
import EsLogs.StatsRun
import EsLogs.UniqFold

/-!
Grouping by one field in `uniq ... with hits`, `top` and `stats by (f) count()`: there is one group for each distinct
text, labelled with it and with the number of its rows, exactly when every number in the input has the spelling in
which it is written.
-/

namespace EsLogs.Grouping

open NumberText ColumnValues Encoding Hits Uniq TopPipe Stats List

variable {c : Float64Codec} {f : Bytes} {blocks : List (Nat × BlockResult)}

def texts (c : Float64Codec) (f : Bytes) (blocks : List (Nat × BlockResult)) : List Bytes :=
  blocks.flatMap fun b => b.2.valuesOf c f

/-- The groups of texts: each distinct one with the number of its rows. -/
def exactGroups (texts : List Bytes) : List (Bytes × Nat) := texts.dedup.map fun t => (t, texts.count t)

/-- A text that is written for the key it is filed under. -/
def Canonical (t : Bytes) : Prop := (genericKey t).text = t
  deriving Decidable

theorem allRows_byField (f : Bytes) (blocks : List (Nat × BlockResult)) :
    (byField f).allRows c blocks = (texts c f blocks).map genericKey := by
  rw [PipeUniq.allRows, texts, map_flatMap]
  exact flatMap_congr fun b _ => rowKeys_byField f b.2

/-! ### Groups by key and groups by text -/

/-- The groups by key, with the texts that are written for them. -/
def keyGroups (texts : List Bytes) : List (Bytes × Nat) :=
  (texts.map genericKey).dedup.map fun k => (k.text, (texts.map genericKey).count k)

/-- The groups by key are those by text exactly when all texts are canonical. -/
theorem keyGroups_perm_iff (texts : List Bytes) :
    (keyGroups texts).Perm (exactGroups texts) ↔ ∀ t ∈ texts, Canonical t := by
  constructor
  -- every text is a label, and labels are canonical
  · intro h t ht
    have hmem : (t, texts.count t) ∈ exactGroups texts := mem_map_of_mem (mem_dedup.2 ht)
    obtain ⟨k, hk, heq⟩ := mem_map.1 (h.mem_iff.2 hmem)
    obtain ⟨t', -, rfl⟩ := mem_map.1 (mem_dedup.1 hk)
    obtain rfl : (genericKey t').text = t := congrArg Prod.fst heq
    rw [Canonical, genericKey_text]
    split_ifs with hempty
    · rw [hempty]
      decide
    · rfl
  · intro h
    have hinj : Set.InjOn genericKey {t | t ∈ texts} := by
      intro t ht t' ht' heq
      rw [← h t ht, ← h t' ht', heq]
    have hkeys : (texts.map genericKey).dedup.Perm (texts.dedup.map genericKey) := by
      have hnodup : (texts.dedup.map genericKey).Nodup :=
        texts.nodup_dedup.map_on fun t ht t' ht' heq => hinj (mem_dedup.1 ht) (mem_dedup.1 ht') heq
      rw [perm_ext_iff_of_nodup (nodup_dedup _) hnodup]
      intro k
      simp only [mem_dedup, mem_map]
    refine (hkeys.map _).trans (List.Perm.of_eq ?_)
    rw [map_map]
    refine map_congr_left fun t ht => ?_
    rw [mem_dedup] at ht
    refine Prod.ext (h t ht) ?_
    show (texts.map genericKey).count (genericKey t) = texts.count t
    rw [count_eq_countP, countP_map, count_eq_countP]
    refine countP_congr fun t' ht' => ?_
    simp only [Function.comp_apply, beq_iff_eq]
    exact ⟨fun heq => hinj ht' ht heq, fun heq => heq ▸ rfl⟩

/-- A map that knows the rows has the groups by key. -/
theorem entries_perm_keyGroups {m : HitsMap} (h : Tracks true m ((byField f).allRows c blocks)) :
    (m.keys.map fun k => (k.text, m.get k)).Perm (keyGroups (texts c f blocks)) := by
  rw [allRows_byField] at h
  have heq : (fun k : Key => (k.text, m.get k)) = fun k => (k.text, ((texts c f blocks).map genericKey).count k) := by
    funext k
    rw [h.exact_hits rfl]
  rw [heq]
  exact h.keys_perm.map _

/-! ### `uniq ... with hits` -/

def uniqWithHits (f hitsFieldName : Bytes) : PipeUniq := ⟨[f], [], hitsFieldName, 0⟩

def uniqRow (g : Bytes × Nat) : Uniq.Row := ⟨[g.1], some (marshalUint64String g.2)⟩

/-- Whatever the orders of the maps, the rows are those of the exact groups. -/
def UniqExact (c : Float64Codec) (f hitsFieldName : Bytes) (concurrency : Nat) (blocks : List (Nat × BlockResult)) :
    Prop :=
  ∀ trim out, ∃ rows, (uniqWithHits f hitsFieldName).run c concurrency false trim out blocks = .ok rows ∧
    rows.Perm ((exactGroups (texts c f blocks)).map uniqRow)

theorem uniqRow_injective : Function.Injective uniqRow := by
  rintro ⟨t, n⟩ ⟨t', n'⟩ h
  simp only [uniqRow, Uniq.Row.mk.injEq, List.cons.injEq, and_true, Option.some.injEq] at h
  rw [h.1, decimal_injective h.2]

theorem uniqExact_iff {hitsFieldName : Bytes} (hhits : hitsFieldName ≠ []) (concurrency : Nat)
    (hvalid : ∀ b ∈ blocks, b.2.Valid c) :
    UniqExact c f hitsFieldName concurrency blocks ↔ ∀ t ∈ texts c f blocks, Canonical t := by
  have hneed : (uniqWithHits f hitsFieldName).needHits = true := by
    cases hitsFieldName with
    | nil => exact absurd rfl hhits
    | cons b bs => rfl
  -- without a limit, every run writes the groups by key
  have hrun : ∀ trim out, ∃ rows,
      (uniqWithHits f hitsFieldName).run c concurrency false trim out blocks = .ok rows ∧
        rows.Perm ((keyGroups (texts c f blocks)).map uniqRow) := by
    intro trim out
    obtain ⟨rows, hrows, -, hwrite⟩ := run_rows (p := uniqWithHits f hitsFieldName) (cons_ne_nil _ _) hvalid
      concurrency false trim out
    have hno : ¬(uniqWithHits f hitsFieldName).Overrun c (max concurrency 1) blocks := by
      rintro ⟨_, _, _, _, _, hlimit, _⟩
      exact absurd hlimit (lt_irrefl 0)
    obtain ⟨-, -, hexact⟩ := hwrite (by simpa using hno)
    refine ⟨rows, hrows, (hexact fun he => absurd he.1 (lt_irrefl 0)).trans (List.Perm.of_eq ?_)⟩
    have hall : (uniqWithHits f hitsFieldName).allRows c blocks = (texts c f blocks).map genericKey :=
      allRows_byField f blocks
    rw [PipeUniq.distinctKeys, hall, keyGroups, map_map]
    refine map_congr_left fun k _ => ?_
    rw [PipeUniq.exactRow, hneed]
    rfl
  rw [← keyGroups_perm_iff, ← map_perm_map_iff uniqRow_injective]
  constructor
  · intro h
    obtain ⟨rows, hrows, hperm⟩ := h .plain .plain
    obtain ⟨rows', hrows', hperm'⟩ := hrun .plain .plain
    cases hrows.symm.trans hrows'
    exact hperm'.symm.trans hperm
  · intro h trim out
    obtain ⟨rows, hrows, hperm⟩ := hrun trim out
    exact ⟨rows, hrows, hperm.trans h⟩

/-! ### `stats by (f) count()` -/

def statsRow (g : Bytes × Nat) : StatsRow := ⟨g.1, decimal g.2⟩

/-- Whatever the orders of the maps, the rows are those of the exact groups. -/
def StatsExact (c : Float64Codec) (f : Bytes) (psStr : String) (maxStateSize : Int) (concurrency : Nat)
    (blocks : List (Nat × BlockResult)) : Prop :=
  ∀ it, ∃ rows, Stats.run c f psStr maxStateSize concurrency it blocks = .ok rows ∧
    rows.Perm ((exactGroups (texts c f blocks)).map statsRow)

theorem statsRow_injective : Function.Injective statsRow := by
  rintro ⟨t, n⟩ ⟨t', n'⟩ h
  simp only [statsRow, StatsRow.mk.injEq] at h
  rw [h.1, decimal_injective h.2]

theorem writeMerged_perm (it : Iteration) (m : HitsMap) :
    (writeMerged it m).Perm ((m.keys.map fun k => (k.text, m.get k)).map statsRow) := by
  unfold writeMerged HitsMap.keys
  simp only [map_append, map_map]
  exact ((it.perm_u64s _).map _).append (((it.perm_negs _).map _).append ((it.perm_strings _).map _))

theorem statsExact_iff (psStr : String) (maxStateSize : Int) (concurrency : Nat) (hvalid : ∀ b ∈ blocks, b.2.Valid c) :
    StatsExact c f psStr maxStateSize concurrency blocks ↔
      (∀ t ∈ texts c f blocks, Canonical t) ∧ 0 < budgetLeft c f (max concurrency 1) maxStateSize blocks := by
  obtain ⟨hfail, hok⟩ := Stats.run_spec (f := f) psStr maxStateSize concurrency hvalid
  by_cases hleft : 0 < budgetLeft c f (max concurrency 1) maxStateSize blocks
  · obtain ⟨m, htracks, hrun⟩ := hok hleft
    have hgroups : ∀ it, (writeMerged it m).Perm ((keyGroups (texts c f blocks)).map statsRow) := fun it =>
      (writeMerged_perm it m).trans ((entries_perm_keyGroups htracks).map statsRow)
    rw [and_iff_left hleft, ← keyGroups_perm_iff, ← map_perm_map_iff statsRow_injective]
    constructor
    · intro h
      obtain ⟨rows, hrows, hperm⟩ := h .plain
      obtain rfl : writeMerged .plain m = rows := Except.ok.inj ((hrun .plain).symm.trans hrows)
      exact (hgroups .plain).symm.trans hperm
    · intro h it
      exact ⟨_, hrun it, (hgroups it).trans h⟩
  · constructor
    · intro h
      obtain ⟨rows, hrows, -⟩ := h .plain
      exact absurd hrows (hfail (by omega) .plain rows)
    · intro h
      exact absurd h.2 hleft

/-! ### `top` -/

/-- What the workers of `top` count. -/
theorem top_feed_spec {p : PipeTop} (hfields : p.byFields = [f]) (concurrency : Nat)
    (hvalid : ∀ b ∈ blocks, b.2.Valid c) :
    ∃ shards, blocks.foldlM (fun shards b => p.writeBlock c shards b.1 b.2)
        (List.replicate (max concurrency 1) (HitsMap.new [])) = .ok shards ∧
      shards.length = max concurrency 1 ∧ ∀ i m, shards[i]? = some m →
        m.filter = [] ∧ Tracks true m ((byField f).shardRows c (max concurrency 1) blocks i) := by
  induction blocks using List.reverseRecOn with
  | nil =>
    refine ⟨_, rfl, length_replicate, fun i m hm => ?_⟩
    obtain rfl := eq_of_mem_replicate (mem_of_getElem? hm)
    exact ⟨rfl, Tracks.new []⟩
  | append_singleton blocks b ih =>
    obtain ⟨shards, hshards, hlen, htracks⟩ := ih fun b hb => hvalid b (mem_append_left _ hb)
    have hbr := hvalid b (by simp)
    have hstep : ∀ shards', p.writeBlock c shards b.1 b.2 = .ok shards' →
        (blocks ++ [b]).foldlM (fun shards b => p.writeBlock c shards b.1 b.2)
          (List.replicate (max concurrency 1) (HitsMap.new [])) = .ok shards' := by
      intro shards' hwrite
      rw [foldlM_append, hshards, except_ok_bind, foldlM_cons, hwrite, except_ok_bind]
      rfl
    by_cases hempty : b.2.rowsLen = 0
    · refine ⟨shards, hstep shards (if_pos hempty), hlen, fun i m hm => ?_⟩
      rw [shardRows_concat, rowKeys_of_empty hbr hempty, ite_self, append_nil]
      exact htracks i m hm
    have hidx : min b.1 (max concurrency 1 - 1) < shards.length := by
      rw [hlen]
      omega
    have hm := List.getElem?_eq_getElem hidx
    generalize shards[min b.1 (max concurrency 1 - 1)] = m at hm
    obtain ⟨hfilter, hknown⟩ := htracks _ m hm
    obtain ⟨m', hm', hfilter', hknown'⟩ := TopPipe.updateSingleColumn_spec hbr hempty hfilter hknown f
    have hwrite : p.writeBlock c shards b.1 b.2 = .ok (shards.set (min b.1 (max concurrency 1 - 1)) m') := by
      rw [PipeTop.writeBlock, if_neg hempty]
      dsimp only
      rw [hlen, hm]
      dsimp only
      rw [PipeTop.writeBlockInto, hfields]
      dsimp only
      rw [hm']
      rfl
    refine ⟨_, hstep _ hwrite, by rw [length_set, hlen], fun i m'' hi => ?_⟩
    rcases getElem?_set_cases hi with ⟨rfl, rfl⟩ | ⟨hne, hi⟩
    · rw [shardRows_concat, if_pos rfl, rowKeys_byField]
      exact ⟨hfilter', hknown'⟩
    · rw [shardRows_concat, if_neg (Ne.symm hne), append_nil]
      exact htracks i m'' hi

def topEntry (g : Bytes × Nat) : TopEntry := ⟨g.1, g.2⟩

def groupOf (r : TopRow) : List Bytes × Bytes := (r.values, r.hits)

def entryGroup (e : TopEntry) : List Bytes × Bytes := ([e.k], marshalUint64String e.hits)

/-- Whatever the limit and the orders of the maps, the rows are those of the largest exact groups. -/
def TopExact (c : Float64Codec) (f rankFieldName : Bytes) (concurrency : Nat) (blocks : List (Nat × BlockResult)) :
    Prop :=
  ∀ limit it, ∃ rows, (PipeTop.mk [f] limit rankFieldName).run c concurrency it blocks = .ok rows ∧
    rows.map groupOf = ((sortEntries ((exactGroups (texts c f blocks)).map topEntry)).take limit).map entryGroup

theorem entriesOf_perm (it : Iteration) (m : HitsMap) :
    (entriesOf it m).Perm ((m.keys.map fun k => (k.text, m.get k)).map topEntry) := by
  unfold entriesOf HitsMap.keys
  simp only [map_append, map_map]
  exact ((it.perm_u64s _).map _).append (((it.perm_negs _).map _).append ((it.perm_strings _).map _))

/-- A run of `top` writes the largest groups by key. -/
theorem top_run_spec (limit : Nat) (rankFieldName : Bytes) (concurrency : Nat) (it : Iteration)
    (hvalid : ∀ b ∈ blocks, b.2.Valid c) :
    ∃ rows, (PipeTop.mk [f] limit rankFieldName).run c concurrency it blocks = .ok rows ∧
      rows.map groupOf = ((sortEntries ((keyGroups (texts c f blocks)).map topEntry)).take limit).map entryGroup := by
  obtain ⟨shards, hshards, hlen, hknown⟩ := top_feed_spec (p := ⟨[f], limit, rankFieldName⟩) rfl concurrency hvalid
  have htracks : Tracks true (shards.foldl HitsMap.merge (HitsMap.new [])) ((byField f).allRows c blocks) :=
    tracks_merged (by omega) hlen fun i m hm => (hknown i m hm).2
  have hsort : sortEntries (entriesOf it (shards.foldl HitsMap.merge (HitsMap.new []))) =
      sortEntries ((keyGroups (texts c f blocks)).map topEntry) :=
    sortEntries_eq_of_perm ((entriesOf_perm it _).trans ((entries_perm_keyGroups htracks).map topEntry))
  refine ⟨_, by rw [PipeTop.run, hshards]; rfl, ?_⟩
  unfold PipeTop.flush
  dsimp only
  split_ifs with hzero hstop
  · rw [hzero]
    rfl
  · cases hstop
  · rw [hsort, PipeTop.writeOutput]
    apply ext_getElem
    · simp
    · intro i hi hi'
      simp [groupOf, entryGroup]

theorem entryGroup_injective : Function.Injective entryGroup := by
  rintro ⟨t, n⟩ ⟨t', n'⟩ h
  simp only [entryGroup, Prod.mk.injEq, List.cons.injEq, and_true] at h
  rw [h.1, decimal_injective h.2]

theorem topEntry_injective : Function.Injective topEntry := by
  rintro ⟨t, n⟩ ⟨t', n'⟩ h
  simp only [topEntry, TopEntry.mk.injEq] at h
  rw [h.1, h.2]

theorem topExact_iff (rankFieldName : Bytes) (concurrency : Nat) (hvalid : ∀ b ∈ blocks, b.2.Valid c) :
    TopExact c f rankFieldName concurrency blocks ↔ ∀ t ∈ texts c f blocks, Canonical t := by
  rw [← keyGroups_perm_iff]
  constructor
  -- a limit that keeps all groups
  · intro h
    obtain ⟨limit, hlimit⟩ : ∃ limit, limit = ((keyGroups (texts c f blocks)).map topEntry).length +
      ((exactGroups (texts c f blocks)).map topEntry).length := ⟨_, rfl⟩
    obtain ⟨rows, hrows, hexact⟩ := h limit .plain
    obtain ⟨rows', hrows', hkeys⟩ := top_run_spec (f := f) limit rankFieldName concurrency .plain hvalid
    cases hrows.symm.trans hrows'
    rw [hkeys] at hexact
    have heq := map_injective_iff.2 entryGroup_injective hexact
    rw [take_of_length_le (by rw [(sortEntries_perm _).length_eq]; omega),
      take_of_length_le (by rw [(sortEntries_perm _).length_eq]; omega)] at heq
    have hperm := (sortEntries_perm ((keyGroups (texts c f blocks)).map topEntry)).symm
    rw [heq] at hperm
    exact (map_perm_map_iff topEntry_injective).1 (hperm.trans (sortEntries_perm _))
  · intro h limit it
    obtain ⟨rows, hrows, hkeys⟩ := top_run_spec (f := f) limit rankFieldName concurrency it hvalid
    refine ⟨rows, hrows, ?_⟩
    rw [hkeys, sortEntries_eq_of_perm (h.map topEntry)]

/-! ### The three pipes -/

/-- Grouping by one field is by exact text in each of the three pipes exactly when every text of the field is
canonical and, in `stats`, the groups fit into the budget of the query. -/
theorem grouping_iff (c : Float64Codec) (f hitsFieldName rankFieldName : Bytes) (hhits : hitsFieldName ≠ [])
    (psStr : String) (maxStateSize : Int) (concurrency : Nat) (blocks : List (Nat × BlockResult))
    (hvalid : ∀ b ∈ blocks, b.2.Valid c) :
    (UniqExact c f hitsFieldName concurrency blocks ↔ ∀ t ∈ texts c f blocks, Canonical t) ∧
      (TopExact c f rankFieldName concurrency blocks ↔ ∀ t ∈ texts c f blocks, Canonical t) ∧
      (StatsExact c f psStr maxStateSize concurrency blocks ↔
        (∀ t ∈ texts c f blocks, Canonical t) ∧ 0 < budgetLeft c f (max concurrency 1) maxStateSize blocks) :=
  ⟨uniqExact_iff hhits concurrency hvalid, topExact_iff rankFieldName concurrency hvalid,
    statsExact_iff psStr maxStateSize concurrency hvalid⟩

/-- One number, spelled with and without an underscore. -/
def twoSpellings : List (Nat × BlockResult) := [(0, textBlock (ascii "f") [ascii "1_000", ascii "1000"])]

/-- A number of the unsigned ones and one of the negative ones. -/
def twoSigns : List (Nat × BlockResult) := [(0, textBlock (ascii "f") [ascii "7", ascii "-7"])]

theorem grouping_twoSigns : UniqExact noFloats (ascii "f") (ascii "hits") 1 twoSigns ∧
    TopExact noFloats (ascii "f") [] 1 twoSigns ∧
    StatsExact noFloats (ascii "f") "stats by (f) count(*) as hits" (2 ^ 30) 1 twoSigns := by
  obtain ⟨huniq, htop, hstats⟩ := grouping_iff noFloats (ascii "f") (ascii "hits") [] (by decide)
    "stats by (f) count(*) as hits" (2 ^ 30) 1 twoSigns (forall_mem_singleton.2 (valid_textBlock (by decide)))
  have hcanonical : ∀ t ∈ texts noFloats (ascii "f") twoSigns, Canonical t := by
    show ∀ t ∈ [ascii "7", ascii "-7"], Canonical t
    decide +kernel
  have hbudget : 0 < budgetLeft noFloats (ascii "f") (max 1 1) (2 ^ 30) twoSigns := by decide +kernel
  exact ⟨huniq.2 hcanonical, htop.2 hcanonical, hstats.2 ⟨hcanonical, hbudget⟩⟩

/-- The two spellings make one group in each of the three pipes. -/
theorem not_grouping_twoSpellings : ¬UniqExact noFloats (ascii "f") (ascii "hits") 1 twoSpellings ∧
    ¬TopExact noFloats (ascii "f") [] 1 twoSpellings ∧
    ¬StatsExact noFloats (ascii "f") "stats by (f) count(*) as hits" (2 ^ 30) 1 twoSpellings := by
  have hvalid : ∀ b ∈ twoSpellings, b.2.Valid noFloats := forall_mem_singleton.2 (valid_textBlock (by decide))
  have hno : ¬∀ t ∈ texts noFloats (ascii "f") twoSpellings, Canonical t := by
    intro h
    have hcanonical : Canonical (ascii "1_000") := h _ (by decide +kernel)
    exact absurd hcanonical (by decide +kernel)
  refine ⟨fun h => hno ((uniqExact_iff (by decide) 1 hvalid).1 h), fun h => hno ((topExact_iff [] 1 hvalid).1 h),
    fun h => hno ((statsExact_iff _ _ 1 hvalid).1 h).1⟩

end EsLogs.Grouping
