import EsLogs.UniqLimit
import EsLogs.PipeOptimizer

/-!
Folding limits into a `uniq` pipe (`optimize_uniq_limit_pipes` of `parser/query.rs`). A limit of zero means no limit
to `uniq` and no rows to `limit`, a `uniq` pipe that exceeds its limit writes no hits, and it writes nothing at all
when a shard refuses a block; so the folded pipe may write what the pipes before could not.
-/

namespace EsLogs.Uniq

open NumberText ColumnValues Encoding Hits Pipes List

/-! ### The rewrite -/

def PipeUniq.uniqMergeLimit (p : PipeUniq) (limit : Nat) : PipeUniq :=
  if p.limit = 0 ∨ limit < p.limit then { p with limit := limit } else p

def uniqLimitRule {ρ : Type} : Pipe (PipeUniq ⊕ ρ) → Pipe (PipeUniq ⊕ ρ) → Outcome (Rewrite (PipeUniq ⊕ ρ))
  | .other (.inl p), .limit limit => .ok (.merge (.other (.inl (p.uniqMergeLimit limit))))
  | _, _ => .ok .keep

def optimizeUniqLimitPipes {ρ : Type} : List (Pipe (PipeUniq ⊕ ρ)) → Outcome (List (Pipe (PipeUniq ⊕ ρ))) :=
  passAll uniqLimitRule

structure UniqChain where
  uniq : PipeUniq
  limits : List Nat
  deriving DecidableEq, Repr

def UniqChain.pipes (ρ : Type) (ch : UniqChain) : List (Pipe (PipeUniq ⊕ ρ)) :=
  .other (.inl ch.uniq) :: ch.limits.map .limit

def UniqChain.folded (ch : UniqChain) : UniqChain := ⟨ch.limits.foldl PipeUniq.uniqMergeLimit ch.uniq, []⟩

theorem optimize_pipes (ρ : Type) (ch : UniqChain) :
    optimizeUniqLimitPipes (ch.pipes ρ) = .ok (ch.folded.pipes ρ) := by
  obtain ⟨p, limits⟩ := ch
  show pass uniqLimitRule (.other (.inl p)) (limits.map .limit) = .ok [.other (.inl (limits.foldl _ p))]
  induction limits generalizing p with
  | nil => rfl
  | cons limit limits ih => exact ih (p.uniqMergeLimit limit)

/-! ### Running a chain -/

/-- `PipeLimitProcessor::write_block`: the rows that are passed on, and the number of rows so far. -/
def limitWriteBlock {α : Type} (limit rowsProcessed : Nat) (rows : List α) : Nat × List α :=
  if rows.length = 0 then (rowsProcessed, [])
  else
    let blockRows := rows.length
    let rowsProcessed := rowsProcessed + blockRows
    if rowsProcessed ≤ limit then (rowsProcessed, rows)
    else
      let rowsBefore := rowsProcessed - blockRows
      if rowsBefore ≥ limit then (rowsProcessed, [])
      else (rowsProcessed, rows.take (limit - rowsBefore))

theorem limitWriteBlock_zero {α : Type} (limit : Nat) (rows : List α) :
    (limitWriteBlock limit 0 rows).2 = rows.take limit := by
  unfold limitWriteBlock
  dsimp only
  rw [Nat.zero_add, Nat.sub_self, Nat.sub_zero]
  split_ifs with hempty hle hzero
  · rw [length_eq_zero_iff.1 hempty, take_nil]
  · rw [take_of_length_le hle]
  · rw [Nat.le_zero.1 hzero, take_zero]
  · rfl

/-- `run_pipes` for a chain. A `limit 0` sets the stop flag when the processors are made; the other pipes see
the block of the flush of `uniq`, and no other one. -/
def UniqChain.run (ch : UniqChain) (c : Float64Codec) (concurrency : Nat) (trim out : Iteration)
    (blocks : List (Nat × BlockResult)) : Outcome (List Row) := do
  let stop := ch.limits.any (· == 0)
  let rows ← ch.uniq.run c concurrency stop trim out blocks
  return ch.limits.foldl (fun rows limit => (limitWriteBlock limit 0 rows).2) rows

def UniqChain.Yields (ch : UniqChain) (c : Float64Codec) (concurrency : Nat) (blocks : List (Nat × BlockResult))
    (rows : List Row) : Prop := ∃ trim out, ch.run c concurrency trim out blocks = .ok rows

/-- The chain could have such a result: it has results with this number of tuples, and its `uniq` pipe writes each
of the tuples with these hits. -/
structure UniqChain.CouldYield (ch : UniqChain) (c : Float64Codec) (concurrency : Nat)
    (blocks : List (Nat × BlockResult)) (rows : List Row) : Prop where
  number : ∃ rows', ch.Yields c concurrency blocks rows' ∧ rows'.length = rows.length
  hits : ∀ row ∈ rows, ∃ rows', (UniqChain.mk ch.uniq []).Yields c concurrency blocks rows' ∧ row ∈ rows'

/-- Whatever the folded chain writes, the chain could write. -/
def UniqChain.FoldSound (ch : UniqChain) (c : Float64Codec) (concurrency : Nat)
    (blocks : List (Nat × BlockResult)) : Prop :=
  ∀ trim out, ∃ rows, ch.folded.run c concurrency trim out blocks = .ok rows ∧
    ch.CouldYield c concurrency blocks rows

/-! ### The folded limit -/

def PipeUniq.withLimit (p : PipeUniq) (L : Nat) : PipeUniq := { p with limit := L }

theorem foldl_uniqMergeLimit (limits : List Nat) (p : PipeUniq) :
    limits.foldl PipeUniq.uniqMergeLimit p = p.withLimit (limits.foldl PipeUniq.uniqMergeLimit p).limit := by
  induction limits generalizing p with
  | nil => rfl
  | cons limit limits ih =>
    rw [foldl_cons]
    refine (ih _).trans ?_
    unfold PipeUniq.uniqMergeLimit
    split_ifs <;> rfl

/-- Limits other than zero leave the limit of the pipe if it is the least one, and give the least of them
otherwise. -/
theorem limit_foldl {limits : List Nat} {p : PipeUniq} {L : Nat} (h0 : 0 ∉ limits)
    (hL : (limits.foldl PipeUniq.uniqMergeLimit p).limit = L) :
    (L = p.limit ∧ (limits = [] ∨ 0 < p.limit ∧ ∀ l ∈ limits, p.limit ≤ l)) ∨
      (0 < L ∧ L ∈ limits ∧ (∀ l ∈ limits, L ≤ l) ∧ (p.limit = 0 ∨ L < p.limit)) := by
  induction limits generalizing p with
  | nil => exact .inl ⟨hL.symm, .inl rfl⟩
  | cons limit limits ih =>
    rw [mem_cons, not_or] at h0
    have hih := ih h0.2 hL
    unfold PipeUniq.uniqMergeLimit at hih
    split_ifs at hih with hsmall
    · right
      rcases hih with ⟨rfl, hrest⟩ | ⟨hpos, hmem, hle, hlt⟩
      · refine ⟨by omega, mem_cons_self, forall_mem_cons.2 ⟨le_rfl, ?_⟩, by omega⟩
        rcases hrest with rfl | ⟨-, hrest⟩
        · exact forall_mem_nil _
        · exact hrest
      · dsimp only at hlt
        exact ⟨hpos, mem_cons_of_mem _ hmem, forall_mem_cons.2 ⟨by omega, hle⟩, by omega⟩
    · rcases hih with ⟨rfl, hrest⟩ | ⟨hpos, hmem, hle, hlt⟩
      · left
        refine ⟨rfl, .inr ⟨by omega, forall_mem_cons.2 ⟨by omega, ?_⟩⟩⟩
        rcases hrest with rfl | ⟨-, hrest⟩
        · exact forall_mem_nil _
        · exact hrest
      · right
        exact ⟨hpos, mem_cons_of_mem _ hmem, forall_mem_cons.2 ⟨by omega, hle⟩, hlt⟩

/-! ### The rows of a `uniq` pipe -/

section Rows

variable {c : Float64Codec} {p : PipeUniq} {blocks : List (Nat × BlockResult)} {concurrency : Nat}

/-- The row of a key with its number of rows as hits. -/
def PipeUniq.exactRow (p : PipeUniq) (rows : List Key) (k : Key) : Row :=
  ⟨p.keyValues k, if p.needHits then some (marshalUint64String (rows.count k)) else none⟩

def PipeUniq.zeroRow (p : PipeUniq) (k : Key) : Row :=
  ⟨p.keyValues k, if p.needHits then some (marshalUint64String 0) else none⟩

/-- How many tuples are written for a number of keys. -/
def PipeUniq.written (p : PipeUniq) (keys : Nat) : Nat := if p.limit = 0 then keys else min keys p.limit

/-- Whether there are more keys than the limit allows. -/
def PipeUniq.Exceeded (p : PipeUniq) (keys : Nat) : Prop := 0 < p.limit ∧ p.limit < keys

theorem row_eq_exactRow (hfields : p.byFields ≠ []) {m : HitsMap} {rows : List Key} (hm : Tracks p.counts m rows)
    (k : Key) : p.row m false k = p.exactRow rows k := by
  unfold PipeUniq.row PipeUniq.exactRow
  by_cases hneed : p.needHits = true
  · have hcounts : p.counts = true := by simp [PipeUniq.counts, hneed, hfields]
    rw [hm.exact_hits hcounts]
    rfl
  · rw [if_neg hneed, if_neg hneed]

variable (hfields : p.byFields ≠ []) (hvalid : ∀ b ∈ blocks, b.2.Valid c)

include hfields hvalid

/-- What a run writes, in terms of the keys of the input. -/
theorem run_rows (concurrency : Nat) (stop : Bool)
    (trim out : Iteration) :
    ∃ rows, p.run c concurrency stop trim out blocks = .ok rows ∧
      (stop = true ∨ p.Overrun c (max concurrency 1) blocks → rows = []) ∧
      (¬(stop = true ∨ p.Overrun c (max concurrency 1) blocks) →
        rows.length = p.written (p.distinctKeys c blocks).length ∧
        (p.Exceeded (p.distinctKeys c blocks).length → ∀ row ∈ rows, ∃ k ∈ p.distinctKeys c blocks,
          Survives (p.distinctKeys c blocks) ((p.distinctKeys c blocks).length - p.limit) k ∧ row = p.zeroRow k) ∧
        (¬p.Exceeded (p.distinctKeys c blocks).length →
          rows.Perm ((p.distinctKeys c blocks).map (p.exactRow (p.allRows c blocks))))) := by
  obtain ⟨m, htracks, hrun⟩ := run_spec p concurrency stop hvalid
  obtain ⟨rows, hrows, hempty, hwrite⟩ := hrun trim out
  refine ⟨rows, hrows, hempty, fun hgo => ?_⟩
  obtain ⟨hfull, hall⟩ := hwrite hgo
  have htracks := htracks fun hover => hgo (.inr hover)
  have hperm : m.keys.Perm (p.distinctKeys c blocks) := htracks.keys_perm
  have hexceeded : p.Full m ↔ p.Exceeded (p.distinctKeys c blocks).length := by
    rw [PipeUniq.Full, ← m.length_keys, hperm.length_eq]
    rfl
  by_cases hf : p.Full m
  · have hrowsPerm := hfull hf
    refine ⟨?_, fun _ row hrow => ?_, fun hno => absurd (hexceeded.1 hf) hno⟩
    · have hlt := (hexceeded.1 hf).2
      have hpos := (hexceeded.1 hf).1
      rw [hrowsPerm.length_eq, length_map, length_kept, ← m.length_keys, hperm.length_eq, PipeUniq.written]
      split_ifs <;> omega
    · obtain ⟨k, hk, rfl⟩ := mem_map.1 (hrowsPerm.mem_iff.1 hrow)
      refine ⟨k, hperm.mem_iff.1 (mem_of_mem_kept hk), ?_, rfl⟩
      rw [← survives_congr hperm, ← hperm.length_eq, m.length_keys]
      exact survives_of_mem_kept hk
  · have hrowsPerm := hall hf
    refine ⟨?_, fun hyes => absurd (hexceeded.2 hyes) hf, fun _ => ?_⟩
    · rw [hexceeded] at hf
      unfold PipeUniq.Exceeded at hf
      rw [hrowsPerm.length_eq, length_map, hperm.length_eq, PipeUniq.written]
      split_ifs <;> omega
    · have heq : p.row m false = p.exactRow (p.allRows c blocks) := by
        funext k
        exact row_eq_exactRow hfields htracks k
      rw [heq] at hrowsPerm
      exact hrowsPerm.trans (hperm.map _)

/-- The row is in a result of the pipe. -/
def PipeUniq.Writes (p : PipeUniq) (c : Float64Codec) (concurrency : Nat) (blocks : List (Nat × BlockResult))
    (row : Row) : Prop := ∃ trim out rows, p.run c concurrency false trim out blocks = .ok rows ∧ row ∈ rows

omit hfields in
/-- Every key that can be kept is written in some order. -/
theorem writes_zeroRow (hno : ¬p.Overrun c (max concurrency 1) blocks)
    (hexceeded : p.Exceeded (p.distinctKeys c blocks).length) {k : Key} (hk : k ∈ p.distinctKeys c blocks)
    (hsurvives : Survives (p.distinctKeys c blocks) ((p.distinctKeys c blocks).length - p.limit) k) :
    p.Writes c concurrency blocks (p.zeroRow k) := by
  obtain ⟨m, htracks, hrun⟩ := run_spec p concurrency false hvalid
  obtain ⟨rows, hrows, -, hwrite⟩ := hrun (.lastly k) .plain
  obtain ⟨hfull, -⟩ := hwrite (by simpa using hno)
  have hperm : m.keys.Perm (p.distinctKeys c blocks) := (htracks hno).keys_perm
  have hf : p.Full m := by
    rw [PipeUniq.Full, ← m.length_keys, hperm.length_eq]
    exact hexceeded
  refine ⟨.lastly k, .plain, rows, hrows, (hfull hf).mem_iff.2 ?_⟩
  rw [← survives_congr hperm, ← hperm.length_eq, m.length_keys] at hsurvives
  exact mem_map_of_mem (mem_kept_lastly (hperm.mem_iff.2 hk) hsurvives)

theorem writes_iff {row : Row} :
    p.Writes c concurrency blocks row ↔
      ¬p.Overrun c (max concurrency 1) blocks ∧ ∃ k ∈ p.distinctKeys c blocks,
        (p.Exceeded (p.distinctKeys c blocks).length →
          Survives (p.distinctKeys c blocks) ((p.distinctKeys c blocks).length - p.limit) k ∧ row = p.zeroRow k) ∧
        (¬p.Exceeded (p.distinctKeys c blocks).length → row = p.exactRow (p.allRows c blocks) k) := by
  constructor
  · rintro ⟨trim, out, rows, hrun, hrow⟩
    obtain ⟨rows', hrun', hempty, hwrite⟩ := run_rows hfields hvalid concurrency false trim out
    cases hrun.symm.trans hrun'
    have hgo : ¬p.Overrun c (max concurrency 1) blocks := by
      intro hover
      rw [hempty (.inr hover)] at hrow
      cases hrow
    obtain ⟨-, hzero, hexact⟩ := hwrite (by simpa using hgo)
    refine ⟨hgo, ?_⟩
    by_cases hexceeded : p.Exceeded (p.distinctKeys c blocks).length
    · obtain ⟨k, hk, hk'⟩ := hzero hexceeded row hrow
      exact ⟨k, hk, fun _ => hk', fun hno => absurd hexceeded hno⟩
    · obtain ⟨k, hk, heq⟩ := mem_map.1 ((hexact hexceeded).mem_iff.1 hrow)
      exact ⟨k, hk, fun h => absurd h hexceeded, fun _ => heq.symm⟩
  · rintro ⟨hgo, k, hk, hzero, hexact⟩
    by_cases hexceeded : p.Exceeded (p.distinctKeys c blocks).length
    · obtain ⟨hsurvives, rfl⟩ := hzero hexceeded
      exact writes_zeroRow hvalid hgo hexceeded hk hsurvives
    · obtain ⟨rows, hrun, -, hwrite⟩ := run_rows hfields hvalid concurrency false .plain .plain
      obtain ⟨-, -, hperm⟩ := hwrite (by simpa using hgo)
      rw [hexact hexceeded]
      exact ⟨.plain, .plain, rows, hrun, (hperm hexceeded).mem_iff.2 (mem_map_of_mem hk)⟩

open Classical in
/-- How many rows a run writes, in whatever order its maps are listed. -/
noncomputable def PipeUniq.rowsOf (p : PipeUniq) (c : Float64Codec) (concurrency : Nat) (stop : Bool)
    (blocks : List (Nat × BlockResult)) : Nat :=
  if stop = true ∨ p.Overrun c (max concurrency 1) blocks then 0 else p.written (p.distinctKeys c blocks).length

theorem exists_run (stop : Bool)
    (trim out : Iteration) : ∃ rows, p.run c concurrency stop trim out blocks = .ok rows ∧
      rows.length = p.rowsOf c concurrency stop blocks := by
  obtain ⟨rows, hrun, hempty, hwrite⟩ := run_rows hfields hvalid concurrency stop trim out
  refine ⟨rows, hrun, ?_⟩
  unfold PipeUniq.rowsOf
  split_ifs with h
  · rw [hempty h, length_nil]
  · exact (hwrite h).1

omit hfields hvalid in
theorem rowsOf_eq_zero_iff : p.rowsOf c concurrency false blocks = 0 ↔
    (p.distinctKeys c blocks).length = 0 ∨ p.Overrun c (max concurrency 1) blocks := by
  by_cases hover : p.Overrun c (max concurrency 1) blocks
  · simp [PipeUniq.rowsOf, hover]
  · simp only [PipeUniq.rowsOf, hover, PipeUniq.written]
    split_ifs <;> simp_all

omit hfields hvalid

theorem Survives.mono {keys : List Key} {d d' : Nat} {k : Key} (h : Survives keys d k) (hle : d' ≤ d) :
    Survives keys d' k := by
  cases k <;> exact lt_of_le_of_lt hle h

/-- A shard has no more keys than there are. -/
theorem Overrun.lt {n : Nat} (h : p.Overrun c n blocks) : p.limit < (p.distinctKeys c blocks).length := by
  obtain ⟨before, b, after, rfl, -, -, hover⟩ := h
  refine lt_of_lt_of_le hover (List.Subperm.length_le ((nodup_dedup _).subperm ?_))
  intro k hk
  obtain ⟨b', hb', hkb⟩ := mem_flatMap.1 (mem_dedup.1 hk)
  refine mem_dedup.2 (mem_flatMap.2 ⟨b', mem_append_left _ hb', ?_⟩)
  split_ifs at hkb
  · exact hkb
  · cases hkb

/-- With a smaller limit, more blocks are refused. -/
theorem Overrun.withLimit {n L : Nat} (hpos : 0 < L) (hless : p.limit = 0 ∨ L < p.limit) (h : p.Overrun c n blocks) :
    (p.withLimit L).Overrun c n blocks := by
  obtain ⟨before, b, after, hblocks, hrows, hlimit, hover⟩ := h
  exact ⟨before, b, after, hblocks, hrows, hpos, lt_trans (hless.resolve_left hlimit.ne') hover⟩

end Rows

/-! ### Limits after the pipe -/

theorem le_foldl_min {limits : List Nat} {a x : Nat} : x ≤ limits.foldl min a ↔ x ≤ a ∧ ∀ l ∈ limits, x ≤ l := by
  induction limits generalizing a with
  | nil => simp
  | cons l limits ih => rw [foldl_cons, ih, le_min_iff, forall_mem_cons, and_assoc]

theorem length_foldl_limit {α : Type} (limits : List Nat) (rows : List α) :
    (limits.foldl (fun rows limit => (limitWriteBlock limit 0 rows).2) rows).length =
      limits.foldl min rows.length := by
  induction limits generalizing rows with
  | nil => rfl
  | cons l limits ih => rw [foldl_cons, ih, limitWriteBlock_zero, length_take, min_comm, foldl_cons]

theorem foldl_min_eq {limits : List Nat} {a L : Nat} (hmem : L ∈ limits) (hle : ∀ l ∈ limits, L ≤ l) :
    limits.foldl min a = min a L := by
  refine eq_of_forall_le_iff fun x => ?_
  rw [le_foldl_min, le_min_iff]
  refine and_congr_right fun _ => ⟨fun h => h L hmem, fun h l hl => h.trans (hle l hl)⟩

theorem foldl_min_of_le {limits : List Nat} {a : Nat} (h : ∀ l ∈ limits, a ≤ l) : limits.foldl min a = a := by
  refine le_antisymm ?_ (le_foldl_min.2 ⟨le_rfl, h⟩)
  exact (le_foldl_min.1 le_rfl).1

/-! ### When folding is sound -/

/-- The inputs for which folding is sound. -/
structure UniqChain.FoldSafe (ch : UniqChain) (c : Float64Codec) (concurrency : Nat)
    (blocks : List (Nat × BlockResult)) : Prop where
  zero : 0 ∈ ch.limits → (ch.uniq.distinctKeys c blocks).length = 0 ∨
    ch.folded.uniq.Overrun c (max concurrency 1) blocks
  refuse : 0 ∉ ch.limits → ch.folded.uniq.limit ≠ ch.uniq.limit →
    ch.folded.uniq.Overrun c (max concurrency 1) blocks → ch.uniq.Overrun c (max concurrency 1) blocks
  hits : 0 ∉ ch.limits → ch.folded.uniq.limit ≠ ch.uniq.limit →
    ¬ch.folded.uniq.Overrun c (max concurrency 1) blocks →
    ch.folded.uniq.limit < (ch.uniq.distinctKeys c blocks).length → ch.uniq.needHits = true →
    ch.uniq.Exceeded (ch.uniq.distinctKeys c blocks).length

section Fold

variable {c : Float64Codec} {p : PipeUniq} {limits : List Nat} {blocks : List (Nat × BlockResult)}
  {concurrency L : Nat} (hfields : p.byFields ≠ []) (hvalid : ∀ b ∈ blocks, b.2.Valid c)

theorem run_unlimited (p : PipeUniq) (trim out : Iteration) :
    (UniqChain.mk p []).run c concurrency trim out blocks = p.run c concurrency false trim out blocks := by
  unfold UniqChain.run
  dsimp only [any_nil, foldl_nil]
  cases p.run c concurrency false trim out blocks <;> rfl

include hfields hvalid

/-- The folded pipe may write its rows if the chain has as many of them and its `uniq` pipe writes each one. -/
theorem foldSound_iff_writes
    (hfold : limits.foldl PipeUniq.uniqMergeLimit p = p.withLimit L) :
    (UniqChain.mk p limits).FoldSound c concurrency blocks ↔
      limits.foldl min (p.rowsOf c concurrency (limits.any (· == 0)) blocks) =
        (p.withLimit L).rowsOf c concurrency false blocks ∧
      ∀ row, (p.withLimit L).Writes c concurrency blocks row → p.Writes c concurrency blocks row := by
  have hchain : ∀ trim out, ∃ rows, (UniqChain.mk p limits).run c concurrency trim out blocks = .ok rows ∧
      rows.length = limits.foldl min (p.rowsOf c concurrency (limits.any (· == 0)) blocks) := by
    intro trim out
    obtain ⟨rows, hrun, hlen⟩ := exists_run hfields hvalid (limits.any (· == 0)) trim out
    unfold UniqChain.run
    dsimp only
    rw [hrun]
    exact ⟨_, rfl, by rw [length_foldl_limit, hlen]⟩
  unfold UniqChain.FoldSound
  rw [UniqChain.folded, hfold]
  simp only [run_unlimited]
  constructor
  · intro h
    constructor
    · obtain ⟨rows, hrun, hcould⟩ := h .plain .plain
      obtain ⟨rows', hrun', hlen⟩ := exists_run (p := p.withLimit L) hfields hvalid false .plain .plain
      cases hrun.symm.trans hrun'
      obtain ⟨rows', ⟨trim, out, hyields⟩, hlen'⟩ := hcould.number
      obtain ⟨rows'', hrun'', hlen''⟩ := hchain trim out
      cases hyields.symm.trans hrun''
      rw [← hlen'', hlen', hlen]
    · rintro row ⟨trim, out, rows, hrun, hrow⟩
      obtain ⟨rows', hrun', hcould⟩ := h trim out
      cases hrun.symm.trans hrun'
      obtain ⟨rows'', ⟨trim', out', hyields⟩, hrow'⟩ := hcould.hits row hrow
      exact ⟨trim', out', rows'', (run_unlimited ..).symm.trans hyields, hrow'⟩
  · rintro ⟨hnumber, hwrites⟩ trim out
    obtain ⟨rows, hrun, hlen⟩ := exists_run (p := p.withLimit L) hfields hvalid false trim out
    obtain ⟨rows', hrun', hlen'⟩ := hchain trim out
    refine ⟨rows, hrun, ⟨⟨rows', ⟨trim, out, hrun'⟩, by rw [hlen', hnumber, hlen]⟩, fun row hrow => ?_⟩⟩
    obtain ⟨trim', out', rows'', hrun'', hrow'⟩ := hwrites row ⟨trim, out, rows, hrun, hrow⟩
    exact ⟨rows'', ⟨trim', out', (run_unlimited ..).trans hrun''⟩, hrow'⟩

/-- After a `limit 0` there are no rows. -/
theorem foldSound_zero_iff (h0 : 0 ∈ limits)
    (hfold : limits.foldl PipeUniq.uniqMergeLimit p = p.withLimit L) :
    (UniqChain.mk p limits).FoldSound c concurrency blocks ↔ (p.distinctKeys c blocks).length = 0 ∨
      (p.withLimit L).Overrun c (max concurrency 1) blocks := by
  have hchain : ∀ n, limits.foldl min n = 0 := fun n => Nat.le_zero.1 ((le_foldl_min.1 le_rfl).2 0 h0)
  rw [foldSound_iff_writes hfields hvalid hfold, hchain, eq_comm, rowsOf_eq_zero_iff]
  refine and_iff_left_of_imp fun h row hrow => ?_
  obtain ⟨hgo, k, hk, -⟩ := (writes_iff (p := p.withLimit L) hfields hvalid).1 hrow
  rcases h with hkeys | hover
  · exact absurd hkeys (length_pos_of_mem hk).ne'
  · exact absurd hover hgo

omit hfields hvalid in
theorem any_zero_eq_false (h0 : 0 ∉ limits) : limits.any (· == 0) = false := by
  simp only [any_eq_false, beq_iff_eq]
  exact fun l hl hzero => h0 (hzero ▸ hl)

/-- Limits that the limit of the pipe makes void. -/
theorem foldSound_same (h0 : 0 ∉ limits)
    (hfold : limits.foldl PipeUniq.uniqMergeLimit p = p)
    (hvoid : limits = [] ∨ 0 < p.limit ∧ ∀ l ∈ limits, p.limit ≤ l) :
    (UniqChain.mk p limits).FoldSound c concurrency blocks := by
  refine (foldSound_iff_writes (L := p.limit) hfields hvalid hfold).2 ⟨?_, fun _ hrow => hrow⟩
  rw [any_zero_eq_false h0]
  refine foldl_min_of_le fun l hl => ?_
  rcases hvoid with rfl | ⟨hpos, hle⟩
  · cases hl
  · have := hle l hl
    unfold PipeUniq.rowsOf PipeUniq.written
    split_ifs <;> omega

/-- With a smaller limit, rows are written without hits where the pipe before writes them with hits. -/
theorem writes_less_iff (hpos : 0 < L)
    (hless : p.limit = 0 ∨ L < p.limit) :
    (∀ row, (p.withLimit L).Writes c concurrency blocks row → p.Writes c concurrency blocks row) ↔
      (¬(p.withLimit L).Overrun c (max concurrency 1) blocks →
        L < (p.distinctKeys c blocks).length → p.needHits = true → p.Exceeded (p.distinctKeys c blocks).length) := by
  constructor
  · intro h hover hlt hneed
    by_contra hno
    obtain ⟨rows, hrun, hlen⟩ : ∃ rows, (p.withLimit L).run c concurrency false .plain .plain blocks = .ok rows ∧ _ :=
      exists_run (p := p.withLimit L) hfields hvalid false .plain .plain
    have hne : rows.length ≠ 0 := by
      rw [hlen, Ne, rowsOf_eq_zero_iff]
      exact not_or.2 ⟨(Nat.zero_lt_of_lt hlt).ne', hover⟩
    obtain ⟨row, hrow⟩ := exists_mem_of_length_pos (Nat.pos_of_ne_zero hne)
    have hwrites : (p.withLimit L).Writes c concurrency blocks row :=
      ⟨.plain, .plain, rows, hrun, hrow⟩
    obtain ⟨-, k, -, hzero, -⟩ := (writes_iff (p := p.withLimit L) hfields hvalid).1 hwrites
    obtain ⟨-, k', hk', -, hexact⟩ := (writes_iff hfields hvalid).1 (h row hwrites)
    have hnone : row.hits = some (marshalUint64String 0) := by
      rw [(hzero ⟨hpos, hlt⟩).2]
      exact if_pos hneed
    have hsome : row.hits = some (marshalUint64String ((p.allRows c blocks).count k')) := by
      rw [hexact hno]
      exact if_pos hneed
    have hcount := count_pos_iff.2 (mem_dedup.1 hk')
    have := decimal_injective (Option.some.inj (hnone.symm.trans hsome))
    omega
  · intro hhits row hrow
    obtain ⟨hover, k, hk, hzero, hexact⟩ := (writes_iff (p := p.withLimit L) hfields hvalid).1 hrow
    refine (writes_iff hfields hvalid).2 ⟨fun hp => hover (Overrun.withLimit hpos hless hp), k, hk, fun he => ?_, fun hno => ?_⟩
    · obtain ⟨hlimit, hkeys⟩ := he
      have hlt : L < (p.distinctKeys c blocks).length := by omega
      obtain ⟨hsurvives, hrow⟩ := hzero ⟨hpos, hlt⟩
      refine ⟨hsurvives.mono ?_, hrow⟩
      show (p.distinctKeys c blocks).length - p.limit ≤ (p.distinctKeys c blocks).length - L
      omega
    · by_cases hlt : L < (p.distinctKeys c blocks).length
      -- without a column of hits the rows are the same
      · have hneed : ¬p.needHits = true := fun hneed => hno (hhits hover hlt hneed)
        rw [(hzero ⟨hpos, hlt⟩).2, PipeUniq.exactRow, if_neg hneed]
        exact congrArg (Row.mk _) (if_neg hneed)
      · exact hexact fun he => hlt he.2

/-- Limits that make the limit of the pipe smaller. -/
theorem foldSound_less_iff (h0 : 0 ∉ limits)
    (hfold : limits.foldl PipeUniq.uniqMergeLimit p = p.withLimit L) (hpos : 0 < L) (hmem : L ∈ limits)
    (hle : ∀ l ∈ limits, L ≤ l) (hless : p.limit = 0 ∨ L < p.limit) :
    (UniqChain.mk p limits).FoldSound c concurrency blocks ↔
      ((p.withLimit L).Overrun c (max concurrency 1) blocks →
        p.Overrun c (max concurrency 1) blocks) ∧
      (¬(p.withLimit L).Overrun c (max concurrency 1) blocks →
        L < (p.distinctKeys c blocks).length → p.needHits = true → p.Exceeded (p.distinctKeys c blocks).length) := by
  rw [foldSound_iff_writes hfields hvalid hfold, any_zero_eq_false h0, foldl_min_eq hmem hle,
    writes_less_iff hfields hvalid hpos hless]
  refine and_congr_left fun _ => ?_
  have hmono : p.Overrun c (max concurrency 1) blocks → (p.withLimit L).Overrun c (max concurrency 1) blocks :=
    Overrun.withLimit hpos hless
  have hlt : (p.withLimit L).Overrun c (max concurrency 1) blocks →
      L < (p.distinctKeys c blocks).length := Overrun.lt
  unfold PipeUniq.rowsOf PipeUniq.written
  by_cases hp : p.Overrun c (max concurrency 1) blocks
  · simp [hp, hmono hp]
  by_cases hq : (p.withLimit L).Overrun c (max concurrency 1) blocks
  · have := hlt hq
    simp only [hp, hq, Bool.false_eq_true, or_false, or_true, if_true, if_false, true_imp_iff, iff_false]
    split_ifs <;> omega
  · simp only [hp, hq, Bool.false_eq_true, or_false, if_false, false_imp_iff, iff_true]
    change _ = if L = 0 then _ else min (p.distinctKeys c blocks).length L
    split_ifs <;> omega

end Fold

/-- Folding the limits that follow a `uniq` pipe is sound exactly for the safe inputs. -/
theorem foldSound_iff (ρ : Type) (c : Float64Codec) (ch : UniqChain) (hfields : ch.uniq.byFields ≠ [])
    (concurrency : Nat) (blocks : List (Nat × BlockResult)) (hvalid : ∀ b ∈ blocks, b.2.Valid c) :
    optimizeUniqLimitPipes (ch.pipes ρ) = .ok (ch.folded.pipes ρ) ∧
      (ch.FoldSound c concurrency blocks ↔ ch.FoldSafe c concurrency blocks) := by
  refine ⟨optimize_pipes ρ ch, ?_⟩
  obtain ⟨p, limits⟩ := ch
  have hfold := foldl_uniqMergeLimit limits p
  have hfolded : (UniqChain.mk p limits).folded.uniq = limits.foldl PipeUniq.uniqMergeLimit p := rfl
  generalize hL : (limits.foldl PipeUniq.uniqMergeLimit p).limit = L at hfold
  rw [hfold] at hfolded
  have hlimit : (UniqChain.mk p limits).folded.uniq.limit = L := congrArg PipeUniq.limit hfolded
  by_cases h0 : 0 ∈ limits
  · rw [foldSound_zero_iff hfields hvalid h0 hfold]
    constructor
    · intro h
      exact ⟨fun _ => by rw [hfolded]; exact h, fun hno => absurd h0 hno, fun hno => absurd h0 hno⟩
    · intro h
      rw [← hfolded]
      exact h.zero h0
  rcases limit_foldl h0 hL with ⟨rfl, hvoid⟩ | ⟨hpos, hmem, hle, hless⟩
  · have hsound : (UniqChain.mk p limits).FoldSound c concurrency blocks :=
      foldSound_same hfields hvalid h0 hfold hvoid
    refine ⟨fun _ => ⟨fun h => absurd h h0, fun _ hne => absurd hlimit hne, fun _ hne => absurd hlimit hne⟩,
      fun _ => hsound⟩
  · rw [foldSound_less_iff hfields hvalid h0 hfold hpos hmem hle hless]
    have hne : L ≠ p.limit := by omega
    constructor
    · rintro ⟨hrefuse, hhits⟩
      refine ⟨fun h => absurd h h0, fun _ _ => ?_, fun _ _ => ?_⟩
      · rw [hfolded]
        exact hrefuse
      · rw [hfolded]
        exact hhits
    · intro h
      have hrefuse := h.refuse h0 (by rw [hlimit]; exact hne)
      have hhits := h.hits h0 (by rw [hlimit]; exact hne)
      rw [hfolded] at hrefuse hhits
      exact ⟨hrefuse, hhits⟩

/-! ### A limit of zero, and hits -/

def uniqHits : PipeUniq := ⟨[ascii "f"], [], ascii "hits", 0⟩

theorem valid_twoValues : ∀ b ∈ twoValues, b.2.Valid noFloats := by
  intro b hb
  obtain rfl := mem_singleton.1 hb
  exact valid_textBlock (by decide)

/-- `uniq by (f) with hits | limit 5` may be folded for two values. -/
theorem foldSound_twoValues : (UniqChain.mk uniqHits [5]).FoldSound noFloats 1 twoValues := by
  refine (foldSound_iff Unit noFloats ⟨uniqHits, [5]⟩ (by decide) 1 twoValues valid_twoValues).2.2 ⟨?_, ?_, ?_⟩
  · intro h
    exact absurd h (by decide)
  · intro _ _ hover
    have hlt := Overrun.lt hover
    exact absurd hlt (by decide +kernel)
  · intro _ _ _ hlt
    exact absurd hlt (by decide +kernel)

/-- `uniq by (f) with hits | limit 0` writes nothing, and the folded pipe writes both values; with `limit 1`, the
folded pipe writes a value with no hits. -/
theorem not_foldSound_twoValues : ¬(UniqChain.mk uniqHits [0]).FoldSound noFloats 1 twoValues ∧
    ¬(UniqChain.mk uniqHits [1]).FoldSound noFloats 1 twoValues := by
  have hfields : uniqHits.byFields ≠ [] := by decide
  have hno : ∀ L, ¬({ uniqHits with limit := L } : PipeUniq).Overrun noFloats (max 1 1) twoValues := by
    intro L hover
    change ({ uniqHits with limit := L } : PipeUniq).Overrun noFloats 1 ([] ++ twoValues) at hover
    rcases overrun_concat.1 hover with hover | ⟨-, -, hover⟩
    · exact not_overrun_nil hover
    · exact absurd hover (Nat.not_lt_zero _)
  constructor
  · rw [foldSound_zero_iff (L := 0) hfields valid_twoValues (by decide) rfl]
    rintro (hkeys | hover)
    · exact absurd hkeys (by decide +kernel)
    · exact hno 0 hover
  · rw [foldSound_less_iff (L := 1) hfields valid_twoValues (by decide) rfl (by decide) (by decide) (by decide)
      (by decide)]
    rintro ⟨-, hhits⟩
    have hexceeded := hhits (hno 1) (by decide +kernel) (by decide)
    exact absurd hexceeded.1 (by decide)

end EsLogs.Uniq
