import EsLogs.UniqRun
import EsLogs.ByteOrder

/-!
The pipe `top [N] by (...)` (`pipe_top.rs`): the values of the fields with the most rows. The rows of equal
neighbours are counted before they are added to the map of the worker.
-/

namespace EsLogs.TopPipe

open NumberText ColumnValues Encoding Hits Uniq List

structure PipeTop where
  byFields : List Bytes
  limit : Nat
  rankFieldName : Bytes
  deriving DecidableEq, Repr

/-! ### Counting the rows of a block -/

/-- The loops that count equal neighbours: `hits` rows with the value `prev` are still to be added. -/
def runLength {α : Type} [DecidableEq α] (update : HitsMap → α → Nat → HitsMap) : α → Nat → List α → HitsMap → HitsMap
  | prev, hits, [], m => update m prev hits
  | prev, hits, v :: values, m =>
    if prev = v then runLength update v (hits + 1) values m
    else runLength update v 1 values (update m prev hits)

def runLengths {α : Type} [DecidableEq α] (update : HitsMap → α → Nat → HitsMap) : List α → HitsMap → HitsMap
  | [], m => m
  | v :: values, m => runLength update v 1 values m

def updateSingleColumn (c : Float64Codec) (m : HitsMap) (br : BlockResult) (fieldName : Bytes) : Outcome HitsMap := do
  let r := (br.getColumnByName fieldName).2
  let br := (br.getColumnByName fieldName).1
  let column ← br.col r
  match column.content with
  | .const v => return m.updateStateGeneric v br.rowsLen
  | .time => do
    let values ← br.columnGetValues c r
    return runLengths HitsMap.updateStateGeneric values m
  | .encoded .uint8 _ values =>
    return runLengths (fun m v hits => m.updateStateUint64 (unmarshalUint8 v) hits) values m
  | .encoded .uint16 _ values => return values.foldl (fun m v => m.updateStateUint64 (unmarshalUint16 v) 1) m
  | .encoded .uint32 _ values => return values.foldl (fun m v => m.updateStateUint64 (unmarshalUint32 v) 1) m
  | .encoded .uint64 _ values => return values.foldl (fun m v => m.updateStateUint64 (unmarshalUint64 v) 1) m
  | .encoded .int64 _ values => return values.foldl (fun m v => m.updateStateInt64 (unmarshalInt64 v) 1) m
  | .encoded _ _ _ => do
    let values ← br.columnGetValues c r
    return runLengths HitsMap.updateStateGeneric values m

def PipeTop.writeBlockInto (p : PipeTop) (c : Float64Codec) (m : HitsMap) (br : BlockResult) : Outcome HitsMap :=
  match p.byFields with
  | [fieldName] => updateSingleColumn c m br fieldName
  | byFields => do
    let colValues ← columnValues c byFields br
    return runLengths (fun m row hits => m.updateStateString (row.flatMap marshalBytes) hits)
      ((List.range br.rowsLen).map (rowAt colValues)) m

/-- `PipeTopProcessor::write_block`; a map that has not been made is an empty one. -/
def PipeTop.writeBlock (p : PipeTop) (c : Float64Codec) (shards : List HitsMap) (workerId : Nat) (br : BlockResult) :
    Outcome (List HitsMap) :=
  if br.rowsLen = 0 then .ok shards
  else
    let idx := min workerId (shards.length - 1)
    match shards[idx]? with
    | none => .error (.panic "index out of bounds")
    | some m => do
      let m ← p.writeBlockInto c m br
      return shards.set idx m

/-! ### The largest groups -/

structure TopEntry where
  k : Bytes
  hits : Nat
  deriving DecidableEq, Repr

def TopEntry.less (a b : TopEntry) : Bool := if a.hits = b.hits then decide (a.k > b.k) else decide (a.hits < b.hits)

def sortEntries (entries : List TopEntry) : List TopEntry := entries.mergeSort fun a b => !a.less b

def entriesOf (it : Iteration) (m : HitsMap) : List TopEntry :=
  (it.u64s m.u64s.keys).map (fun n => ⟨(Key.u64 n).text, m.get (.u64 n)⟩) ++
    ((it.negs m.negs.keys).map (fun n => ⟨(Key.neg n).text, m.get (.neg n)⟩) ++
      (it.strings m.strings.keys).map fun b => ⟨(Key.str b).text, m.get (.str b)⟩)

structure TopRow where
  values : List Bytes
  hits : Bytes
  rank : Option Bytes
  deriving DecidableEq, Repr

def PipeTop.writeOutput (p : PipeTop) (entries : List TopEntry) : List TopRow :=
  entries.mapIdx fun i e =>
    ⟨if p.byFields.length = 1 then [e.k] else decodeKey p.byFields.length e.k, marshalUint64String e.hits,
      if p.rankFieldName.isEmpty then none else some (decimal (i + 1))⟩

/-- `PipeTopProcessor::flush`; the stop flag is that of the query. -/
def PipeTop.flush (p : PipeTop) (it : Iteration) (stop : Bool) (shards : List HitsMap) : List TopRow :=
  if p.limit = 0 then []
  else
    let merged := shards.foldl HitsMap.merge (HitsMap.new [])
    if stop then [] else p.writeOutput ((sortEntries (entriesOf it merged)).take p.limit)

def PipeTop.run (p : PipeTop) (c : Float64Codec) (concurrency : Nat) (it : Iteration)
    (blocks : List (Nat × BlockResult)) : Outcome (List TopRow) := do
  let shards ← blocks.foldlM (fun shards b => p.writeBlock c shards b.1 b.2)
    (List.replicate (max concurrency 1) (HitsMap.new []))
  return p.flush it false shards

/-! ### The order of the entries -/

/-- The order as that of pairs of hits and keys. -/
def TopEntry.rank (e : TopEntry) : ℕᵒᵈ ×ₗ Bytes := toLex (OrderDual.toDual e.hits, e.k)

theorem not_less_iff (a b : TopEntry) : (!a.less b) = true ↔ a.rank ≤ b.rank := by
  rw [TopEntry.less, TopEntry.rank, TopEntry.rank, Prod.Lex.toLex_le_toLex]
  split_ifs with heq
  · simp [heq]
  · have hne : ¬OrderDual.toDual a.hits = OrderDual.toDual b.hits := fun h => heq (OrderDual.toDual_inj.1 h)
    simp only [hne, false_and, or_false, OrderDual.toDual_lt_toDual, Bool.not_eq_true', decide_eq_false_iff_not]
    omega

theorem rank_injective : Function.Injective TopEntry.rank := by
  rintro ⟨k, hits⟩ ⟨k', hits'⟩ h
  have hpair := toLex.injective h
  rw [Prod.mk.injEq] at hpair
  obtain rfl : hits = hits' := OrderDual.toDual_inj.1 hpair.1
  obtain rfl : k = k' := hpair.2
  rfl

/-- Sorting forgets the order the entries came in. -/
theorem sortEntries_eq_of_perm {l l' : List TopEntry} (h : l.Perm l') : sortEntries l = sortEntries l' := by
  have hsorted : ∀ l, (sortEntries l).Pairwise fun a b => (!a.less b) = true := by
    intro l
    apply pairwise_mergeSort
    · intro a b d hab hbd
      rw [not_less_iff] at hab hbd ⊢
      exact hab.trans hbd
    · intro a b
      rw [Bool.or_eq_true, not_less_iff, not_less_iff]
      exact le_total _ _
  have hperm : (sortEntries l).Perm (sortEntries l') :=
    (mergeSort_perm l _).trans (h.trans (mergeSort_perm l' _).symm)
  refine hperm.eq_of_pairwise (fun a b _ _ hab hba => ?_) (hsorted l) (hsorted l')
  rw [not_less_iff] at hab hba
  exact rank_injective (le_antisymm hab hba)

theorem sortEntries_perm (l : List TopEntry) : (sortEntries l).Perm l := mergeSort_perm l _

/-! ### What the workers count -/

section Counting

variable {c : Float64Codec} {m : HitsMap} {rows : List Key} {needHits : Bool}

/-- What an update that belongs to a key does. -/
def Adds {α : Type} (update : HitsMap → α → Nat → HitsMap) (key : α → Key) : Prop :=
  ∀ (needHits : Bool) (m : HitsMap) (rows : List Key) (v : α) (hits : Nat), 0 < hits → m.filter = [] →
    Tracks needHits m rows →
      Tracks needHits (update m v hits) (rows ++ List.replicate hits (key v)) ∧ (update m v hits).filter = []

theorem adds_generic : Adds HitsMap.updateStateGeneric genericKey := by
  intro needHits m rows v hits hpos hf h
  have hstep := tracks_updateStateGeneric h v hits hpos
  rw [hf, filteredKeys_nil, map_replicate] at hstep
  exact ⟨hstep, (filter_updateStateGeneric m v hits).trans hf⟩

theorem reader_uint8 : uintReader .uint8 = some unmarshalUint8 := rfl

theorem adds_uint8 : Adds (fun m v hits => m.updateStateUint64 (unmarshalUint8 v) hits) fun v =>
    .u64 (unmarshalUint8 v) := by
  intro needHits m rows v hits hpos hf h
  have hlt : unmarshalUint8 v < 2 ^ 64 := uintReader_lt reader_uint8 v
  dsimp only
  rw [m.updateStateUint64_eq hits hlt, ← genericKey_uint hlt]
  exact adds_generic needHits m rows _ hits hpos hf h

/-- Counting equal neighbours first adds what counting them one by one adds. -/
theorem tracks_runLength {α : Type} [DecidableEq α] {update : HitsMap → α → Nat → HitsMap} {key : α → Key}
    (hupdate : Adds update key) (values : List α) (prev : α) (hits : Nat) (hpos : 0 < hits) (hf : m.filter = [])
    (h : Tracks needHits m rows) :
    Tracks needHits (runLength update prev hits values m) (rows ++ (replicate hits prev ++ values).map key) ∧
      (runLength update prev hits values m).filter = [] := by
  induction values generalizing m rows prev hits with
  | nil =>
    rw [runLength, append_nil, map_replicate]
    exact hupdate needHits m rows prev hits hpos hf h
  | cons v values ih =>
    rw [runLength]
    split_ifs with heq
    · subst heq
      have hmove : replicate hits prev ++ prev :: values = replicate (hits + 1) prev ++ values := by
        rw [replicate_succ', append_assoc, singleton_append]
      rw [hmove]
      exact ih prev (hits + 1) (by omega) hf h
    · obtain ⟨hstep, hfstep⟩ := hupdate needHits m rows prev hits hpos hf h
      obtain ⟨htracks, hfilter⟩ := ih v 1 Nat.one_pos hfstep hstep
      refine ⟨?_, hfilter⟩
      rw [append_assoc, ← map_replicate, ← map_append] at htracks
      exact htracks

theorem tracks_runLengths {α : Type} [DecidableEq α] {update : HitsMap → α → Nat → HitsMap} {key : α → Key}
    (hupdate : Adds update key) (values : List α) (hf : m.filter = []) (h : Tracks needHits m rows) :
    Tracks needHits (runLengths update values m) (rows ++ values.map key) ∧
      (runLengths update values m).filter = [] := by
  cases values with
  | nil => exact ⟨by simpa [runLengths] using h, hf⟩
  | cons v values => exact tracks_runLength hupdate values v 1 Nat.one_pos hf h

/-- The keys of the numbers of a `uint8` column are those of its texts. -/
theorem map_uint8_eq {d vs texts : List Bytes} (hdec : vs.mapM (decodeValue c .uint8 d) = .ok texts) :
    vs.map (fun v => Key.u64 (unmarshalUint8 v)) = texts.map genericKey := by
  rw [outcome_mapM_eq_ok_iff] at hdec
  induction vs generalizing texts with
  | nil =>
    cases texts with
    | nil => rfl
    | cons t texts => cases hdec
  | cons v vs ih =>
    cases texts with
    | nil => cases hdec
    | cons t texts =>
      rw [map_cons, map_cons, List.cons.injEq] at hdec
      have hlt : unmarshalUint8 v < 2 ^ 64 := uintReader_lt reader_uint8 v
      have ht : t = marshalUint64String (unmarshalUint8 v) := decodeValue_uintReader reader_uint8 hdec.1
      rw [map_cons, map_cons, ih hdec.2, ht, genericKey_uint hlt]

/-- `update_single_column` adds the keys of the texts of the column. -/
theorem updateSingleColumn_spec {br : BlockResult} (hbr : br.Valid c) (hrows : br.rowsLen ≠ 0) (hf : m.filter = [])
    (h : Tracks needHits m rows) (fieldName : Bytes) :
    ∃ m', updateSingleColumn c m br fieldName = .ok m' ∧ m'.filter = [] ∧
      Tracks needHits m' (rows ++ (br.valuesOf c fieldName).map genericKey) := by
  obtain ⟨column, hcol, hcontent⟩ := hbr.col_getColumnByName fieldName
  have hvalues := hbr.values_eq fieldName
  have hget := hbr.columnGetValues fieldName
  obtain ⟨hloop, hloopFilter⟩ := tracks_runLengths adds_generic (br.valuesOf c fieldName) hf h
  obtain ⟨hfold, hfoldFilter⟩ := tracks_foldl_generic (br.valuesOf c fieldName) h
  rw [hf, filteredKeys_nil] at hfold
  rw [hf] at hfoldFilter
  -- a column of numbers that are read one by one
  have huint : ∀ vt read d vs, uintReader vt = some read → br.contentOf fieldName = .encoded vt d vs →
      (vs.foldl (fun m v => m.updateStateUint64 (read v) 1) m).filter = [] ∧
        Tracks needHits (vs.foldl (fun m v => m.updateStateUint64 (read v) 1) m)
          (rows ++ (br.valuesOf c fieldName).map genericKey) := by
    intro vt read d vs hread hc
    rw [hc] at hvalues
    rw [foldl_uint_eq hread hvalues]
    exact ⟨hfoldFilter, hfold⟩
  unfold updateSingleColumn
  dsimp only
  rw [hcol, except_ok_bind, hcontent]
  cases hc : br.contentOf fieldName with
  | const v =>
    rw [hc] at hvalues
    obtain hv : replicate br.rowsLen v = br.valuesOf c fieldName := Except.ok.inj hvalues
    dsimp only
    rw [← hv, BlockResult.rowsLen_getColumnByName, map_replicate]
    obtain ⟨htracks, hfilter⟩ := adds_generic needHits m rows v _ (Nat.pos_of_ne_zero hrows) hf h
    exact ⟨_, rfl, hfilter, htracks⟩
  | time =>
    dsimp only
    rw [hget]
    exact ⟨_, rfl, hloopFilter, hloop⟩
  | encoded vt d vs =>
    cases vt with
    | uint8 =>
      rw [hc] at hvalues
      obtain ⟨htracks, hfilter⟩ := tracks_runLengths adds_uint8 vs hf h
      rw [map_uint8_eq hvalues] at htracks
      exact ⟨_, rfl, hfilter, htracks⟩
    | uint16 => exact ⟨_, rfl, huint .uint16 unmarshalUint16 d vs rfl hc⟩
    | uint32 => exact ⟨_, rfl, huint .uint32 unmarshalUint32 d vs rfl hc⟩
    | uint64 => exact ⟨_, rfl, huint .uint64 unmarshalUint64 d vs rfl hc⟩
    | int64 =>
      rw [hc] at hvalues
      refine ⟨_, rfl, ?_⟩
      rw [foldl_int64_eq hvalues]
      exact ⟨hfoldFilter, hfold⟩
    | string | dict | float64 | ipv4 | timestampIso8601 | other _ =>
      dsimp only
      rw [hget]
      exact ⟨_, rfl, hloopFilter, hloop⟩

end Counting

end EsLogs.TopPipe
