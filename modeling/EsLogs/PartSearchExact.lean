import EsLogs.HeaderRoundTrip
import EsLogs.PartSearch

/-!
The scheduler finds the blocks of the wanted ids in the time range, and no others. An index block in the
way the writer leaves it begins with the id of its header, and its header covers the times of its
blocks. The loops keep the following: an id that has been dropped is less than the ids of all the blocks
to come.
-/

namespace EsLogs.Part

open BinarySearch List

/-! ### Index blocks -/

/-- An index block with its header: it has a first block, whose stream id is the one of the header, and
the times of its blocks are within those of the header. -/
structure IndexBlock where
  header : IndexBlockHeader
  first : BlockHeader
  others : List BlockHeader
  streamId_eq : header.streamId = first.streamId
  within : ∀ bh ∈ first :: others, header.minTimestamp ≤ bh.timestampsHeader.minTimestamp ∧
    bh.timestampsHeader.maxTimestamp ≤ header.maxTimestamp

def IndexBlock.blocks (ib : IndexBlock) : List BlockHeader := ib.first :: ib.others

def indexedBlocks (index : List IndexBlock) : List BlockHeader := index.flatMap IndexBlock.blocks

/-- A part whose index consists of the given index blocks: it has their headers, reads their block headers,
and has the blocks in the order of the writer. -/
structure OpenPart.Holds (zstd : Zstd) (p : OpenPart) (index : List IndexBlock) : Prop where
  headers : p.indexBlockHeaders = index.map IndexBlock.header
  reads : ∀ ib ∈ index, p.mustReadBlockHeaders zstd ib.header = .ok ib.blocks
  sorted : (indexedBlocks index).Pairwise BlockHeader.Precedes

section Schedule

variable {κ : Type} [LinearOrder κ] (key : StreamID → κ) (pso : PartitionSearchOptions)

def wanted (ids : List κ) (bh : BlockHeader) : Bool :=
  inTimeRange pso bh && decide (key bh.streamId ∈ ids)

variable {key pso}

variable {bhs : List BlockHeader} {index : List IndexBlock} {bh : BlockHeader} {ids : List κ}
  {ib : IndexBlock}

/-- Ids that are before all the blocks are of no use. -/
theorem filter_wanted_append {gone left : List κ} (hids : ids = gone ++ left)
    (h : ∀ x ∈ gone, ∀ bh ∈ bhs, x < key bh.streamId) :
    bhs.filter (wanted key pso ids) = bhs.filter (wanted key pso left) := by
  apply filter_congr
  intro bh hbh
  have hgone : key bh.streamId ∉ gone := fun hmem => lt_irrefl _ (h _ hmem bh hbh)
  simp [wanted, hids, hgone]

theorem filter_wanted_nil : bhs.filter (wanted key pso []) = [] := by simp [wanted]

/-- Blocks that are before the first of sorted ids are not wanted. -/
theorem filter_wanted_eq_nil {id : κ} (hids : (id :: ids).Pairwise (· ≤ ·))
    (h : ∀ bh ∈ bhs, key bh.streamId < id) : bhs.filter (wanted key pso (id :: ids)) = [] := by
  apply filter_eq_nil_iff.2
  intro bh hbh
  have hle : ∀ x ∈ id :: ids, id ≤ x := forall_mem_cons.2 ⟨le_rfl, fun _ => rel_of_pairwise_cons hids⟩
  have hnot : key bh.streamId ∉ id :: ids := fun hmem => not_lt.2 (hle _ hmem) (h bh hbh)
  simp [wanted, hnot]

section SearchNotLess

variable {α : Type} {f : α → κ} {l : List α}

theorem lt_of_mem_take_searchNotLess (h : l.Pairwise fun a b => f a ≤ f b) (id : κ) {a : α}
    (ha : a ∈ l.take (searchNotLess f l id)) : f a < id := by
  have hmono : l.Pairwise fun a b => (!decide (f a < id)) = true → (!decide (f b < id)) = true := by
    refine h.imp ?_
    intro a b hab hnot
    simp only [Bool.not_eq_true', decide_eq_false_iff_not, not_lt] at hnot ⊢
    exact hnot.trans hab
  simpa using not_of_mem_take_searchList hmono ha

/-- A sorted list is cut where the ids are no longer less. -/
theorem exists_dropLess (h : l.Pairwise fun a b => f a ≤ f b) (id : κ) :
    ∃ gone, l = gone ++ dropLess f l id ∧ ∀ a ∈ gone, f a < id :=
  ⟨l.take (searchNotLess f l id), (take_append_drop _ _).symm,
    fun _ ha => lt_of_mem_take_searchNotLess h id ha⟩

end SearchNotLess

/-- One round of the loop schedules the wanted ones of the blocks it passes. -/
theorem exists_scheduleEqual (pso : PartitionSearchOptions) {id : κ}
    (hids : ids.Pairwise (· ≤ ·)) (hhead : ids.head? = some id)
    (hbhs : bhs.Pairwise fun a b => key a.streamId ≤ key b.streamId) :
    ∃ front,
      bhs = front ++ (scheduleEqual key pso id (dropLess (fun bh => key bh.streamId) bhs id)).2 ∧
        (scheduleEqual key pso id (dropLess (fun bh => key bh.streamId) bhs id)).1 =
          front.filter (wanted key pso ids) := by
  obtain ⟨rest, rfl⟩ := List.head?_eq_some_iff.1 hhead
  obtain ⟨gone, hbhs', hless⟩ := exists_dropLess hbhs id
  rw [scheduleEqual_eq]
  generalize dropLess (fun bh : BlockHeader => key bh.streamId) bhs id = left at hbhs' ⊢
  refine ⟨gone ++ left.takeWhile fun bh => key bh.streamId = id, ?_, ?_⟩
  · rw [append_assoc, takeWhile_append_dropWhile]
    exact hbhs'
  · rw [filter_append, filter_wanted_eq_nil hids hless, nil_append]
    apply filter_congr
    intro bh hbh
    have heq : key bh.streamId = id := by simpa using mem_takeWhile_imp hbh
    rw [wanted, heq, decide_eq_true mem_cons_self, Bool.and_true]

/-- What is left to do when the loop goes on: the headers that were not passed, with the ids that are
not before them. -/
theorem exists_scheduleRest (pso : PartitionSearchOptions) {id : κ} {bhs' : List BlockHeader}
    (hids : ids.Pairwise (· ≤ ·)) (hhead : ids.head? = some id)
    (hbhs : bhs.Pairwise fun a b => key a.streamId ≤ key b.streamId)
    (hr : (scheduleEqual key pso id (dropLess (fun bh => key bh.streamId) bhs id)).2 = bh :: bhs') :
    ∃ front gone, bhs = front ++ bh :: bhs' ∧ ids = gone ++ dropLess (fun id => id) ids (key bh.streamId) ∧
      (∀ x ∈ gone, x < key bh.streamId) ∧
      bhs.filter (wanted key pso ids) =
        (scheduleEqual key pso id (dropLess (fun bh => key bh.streamId) bhs id)).1 ++
          (bh :: bhs').filter (wanted key pso (dropLess (fun id => id) ids (key bh.streamId))) := by
  obtain ⟨front, hfront, hworks⟩ := exists_scheduleEqual pso hids hhead hbhs
  obtain ⟨gone, hgone, hless⟩ := exists_dropLess hids (key bh.streamId)
  rw [hr] at hfront
  have hle : ∀ b ∈ bh :: bhs', key bh.streamId ≤ key b.streamId :=
    forall_mem_cons.2 ⟨le_rfl, fun _ => rel_of_pairwise_cons (pairwise_append.1 (hfront ▸ hbhs)).2.1⟩
  refine ⟨front, gone, hfront, hgone, hless, ?_⟩
  rw [hworks, ← filter_wanted_append hgone fun x hx b hb => (hless x hx).trans_le (hle b hb),
    ← filter_append, ← hfront]

/-- The loop over the block headers of an index block schedules the wanted ones, and the ids it drops are
less than the id of one of the blocks. -/
theorem scheduleBlocks_eq (pso : PartitionSearchOptions) {id : κ}
    (hids : ids.Pairwise (· ≤ ·)) (hhead : ids.head? = some id)
    (hbhs : bhs.Pairwise fun a b => key a.streamId ≤ key b.streamId) :
    (scheduleBlocks key pso ids id bhs).1 = bhs.filter (wanted key pso ids) ∧
      ∃ gone, ids = gone ++ (scheduleBlocks key pso ids id bhs).2 ∧
        ∀ x ∈ gone, ∃ bh ∈ bhs, x < key bh.streamId := by
  fun_induction scheduleBlocks key pso ids id bhs with
  | case1 ids id bhs r hr =>
    obtain ⟨front, hfront, hworks⟩ := exists_scheduleEqual pso hids hhead hbhs
    refine ⟨?_, [], rfl, fun x hx => absurd hx not_mem_nil⟩
    rw [hr, append_nil] at hfront
    rw [hworks, ← hfront]
  | case2 ids id bhs r bh bhs' hr hnil =>
    obtain ⟨front, gone, rfl, hgone, hless, hfilter⟩ := exists_scheduleRest pso hids hhead hbhs hr
    rw [hnil] at hgone hfilter
    rw [filter_wanted_nil, append_nil] at hfilter
    exact ⟨hfilter.symm, gone, hgone, fun x hx => ⟨bh, mem_append_cons_self, hless x hx⟩⟩
  | case3 ids id bhs r bh bhs' hr id' ids' hcons hlt s ih =>
    obtain ⟨front, gone, rfl, hgone, hless, hfilter⟩ := exists_scheduleRest pso hids hhead hbhs hr
    rw [hcons] at hgone hfilter
    obtain ⟨hwanted, gone', hgone', hless'⟩ :=
      ih (pairwise_append.1 (hgone ▸ hids)).2.1 rfl (pairwise_append.1 hbhs).2.1
    constructor
    · rw [hfilter, hwanted]
    · refine ⟨gone ++ gone', ?_, ?_⟩
      · rw [append_assoc, ← hgone']
        exact hgone
      · intro x hx
        rcases mem_append.1 hx with hx | hx
        · exact ⟨bh, mem_append_cons_self, hless x hx⟩
        · obtain ⟨b, hb, hlt⟩ := hless' x hx
          exact ⟨b, mem_append_right _ hb, hlt⟩

variable {read : IndexBlockHeader → Outcome (List BlockHeader)}

/-- The first block of an index block has the id of the header. -/
theorem IndexBlock.key_header_le (hkey : Monotone key)
    (h : (indexedBlocks (ib :: index)).Pairwise fun a b => a.streamId ≤ b.streamId)
    (hbh : bh ∈ indexedBlocks (ib :: index)) : key ib.header.streamId ≤ key bh.streamId := by
  apply hkey
  rw [ib.streamId_eq]
  rcases mem_cons.1 hbh with rfl | hbh
  · exact le_rfl
  · exact rel_of_pairwise_cons h hbh

/-- The blocks of an index block are not after the header of a later one. -/
theorem IndexBlock.key_le_header (hkey : Monotone key) {front back : List IndexBlock}
    (h : (indexedBlocks (front ++ ib :: back)).Pairwise fun a b =>
      a.streamId ≤ b.streamId) (hbh : bh ∈ indexedBlocks front) :
    key bh.streamId ≤ key ib.header.streamId := by
  apply hkey
  rw [indexedBlocks, flatMap_append] at h
  rw [ib.streamId_eq]
  exact (pairwise_append.1 h).2.2 bh hbh ib.first mem_cons_self

/-- No block of an index block is in the time range when the header is not. -/
theorem IndexBlock.inTimeRange_eq_false
    (h : disjointTimes pso.minTimestamp pso.maxTimestamp ib.header.minTimestamp
      ib.header.maxTimestamp = true) (hbh : bh ∈ ib.blocks) :
    inTimeRange pso bh = false := by
  obtain ⟨hmin, hmax⟩ := ib.within bh hbh
  simp only [disjointTimes, Bool.or_eq_true, decide_eq_true_eq, gt_iff_lt] at h
  simp only [inTimeRange, disjointTimes, Bool.not_eq_false', Bool.or_eq_true, decide_eq_true_eq,
    gt_iff_lt]
  rcases h with h | h
  · exact .inl (hmax.trans_lt h)
  · exact .inr (h.trans_le hmin)

/-- The headers of sorted index blocks are sorted. -/
theorem pairwise_headers (hkey : Monotone key)
    (h : (indexedBlocks index).Pairwise fun a b => a.streamId ≤ b.streamId) :
    (index.map IndexBlock.header).Pairwise fun a b => key a.streamId ≤ key b.streamId := by
  induction index with
  | nil => exact List.Pairwise.nil
  | cons ib index ih =>
    refine List.Pairwise.cons ?_ (ih (pairwise_append.1 h).2.1)
    intro ih' hih'
    obtain ⟨ib', hib', rfl⟩ := mem_map.1 hih'
    rw [ib'.streamId_eq]
    apply IndexBlock.key_header_le hkey h
    exact mem_flatMap.2 ⟨ib', mem_cons_of_mem _ hib', mem_cons_self⟩

/-- The number of index blocks that are skipped before the given id. -/
def skipped (key : StreamID → κ) (id : κ) (ibh : IndexBlockHeader) (ibhs : List IndexBlockHeader) :
    Nat :=
  if key ibh.streamId < id then
    searchNotLess (fun ibh => key ibh.streamId) (ibh :: ibhs) id - 1
  else 0

/-- The blocks of the index blocks that are skipped are before the id. -/
theorem exists_skipped (hkey : Monotone key) (id : κ)
    (h : (indexedBlocks (ib :: index)).Pairwise fun a b => a.streamId ≤ b.streamId) :
    ∃ front ib' back, ib :: index = front ++ ib' :: back ∧
      front.length = skipped key id ib.header (index.map IndexBlock.header) ∧
      ∀ bh ∈ indexedBlocks front, key bh.streamId < id := by
  rw [skipped]
  split_ifs with hlt
  · -- the index blocks before the one that is found begin before the id
    have hsorted := pairwise_headers hkey h
    rw [map_cons] at hsorted
    have hpos : 0 < searchNotLess (fun ibh => key ibh.streamId)
        (ib.header :: index.map IndexBlock.header) id := searchList_pos (by simpa using hlt)
    have hle : searchNotLess (fun ibh => key ibh.streamId)
        (ib.header :: index.map IndexBlock.header) id ≤ _ := searchList_le
    have hbefore := fun ibh hibh => lt_of_mem_take_searchNotLess (a := ibh) hsorted id hibh
    rw [← map_cons, length_map] at hle
    rw [← map_cons] at hpos hbefore ⊢
    generalize searchNotLess (fun ibh : IndexBlockHeader => key ibh.streamId)
      ((ib :: index).map IndexBlock.header) id = m at hpos hle hbefore ⊢
    have hbound : m - 1 < (ib :: index).length := by omega
    have hsplit : ib :: index = (ib :: index).take (m - 1) ++ (ib :: index)[m - 1] ::
        (ib :: index).drop (m - 1 + 1) := by
      rw [cons_getElem_drop_succ, take_append_drop]
    refine ⟨(ib :: index).take (m - 1), (ib :: index)[m - 1], (ib :: index).drop (m - 1 + 1), hsplit,
      ?_, ?_⟩
    · rw [length_take]
      omega
    · intro bh hbh
      have hheader : key (ib :: index)[m - 1].header.streamId < id := by
        apply hbefore
        rw [← map_take]
        apply mem_map_of_mem
        rw [mem_take_iff_getElem]
        exact ⟨m - 1, by omega, rfl⟩
      exact (IndexBlock.key_le_header hkey (hsplit ▸ h) hbh).trans_lt hheader
  · exact ⟨[], ib, index, rfl, rfl, fun bh hbh => absurd hbh not_mem_nil⟩

/-- One round of the loop over the index blocks. -/
theorem schedule_round {ids ids' : List κ} {id : κ} {ibh ibh' : IndexBlockHeader}
    {ibhs ibhs' : List IndexBlockHeader} (hne : ids ≠ [])
    (hids : (if ids.head?.any (fun id => decide (id < key ibh.streamId)) then
      dropLess (fun id => id) ids (key ibh.streamId) else ids) = id :: ids')
    (hn : (ibh :: ibhs).drop (skipped key id ibh ibhs) = ibh' :: ibhs') :
    schedule key pso read ids (ibh :: ibhs) =
      if disjointTimes pso.minTimestamp pso.maxTimestamp ibh'.minTimestamp ibh'.maxTimestamp then
        schedule key pso read (id :: ids') ibhs'
      else do
        let bhs ← read ibh'
        let rest ← schedule key pso read (scheduleBlocks key pso (id :: ids') id bhs).2 ibhs'
        return (scheduleBlocks key pso (id :: ids') id bhs).1 ++ rest := by
  obtain ⟨id0, ids0, rfl⟩ := exists_cons_of_ne_nil hne
  simp only [List.head?_cons, Option.any_some, decide_eq_true_eq] at hids
  rw [schedule]
  simp only [hids]
  split
  · rename_i hnil
    cases hn.symm.trans hnil
  · rename_i hcons
    obtain ⟨rfl, rfl⟩ := List.cons.inj (hn.symm.trans hcons)
    rfl

/-- The ids that are dropped before an index block are less than the id it begins with. -/
theorem exists_trimmed {id0 : κ} {ids0 : List κ} (hids : (id0 :: ids0).Pairwise (· ≤ ·)) (x : κ) :
    ∃ gone left, (if id0 < x then dropLess (fun id => id) (id0 :: ids0) x else id0 :: ids0) = left ∧
      id0 :: ids0 = gone ++ left ∧ ∀ y ∈ gone, y < x := by
  split_ifs
  · obtain ⟨gone, hgone, hless⟩ := exists_dropLess hids x
    exact ⟨gone, _, rfl, hgone, hless⟩
  · exact ⟨[], _, rfl, rfl, fun y hy => absurd hy not_mem_nil⟩

/-- The scheduler over index blocks that can be read. -/
theorem schedule_eq (hkey : Monotone key) (pso : PartitionSearchOptions)
    (hids : ids.Pairwise (· ≤ ·))
    (hread : ∀ ib ∈ index, read ib.header = .ok ib.blocks)
    (hsorted : (indexedBlocks index).Pairwise fun a b => a.streamId ≤ b.streamId) :
    schedule key pso read ids (index.map IndexBlock.header) =
      .ok ((indexedBlocks index).filter (wanted key pso ids)) := by
  induction hlen : index.length using Nat.strong_induction_on generalizing ids index with
  | h len ih =>
    rcases ids with _ | ⟨id0, ids0⟩
    · rw [filter_wanted_nil, schedule]
    rcases index with _ | ⟨ib, index⟩
    · rw [map_nil, schedule]
      · rfl
      · intro h
        cases h
    -- the ids before the index block are dropped
    obtain ⟨gone, left, hleft, hgone, hless⟩ := exists_trimmed hids (key ib.header.streamId)
    rw [filter_wanted_append hgone fun x hx bh hbh =>
      (hless x hx).trans_le (IndexBlock.key_header_le hkey hsorted hbh), map_cons]
    have hids' : left.Pairwise (· ≤ ·) := (pairwise_append.1 (hgone ▸ hids)).2.1
    rcases left with _ | ⟨id, ids'⟩
    · -- the loop ends when all ids are before the index block
      rw [schedule, filter_wanted_nil]
      simp only [hleft]
    -- the index blocks before the id are skipped
    obtain ⟨front, ib', back, hindex, hfront, hbefore⟩ := exists_skipped hkey id hsorted
    have hn : (ib.header :: index.map IndexBlock.header).drop
        (skipped key id ib.header (index.map IndexBlock.header)) =
          ib'.header :: back.map IndexBlock.header := by
      rw [← hfront, ← map_cons, hindex, map_append, map_cons]
      exact drop_left' (length_map _)
    rw [schedule_round (cons_ne_nil _ _) (by simpa using hleft) hn]
    have hback : back.length < len := by
      rw [← hlen, hindex, length_append, length_cons]
      omega
    have hsplit : indexedBlocks (ib :: index) =
        indexedBlocks front ++ (ib'.blocks ++ indexedBlocks back) := by
      rw [hindex, indexedBlocks, flatMap_append, flatMap_cons]
      rfl
    rw [hsplit] at hsorted ⊢
    have hpair := pairwise_append.1 (pairwise_append.1 hsorted).2.1
    have hmem : ∀ b ∈ back, b ∈ ib :: index := by
      intro b hb
      rw [hindex]
      exact mem_append_right _ (mem_cons_of_mem _ hb)
    rw [filter_append, filter_wanted_eq_nil hids' hbefore, nil_append, filter_append]
    split_ifs with hdisjoint
    · have hout : ib'.blocks.filter (wanted key pso (id :: ids')) = [] := by
        apply filter_eq_nil_iff.2
        intro bh hbh
        simp [wanted, ib'.inTimeRange_eq_false hdisjoint hbh]
      rw [hout, nil_append]
      exact ih _ hback hids' (fun b hb => hread b (hmem b hb)) hpair.2.1 rfl
    · have hib' : ib' ∈ ib :: index := by
        rw [hindex]
        exact mem_append_right _ mem_cons_self
      obtain ⟨hworks, gone', hgone', hless'⟩ := scheduleBlocks_eq pso hids' rfl
        (hpair.1.imp fun hab => hkey hab)
      have hrest : (indexedBlocks back).filter (wanted key pso (id :: ids')) = _ :=
        filter_wanted_append hgone' fun x hx bh hbh => by
          obtain ⟨b, hb, hlt⟩ := hless' x hx
          exact hlt.trans_le (hkey (hpair.2.2 b hb bh hbh))
      rw [hread ib' hib', except_ok_bind, hworks, hrest,
        ih _ hback (pairwise_append.1 (hgone' ▸ hids')).2.1
          (fun b hb => hread b (hmem b hb)) hpair.2.1 rfl, except_ok_bind]
      rfl

end Schedule

theorem schedule_holds {κ : Type} [LinearOrder κ] {key : StreamID → κ} {zstd : Zstd} {p : OpenPart}
    {index : List IndexBlock} (h : p.Holds zstd index) (hkey : Monotone key)
    (pso : PartitionSearchOptions) {ids : List κ} (hids : ids.Pairwise (· ≤ ·))
    {w : BlockHeader → Bool}
    (hw : ∀ bh, w bh = true ↔ inTimeRange pso bh = true ∧ key bh.streamId ∈ ids) :
    schedule key pso (p.mustReadBlockHeaders zstd) ids p.indexBlockHeaders =
      .ok ((indexedBlocks index).filter w) := by
  have hwanted : w = wanted key pso ids := by
    funext bh
    rw [Bool.eq_iff_iff, hw, wanted, Bool.and_eq_true, decide_eq_true_eq]
  rw [h.headers, hwanted]
  exact schedule_eq hkey pso hids h.reads (h.sorted.imp fun hab => hab.1)

/-- A search by tenants or by stream ids has exactly the blocks of the listed tenants or stream ids whose
times overlap with those of the query, each of them once, in the order of the part. -/
theorem schedulePartSearch_exact {zstd : Zstd} {p : OpenPart} {index : List IndexBlock}
    (h : p.Holds zstd index) (pso : PartitionSearchOptions)
    (htenants : pso.tenantIds.Pairwise (· ≤ ·)) (hstreams : pso.streamIds.Pairwise (· ≤ ·)) :
    scheduleByTenantIds zstd p pso = .ok ((indexedBlocks index).filter fun bh =>
        inTimeRange pso bh && decide (bh.streamId.tenantId ∈ pso.tenantIds)) ∧
      scheduleByStreamIds zstd p pso = .ok ((indexedBlocks index).filter fun bh =>
        inTimeRange pso bh && decide (bh.streamId ∈ pso.streamIds)) ∧
      schedulePartSearch zstd p pso = .ok ((indexedBlocks index).filter fun bh =>
        inTimeRange pso bh && if pso.tenantIds ≠ [] then decide (bh.streamId.tenantId ∈ pso.tenantIds)
          else decide (bh.streamId ∈ pso.streamIds)) := by
  have htenant : scheduleByTenantIds zstd p pso = .ok ((indexedBlocks index).filter fun bh =>
      inTimeRange pso bh && decide (bh.streamId.tenantId ∈ pso.tenantIds)) :=
    schedule_holds h (fun _ _ => StreamID.tenantId_le) pso htenants fun bh => by simp
  have hstream : scheduleByStreamIds zstd p pso = .ok ((indexedBlocks index).filter fun bh =>
      inTimeRange pso bh && decide (bh.streamId ∈ pso.streamIds)) :=
    schedule_holds h (fun _ _ hab => hab) pso hstreams fun bh => by simp
  refine ⟨htenant, hstream, ?_⟩
  rw [schedulePartSearch]
  split_ifs
  · exact htenant
  · exact hstream

/-! ### A sample -/

/-- The header of a block of the given tenant, with times from `min` to `max`. -/
def sampleBlock (tenant : UInt32) (min max : Int) : BlockHeader :=
  ⟨⟨⟨tenant, 0⟩, ⟨0, 1⟩⟩, 10, 1, ⟨0, 0, min, max, 0⟩, 0, 0, 0, 0⟩

/-- Two index blocks; the blocks of tenant 2 are in both of them. -/
def sampleIndexBlock : IndexBlock where
  header := ⟨⟨⟨1, 0⟩, ⟨0, 1⟩⟩, 10, 25, 0, 126⟩
  first := sampleBlock 1 10 20
  others := [sampleBlock 2 15 25]
  streamId_eq := rfl
  within := by decide

def nextIndexBlock : IndexBlock where
  header := ⟨⟨⟨2, 0⟩, ⟨0, 1⟩⟩, 12, 60, 126, 189⟩
  first := sampleBlock 2 30 40
  others := [sampleBlock 2 50 60, sampleBlock 3 12 18]
  streamId_eq := rfl
  within := by decide

/-- A part whose index is stored as it is. -/
def samplePart : OpenPart :=
  ⟨3, [sampleIndexBlock.header, nextIndexBlock.header], "index.bin",
    (sampleIndexBlock.blocks ++ nextIndexBlock.blocks).flatMap BlockHeader.marshal⟩

theorem samplePart_holds : samplePart.Holds ⟨fun src => src, .ok⟩ [sampleIndexBlock, nextIndexBlock] where
  headers := rfl
  reads := by decide +kernel
  sorted := by
    unfold BlockHeader.Precedes
    decide

theorem schedulePartSearch_samplePart :
    scheduleByTenantIds ⟨fun src => src, .ok⟩ samplePart ⟨[⟨2, 0⟩, ⟨4, 0⟩], [], 15, 35⟩ =
      .ok [sampleBlock 2 15 25, sampleBlock 2 30 40] :=
  (schedulePartSearch_exact samplePart_holds _ (by decide) (by decide)).1

end EsLogs.Part
