import EsLogs.MergeInvariant

/-!
A whole run of the merger. Each step keeps the invariant, whichever way the merger takes: passing the
block on, making it the pending one, merging its rows with the pending ones, with or without a flush.
-/

namespace EsLogs

open List

variable {bd : BlockData}

/-! ### Flushing -/

section Steps

open BlockStreamMerger

variable {env : MergeEnv} {input : StreamID → List Row} {total : StreamID → List Row}
  {rest : List BlockData} {m : BlockStreamMerger} {p : List Row}

/-- The pending rows leave the merger, as a block with these rows or not at all. -/
theorem Merged.leave (h : Merged env input total rest m p) {bsw : BlockStreamWriter}
    (hordered : bsw.Ordered) (hwritten : ∀ bd ∈ bsw.blocks, bd.WellFormed env.codec)
    (hsid : bsw.sidLast ≤ m.streamId)
    (hmin : ∀ bd ∈ rest, bd.streamId = bsw.sidLast →
      bsw.minTimestampLast ≤ bd.timestampsData.minTimestamp)
    (hkeeps : ∀ sid, KeepsRows (streamRows env.codec.rows sid bsw.blocks)
      (streamRows env.codec.rows sid m.bsw.blocks ++ if m.streamId = sid then p else [])) :
    Merged env input total rest { m.resetRows with bsw := bsw } [] :=
  { h with
    holds := .nothing rfl rfl rfl
    storable := nofun
    sorted := List.Pairwise.nil
    rest_min := fun _ _ _ => nofun
    ordered := hordered
    written := hwritten
    last_sid := hsid
    last_min := fun _ => nofun
    last_rest := hmin
    keeps := fun sid => by
      refine KeepsRows.trans ?_ (h.keeps sid)
      rw [ite_self, nil_append, ← append_assoc]
      exact (hkeeps sid).append (KeepsRows.refl _) }

/-- The pending rows leave the merger without a block, if nothing is lost with them. -/
theorem Merged.skip (h : Merged env input total rest m p) (hp : KeepsRows [] p) :
    Merged env input total rest { m.resetRows with bsw := m.bsw } [] := by
  refine h.leave h.ordered h.written h.last_sid h.last_rest fun sid => ?_
  have hnil : KeepsRows [] (if m.streamId = sid then p else []) := by
    split_ifs
    · exact hp
    · exact KeepsRows.refl _
  simpa using (KeepsRows.refl (streamRows env.codec.rows sid m.bsw.blocks)).append hnil

/-- Writing a block that holds the pending rows. -/
theorem Merged.write (h : Merged env input total rest m p) (bd : BlockData)
    (hsid : bd.streamId = m.streamId) (hwf : bd.WellFormed env.codec)
    (hkeep : KeepsRows (env.codec.rows bd) p)
    (hhead : ∃ r ∈ p.head?, bd.timestampsData.minTimestamp = r.timestamp) :
    ∃ bsw, m.bsw.mustWriteBlockInternal bd.streamId (.ok bd) = .ok bsw ∧
      Merged env input total rest { m.resetRows with bsw := bsw } [] := by
  obtain ⟨r, hr, hmin⟩ := hhead
  obtain ⟨hwrite, hordered⟩ := h.ordered.mustWriteBlockInternal bd
    (hsid ▸ h.last_sid) (fun hlast => hmin ▸ h.last_min (hlast.trans hsid) r hr)
  refine ⟨_, hwrite, h.leave hordered (forall_mem_append.2 ⟨h.written, forall_mem_singleton.2 hwf⟩) hsid.le
    (fun bd' hbd' hsame => ?_) (fun sid => ?_)⟩
  · rw [show (BlockStreamWriter.mk bd.streamId bd.timestampsData.minTimestamp
      (m.bsw.blocks ++ [bd])).minTimestampLast = r.timestamp from hmin]
    exact h.rest_min bd' hbd' (hsame.trans hsid) r hr
  · rw [streamRows_concat, hsid]
    refine (KeepsRows.refl _).append ?_
    split_ifs
    · exact hkeep
    · exact KeepsRows.refl _

/-- A packed block with the pending rows is written as it is. -/
theorem Merged.writeBlockData (h : Merged env input total rest m (env.codec.rows bd))
    (hsid : bd.streamId = m.streamId) (hwf : bd.WellFormed env.codec) :
    ∃ bsw, m.bsw.mustWriteBlockData bd = .ok bsw ∧
      Merged env input total rest { m.resetRows with bsw := bsw } [] := by
  obtain ⟨b, hb⟩ := hwf
  obtain ⟨r, rows, hr, hmin⟩ := hb.head_timestamp
  obtain ⟨bsw, hwrite, hmerged⟩ := h.write bd hsid ⟨b, hb⟩ (KeepsRows.refl _)
    ⟨r, by rw [hr]; rfl, hmin.symm⟩
  refine ⟨bsw, ?_, hmerged⟩
  rw [BlockStreamWriter.mustWriteBlockData, if_neg hb.rowsCount_pos.ne', hb.written, hwrite]

theorem Holds.nothing_iff (h : Holds env m []) :
    m.bd.rowsCount = 0 ∧ m.rows = [] ∧ m.uncompressedRowsSizeBytes = 0 ∧
      m.bd = BlockData.empty := by
  generalize hp : ([] : List Row) = p at h
  cases h with
  | nothing hbd hrows hsize => exact ⟨by rw [hbd]; rfl, hrows, hsize, hbd⟩
  | packed hbd hsid hkeep hrows hsize =>
    obtain ⟨b, hb⟩ := hbd
    obtain ⟨r, rest, hr, -⟩ := hb.head_timestamp
    rw [hr] at hp
    cases hp
  | unpacked hbd hrows hsize hlt => exact absurd hp.symm hrows

/-- The pending rows are written; rows without fields are not, when there are no others. -/
theorem mustFlushRows_spec (hcodec : ∀ sid, env.codec.Lossless (input sid)) (h : Merged env input total rest m p) :
    ∃ m', mustFlushRows env m = .ok m' ∧ Merged env input total rest m' [] ∧
      m'.streamId = m.streamId := by
  cases h.holds with
  | nothing hbd hrows hsize =>
    refine ⟨_, ?_, h.skip (KeepsRows.refl _), rfl⟩
    simp only [mustFlushRows, hrows, hbd]
    rfl
  | packed hbd hsid hkeep hrows hsize =>
    obtain ⟨bsw, hwrite, hmerged⟩ := h.writeBlockData hsid hbd
    refine ⟨_, ?_, hmerged, rfl⟩
    simp only [mustFlushRows, hrows, isEmpty_nil, if_true, hwrite, except_ok_bind]
    rfl
  | unpacked hbd hrows hsize hlt =>
    have hempty : m.rows.isEmpty = false := by
      rw [Bool.eq_false_iff]
      exact fun he => hrows (List.isEmpty_iff.1 he)
    by_cases hne : hasNonEmptyRows m.rows = true
    · obtain ⟨b, hinit, hb, hsame, hts⟩ := mustInitFromRows_spec (fun r hr => (h.storable r hr).valid)
        h.sorted (columnsFit_of_storable h.storable)
      obtain ⟨r, rows, hr⟩ := exists_cons_of_ne_nil hrows
      have htsne : b.timestamps ≠ [] := by
        rw [hts, hr]
        exact cons_ne_nil _ _
      have hi64 : ∀ t ∈ b.timestamps, InI64 t := by
        intro t ht
        rw [hts] at ht
        obtain ⟨s, hs, rfl⟩ := mem_map.1 ht
        exact (h.storable s hs).in_i64
      have hbsize : b.uncompressedSizeBytes < 2 * maxUncompressedBlockSize := by
        rw [Block.uncompressedSizeBytes_eq hb, hsame.size_eq]
        exact hlt
      have hinput : ∀ c ∈ b.columns, ColumnOf (input m.streamId) c.name c.values := by
        intro c hc v hv
        refine ((Block.columnOf hb hc).of_sameRows hsame v hv).imp_right ?_
        rintro ⟨s, hs, hf⟩
        exact (h.storable s hs).fits.1 _ hf
      obtain ⟨hpack, hpacks⟩ := (hcodec m.streamId).pack_spec hb hinput htsne hi64 hbsize m.streamId
      obtain ⟨bsw, hwrite, hmerged⟩ := h.write (env.codec.pack m.streamId b) rfl
        ⟨b, hpacks⟩ (hpacks.rows_eq ▸ KeepsRows.of_sameRows hsame)
        ⟨r, by rw [hr]; rfl, by rw [hpacks.min_eq, hts, hr]; rfl⟩
      refine ⟨_, ?_, hmerged, rfl⟩
      have hlen : b.timestamps.length ≠ 0 := fun h0 => htsne (length_eq_zero_iff.1 h0)
      have hwrite' : m.bsw.mustWriteBlockInternal m.streamId
          (.ok (env.codec.pack m.streamId b)) = .ok bsw := hwrite
      simp only [mustFlushRows, hempty, Bool.false_eq_true, if_false, hne, if_true,
        BlockStreamWriter.mustWriteRows, hinit, except_ok_bind, hlen, hpack, hwrite']
      rfl
    · refine ⟨_, ?_, h.skip (KeepsRows.nil_of_fieldless (Bool.eq_false_iff.2 hne)), rfl⟩
      simp only [mustFlushRows, hempty, Bool.false_eq_true, if_false, hne]
      rfl

/-! ### Unpacking and merging -/

theorem needDropRows_of_block (hwf : bd.WellFormed env.codec) (h : bd.needsDrop env = true) :
    needDropRows env bd.streamId (-2 ^ 63) (2 ^ 63 - 1) = true := by
  obtain ⟨b, hb⟩ := hwf
  obtain ⟨t, ts, ht⟩ := exists_cons_of_ne_nil hb.ne_nil
  have hmin : InI64 bd.timestampsData.minTimestamp := by
    rw [hb.min_eq, ht]
    exact hb.in_i64 t (ht ▸ mem_cons_self)
  have hmax : InI64 bd.timestampsData.maxTimestamp := by
    rw [hb.max_eq]
    refine hb.in_i64 _ ?_
    rw [getLastD_eq_getLast?, List.getLast?_eq_some_getLast hb.ne_nil]
    exact getLast_mem hb.ne_nil
  unfold BlockData.needsDrop needDropRows at h
  unfold needDropRows
  cases hdf : env.dropFilter with
  | none => simp [hdf] at h
  | some df =>
    simp only [hdf, DropFilter.matchTimeRange, Bool.and_eq_true, decide_eq_true_eq] at h ⊢
    refine ⟨h.1, hmin.1.trans h.2.1, le_trans h.2.2 ?_⟩
    have := hmax.2
    omega

theorem mustUnmarshalRows_spec (htexts : TextsOk env m) {bd : BlockData}
    (hsid : bd.streamId = m.streamId) (hbd : bd.Mergeable env input) :
    mustUnmarshalRows env m bd = .ok { m with
      rows := m.rows ++ keptRows env bd
      uncompressedRowsSizeBytes :=
        m.uncompressedRowsSizeBytes + uncompressedRowsSizeBytes (keptRows env bd) } := by
  obtain ⟨b, hb⟩ := hbd.well_formed
  have hrows := hb.unmarshalRows_eq
  rw [← hb.rows_eq] at hrows
  unfold mustUnmarshalRows keptRows
  cases hdf : env.dropFilter with
  | none =>
    simp only [hrows]
    rfl
  | some df =>
    by_cases hdrop : bd.needsDrop env = true
    · obtain ⟨hzero, hvalid, -⟩ := hbd.droppable df hdf hdrop
      obtain ⟨hstream, hstreamId⟩ := htexts df hdf
        (hsid ▸ needDropRows_of_block hbd.well_formed hdrop) (hsid ▸ hzero)
      have hdrop' : needDropRows env bd.streamId bd.timestampsData.minTimestamp
          bd.timestampsData.maxTimestamp = true := hdrop
      simp only [hrows, hdrop, hdrop', hstream, hstreamId, ← hsid, hvalid,
        Utf8.isValid_of_ascii bd.streamId.marshalString_ascii, not_true_eq_false, if_true, if_false]
      rfl
    · have hdrop' : needDropRows env bd.streamId bd.timestampsData.minTimestamp
          bd.timestampsData.maxTimestamp = false := Bool.eq_false_iff.2 hdrop
      simp only [hrows, hdrop, hdrop', Bool.false_eq_true, if_false]
      rfl

theorem SortedRows.head_le {rows : List Row} (h : SortedRows rows) {r : Row} (hr : r ∈ rows.head?) :
    ∀ s ∈ rows, r.timestamp ≤ s.timestamp := by
  cases rows with
  | nil => cases hr
  | cons a rows =>
    obtain rfl : a = r := by simpa using hr
    exact forall_mem_cons.2 ⟨le_rfl, (pairwise_cons.1 h).1⟩

def unpackedState (m : BlockStreamMerger) (p : List Row) : BlockStreamMerger :=
  { m with
    bd := BlockData.empty
    rows := p
    uncompressedRowsSizeBytes := EsLogs.uncompressedRowsSizeBytes p }

theorem unpackPending_spec (h : Merged env input total rest m p) :
    unpackPending env m = .ok (unpackedState m p) := by
  unfold unpackPending
  cases h.holds with
  | nothing hbd hrows hsize =>
    have hsame : unpackedState m [] = m := by
      cases m
      simp_all [unpackedState, EsLogs.uncompressedRowsSizeBytes]
    rw [if_neg (by rw [hbd]; decide), hsame]
    rfl
  | packed hbd hsid hkeep hrows hsize =>
    have hmergeable : m.bd.Mergeable env input :=
      ⟨hbd, fun r hr => hsid.symm ▸ (h.storable r hr).fits, fun df _ hdrop => by
        rw [hkeep] at hdrop
        cases hdrop⟩
    obtain ⟨b, hb⟩ := hbd
    rw [if_pos hb.rowsCount_pos, mustUnmarshalRows_spec h.texts hsid hmergeable, except_ok_bind,
      keptRows_eq_rows hkeep, hrows, hsize, nil_append, Nat.zero_add]
    rfl
  | unpacked hbd hrows hsize hlt =>
    rw [if_neg (by rw [hbd]; decide), unpackedState, ← hbd, ← hsize]
    rfl

theorem uncompressedRowsSizeBytes_mergeRows (a b : List Row) :
    uncompressedRowsSizeBytes (mergeRows a b) = uncompressedRowsSizeBytes a + uncompressedRowsSizeBytes b := by
  rw [uncompressedRowsSizeBytes, ((mergeRows_interleaves a b).perm.map _).sum_eq, map_append, sum_append]
  rfl

/-- The rows that are left of the next block join the pending ones, in whichever form the merger holds them. -/
theorem Merged.advance (h : Merged env input total (bd :: rest) m p) (hsid : bd.streamId = m.streamId)
    {bd' : BlockData} {rows p' : List Row} {size : Nat}
    (hholds : Holds env { m with bd := bd', rows := rows, uncompressedRowsSizeBytes := size } p')
    (hperm : p' ~ p ++ keptRows env bd) (hsorted : SortedRows p') :
    Merged env input total rest { m with bd := bd', rows := rows, uncompressedRowsSizeBytes := size } p' := by
  have hkept := (h.rest_ok bd mem_cons_self).kept
  obtain ⟨k, ks, hks, hkmin⟩ := hkept.head
  have hk : k ∈ p' := by
    rw [hperm.mem_iff, hks]
    exact mem_append_right _ mem_cons_self
  obtain ⟨hprec, hrest⟩ := pairwise_cons.1 h.rest_sorted
  refine { h with
    holds := hholds
    storable := fun r hr => ?_
    sorted := hsorted
    rest_ok := (forall_mem_cons.1 h.rest_ok).2
    rest_sorted := hrest
    rest_sid := (forall_mem_cons.1 h.rest_sid).2
    rest_min := fun bd' hbd' hsame r hr => ?_
    last_min := fun hlast r hr => ?_
    last_rest := (forall_mem_cons.1 h.last_rest).2
    keeps := fun sid => ?_ }
  · rcases mem_append.1 (hperm.mem_iff.1 hr) with hp | hK
    · exact h.storable r hp
    · exact hsid ▸ hkept.storable r hK
  · calc r.timestamp ≤ k.timestamp := hsorted.head_le hr k hk
      _ = bd.timestampsData.minTimestamp := hkmin
      _ ≤ bd'.timestampsData.minTimestamp := (hprec bd' hbd').2 (hsid.trans hsame.symm)
  · rcases mem_append.1 (hperm.mem_iff.1 (mem_of_mem_head? hr)) with hp | hK
    · obtain ⟨q, qs, hq⟩ := exists_cons_of_ne_nil (ne_nil_of_mem hp)
      have hqhead : q ∈ p.head? := by rw [hq]; rfl
      exact (h.last_min hlast q hqhead).trans (h.sorted.head_le hqhead r hp)
    · have hkhead : k ∈ (keptRows env bd).head? := by rw [hks]; rfl
      calc m.bsw.minTimestampLast ≤ bd.timestampsData.minTimestamp :=
            h.last_rest bd mem_cons_self (hsid.trans hlast.symm)
        _ = k.timestamp := hkmin.symm
        _ ≤ r.timestamp := hkept.sorted.head_le hkhead r hK
  · refine KeepsRows.trans ?_ (h.keeps sid)
    rw [streamRows_cons, hsid, ← append_assoc (if m.streamId = sid then p else [])]
    refine (KeepsRows.refl _).append (KeepsRows.append ?_ (KeepsRows.refl _))
    show KeepsRows (if m.streamId = sid then _ else []) _
    split_ifs
    · exact KeepsRows.of_perm hperm
    · exact KeepsRows.refl _

/-- The rows of the next block are merged with the pending ones. -/
theorem Merged.join (h : Merged env input total (bd :: rest) m p) (hsid : bd.streamId = m.streamId)
    (hsize : uncompressedRowsSizeBytes p + bd.uncompressedSizeBytes < 2 * maxUncompressedBlockSize) :
    Merged env input total rest (unpackedState m (mergeRows p (keptRows env bd))) (mergeRows p (keptRows env bd)) := by
  have hkept := (h.rest_ok bd mem_cons_self).kept
  have hperm := (mergeRows_interleaves p (keptRows env bd)).perm
  obtain ⟨k, ks, hks, -⟩ := hkept.head
  have hne : mergeRows p (keptRows env bd) ≠ [] :=
    ne_nil_of_mem (hperm.mem_iff.2 (mem_append_right p (hks ▸ mem_cons_self)))
  refine h.advance hsid (.unpacked rfl hne rfl ?_) hperm (mergeRows_sorted h.sorted hkept.sorted)
  show uncompressedRowsSizeBytes (mergeRows p (keptRows env bd)) < _
  rw [uncompressedRowsSizeBytes_mergeRows]
  have := hkept.size_le
  omega

theorem mustMergeRows_spec (hcodec : ∀ sid, env.codec.Lossless (input sid))
    (h : Merged env input total (bd :: rest) m p) (hsid : bd.streamId = m.streamId)
    (hsize : uncompressedRowsSizeBytes p + bd.uncompressedSizeBytes < 2 * maxUncompressedBlockSize) :
    ∃ m' p', mustMergeRows env m bd = .ok m' ∧ Merged env input total rest m' p' := by
  have hjoin := h.join hsid hsize
  have hsum := uncompressedRowsSizeBytes_mergeRows p (keptRows env bd)
  have htexts : TextsOk env (unpackedState m p) := h.texts
  have hunmarshal := mustUnmarshalRows_spec htexts (show bd.streamId = (unpackedState m p).streamId
    from hsid) (h.rest_ok bd mem_cons_self)
  have htake : ((unpackedState m p).rows ++ keptRows env bd).take (unpackedState m p).rows.length =
      p := take_left
  have hdrop : ((unpackedState m p).rows ++ keptRows env bd).drop (unpackedState m p).rows.length =
      keptRows env bd := drop_left
  have heq : mustMergeRows env m bd =
      if uncompressedRowsSizeBytes (mergeRows p (keptRows env bd)) ≥ maxUncompressedBlockSize then
        mustFlushRows env (unpackedState m (mergeRows p (keptRows env bd)))
      else .ok (unpackedState m (mergeRows p (keptRows env bd))) := by
    rw [mustMergeRows, unpackPending_spec h, except_ok_bind, hunmarshal, except_ok_bind, htake, hdrop]
    simp only [unpackedState, hsum]
    rfl
  rw [heq]
  split_ifs with hfull
  · obtain ⟨m', hflush, hm', -⟩ := mustFlushRows_spec hcodec hjoin
    exact ⟨m', [], hflush, hm'⟩
  · exact ⟨_, _, rfl, hjoin⟩

/-! ### One block -/

/-- A block that needs no filtering becomes the pending block. -/
theorem Merged.take (h : Merged env input total (bd :: rest) m [])
    (hsid : bd.streamId = m.streamId) (hkeep : bd.needsDrop env = false) :
    Merged env input total rest { m with bd := bd } (env.codec.rows bd) := by
  have hbd := h.rest_ok bd mem_cons_self
  obtain ⟨-, hrows, hsize, -⟩ := h.holds.nothing_iff
  have hsorted := hbd.kept.sorted
  rw [keptRows_eq_rows hkeep] at hsorted
  refine h.advance hsid (.packed hbd.well_formed hsid hkeep hrows hsize) ?_ hsorted
  rw [nil_append, keptRows_eq_rows hkeep]

theorem assertNoRows_eq_ok (h : Holds env m []) : assertNoRows m = .ok () := by
  obtain ⟨hcount, hrows, hsize, -⟩ := h.nothing_iff
  simp only [assertNoRows, hcount, hrows, hsize]
  rfl

theorem mustWriteBlockData_spec (hcodec : ∀ sid, env.codec.Lossless (input sid))
    (h : Merged env input total (bd :: rest) m []) (hsid : bd.streamId = m.streamId) :
    ∃ m' p', mustWriteBlockData env m bd = .ok m' ∧ Merged env input total rest m' p' := by
  have hbd := h.rest_ok bd mem_cons_self
  rw [mustWriteBlockData, assertNoRows_eq_ok h.holds, except_ok_bind]
  by_cases hdrop : bd.needsDrop env = true
  · obtain ⟨df, hdf⟩ : ∃ df, env.dropFilter = some df := by
      cases hnone : env.dropFilter with
      | none => simp [BlockData.needsDrop, needDropRows, hnone] at hdrop
      | some df => exact ⟨df, rfl⟩
    have hsize := (hbd.droppable df hdf hdrop).2.2
    rw [if_pos (show needDropRows env _ _ _ = true from hdrop)]
    exact mustMergeRows_spec hcodec h hsid (by simpa [uncompressedRowsSizeBytes] using hsize)
  · rw [if_neg (show ¬needDropRows env _ _ _ = true from hdrop)]
    have htake := h.take hsid (Bool.eq_false_iff.2 hdrop)
    split_ifs with hfull
    · obtain ⟨bsw, hwrite, hmerged⟩ := htake.writeBlockData hsid hbd.well_formed
      refine ⟨{ m with bsw := bsw }, [], ?_, ?_⟩
      · rw [show m.bsw.mustWriteBlockData bd = .ok bsw from hwrite, except_ok_bind]
        rfl
      · obtain ⟨-, hrows, hsize, hempty⟩ := h.holds.nothing_iff
        have hsame : { ({ m with bd := bd } : BlockStreamMerger).resetRows with bsw := bsw } =
            { m with bsw := bsw } := by
          simp only [resetRows, ← hempty, ← hrows, ← hsize]
        rwa [hsame] at hmerged
    · exact ⟨_, _, rfl, htake⟩

theorem size_pos_of_ne_nil {rows : List Row} (h : rows ≠ []) :
    0 < uncompressedRowsSizeBytes rows := by
  obtain ⟨r, rows, rfl⟩ := exists_cons_of_ne_nil h
  have hbase : 0 < estimatedJsonRowBase := by decide
  rw [uncompressedRowsSizeBytes, map_cons, sum_cons, estimatedJsonRowLen]
  omega

/-- The merger counts the size of what it holds. -/
theorem Holds.size_le (h : Holds env m p) :
    uncompressedRowsSizeBytes p ≤ m.uncompressedRowsSizeBytes + m.bd.uncompressedSizeBytes := by
  cases h with
  | nothing hbd hrows hsize => exact Nat.zero_le _
  | packed hbd hsid hkeep hrows hsize =>
    obtain ⟨b, hb⟩ := hbd
    rw [← hb.size_rows]
    exact Nat.le_add_left _ _
  | unpacked hbd hrows hsize hlt =>
    rw [← hsize]
    exact Nat.le_add_right _ _

/-- The merger holds nothing when it counts nothing. -/
theorem Holds.eq_nil (h : Holds env m p) (hsize : m.uncompressedRowsSizeBytes = 0)
    (hcount : m.bd.rowsCount = 0) : p = [] := by
  cases h with
  | nothing => rfl
  | packed hbd hsid hkeep hrows _ =>
    obtain ⟨b, hb⟩ := hbd
    exact absurd hcount hb.rowsCount_pos.ne'
  | unpacked hbd hrows hsize' _ =>
    have := size_pos_of_ne_nil hrows
    omega

theorem checkNextBlock_eq_ok (h : Merged env input total (bd :: rest) m p) : checkNextBlock env m bd = .ok () := by
  have hless : ¬bd.streamId.less m.streamId = true := by
    rw [StreamID.less_eq_decide, decide_eq_true_eq, not_lt]
    exact h.rest_sid bd mem_cons_self
  have hmin := h.rest_min bd mem_cons_self
  have hcheck : ∀ {next min : Int} (what : String), min ≤ next →
      checkMinTimestamp env next min what = .ok () := fun what hle => if_neg (not_lt.2 hle)
  unfold checkNextBlock
  cases h.holds with
  | nothing hbd hrows hsize =>
    have hcount : BlockData.empty.rowsCount = 0 := rfl
    rw [if_neg (by simp [hrows]), if_neg hless, hrows, hbd]
    simp only [hcount, if_true]
    split_ifs <;> rfl
  | packed hbd hsid hkeep hrows hsize =>
    obtain ⟨b, hb⟩ := hbd
    obtain ⟨r, ks, hr, hrmin⟩ := hb.head_timestamp
    rw [if_neg (by simp [hrows]), if_neg hless, hrows]
    by_cases hne : bd.streamId = m.streamId
    · have hle := hmin hne r (by rw [hr]; rfl)
      rw [hrmin] at hle
      simp only [hcheck _ hle]
      split_ifs <;> rfl
    · rw [if_pos hne]
      rfl
  | unpacked hbd hrows hsize hlt =>
    obtain ⟨r, ks, hr⟩ := exists_cons_of_ne_nil hrows
    rw [if_neg (by simp [hbd, BlockData.empty]), if_neg hless, hr]
    by_cases hne : bd.streamId = m.streamId
    · have hle := hmin hne r (by rw [hr]; rfl)
      simp only [hcheck _ hle]
      split_ifs <;> rfl
    · rw [if_pos hne]
      rfl

/-- Moving on to the stream of the next block. -/
theorem Merged.nextStream (h : Merged env input total (bd :: rest) m []) :
    Merged env input total (bd :: rest) (setStreamId env m bd.streamId) [] ∧
      (setStreamId env m bd.streamId).streamId = bd.streamId := by
  -- only the texts depend on the drop filter
  have hfields : ∃ texts : Bytes × Bytes, setStreamId env m bd.streamId =
      { m with streamId := bd.streamId, streamBuf := texts.1, streamIdBuf := texts.2 } := by
    unfold BlockStreamMerger.setStreamId
    cases env.dropFilter with
    | none => exact ⟨(m.streamBuf, m.streamIdBuf), rfl⟩
    | some df =>
      by_cases hneed : needDropRows env bd.streamId (-2 ^ 63) (2 ^ 63 - 1) = true
      · exact ⟨(df.streamString bd.streamId, bd.streamId.marshalString), if_pos hneed⟩
      · exact ⟨(m.streamBuf, m.streamIdBuf), if_neg hneed⟩
  have htexts : TextsOk env (setStreamId env m bd.streamId) := by
    intro df hdf hneed _
    unfold BlockStreamMerger.setStreamId at hneed ⊢
    simp only [hdf] at hneed ⊢
    by_cases hneed' : needDropRows env bd.streamId (-2 ^ 63) (2 ^ 63 - 1) = true
    · simp only [hneed', if_true, and_self]
    · rw [if_neg hneed'] at hneed
      exact absurd hneed hneed'
  obtain ⟨texts, heq⟩ := hfields
  obtain ⟨hcount, hrows, hsize, hempty⟩ := h.holds.nothing_iff
  have hsid := h.rest_sid bd mem_cons_self
  rw [heq] at htexts ⊢
  refine ⟨{ h with
    holds := .nothing hempty hrows hsize
    texts := htexts
    storable := nofun
    rest_sid := forall_mem_cons.2 ⟨le_rfl, fun bd' hbd' => ((pairwise_cons.1 h.rest_sorted).1 bd' hbd').1⟩
    rest_min := fun _ _ _ => nofun
    last_sid := h.last_sid.trans hsid
    last_min := fun _ => nofun
    keeps := fun sid => ?_ }, rfl⟩
  have hk := h.keeps sid
  rw [ite_self] at hk ⊢
  exact hk

/-- One step of the run: the next block is taken over. -/
theorem mustWriteBlock_spec (hcodec : ∀ sid, env.codec.Lossless (input sid))
    (h : Merged env input total (bd :: rest) m p) :
    ∃ m' p', mustWriteBlock env m bd = .ok m' ∧ Merged env input total rest m' p' := by
  rw [mustWriteBlock, checkNextBlock_eq_ok h, except_ok_bind]
  by_cases hsid : bd.streamId = m.streamId
  · rw [if_neg (not_not.2 hsid)]
    split_ifs with hempty hbig
    · obtain rfl := h.holds.eq_nil hempty.1 hempty.2.1
      exact mustWriteBlockData_spec hcodec h hsid
    · obtain ⟨m', hflush, hm', hsid'⟩ := mustFlushRows_spec hcodec h
      rw [hflush, except_ok_bind]
      exact mustWriteBlockData_spec hcodec hm' (hsid.trans hsid'.symm)
    · refine mustMergeRows_spec hcodec h hsid ?_
      have := h.holds.size_le
      omega
  · rw [if_pos hsid]
    obtain ⟨m', hflush, hm', -⟩ := mustFlushRows_spec hcodec h
    obtain ⟨hset, hsid'⟩ := hm'.nextStream
    rw [hflush, except_ok_bind]
    exact mustWriteBlockData_spec hcodec hset hsid'.symm

end Steps

/-! ### The whole run -/

theorem BlockData.less_eq_decide (a b : BlockData) :
    a.less b = decide (toLex (a.streamId, a.timestampsData.minTimestamp) <
      toLex (b.streamId, b.timestampsData.minTimestamp)) := by
  rw [Bool.eq_iff_iff, decide_eq_true_eq, Prod.Lex.toLex_lt_toLex, BlockData.less]
  by_cases h : a.streamId = b.streamId
  · simp [h]
  · simp [h, StreamID.less_eq_decide]

theorem BlockData.less_strictWeak : BinaryHeap.StrictWeak BlockData.less := by
  have h := BinaryHeap.strictWeak_of_key fun bd : BlockData =>
    toLex (bd.streamId, bd.timestampsData.minTimestamp)
  rwa [show (fun a b : BlockData => decide (toLex (a.streamId, a.timestampsData.minTimestamp) <
    toLex (b.streamId, b.timestampsData.minTimestamp))) = BlockData.less from
      funext fun a => funext fun b => (BlockData.less_eq_decide a b).symm] at h

theorem BlockData.precedes_iff (a b : BlockData) : a.Precedes b ↔ b.less a = false := by
  rw [BlockData.less_eq_decide, decide_eq_false_iff_not, not_lt, Prod.Lex.toLex_le_toLex,
    BlockData.Precedes, le_iff_lt_or_eq]
  refine ⟨fun ⟨h, hmin⟩ => h.imp_right fun he => ⟨he, hmin he⟩, fun h => ?_⟩
  cases h with
  | inl hlt => exact ⟨.inl hlt, fun he => absurd he hlt.ne⟩
  | inr he => exact ⟨.inr he.1, fun _ => he.2⟩

/-- The merger at the start of a run. -/
theorem merged_init {env : MergeEnv} {input : StreamID → List Row} {bds : List BlockData}
    (hok : ∀ bd ∈ bds, bd.Mergeable env input) (hsorted : bds.Pairwise BlockData.Precedes)
    (hfirst : ∀ bd ∈ bds, bd.streamId = default → 0 ≤ bd.timestampsData.minTimestamp) :
    Merged env input (fun sid => streamRows (keptRows env) sid bds) bds BlockStreamMerger.init [] where
  holds := .nothing rfl rfl rfl
  texts := fun _ _ _ hne => absurd rfl hne
  storable := nofun
  sorted := List.Pairwise.nil
  rest_ok := hok
  rest_sorted := hsorted
  rest_sid := fun bd _ => Nat.zero_le bd.streamId.toNat
  rest_min := fun _ _ _ => nofun
  ordered := BlockStreamWriter.init_ordered
  written := nofun
  last_sid := le_rfl
  last_min := fun _ => nofun
  last_rest := hfirst
  keeps := fun sid => by
    rw [ite_self, nil_append]
    exact KeepsRows.refl _

/-- A run over well-formed input succeeds. What it writes are the rows that the drop filter leaves, in
blocks that are in order. -/
theorem mustMergeBlockStreams_spec (env : MergeEnv) {input : StreamID → List Row}
    (hcodec : ∀ sid, env.codec.Lossless (input sid)) {bsrs : List (List BlockData)}
    (hok : ∀ bd ∈ bsrs.flatten, bd.Mergeable env input)
    (hsorted : ∀ r ∈ bsrs, r.Pairwise BlockData.Precedes)
    (hfirst : ∀ bd ∈ bsrs.flatten, bd.streamId = default →
      0 ≤ bd.timestampsData.minTimestamp) :
    ∃ blocks, mustMergeBlockStreams env bsrs = .ok blocks ∧
      (∀ sid, KeepsRows (streamRows env.codec.rows sid blocks)
        (streamRows (keptRows env) sid bsrs.flatten)) ∧
      blocks.Pairwise BlockData.Precedes ∧ ∀ bd ∈ blocks, bd.WellFormed env.codec := by
  have hstart := KWayMerge.merging_start BlockData.less_strictWeak bsrs
    fun r hr => (hsorted r hr).imp fun hab => (BlockData.precedes_iff _ _).1 hab
  obtain ⟨hperm, hpop⟩ := KWayMerge.popOrder_spec BlockData.less_strictWeak
    bsrs.flatten.length bsrs _ hstart le_rfl
  have hinit := merged_init (fun bd hbd => hok bd (hperm.mem_iff.1 hbd))
    (hpop.imp fun hab => (BlockData.precedes_iff _ _).2 hab)
    (fun bd hbd => hfirst bd (hperm.mem_iff.1 hbd))
  obtain ⟨m, hrun, p, hm⟩ := foldlM_invariant
    (f := BlockStreamMerger.mustWriteBlock env)
    (fun rest m => ∃ p, Merged env input _ rest m p)
    (fun bd rest m ⟨p, h⟩ => by
      obtain ⟨m', p', hstep, h'⟩ := mustWriteBlock_spec hcodec h
      exact ⟨m', hstep, p', h'⟩) _ _ ⟨[], hinit⟩
  obtain ⟨m', hflush, hm', -⟩ := mustFlushRows_spec hcodec hm
  refine ⟨m'.bsw.blocks, ?_, fun sid => ?_, hm'.ordered.sorted, hm'.written⟩
  · rw [mustMergeBlockStreams, KWayMerge.mergeLoop_eq_foldlM, hrun, except_ok_bind, hflush,
      except_ok_bind]
    rfl
  · have hk := hm'.keeps sid
    rw [ite_self, nil_append, show streamRows (keptRows env) sid [] = [] from rfl,
      append_nil] at hk
    exact hk.trans (KeepsRows.of_perm ((hperm.filter _).flatMap_right _))

end EsLogs
