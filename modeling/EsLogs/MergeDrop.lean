import EsLogs.MergeLossless

/-!
The merge of parts with a drop filter. The merger first decides by the stream and the time range of a
block whether its rows have to be looked at, then row by row; in the end exactly the rows that the
filter selects are gone.
-/

namespace EsLogs

open NumberText List

/-- The fields of a row as a filter sees them: `_stream`, `_stream_id`, `_time` and the fields of the
row, the message under its own name. -/
def DropFilter.allFields (df : DropFilter) (sid : StreamID) (r : Row) : List Field :=
  [⟨ascii "_stream", df.streamString sid⟩, ⟨ascii "_stream_id", sid.marshalString⟩,
    ⟨ascii "_time", marshalTimestampRfc3339NanoString r.timestamp⟩] ++
    r.fields.map fun f => ⟨getCanonicalColumnName f.name, f.value⟩

/-- The rows a drop filter selects: those of its tenants or streams, in its time range, that its row
filter matches. -/
def DropFilter.deletes (df : DropFilter) (sid : StreamID) (r : Row) : Bool :=
  df.matchStreamId sid && (df.minTimestamp ≤ r.timestamp && r.timestamp ≤ df.maxTimestamp) &&
    df.matchRow (df.allFields sid r)

/-- The row filter reads no other fields than those it asks for. -/
def DropFilter.ReadsNeededOnly (df : DropFilter) : Prop :=
  ∀ fields : List Field, df.matchRow (fields.filter fun f => df.neededFields f.name) =
    df.matchRow fields

variable {df : DropFilter}

/-- What is shown to the row filter are the fields it asks for. -/
theorem DropFilter.tmpFields_eq_filter (sid : StreamID) (r : Row) :
    df.tmpFields (df.streamString sid) sid.marshalString r =
      (df.allFields sid r).filter fun f => df.neededFields f.name := by
  have hone : ∀ name value, df.fieldIfNeeded name value =
      [Field.mk (getCanonicalColumnName name) value].filter fun f => df.neededFields f.name := by
    intro name value
    rw [DropFilter.fieldIfNeeded, filter_singleton]
    simp only [Bool.cond_eq_ite]
  have hstream : getCanonicalColumnName (ascii "_stream") = ascii "_stream" := by decide
  have hstreamId : getCanonicalColumnName (ascii "_stream_id") = ascii "_stream_id" := by decide
  have htime : (if df.neededFields (ascii "_time") then
      [Field.mk (ascii "_time") (marshalTimestampRfc3339NanoString r.timestamp)] else []) =
      [Field.mk (ascii "_time") (marshalTimestampRfc3339NanoString r.timestamp)].filter
        fun f => df.neededFields f.name := by
    rw [filter_singleton]
    simp only [Bool.cond_eq_ite]
  have hfields : (r.fields.flatMap fun f => df.fieldIfNeeded f.name f.value) =
      (r.fields.map fun f => Field.mk (getCanonicalColumnName f.name) f.value).filter
        fun f => df.neededFields f.name := by
    induction r.fields with
    | nil => rfl
    | cons f fields ih =>
      rw [flatMap_cons, ih, hone, map_cons, ← singleton_append (l := List.map _ _),
        filter_append]
  rw [DropFilter.tmpFields, hone, hone, hstream, hstreamId, htime, hfields, ← filter_append,
    ← filter_append, ← filter_append]
  rfl

/-- The decision on one row agrees with the filter when the stream is selected. -/
theorem DropFilter.dropsRow_eq_deletes (hreads : df.ReadsNeededOnly) {sid : StreamID}
    (hsid : df.matchStreamId sid = true) (r : Row) :
    df.dropsRow (df.streamString sid) sid.marshalString r = df.deletes sid r := by
  rw [DropFilter.dropsRow, DropFilter.deletes, DropFilter.tmpFields_eq_filter, hreads, hsid,
    Bool.true_and, Bool.eq_iff_iff]
  simp only [Bool.and_eq_true, Bool.not_eq_true', Bool.or_eq_false_iff, decide_eq_false_iff_not,
    decide_eq_true_eq, not_lt, gt_iff_lt]

/-- The timestamps of a packed block lie between its bounds. -/
theorem BlockData.Packs.timestamp_bounds {codec : BlockCodec} {bd : BlockData} {b : Block}
    (h : bd.Packs codec b) {r : Row} (hr : r ∈ codec.rows bd) :
    bd.timestampsData.minTimestamp ≤ r.timestamp ∧
      r.timestamp ≤ bd.timestampsData.maxTimestamp := by
  have hmem : r.timestamp ∈ b.timestamps := by
    rw [← b.appendRowsTo_timestamps, ← h.rows_eq]
    exact mem_map_of_mem hr
  have hsorted := h.valid.sorted
  rw [h.min_eq, h.max_eq]
  refine ⟨?_, ?_⟩
  · cases hts : b.timestamps with
    | nil => exact absurd hts h.ne_nil
    | cons t ts =>
      rw [hts] at hmem hsorted
      cases mem_cons.1 hmem with
      | inl he => exact he.ge
      | inr hm => exact (pairwise_cons.1 hsorted).1 _ hm
  · obtain ⟨init, last, hts⟩ := (eq_nil_or_concat b.timestamps).resolve_left h.ne_nil
    rw [concat_eq_append] at hts
    rw [hts] at hmem hsorted ⊢
    rw [getLastD_concat]
    cases mem_append.1 hmem with
    | inl hm => exact (pairwise_append.1 hsorted).2.2 _ hm _ mem_cons_self
    | inr hm => exact (mem_singleton.1 hm).le

/-- Of the rows of a block, those with fields that the filter does not select are left. -/
theorem withFields_keptRows {codec : BlockCodec} {paths : String} (hreads : df.ReadsNeededOnly)
    {bd : BlockData} (hwf : bd.WellFormed codec) :
    withFields (keptRows ⟨codec, paths, some df⟩ bd) =
      withFields ((codec.rows bd).filter fun r => !df.deletes bd.streamId r) := by
  by_cases hdrop : bd.needsDrop ⟨codec, paths, some df⟩ = true
  · have hsid : df.matchStreamId bd.streamId = true := by
      simp only [BlockData.needsDrop, BlockStreamMerger.needDropRows, Bool.and_eq_true] at hdrop
      exact hdrop.1
    simp only [keptRows, hdrop, if_true]
    cases codec.rows bd with
    | nil => rfl
    | cons r rows =>
      simp only [DropFilter.skipRowsByDropFilter, df.dropsRow_eq_deletes hreads hsid]
      by_cases hr : df.deletes bd.streamId r = true
      · rw [if_pos hr, filter_cons_of_neg (by simp [hr])]
        rfl
      · rw [if_neg hr, filter_cons_of_pos (by simp [hr])]
  · rw [keptRows_eq_rows (Bool.eq_false_iff.2 hdrop)]
    obtain ⟨b, hb⟩ := hwf
    have hnone : ∀ r ∈ codec.rows bd, df.deletes bd.streamId r = false := by
      intro r hr
      have hbounds := hb.timestamp_bounds hr
      rw [Bool.eq_false_iff]
      intro hdel
      simp only [DropFilter.deletes, Bool.and_eq_true, decide_eq_true_eq] at hdel
      apply hdrop
      simp only [BlockData.needsDrop, BlockStreamMerger.needDropRows, DropFilter.matchTimeRange,
        Bool.and_eq_true, decide_eq_true_eq]
      exact ⟨hdel.1.1, hbounds.1.trans hdel.1.2.2, le_trans hdel.1.2.1 hbounds.2⟩
    have hall : (codec.rows bd).filter (fun r => !df.deletes bd.streamId r) = codec.rows bd :=
      filter_eq_self.2 fun r hr => by rw [hnone r hr]; rfl
    rw [hall]

theorem withFields_streamRows {f g : BlockData → List Row} {sid : StreamID} {bds : List BlockData}
    (h : ∀ bd ∈ bds, bd.streamId = sid → withFields (f bd) = withFields (g bd)) :
    withFields (streamRows f sid bds) = withFields (streamRows g sid bds) := by
  have happend : ∀ x y : List Row, withFields (x ++ y) = withFields x ++ withFields y := fun x y =>
    filter_append x y
  induction bds with
  | nil => rfl
  | cons bd bds ih =>
    rw [streamRows_cons, streamRows_cons, happend, happend,
      ih fun bd' hbd' => h bd' (mem_cons_of_mem _ hbd')]
    congr 1
    split_ifs with hsid
    · exact h bd mem_cons_self hsid
    · rfl

/-- For every set of well-formed block streams whose columns the codec restores and every drop filter, the merge
succeeds, and for every stream the rows with fields of the output are exactly the rows with fields of the input that
the filter does not select, each as often as in the input. -/
theorem mustMergeBlockStreams_drops_selected (codec : BlockCodec) (paths : String) (df : DropFilter)
    (hreads : df.ReadsNeededOnly) (bsrs : List (List BlockData))
    (hcodec : ∀ sid, codec.Lossless (streamRows codec.rows sid bsrs.flatten))
    (hwf : ∀ bds ∈ bsrs, WellFormedStream codec bds)
    (hsize : ∀ bd ∈ bsrs.flatten, bd.uncompressedSizeBytes < 2 * maxUncompressedBlockSize)
    (hfit : ∀ sid, ColumnsFit (streamRows codec.rows sid bsrs.flatten))
    (hstream : ∀ bd ∈ bsrs.flatten, df.matchStreamId bd.streamId = true →
      bd.streamId ≠ default ∧ Utf8.isValid (df.streamString bd.streamId) = true) :
    ∃ blocks, mustMergeBlockStreams ⟨codec, paths, some df⟩ bsrs = .ok blocks ∧
      ∀ sid, entries (withFields (streamRows codec.rows sid blocks)) =
        entries (withFields
          ((streamRows codec.rows sid bsrs.flatten).filter fun r => !df.deletes sid r)) := by
  have hblock : ∀ bd ∈ bsrs.flatten, ∃ bds ∈ bsrs, bd ∈ bds := fun bd hbd =>
    mem_flatten.1 hbd
  have hmergeable : ∀ bd ∈ bsrs.flatten, bd.Mergeable ⟨codec, paths, some df⟩
      fun sid => streamRows codec.rows sid bsrs.flatten := by
    intro bd hbd
    have h := mergeable_of_wellFormed paths hwf hfit bd hbd
    refine ⟨h.well_formed, h.fits, fun df' hdf' hdrop => ?_⟩
    cases hdf'
    have hsid : df.matchStreamId bd.streamId = true := by
      simp only [BlockData.needsDrop, BlockStreamMerger.needDropRows, Bool.and_eq_true] at hdrop
      exact hdrop.1
    exact ⟨(hstream bd hbd hsid).1, (hstream bd hbd hsid).2, hsize bd hbd⟩
  obtain ⟨blocks, hrun, hkeeps, -⟩ := mustMergeBlockStreams_spec ⟨codec, paths, some df⟩ hcodec
    hmergeable (fun bds hbds => (hwf bds hbds).sorted) (fun bd hbd => by
      obtain ⟨bds, hbds, hmem⟩ := hblock bd hbd
      exact (hwf bds hbds).first bd hmem)
  refine ⟨blocks, hrun, fun sid => ?_⟩
  refine (hkeeps sid).with_fields.trans (congrArg entries ?_)
  nth_rewrite 2 [streamRows]
  rw [filter_flatMap]
  refine withFields_streamRows fun bd hbd hsid => ?_
  obtain ⟨bds, hbds, hmem⟩ := hblock bd hbd
  rw [← hsid]
  exact withFields_keptRows hreads ((hwf bds hbds).well_formed bd hmem)

/-! ### Samples -/

/-- Deletes the rows of the tenant 1:0 with the level `info`. -/
def sampleDrop : DropFilter where
  tenantIds := [⟨1, 0⟩]
  streamIds := []
  minTimestamp := 0
  maxTimestamp := 10
  matchRow fields := fields.any (· = ⟨ascii "level", ascii "info"⟩)
  neededFields name := name = ascii "level"
  streamString _ := ascii "\x7bapp=\"a\"\x7d"

theorem sampleDrop_readsNeededOnly : sampleDrop.ReadsNeededOnly := by
  intro fields
  show (List.filter _ fields).any _ = fields.any _
  rw [any_filter]
  congr 1
  funext f
  by_cases h : f = ⟨ascii "level", ascii "info"⟩
  · simp [h, sampleDrop]
  · simp [h]

/-- Merging two parts with one row each, the first of which is deleted. -/
theorem mustMergeBlockStreams_drops_sample :
    ∃ blocks, mustMergeBlockStreams ⟨plainCodec, "", some sampleDrop⟩
        (sampleRows.map fun r => [rowBlock r]) = .ok blocks ∧
      ∀ sid, entries (withFields (streamRows plainCodec.rows sid blocks)) =
        entries (withFields ((streamRows plainCodec.rows sid
          (sampleRows.map fun r => [rowBlock r]).flatten).filter
            fun r => !sampleDrop.deletes sid r)) := by
  refine mustMergeBlockStreams_drops_selected plainCodec "" sampleDrop
    sampleDrop_readsNeededOnly _ (fun _ => plainCodec_lossless _) (wellFormedStream_rowBlocks sampleRows_small)
    (by decide) (columnsFit_rowBlocks sampleRows_small (by unfold ColumnsFit; decide)) (fun bd hbd _ => ?_)
  obtain ⟨bds, hbds, hmem⟩ := mem_flatten.1 hbd
  obtain ⟨r, _, rfl⟩ := mem_map.1 hbds
  have hsid : bd.streamId = sampleStream := by rw [mem_singleton.1 hmem]; rfl
  rw [hsid]
  exact ⟨by decide, by decide⟩

def noDrop : DropFilter := { sampleDrop with tenantIds := [] }

/-- Although the filter selects nothing, two field-less rows are lost. -/
theorem mustMergeBlockStreams_drops_unselected :
    (∀ input, plainCodec.Lossless input) ∧ noDrop.ReadsNeededOnly ∧
      (∀ bds ∈ fieldlessRows.map fun r => [rowBlock r], WellFormedStream plainCodec bds) ∧
      (∀ sid, ColumnsFit (streamRows plainCodec.rows sid
        (fieldlessRows.map fun r => [rowBlock r]).flatten)) ∧
      ¬∃ blocks, mustMergeBlockStreams ⟨plainCodec, "", some noDrop⟩
          (fieldlessRows.map fun r => [rowBlock r]) = .ok blocks ∧
        ∀ sid, entries ((streamRows plainCodec.rows sid
            (fieldlessRows.map fun r => [rowBlock r]).flatten).filter
              fun r => !noDrop.deletes sid r) ≤
          entries (streamRows plainCodec.rows sid blocks) := by
  refine ⟨plainCodec_lossless, sampleDrop_readsNeededOnly, wellFormedStream_rowBlocks fieldlessRows_small,
    columnsFit_rowBlocks fieldlessRows_small (by unfold ColumnsFit; decide),
    fun ⟨blocks, hrun, hall⟩ => ?_⟩
  have hnothing : mustMergeBlockStreams ⟨plainCodec, "", some noDrop⟩
      (fieldlessRows.map fun r => [rowBlock r]) = .ok [] := rfl
  cases hnothing.symm.trans hrun
  have hcard := Multiset.card_le_card (hall sampleStream)
  rw [streamRows_rowBlocks fieldlessRows_small, if_pos rfl] at hcard
  exact absurd hcard (by decide)

end EsLogs
