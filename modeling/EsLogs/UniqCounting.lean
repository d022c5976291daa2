import EsLogs.PipeUniq

/-!
What the workers of a `uniq` pipe count. Whatever the types of the columns, a block adds the keys of its rows
to the map of its shard, so a shard knows the rows of all its blocks until it stops.
-/

namespace EsLogs.Uniq

open NumberText ColumnValues Encoding Hits List

variable {c : Float64Codec} {needHits : Bool} {m : HitsMap} {rows : List Key}

variable {d vs texts : List Bytes} {vt : ValueType} {read : Bytes → Nat} {p : PipeUniq} {br : BlockResult}
  {exact : Bool}

/-! ### Texts of a single field -/

/-- The keys of the values that pass a filter. -/
def filteredKeys (filter : Bytes) (values : List Bytes) : List Key :=
  (values.filter fun v => filter.isEmpty || decide (filter <:+: v)).map genericKey

theorem filteredKeys_nil (values : List Bytes) : filteredKeys [] values = values.map genericKey := by
  simp [filteredKeys]

theorem filteredKeys_cons (filter v : Bytes) (values : List Bytes) :
    filteredKeys filter (v :: values) = filteredKeys filter [v] ++ filteredKeys filter values := by
  rw [filteredKeys, filteredKeys, filteredKeys, ← map_append, ← filter_append, singleton_append]

/-- What one update of `update_state_generic` adds. -/
theorem tracks_updateStateGeneric (h : Tracks needHits m rows) (v : Bytes) (hits : Nat) (hpos : 0 < hits) :
    Tracks needHits (m.updateStateGeneric v hits) (rows ++ filteredKeys m.filter (List.replicate hits v)) := by
  have hpred : (fun v => m.filter.isEmpty || decide (m.filter <:+: v)) = m.passesFilter := rfl
  rw [HitsMap.updateStateGeneric, filteredKeys, hpred]
  by_cases hpass : m.passesFilter v = true
  · rw [filter_replicate_of_pos hpass, map_replicate, hpass]
    exact h.add (genericKey v) hpos
  · rw [filter_replicate_of_neg hpass, Bool.eq_false_iff.2 hpass]
    simpa using h

theorem filter_updateStateGeneric (m : HitsMap) (v : Bytes) (hits : Nat) :
    (m.updateStateGeneric v hits).filter = m.filter := by
  rw [HitsMap.updateStateGeneric]
  split_ifs
  · rfl
  · exact m.filter_add _ _

/-- An update for each value. -/
theorem tracks_foldl_generic (values : List Bytes) (h : Tracks needHits m rows) :
    Tracks needHits (values.foldl (fun m v => m.updateStateGeneric v 1) m) (rows ++ filteredKeys m.filter values) ∧
      (values.foldl (fun m v => m.updateStateGeneric v 1) m).filter = m.filter := by
  induction values generalizing m rows with
  | nil => exact ⟨by simpa [filteredKeys] using h, rfl⟩
  | cons v values ih =>
    have hstep := tracks_updateStateGeneric h v 1 Nat.one_pos
    obtain ⟨htracks, hfilter⟩ := ih hstep
    rw [filter_updateStateGeneric] at htracks hfilter
    rw [append_assoc] at htracks
    rw [filteredKeys_cons]
    exact ⟨htracks, hfilter⟩

/-- The loop that skips a value equal to the one before: the key of that one is known. -/
theorem tracks_genericLoop (hneed : exact = true → needHits = true) (values : List Bytes)
    (prev : Option Bytes) (h : Tracks exact m rows)
    (hprev : ∀ v, prev = some v → ∀ k ∈ filteredKeys m.filter [v], k ∈ rows) :
    Tracks exact (genericLoop needHits prev values m) (rows ++ filteredKeys m.filter values) ∧
      (genericLoop needHits prev values m).filter = m.filter := by
  induction values generalizing m rows prev with
  | nil => exact ⟨by simpa [filteredKeys, genericLoop] using h, rfl⟩
  | cons v values ih =>
    rw [genericLoop, filteredKeys_cons, ← append_assoc]
    have hknown : ∀ v', some v = some v' → ∀ k ∈ filteredKeys m.filter [v'],
        k ∈ rows ++ filteredKeys m.filter [v] := by
      rintro v' ⟨⟩ k hk
      exact mem_append_right _ hk
    by_cases hupdate : (needHits || decide (prev ≠ some v)) = true
    · rw [if_pos hupdate]
      have hstep := tracks_updateStateGeneric h v 1 Nat.one_pos
      have hfilter := filter_updateStateGeneric m v 1
      obtain ⟨htracks, hfilter'⟩ := ih (some v) hstep (by rwa [hfilter])
      rw [hfilter] at htracks hfilter'
      exact ⟨htracks, hfilter'⟩
    · rw [if_neg hupdate]
      rw [Bool.or_eq_true, not_or, decide_eq_true_eq, not_not] at hupdate
      obtain ⟨hno, rfl⟩ := hupdate
      have hexact : exact = false := Bool.eq_false_iff.2 fun he => hno (hneed he)
      have hstep : Tracks exact m (rows ++ filteredKeys m.filter [v]) := by
        cases hkeys : filteredKeys m.filter [v] with
        | nil => simpa using h
        | cons k ks =>
          have hlen : (filteredKeys m.filter [v]).length ≤ 1 := by
            rw [filteredKeys, length_map]
            exact length_filter_le _ _
          obtain rfl : ks = [] := by
            rw [hkeys, length_cons] at hlen
            exact length_eq_zero_iff.1 (by omega)
          exact h.skip hexact (hprev v rfl k (by simp [hkeys]))
      exact ih (some v) hstep hknown

/-! ### Typed columns -/

theorem uintReader_lt (h : uintReader vt = some read) (v : Bytes) : read v < 2 ^ 64 := by
  have hbound : ∀ w ≤ 8, beNat (v.take w) < 2 ^ 64 := by
    intro w hw
    calc beNat (v.take w) < 256 ^ w := beNat_take_lt w v
      _ ≤ 256 ^ 8 := Nat.pow_le_pow_right (by omega) hw
      _ = 2 ^ 64 := by norm_num
  cases vt <;> cases h
  · exact hbound 1 (by omega)
  · exact hbound 2 (by omega)
  · exact hbound 4 (by omega)
  · exact hbound 8 (by omega)

/-- The text of a value of an unsigned column is that of its number. -/
theorem decodeValue_uintReader (h : uintReader vt = some read)
    {d : List Bytes} {v t : Bytes} (hv : decodeValue c vt d v = .ok t) : t = marshalUint64String (read v) := by
  cases vt <;> cases h
  · have hbyte : beNat (v.take 1) < 256 := beNat_take_lt 1 v
    exact (checkLen_bind_eq_ok hv).trans (marshalUint8String_eq hbyte)
  · exact checkLen_bind_eq_ok hv
  · exact checkLen_bind_eq_ok hv
  · exact checkLen_bind_eq_ok hv

/-- Reading the numbers of a typed column and decoding its texts are the same updates. -/
theorem foldl_typed_eq (hdec : vs.mapM (decodeValue c vt d) = .ok texts) (update : HitsMap → Bytes → HitsMap)
    (heq : ∀ m v t, decodeValue c vt d v = .ok t → update m v = m.updateStateGeneric t 1) (m : HitsMap) :
    vs.foldl update m = texts.foldl (fun m v => m.updateStateGeneric v 1) m := by
  rw [outcome_mapM_eq_ok_iff] at hdec
  induction vs generalizing texts m with
  | nil =>
    cases texts with
    | nil => rfl
    | cons t texts => cases hdec
  | cons v vs ih =>
    cases texts with
    | nil => cases hdec
    | cons t texts =>
      rw [map_cons, map_cons, List.cons.injEq] at hdec
      rw [foldl_cons, foldl_cons, heq m v t hdec.1]
      exact ih hdec.2 _

theorem foldl_uint_eq (hread : uintReader vt = some read)
    (hdec : vs.mapM (decodeValue c vt d) = .ok texts) (m : HitsMap) :
    vs.foldl (fun m v => m.updateStateUint64 (read v) 1) m = texts.foldl (fun m v => m.updateStateGeneric v 1) m := by
  apply foldl_typed_eq hdec
  intro m v t ht
  rw [decodeValue_uintReader hread ht]
  exact m.updateStateUint64_eq 1 (uintReader_lt hread v)

theorem foldl_int64_eq (hdec : vs.mapM (decodeValue c .int64 d) = .ok texts) (m : HitsMap) :
    vs.foldl (fun m v => m.updateStateInt64 (unmarshalInt64 v) 1) m =
      texts.foldl (fun m v => m.updateStateGeneric v 1) m := by
  apply foldl_typed_eq hdec
  intro m v t ht
  obtain rfl : t = marshalInt64String (unmarshalInt64 v) := checkLen_bind_eq_ok ht
  obtain ⟨hlo, hhi⟩ := unmarshalInt64_range v
  exact m.updateStateInt64_eq 1 hlo hhi

/-- `update_single_column` adds the keys of the texts of the column. -/
theorem updateSingleColumn_spec (hbr : br.Valid c) (hrows : br.rowsLen ≠ 0) (hneed : exact = true → needHits = true) (h : Tracks exact m rows) (columnName : Bytes) :
    ∃ m', updateSingleColumn c needHits m br columnName = .ok m' ∧ m'.filter = m.filter ∧
      Tracks exact m' (rows ++ filteredKeys m.filter (br.valuesOf c columnName)) := by
  obtain ⟨column, hcol, hcontent⟩ := hbr.col_getColumnByName columnName
  have hvalues := hbr.values_eq columnName
  have hget := hbr.columnGetValues columnName
  obtain ⟨hloop, hloopFilter⟩ := tracks_genericLoop hneed (br.valuesOf c columnName) none h
    (fun v hv => by cases hv)
  unfold updateSingleColumn
  dsimp only
  rw [hcol, except_ok_bind]
  rw [hcontent]
  cases hc : br.contentOf columnName with
  | const v =>
    rw [hc] at hvalues
    obtain hv : List.replicate br.rowsLen v = br.valuesOf c columnName := Except.ok.inj hvalues
    dsimp only
    rw [← hv, BlockResult.rowsLen_getColumnByName]
    exact ⟨_, rfl, filter_updateStateGeneric m v _, tracks_updateStateGeneric h v _ (Nat.pos_of_ne_zero hrows)⟩
  | time =>
    dsimp only
    rw [hget]
    exact ⟨_, rfl, hloopFilter, hloop⟩
  | encoded vt d vs =>
    rw [hc] at hvalues
    dsimp only
    obtain ⟨hfold, hfoldFilter⟩ := tracks_foldl_generic (br.valuesOf c columnName) h
    cases hread : uintReader vt with
    | some read =>
      refine ⟨_, rfl, ?_⟩
      rw [foldl_uint_eq hread hvalues]
      exact ⟨hfoldFilter, hfold⟩
    | none =>
      dsimp only
      split_ifs with hint
      · subst hint
        refine ⟨_, rfl, ?_⟩
        rw [foldl_int64_eq hvalues]
        exact ⟨hfoldFilter, hfold⟩
      · rw [hget]
        exact ⟨_, rfl, hloopFilter, hloop⟩

/-! ### Several fields -/

def tupleKey (row : List Bytes) : Key := .str (row.flatMap marshalBytes)

theorem columnValues_eq (fields : List Bytes) (hbr : br.Valid c) :
    columnValues c fields br = .ok (fields.map (br.valuesOf c)) := by
  induction fields generalizing br with
  | nil => rfl
  | cons f fields ih =>
    have hrest : fields.map ((br.getColumnByName f).1.valuesOf c) = fields.map (br.valuesOf c) :=
      map_congr_left fun g _ => br.valuesOf_getColumnByName f g
    rw [columnValues, hbr.columnGetValues, except_ok_bind, ih (hbr.getColumnByName f), except_ok_bind, hrest]
    rfl

theorem eq_of_seen {prev row : List Bytes} (hlen : prev.length = row.length)
    (h : seen needHits (some prev) row = true) : prev = row ∧ (needHits = true → row = []) := by
  rw [seen, all_eq_true] at h
  induction prev generalizing row with
  | nil =>
    obtain rfl : row = [] := length_eq_zero_iff.1 hlen.symm
    exact ⟨rfl, fun _ => rfl⟩
  | cons a prev ih =>
    cases row with
    | nil => cases hlen
    | cons b row =>
      have hab := h (a, b) (by simp)
      simp only [Bool.and_eq_true, Bool.not_eq_true', decide_eq_true_eq] at hab
      obtain ⟨heq, -⟩ := ih (Nat.succ.inj hlen) fun v hv => h v (mem_cons_of_mem _ hv)
      refine ⟨by rw [hab.2, heq], fun hneed => ?_⟩
      rw [hneed] at hab
      cases hab.1

/-- The loop over the rows; a row that is skipped has the key of the row before. -/
theorem tracks_rowsLoop {w : Nat} (hneed : exact = true → needHits = true ∧ w ≠ 0)
    (tuples : List (List Bytes)) (hw : ∀ row ∈ tuples, row.length = w) (prev : Option (List Bytes))
    (h : Tracks exact m rows) (hprev : ∀ row, prev = some row → row.length = w ∧ tupleKey row ∈ rows) :
    Tracks exact (rowsLoop needHits prev tuples m) (rows ++ tuples.map tupleKey) ∧
      (rowsLoop needHits prev tuples m).filter = m.filter := by
  induction tuples generalizing m rows prev with
  | nil => exact ⟨by simpa [rowsLoop] using h, rfl⟩
  | cons row tuples ih =>
    have hrow : row.length = w := hw row mem_cons_self
    have hrest := fun r hr => hw r (mem_cons_of_mem row hr)
    have hknown : ∀ r, some row = some r → r.length = w ∧ tupleKey r ∈ rows ++ [tupleKey row] := by
      rintro r ⟨⟩
      exact ⟨hrow, by simp⟩
    rw [rowsLoop, map_cons, append_cons]
    by_cases hseen : seen needHits prev row = true
    · rw [if_pos hseen]
      cases prev with
      | none => cases hseen
      | some r =>
        obtain ⟨hr, hrkey⟩ := hprev r rfl
        obtain ⟨rfl, hempty⟩ := eq_of_seen (hr.trans hrow.symm) hseen
        have hexact : exact = false := by
          refine Bool.eq_false_iff.2 fun he => ?_
          obtain ⟨hn, hw0⟩ := hneed he
          rw [hempty hn] at hrow
          exact hw0 hrow.symm
        exact ih hrest (some r) (h.skip hexact hrkey) hknown
    · rw [if_neg hseen]
      have hstep : Tracks exact (m.updateStateString (row.flatMap marshalBytes) 1) (rows ++ [tupleKey row]) :=
        h.add (tupleKey row) Nat.one_pos
      obtain ⟨htracks, hfilter⟩ := ih hrest (some row) hstep hknown
      exact ⟨htracks, hfilter.trans (m.filter_add _ _)⟩

/-! ### Blocks -/

def PipeUniq.tuples (p : PipeUniq) (c : Float64Codec) (br : BlockResult) : List (List Bytes) :=
  (List.range br.rowsLen).map (rowAt (p.byFields.map (br.valuesOf c)))

def PipeUniq.rowKeys (p : PipeUniq) (c : Float64Codec) (br : BlockResult) : List Key :=
  match p.byFields with
  | [columnName] => filteredKeys p.filter (br.valuesOf c columnName)
  | _ => (p.tuples c br).map tupleKey

theorem rowKeys_single {columnName : Bytes} (h : p.byFields = [columnName]) (br : BlockResult) :
    p.rowKeys c br = filteredKeys p.filter (br.valuesOf c columnName) := by
  rw [PipeUniq.rowKeys, h]

theorem rowKeys_many (h : ∀ columnName, p.byFields ≠ [columnName]) (br : BlockResult) :
    p.rowKeys c br = (p.tuples c br).map tupleKey := by
  unfold PipeUniq.rowKeys
  split
  · rename_i columnName hfields
    exact absurd hfields (h columnName)
  · rfl

/-- Whether the hits are the numbers of the rows. -/
def PipeUniq.counts (p : PipeUniq) : Bool := p.needHits && !p.byFields.isEmpty

/-- Whether a map has more entries than the limit. -/
def PipeUniq.Full (p : PipeUniq) (m : HitsMap) : Prop := p.limit > 0 ∧ m.entriesCount > p.limit

theorem writeBlockInto_of_full (hfull : p.Full m) (br : BlockResult) :
    p.writeBlockInto c m br = .ok (m, false) := if_pos hfull

theorem writeBlockInto_spec (hfull : ¬p.Full m) (hbr : br.Valid c)
    (hrows : br.rowsLen ≠ 0) (hfilter : m.filter = p.filter) (h : Tracks p.counts m rows) :
    ∃ m', p.writeBlockInto c m br = .ok (m', true) ∧ m'.filter = p.filter ∧
      Tracks p.counts m' (rows ++ p.rowKeys c br) := by
  have hneed : p.counts = true → p.needHits = true := fun hc => (Bool.and_eq_true_iff.1 hc).1
  -- the path for any number of fields but one
  have hmany : ∃ m', (do
        let colValues ← columnValues c p.byFields br
        return (rowsLoop p.needHits none ((List.range br.rowsLen).map (rowAt colValues)) m, true) :
          Outcome (HitsMap × Bool)) = .ok (m', true) ∧ m'.filter = p.filter ∧
      Tracks p.counts m' (rows ++ (p.tuples c br).map tupleKey) := by
    rw [columnValues_eq _ hbr, except_ok_bind]
    have hwidth : ∀ row ∈ p.tuples c br, row.length = p.byFields.length := by
      intro row hrow
      obtain ⟨i, -, rfl⟩ := mem_map.1 hrow
      simp [rowAt]
    have hneed' : p.counts = true → p.needHits = true ∧ p.byFields.length ≠ 0 := by
      intro hc
      obtain ⟨hn, hb⟩ := Bool.and_eq_true_iff.1 hc
      refine ⟨hn, fun h0 => ?_⟩
      rw [length_eq_zero_iff.1 h0] at hb
      cases hb
    obtain ⟨htracks, hf⟩ := tracks_rowsLoop hneed' (p.tuples c br) hwidth none h (fun row hrow => by cases hrow)
    exact ⟨_, rfl, hf.trans hfilter, htracks⟩
  unfold PipeUniq.writeBlockInto
  rw [if_neg (show ¬(p.limit > 0 ∧ m.entriesCount > p.limit) from hfull)]
  split
  · rename_i columnName hfields
    rw [rowKeys_single hfields]
    obtain ⟨m', hm', hf, htracks⟩ := updateSingleColumn_spec hbr hrows hneed h columnName
    rw [hm', except_ok_bind]
    rw [hfilter] at hf htracks
    exact ⟨m', rfl, hf, htracks⟩
  · rename_i hfields
    rw [rowKeys_many hfields]
    exact hmany

end EsLogs.Uniq
