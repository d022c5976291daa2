import EsLogs.BlockStreamMerger

/-!
The two vectors of `Rows` (`rows.rs`). Merging two of them and deleting rows in place do with the vectors
what the models on lists of rows do, so every row keeps its timestamp.
-/

namespace EsLogs

open List

structure Rows where
  timestamps : List Int
  rows : List (List Field)
  paired : timestamps.length = rows.length

namespace Rows

def toRows (rs : Rows) : List Row := (rs.timestamps.zip rs.rows).map fun p => ⟨p.1, p.2⟩

def appendRows (rs a : Rows) : Rows where
  timestamps := rs.timestamps ++ a.timestamps
  rows := rs.rows ++ a.rows
  paired := by rw [length_append, length_append, rs.paired, a.paired]

def take (a : Rows) (i : Nat) : Rows := ⟨a.timestamps.take i, a.rows.take i, by simp [a.paired]⟩

def drop (a : Rows) (i : Nat) : Rows := ⟨a.timestamps.drop i, a.rows.drop i, by simp [a.paired]⟩

/-- The loop of `merge_rows` with what follows it. -/
def mergeRowsLoop : Nat → Rows → Rows → Rows → Rows
  | 0, rs, _, _ => rs
  | fuel + 1, rs, a, b =>
    match b.timestamps with
    | [] => rs.appendRows a
    | minTimestamp :: _ =>
      if a.timestamps.isEmpty then rs.appendRows b
      else
        let i := (a.timestamps.takeWhile (· ≤ minTimestamp)).length
        mergeRowsLoop fuel (rs.appendRows (a.take i)) b (a.drop i)

def mergeRows (rs a b : Rows) : Rows :=
  mergeRowsLoop (a.timestamps.length + b.timestamps.length + 1) rs a b

def swap {α : Type} (l : List α) (i j : Nat) : List α :=
  match l[i]?, l[j]? with
  | some a, some b => (l.set i b).set j a
  | _, _ => l

/-- The loop of `skip_rows_by_drop_filter` from the index `i` on, for `n` rows, with the write cursor. -/
def skipLoop (df : DropFilter) (stream streamId : Bytes) (offset : Nat) :
    Nat → Nat → Rows → Nat → Outcome Rows
  | _, 0, rs, w => .ok (rs.take w)
  | i, n + 1, rs, w =>
    match rs.timestamps[offset + i]?, rs.rows[offset + i]? with
    | some t, some fields =>
      if ¬df.dropsRow stream streamId ⟨t, fields⟩ then
        skipLoop df stream streamId offset (i + 1) n ⟨rs.timestamps.set w t,
          swap rs.rows w (offset + i), by rw [length_set, swap]; split <;> simp [rs.paired]⟩ (w + 1)
      else if i = 0 then
        skipLoop df stream streamId offset (i + 1) n
          ⟨rs.timestamps.set w t, rs.rows.set w [], by simp [rs.paired]⟩ (w + 1)
      else skipLoop df stream streamId offset (i + 1) n rs w
    | _, _ => .error (.panic "index out of bounds")

def skipRowsByDropFilter (rs : Rows) (df : DropFilter) (offset : Nat) (stream streamId : Bytes) :
    Outcome Rows :=
  if rs.timestamps.length < offset then .error (.panic "attempt to subtract with overflow")
  else skipLoop df stream streamId offset 0 (rs.timestamps.length - offset) rs offset

/-! ### The rows of the vectors -/

theorem map_timestamp (rs : Rows) : rs.toRows.map Row.timestamp = rs.timestamps := by
  rw [toRows, map_map]
  exact map_fst_zip rs.paired.le

theorem map_fields (rs : Rows) : rs.toRows.map Row.fields = rs.rows := by
  rw [toRows, map_map]
  exact map_snd_zip rs.paired.ge

theorem toRows_eq {rs : Rows} {l : List Row} (hts : rs.timestamps = l.map Row.timestamp)
    (hrows : rs.rows = l.map Row.fields) : rs.toRows = l := by
  rw [toRows, hts, hrows, zip_map', map_map]
  exact map_id l

theorem toRows_appendRows (rs a : Rows) : (rs.appendRows a).toRows = rs.toRows ++ a.toRows := by
  apply toRows_eq
  · rw [map_append, map_timestamp, map_timestamp, appendRows]
  · rw [map_append, map_fields, map_fields, appendRows]

theorem toRows_take (a : Rows) (i : Nat) : (a.take i).toRows = a.toRows.take i := by
  apply toRows_eq
  · rw [map_take, map_timestamp, take]
  · rw [map_take, map_fields, take]

theorem toRows_drop (a : Rows) (i : Nat) : (a.drop i).toRows = a.toRows.drop i := by
  apply toRows_eq
  · rw [map_drop, map_timestamp, drop]
  · rw [map_drop, map_fields, drop]

/-! ### Merging -/

theorem toRows_mergeRowsLoop (fuel : Nat) (rs a b : Rows) : (mergeRowsLoop fuel rs a b).toRows =
    rs.toRows ++ EsLogs.mergeRowsLoop fuel a.toRows b.toRows := by
  induction fuel generalizing rs a b with
  | zero => exact (append_nil _).symm
  | succ fuel ih =>
    rw [mergeRowsLoop, ← b.map_timestamp]
    cases hb : b.toRows with
    | nil => exact toRows_appendRows rs a
    | cons s l =>
      have hrun := takeWhile_append_dropWhile (p := fun r : Row => decide (r.timestamp ≤ s.timestamp))
        (l := a.toRows)
      have htake := congrArg (List.take (a.toRows.takeWhile (·.timestamp ≤ s.timestamp)).length) hrun
      have hdrop := congrArg (List.drop (a.toRows.takeWhile (·.timestamp ≤ s.timestamp)).length) hrun
      rw [take_left] at htake
      rw [drop_left] at hdrop
      rw [EsLogs.mergeRowsLoop, ← a.map_timestamp, isEmpty_map, map_cons]
      dsimp only
      split_ifs
      · rw [toRows_appendRows, hb]
      · rw [ih, toRows_appendRows, toRows_take, toRows_drop, takeWhile_map, length_map, hb, append_assoc]
        exact congrArg₂ (fun x y => rs.toRows ++ (x ++ EsLogs.mergeRowsLoop fuel (s :: l) y))
          htake.symm hdrop.symm

/-- Two sorted lists of rows are appended as one, without a change of the order in either. -/
theorem mergeRows_merges (rs : Rows) {a b : Rows} (ha : SortedRows a.toRows) (hb : SortedRows b.toRows) :
    ∃ merged, (rs.mergeRows a b).toRows = rs.toRows ++ merged ∧ SortedRows merged ∧
      merged.Perm (a.toRows ++ b.toRows) ∧ Interleaves a.toRows b.toRows merged := by
  have hinter := mergeRows_interleaves a.toRows b.toRows
  refine ⟨EsLogs.mergeRows a.toRows b.toRows, ?_, mergeRows_sorted ha hb, hinter.perm, hinter⟩
  rw [mergeRows, toRows_mergeRowsLoop, EsLogs.mergeRows, ← map_timestamp a, ← map_timestamp b, length_map,
    length_map]

theorem mergeRows_merges_equal : ∃ merged, (mergeRows ⟨[], [], rfl⟩ ⟨[1, 2], [[], []], rfl⟩
      ⟨[2, 3], [[⟨[97], [98]⟩], []], rfl⟩).toRows = [] ++ merged ∧ SortedRows merged ∧
    merged.Perm ([⟨1, []⟩, ⟨2, []⟩] ++ [⟨2, [⟨[97], [98]⟩]⟩, ⟨3, []⟩]) ∧
    Interleaves [⟨1, []⟩, ⟨2, []⟩] [⟨2, [⟨[97], [98]⟩]⟩, ⟨3, []⟩] merged :=
  mergeRows_merges ⟨[], [], rfl⟩ (a := ⟨[1, 2], [[], []], rfl⟩) (b := ⟨[2, 3], [[⟨[97], [98]⟩], []], rfl⟩)
    (by simp [SortedRows, toRows]) (by simp [SortedRows, toRows])

/-! ### Deleting in place -/

/-- A vector in the middle of the loop: the part of the rows so far, `n` places to write over, and that of
the rows to come. -/
def Gapped {β : Type} (f : Row → β) (l : List β) (done : List Row) (n : Nat) (todo : List Row) : Prop :=
  ∃ gap, gap.length = n ∧ l = done.map f ++ (gap ++ todo.map f)

namespace Gapped

variable {β : Type} {f : Row → β} {l : List β} {done todo : List Row} {n : Nat} {r : Row}

theorem getElem? (h : Gapped f l done n (r :: todo)) : l[done.length + n]? = some (f r) := by
  obtain ⟨gap, rfl, rfl⟩ := h
  rw [← length_map f, ← append_assoc, ← length_append]
  simp

theorem set (h : Gapped f l done n (r :: todo)) {s : Row} {b : β} (hb : b = f s) :
    Gapped f (l.set done.length b) (done ++ [s]) n todo := by
  obtain ⟨gap, rfl, rfl⟩ := h
  rw [hb, ← length_map f]
  cases gap with
  | nil => exact ⟨[], rfl, by simp⟩
  | cons x gap => exact ⟨gap ++ [f r], by simp, by simp⟩

theorem swap (h : Gapped f l done n (r :: todo)) :
    Gapped f (Rows.swap l done.length (done.length + n)) (done ++ [r]) n todo := by
  rw [Rows.swap, h.getElem?]
  obtain ⟨gap, rfl, rfl⟩ := h
  rw [← length_map f]
  cases gap with
  | nil => exact ⟨[], rfl, by simp⟩
  | cons x gap => exact ⟨gap ++ [x], by simp, by simp [set_append_right]⟩

theorem pass (h : Gapped f l done n (r :: todo)) : Gapped f l done (n + 1) todo := by
  obtain ⟨gap, rfl, rfl⟩ := h
  exact ⟨gap ++ [f r], by simp, by simp⟩

theorem take_eq (h : Gapped f l done n []) : l.take done.length = done.map f := by
  obtain ⟨gap, rfl, rfl⟩ := h
  exact take_left' (length_map f)

end Gapped

variable (df : DropFilter) (stream streamId : Bytes) {offset i n : Nat} {rs : Rows} {done todo : List Row}
  {r : Row}

/-- What becomes of the row at the index `i`. -/
def kept (i : Nat) (r : Row) : List Row :=
  if ¬df.dropsRow stream streamId r then [r] else if i = 0 then [⟨r.timestamp, []⟩] else []

theorem skipLoop_spec (hts : Gapped Row.timestamp rs.timestamps done n todo)
    (hrows : Gapped Row.fields rs.rows done n todo) (hi : offset + i = done.length + n) :
    ∃ rs', skipLoop df stream streamId offset i todo.length rs done.length = .ok rs' ∧
      rs'.toRows = done ++ (todo.zipIdx i).flatMap fun p => kept df stream streamId p.2 p.1 := by
  induction todo generalizing rs done n i with
  | nil =>
    rw [zipIdx_nil, flatMap_nil, append_nil]
    exact ⟨_, rfl, toRows_eq hts.take_eq hrows.take_eq⟩
  | cons r todo ih =>
    have htime := hts.getElem?
    have hfields := hrows.getElem?
    have hswap := hrows.swap
    rw [← hi] at htime hfields hswap
    rw [length_cons, skipLoop, htime, hfields, zipIdx_cons, flatMap_cons, ← append_assoc]
    dsimp only
    have hlen : ∀ s : Row, (done ++ [s]).length = done.length + 1 := fun s => length_append
    rw [kept]
    split_ifs with hdrop hfirst
    · rw [← hlen ⟨r.timestamp, []⟩]
      exact ih (hts.set rfl) (hrows.set rfl) (by rw [hlen]; omega)
    · rw [append_nil]
      exact ih hts.pass hrows.pass (by omega)
    · rw [← hlen r]
      exact ih (hts.set rfl) hswap (by rw [hlen]; omega)

/-- Only the first row leaves something behind. -/
theorem flatMap_kept (rows : List Row) : (rows.zipIdx.flatMap fun p => kept df stream streamId p.2 p.1) =
    df.skipRowsByDropFilter stream streamId rows := by
  have hrest : ∀ (l : List Row) (i : Nat), ((l.zipIdx (i + 1)).flatMap fun p => kept df stream streamId p.2 p.1) =
      l.filter fun s => !df.dropsRow stream streamId s := by
    intro l
    induction l with
    | nil => exact fun _ => rfl
    | cons s l ih =>
      intro i
      rw [zipIdx_cons, flatMap_cons, ih, filter_cons, kept, if_neg (Nat.succ_ne_zero i)]
      cases df.dropsRow stream streamId s <;> rfl
  cases rows with
  | nil => rfl
  | cons r rows =>
    rw [zipIdx_cons, flatMap_cons, hrest, DropFilter.skipRowsByDropFilter, kept, if_pos rfl]
    cases df.dropsRow stream streamId r <;> rfl

/-- The rows before the offset stay, and those after it are filtered; an offset behind the end panics. -/
theorem skipRowsByDropFilter_exact (rs : Rows) (offset : Nat) :
    if offset ≤ rs.toRows.length then
      ∃ rs', rs.skipRowsByDropFilter df offset stream streamId = .ok rs' ∧ rs'.toRows =
        rs.toRows.take offset ++ df.skipRowsByDropFilter stream streamId (rs.toRows.drop offset)
    else
      rs.skipRowsByDropFilter df offset stream streamId =
        .error (.panic "attempt to subtract with overflow") := by
  have hlen : rs.timestamps.length = rs.toRows.length := by rw [← map_timestamp, length_map]
  rw [skipRowsByDropFilter, hlen]
  split_ifs with hle hgt
  · omega
  · have hgap : ∀ {β : Type} (f : Row → β), Gapped f (rs.toRows.map f) (rs.toRows.take offset) 0
        (rs.toRows.drop offset) := fun f => ⟨[], rfl, by rw [nil_append, ← map_append, take_append_drop]⟩
    have hloop := skipLoop_spec df stream streamId (rs.map_timestamp ▸ hgap Row.timestamp)
      (rs.map_fields ▸ hgap Row.fields) (i := 0) rfl
    rwa [flatMap_kept, length_drop, length_take, min_eq_left hle] at hloop
  · rfl
  · omega

theorem skipRowsByDropFilter_past_end : ¬∃ rs', skipRowsByDropFilter ⟨[], [], rfl⟩
    ⟨[], [], 0, 0, fun _ => true, fun _ => true, fun _ => []⟩ 1 [] [] = .ok rs' :=
  fun ⟨_, h⟩ => nomatch h

end Rows

end EsLogs
