import EsLogs.BinarySearch
import EsLogs.PartReader
import EsLogs.QueryFilter

/-!
Which blocks of a part a query searches (`storage_search.rs`). The part has its index block headers in
memory and reads the block headers of an index block on demand. The scheduler goes through the index
blocks and the sorted list of tenants or of stream ids together, by binary searches in all of them:
index blocks in which no wanted id can be are not read, and ids that cannot come any more are dropped.
-/

namespace EsLogs.Part

open BinarySearch List

/-! ### Block headers -/

/-- `ReaderAt::must_read_at`, for a buffer of `n` bytes. -/
def mustReadAt (path : String) (file : Bytes) (n offset : Nat) : Outcome Bytes :=
  if n = 0 then .ok []
  else if offset + n ≤ file.length then .ok ((file.drop offset).take n)
  else .error (.panic ("FATAL: cannot read " ++ toString n ++ " bytes at offset " ++ toString offset ++
    " of file " ++ path ++ ": EOF"))

def OpenPart.mustReadBlockHeaders (zstd : Zstd) (p : OpenPart) (ih : IndexBlockHeader) :
    Outcome (List BlockHeader) := do
  let size := ih.indexBlockSize.toNat
  panicIf (size > maxIndexBlockSize)
    ("FATAL: " ++ p.indexPath ++ ": index block size cannot exceed " ++ toString maxIndexBlockSize ++
      " bytes; got " ++ toString size ++ " bytes")
  let compressed ← mustReadAt p.indexPath p.indexFile size ih.indexBlockOffset.toNat
  let position := " read at offset " ++ toString ih.indexBlockOffset ++ " with size " ++
    toString size ++ ": "
  let data ← mustParse (p.indexPath ++ ": cannot decompress indexBlock" ++ position)
    (zstd.decompress compressed)
  mustParse (p.indexPath ++ ": cannot unmarshal block headers" ++ position)
    (unmarshalBlockHeaders p.formatVersion data)

/-! ### The scheduler -/

/-- The times from `min` to `max` have no time from `min'` to `max'` among them. -/
def disjointTimes (min max min' max' : Int) : Bool := min > max' || max < min'

section Schedule

variable {κ : Type} [LinearOrder κ] (key : StreamID → κ) (pso : PartitionSearchOptions)

/-- The position of the first item whose id is not less than the given one. -/
def searchNotLess {α : Type} (f : α → κ) (l : List α) (id : κ) : Nat :=
  searchList (fun a => !decide (f a < id)) l

/-- The items from the first one on whose id is not less than the given one. -/
def dropLess {α : Type} (f : α → κ) (l : List α) (id : κ) : List α := l.drop (searchNotLess f l id)

def inTimeRange (bh : BlockHeader) : Bool :=
  !disjointTimes pso.minTimestamp pso.maxTimestamp bh.timestampsHeader.minTimestamp
    bh.timestampsHeader.maxTimestamp

/-- The blocks at the front with the given id: those in the time range are scheduled. -/
def scheduleEqual (id : κ) : List BlockHeader → List BlockHeader × List BlockHeader
  | [] => ([], [])
  | bh :: bhs =>
    if key bh.streamId = id then
      let r := scheduleEqual id bhs
      (if inTimeRange pso bh then bh :: r.1 else r.1, r.2)
    else ([], bh :: bhs)

theorem scheduleEqual_eq (id : κ) (bhs : List BlockHeader) :
    scheduleEqual key pso id bhs =
      ((bhs.takeWhile fun bh => key bh.streamId = id).filter (inTimeRange pso),
        bhs.dropWhile fun bh => key bh.streamId = id) := by
  induction bhs with
  | nil => rfl
  | cons bh bhs ih =>
    by_cases hid : key bh.streamId = id
    · rw [scheduleEqual, if_pos hid, takeWhile_cons_of_pos (by simpa using hid),
        dropWhile_cons_of_pos (by simpa using hid), ih, filter_cons]
    · rw [scheduleEqual, if_neg hid, takeWhile_cons_of_neg (by simpa using hid),
        dropWhile_cons_of_neg (by simpa using hid), filter_nil]

/-- What the loop over the block headers of an index block has left to do: the number of headers, and a
step more when the id is still before the first of them. -/
def blocksLeft (id : κ) (bhs : List BlockHeader) : Nat :=
  2 * bhs.length + if bhs.head?.any (fun bh => decide (id < key bh.streamId)) then 1 else 0

theorem blocksLeft_lt {id id' : κ} {bhs bhs' : List BlockHeader} {bh : BlockHeader}
    (h : (scheduleEqual key pso id (dropLess (fun bh => key bh.streamId) bhs id)).2 = bh :: bhs')
    (hid : key bh.streamId ≤ id') :
    blocksLeft key id' (bh :: bhs') < blocksLeft key id bhs := by
  have hleft : blocksLeft key id' (bh :: bhs') = 2 * (bhs'.length + 1) := by
    simp [blocksLeft, not_lt.2 hid]
  rw [scheduleEqual_eq] at h
  simp only at h
  have hlen := (dropWhile_suffix (l := dropLess (fun bh => key bh.streamId) bhs id)
    fun bh : BlockHeader => key bh.streamId = id).length_le
  rw [h] at hlen
  rw [length_cons, dropLess, length_drop] at hlen
  rw [hleft, blocksLeft]
  cases bhs with
  | nil => simp at hlen
  | cons b bhs =>
    rw [length_cons] at hlen ⊢
    rcases Nat.eq_zero_or_pos (searchNotLess (fun bh => key bh.streamId) (b :: bhs) id) with
      hzero | hpos
    · rw [dropLess, hzero, drop_zero] at h
      rcases lt_trichotomy (key b.streamId) id with hlt | heq | hgt
      · -- such a header is skipped
        have hpos : 0 < searchNotLess (fun bh => key bh.streamId) (b :: bhs) id :=
          searchList_pos (by simp [hlt])
        omega
      · -- the first header is taken
        rw [dropWhile_cons_of_pos (by simpa using heq)] at h
        have hrest := (dropWhile_suffix (l := bhs)
          fun bh : BlockHeader => key bh.streamId = id).length_le
        rw [h, length_cons] at hrest
        omega
      · -- no header is taken, and the next id is not before the first of them
        have hany : (b :: bhs).head?.any (fun bh => decide (id < key bh.streamId)) = true := by
          simp [hgt]
        rw [if_pos hany]
        omega
    · omega

theorem le_of_dropLess {α : Type} {f : α → κ} {l rest : List α} {id : κ} {a : α}
    (h : dropLess f l id = a :: rest) : id ≤ f a := by
  have hnot := head_drop_searchList h
  simpa using hnot

/-- The loop over the block headers of an index block; the ids that are left come with the scheduled
blocks. -/
def scheduleBlocks (ids : List κ) (id : κ) (bhs : List BlockHeader) : List BlockHeader × List κ :=
  let r := scheduleEqual key pso id (dropLess (fun bh => key bh.streamId) bhs id)
  match hr : r.2 with
  | [] => (r.1, ids)
  | bh :: bhs' =>
    match hids : dropLess (fun id => id) ids (key bh.streamId) with
    | [] => (r.1, [])
    | id' :: ids' =>
      have := blocksLeft_lt key pso hr (le_of_dropLess hids)
      let s := scheduleBlocks (id' :: ids') id' (bh :: bhs')
      (r.1 ++ s.1, s.2)
termination_by blocksLeft key id bhs

theorem length_lt_of_drop_eq_cons {α : Type} {l rest : List α} {n : Nat} {a : α}
    (h : l.drop n = a :: rest) : rest.length < l.length := by
  have hlen := congrArg List.length h
  rw [length_drop, length_cons] at hlen
  omega

def schedule (read : IndexBlockHeader → Outcome (List BlockHeader)) (ids : List κ)
    (ibhs : List IndexBlockHeader) : Outcome (List BlockHeader) :=
  match ids, ibhs with
  | [], _ => .ok []
  | _, [] => .ok []
  | id :: ids, ibh :: ibhs =>
    -- the first id that is not before the index block
    let ids := if id < key ibh.streamId then dropLess (fun id => id) (id :: ids) (key ibh.streamId)
      else id :: ids
    match ids with
    | [] => .ok []
    | id :: ids =>
      -- the last index block that begins before the id
      let n := if key ibh.streamId < id then
          searchNotLess (fun ibh => key ibh.streamId) (ibh :: ibhs) id - 1
        else 0
      match hn : (ibh :: ibhs).drop n with
      | [] => .error (.panic "index out of bounds")
      | ibh' :: ibhs' =>
        have : ibhs'.length ≤ ibhs.length := Nat.le_of_lt_succ (length_lt_of_drop_eq_cons hn)
        if disjointTimes pso.minTimestamp pso.maxTimestamp ibh'.minTimestamp
            ibh'.maxTimestamp then
          schedule read (id :: ids) ibhs'
        else do
          let bhs ← read ibh'
          let s := scheduleBlocks key pso (id :: ids) id bhs
          let rest ← schedule read s.2 ibhs'
          return s.1 ++ rest
termination_by ibhs.length

end Schedule

def scheduleByTenantIds (zstd : Zstd) (p : OpenPart) (pso : PartitionSearchOptions) :
    Outcome (List BlockHeader) :=
  schedule StreamID.tenantId pso (p.mustReadBlockHeaders zstd) pso.tenantIds p.indexBlockHeaders

def scheduleByStreamIds (zstd : Zstd) (p : OpenPart) (pso : PartitionSearchOptions) :
    Outcome (List BlockHeader) :=
  schedule (fun sid => sid) pso (p.mustReadBlockHeaders zstd) pso.streamIds p.indexBlockHeaders

def schedulePartSearch (zstd : Zstd) (p : OpenPart) (pso : PartitionSearchOptions) :
    Outcome (List BlockHeader) :=
  if pso.tenantIds ≠ [] then scheduleByTenantIds zstd p pso else scheduleByStreamIds zstd p pso

end EsLogs.Part
