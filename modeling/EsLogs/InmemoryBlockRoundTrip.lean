import EsLogs.InmemoryBlock

/-!
Blocks of index items are read back sorted. Decoding pushes items one by one onto a block; both encodings
hand it the items of the sorted block without their common prefix. The number of items is stored in 32
bits, which is the one thing that can get lost: a block takes any number of empty items.
-/

namespace EsLogs.Mergeset

open Encoding ByteOrder List

variable {ib ib' : InmemoryBlock}

namespace InmemoryBlock

/-! ### Pushing items -/

def InBounds (ib : InmemoryBlock) : Prop :=
  ∀ it ∈ ib.items, it.start ≤ it.stop ∧ it.stop ≤ ib.data.length

def pushAll (ib : InmemoryBlock) (xs : List Bytes) : InmemoryBlock := xs.foldl push ib

variable {ib : InmemoryBlock} {items : List Bytes} {zstd : ZstdLevels} {suffixes : List Bytes}
  {sb : StorageBlock} {n : Nat}

/-- What a push does to a block of less than 4 GiB. -/
theorem push_spec (h : ib.InBounds) {x : Bytes}
    (hlen : ib.data.length + x.length < 2 ^ 32) :
    (ib.push x).InBounds ∧ (ib.push x).itemList = ib.itemList ++ [x] := by
  have hstart : asU32 ib.data.length = ib.data.length := Nat.mod_eq_of_lt (by omega)
  have hstop : asU32 (ib.data ++ x).length = ib.data.length + x.length := by
    rw [length_append]
    exact Nat.mod_eq_of_lt hlen
  constructor
  · intro it hit
    rcases mem_append.1 hit with hit | hit
    · obtain ⟨hle, hstop⟩ := h it hit
      refine ⟨hle, hstop.trans ?_⟩
      rw [push, length_append]
      exact Nat.le_add_right _ _
    · rw [mem_singleton.1 hit, hstart, hstop, push, length_append]
      exact ⟨Nat.le_add_right _ _, le_rfl⟩
  · have hold : ib.items.map (·.bytes (ib.data ++ x)) = ib.itemList :=
      map_congr_left fun it hit => by rw [Item.bytes, Item.bytes, take_append_of_le_length (h it hit).2]
    have hnew : (⟨asU32 ib.data.length, asU32 (ib.data ++ x).length⟩ : Item).bytes (ib.data ++ x) =
        x := by
      rw [hstart, hstop, Item.bytes, ← length_append, take_length, drop_left]
    show (ib.items ++ [_]).map (fun it : Item => it.bytes (ib.data ++ x)) = _
    rw [map_append, hold, map_singleton, hnew]

theorem pushAll_spec (h : ib.InBounds) (xs : List Bytes)
    (hlen : ib.data.length + (xs.map List.length).sum < 2 ^ 32) :
    (ib.pushAll xs).InBounds ∧ (ib.pushAll xs).itemList = ib.itemList ++ xs ∧
      (ib.pushAll xs).data.length = ib.data.length + (xs.map List.length).sum := by
  induction xs generalizing ib with
  | nil => exact ⟨h, (append_nil _).symm, rfl⟩
  | cons x xs ih =>
    rw [map_cons, sum_cons] at hlen ⊢
    obtain ⟨hx, hitems⟩ := push_spec h (x := x) (by omega)
    have hdata : (ib.push x).data.length = ib.data.length + x.length := length_append
    obtain ⟨hxs, hrest, hsize⟩ := ih hx (by omega)
    refine ⟨hxs, ?_, ?_⟩
    · show ((ib.push x).pushAll xs).itemList = _
      rw [hrest, hitems, append_assoc, singleton_append]
    · show ((ib.push x).pushAll xs).data.length = _
      rw [hsize]
      omega

/-! ### Filling a block -/

def addAll : InmemoryBlock → List Bytes → Option InmemoryBlock
  | ib, [] => some ib
  | ib, x :: xs =>
    let (ib, added) := ib.add x
    if added then ib.addAll xs else none

/-- Items fit into a block as long as their sizes add up to no more than its size. -/
theorem addAll_eq (xs : List Bytes) (hib : ib.data.length ≤ maxInmemoryBlockSize) :
    ib.addAll xs = if ib.data.length + (xs.map List.length).sum ≤ maxInmemoryBlockSize then
      some (ib.pushAll xs) else none := by
  induction xs generalizing ib with
  | nil => exact (if_pos hib).symm
  | cons x xs ih =>
    have hdata : (ib.push x).data.length = ib.data.length + x.length := length_append
    rw [map_cons, sum_cons, addAll, ← Nat.add_assoc, ← hdata]
    by_cases hx : x.length + ib.data.length > maxInmemoryBlockSize
    · rw [add, if_pos hx, if_neg (by omega)]
      rfl
    · have hfits : (ib.push x).data.length ≤ maxInmemoryBlockSize := by omega
      rw [add, if_neg hx]
      exact ih hfits

theorem inBounds_empty : empty.InBounds := fun _ h => nomatch h

/-- The block that items are added to holds just them. -/
theorem addAll_empty {xs : List Bytes} (h : empty.addAll xs = some ib) :
    ib.InBounds ∧ ib.itemList = xs ∧ ib.data.length = (xs.map List.length).sum ∧
      (xs.map List.length).sum ≤ maxInmemoryBlockSize := by
  rw [addAll_eq xs (Nat.zero_le _), show empty.data.length = 0 from rfl, Nat.zero_add] at h
  split_ifs at h with hsum
  cases h
  have hmax : maxInmemoryBlockSize < 2 ^ 32 := by decide
  obtain ⟨hin, hitems, hdata⟩ := pushAll_spec inBounds_empty xs
    (by show 0 + _ < _; omega)
  exact ⟨hin, hitems, hdata.trans (Nat.zero_add _), hsum⟩

/-! ### Sorting -/

theorem isSortedList_iff (l : List Bytes) : isSortedList l = true ↔ Sorted l := by
  rw [Sorted, ← isChain_iff_pairwise]
  induction l with
  | nil => exact iff_of_true rfl .nil
  | cons a l ih =>
    cases l with
    | nil => exact iff_of_true rfl (.singleton a)
    | cons b l => rw [isSortedList, Bool.and_eq_true, decide_eq_true_iff, ih, isChain_cons_cons]

/-- The loop keeps a prefix of the candidate that all the items have. -/
theorem commonPrefixOf_spec (cp : Bytes) (items : List Bytes) :
    commonPrefixOf cp items <+: cp ∧ ∀ item ∈ items, commonPrefixOf cp items <+: item := by
  induction items generalizing cp with
  | nil => exact ⟨prefix_refl cp, fun _ h => nomatch h⟩
  | cons item items ih =>
    simp only [commonPrefixOf]
    split_ifs with hcommon
    · obtain ⟨hcp, hitems⟩ := ih cp
      exact ⟨hcp, forall_mem_cons.2 ⟨hcp.trans ( isPrefixOf_iff_prefix.1 hcommon), hitems⟩⟩
    · exact ⟨ nil_prefix, fun _ _ => nil_prefix⟩
    · obtain ⟨hcp, hitems⟩ := ih (cp.take (commonPrefixLen cp item))
      exact ⟨hcp.trans ( take_prefix _ _),
        forall_mem_cons.2 ⟨hcp.trans (take_prefix_right cp item), hitems⟩⟩

/-- `sort_items` sorts the items and finds a prefix of them all. -/
theorem sortItems_spec (ib : InmemoryBlock) :
    ib.sortItems.data = ib.data ∧ ib.sortItems.itemList.Perm ib.itemList ∧
      Sorted ib.sortItems.itemList ∧
      ∀ b ∈ ib.sortItems.itemList, ib.sortItems.commonPrefix <+: b := by
  by_cases hsorted : ib.isSorted = true
  · have hsorted' := (isSortedList_iff _).1 hsorted
    rw [sortItems, if_neg (not_not.2 hsorted), updateCommonPrefixSorted]
    split_ifs with hone
    · exact ⟨rfl, .refl _, hsorted', fun _ _ => nil_prefix⟩
    · refine ⟨rfl, .refl _, hsorted', fun b hb => ?_⟩
      -- the first and the last item bound all the others
      have hne : ib.itemList ≠ [] := ne_nil_of_mem hb
      have hfirst : ib.itemList.head? = some (ib.itemList.headD []) := by
        rw [headD_eq_head?_getD, head?_eq_some_head hne]
        rfl
      have hlast : ib.itemList.getLast? = some (ib.itemList.getLastD []) := by
        rw [getLastD_eq_getLast?, getLast?_eq_some_getLast hne]
        rfl
      exact hsorted'.prefix_of_ends hfirst hlast ( take_prefix _ _) (take_prefix_right _ _) b hb
  · have hperm := (mergeSort_perm ib.items
      fun a b => decide (a.bytes ib.data ≤ b.bytes ib.data)).map (·.bytes ib.data)
    rw [sortItems, if_pos hsorted]
    refine ⟨rfl, hperm, sorted_mergeSort (fun it : Item => it.bytes ib.data) ib.items,
      fun b hb => ?_⟩
    have hmem : b ∈ ib.itemList := hperm.mem_iff.1 hb
    show ib.updateCommonPrefixUnsorted.commonPrefix <+: b
    rw [updateCommonPrefixUnsorted]
    cases hlist : ib.itemList with
    | nil => exact nil_prefix
    | cons item items =>
      rw [hlist] at hmem
      exact forall_mem_cons.2 (commonPrefixOf_spec item items) b hmem

/-! ### Decoding the plain form -/

theorem unmarshalItemsPlain_eq (ib : InmemoryBlock) (suffixes : List Bytes) (tail : Bytes) :
    unmarshalItemsPlain ib (suffixes.flatten ++ tail) (suffixes.map List.length) =
      .ok (ib.pushAll (suffixes.map (ib.commonPrefix ++ ·)), tail) := by
  induction suffixes generalizing ib with
  | nil => rfl
  | cons s suffixes ih =>
    rw [map_cons, unmarshalItemsPlain, flatten_cons, append_assoc,
      if_neg (by rw [length_append]; omega), take_left, drop_left, ih]
    rfl

theorem reads_len (h : n < 2 ^ 64) : Unmarshal.Reads readLen n (marshalUint64 n) := by
  refine (Unmarshal.reads_take (length_marshalUint64 n) _).return_eq ?_
  exact unmarshalUint64_self h

theorem sum_append_prefix (p : Bytes) (suffixes : List Bytes) :
    ((suffixes.map (p ++ ·)).map List.length).sum =
      p.length * suffixes.length + (suffixes.map List.length).sum := by
  induction suffixes with
  | nil => rfl
  | cons s suffixes ih =>
    simp only [map_cons, sum_cons, ih, length_append, length_cons, Nat.mul_add]
    omega

/-- The block that is filled by decoding a first item and the items behind it, which have a common prefix. -/
def decoded (p first : Bytes) (suffixes : List Bytes) : InmemoryBlock :=
  ((⟨p, [], []⟩ : InmemoryBlock).push (p ++ first)).pushAll (suffixes.map (p ++ ·))

section Decoded

variable {p first : Bytes}
  (hlen : (p ++ first).length + ((suffixes.map (p ++ ·)).map List.length).sum < 2 ^ 32)
include hlen

theorem decoded_spec : (decoded p first suffixes).itemList = (p ++ first) :: suffixes.map (p ++ ·) ∧
    (decoded p first suffixes).data.length =
      p.length * (suffixes.length + 1) + first.length + (suffixes.map List.length).sum := by
  have hempty : (⟨p, [], []⟩ : InmemoryBlock).InBounds := fun _ h => nomatch h
  obtain ⟨hin, hitems⟩ := push_spec hempty (x := p ++ first) (by
    show 0 + (p ++ first).length < _
    omega)
  have hdata : ((⟨p, [], []⟩ : InmemoryBlock).push (p ++ first)).data = p ++ first := rfl
  obtain ⟨-, hall, hsize⟩ := pushAll_spec hin (suffixes.map (p ++ ·)) (by rw [hdata]; exact hlen)
  refine ⟨hall.trans (by rw [hitems]; rfl), hsize.trans ?_⟩
  rw [hdata, sum_append_prefix, length_append, Nat.mul_add]
  omega

theorem length_suffix_lt {s : Bytes} (hs : s ∈ suffixes) : s.length < 2 ^ 64 := by
  have hsum := sum_append_prefix p suffixes
  have hle : s.length ≤ (suffixes.map List.length).sum := le_sum_of_mem (mem_map_of_mem hs)
  omega

/-- The plain form is decoded to the items it was made of. -/
theorem unmarshalDataPlain_eq :
    unmarshalDataPlain ⟨p, [], []⟩ (marshalDataPlain suffixes) (p ++ first) (suffixes.length + 1) =
      .ok (decoded p first suffixes) := by
  have hlens := Unmarshal.Reads.times_map (fun _ s hs => reads_len (length_suffix_lt hlen hs)) 1 []
  have hitems := unmarshalItemsPlain_eq ((⟨p, [], []⟩ : InmemoryBlock).push (p ++ first)) suffixes []
  rw [append_nil] at hlens hitems
  change _ = Except.ok (decoded p first suffixes, []) at hitems
  have hsize : (decoded p first suffixes).data.length =
      (p ++ first).length + suffixes.flatten.length + p.length * suffixes.length := by
    rw [(decoded_spec hlen).2, length_append, length_flatten, Nat.mul_add]
    omega
  simp only [unmarshalDataPlain, marshalDataPlain, Nat.add_sub_cancel, hlens, except_ok_bind,
    ensure_true, hitems, hsize]
  rfl

end Decoded

/-! ### Decoding the compressed form -/

def prefixLens : Bytes → List Bytes → List Nat
  | _, [] => []
  | prevItem, item :: items => commonPrefixLen prevItem item :: prefixLens item items

theorem unxorLens_sharedLens (prevItem : Bytes) (prevPrefixLen : Nat) (items : List Bytes) :
    unxorLens prevPrefixLen (sharedLens prevItem prevPrefixLen items).1 = prefixLens prevItem items := by
  induction items generalizing prevItem prevPrefixLen with
  | nil => rfl
  | cons item items ih =>
    simp only [sharedLens, unxorLens, Nat.xor_xor_cancel_right, prefixLens, ih]

theorem unxorLens_xorLens (prevItemLen : Nat) (items : List Bytes) :
    unxorLens prevItemLen (xorLens prevItemLen items) = items.map List.length := by
  induction items generalizing prevItemLen with
  | nil => rfl
  | cons item items ih => simp only [xorLens, unxorLens, Nat.xor_xor_cancel_right, map_cons, ih]

theorem length_sharedLens (prevItem : Bytes) (prevPrefixLen : Nat) (items : List Bytes) :
    (sharedLens prevItem prevPrefixLen items).1.length = items.length := by
  induction items generalizing prevItem prevPrefixLen with
  | nil => rfl
  | cons item items ih => simp only [sharedLens, length_cons, ih]

theorem length_unxorLens (prev : Nat) (xs : List Nat) : (unxorLens prev xs).length = xs.length := by
  induction xs generalizing prev with
  | nil => rfl
  | cons x xs ih => rw [unxorLens, length_cons, length_cons, ih]

theorem length_xorLens (prevItemLen : Nat) (items : List Bytes) :
    (xorLens prevItemLen items).length = items.length := by
  rw [← length_unxorLens prevItemLen, unxorLens_xorLens, length_map]

theorem sharedLens_lt (prevItem : Bytes) {prevPrefixLen : Nat}
    (hprev : prevPrefixLen < 2 ^ 64) (h : ∀ item ∈ items, item.length < 2 ^ 64) :
    ∀ x ∈ (sharedLens prevItem prevPrefixLen items).1, x < 2 ^ 64 := by
  induction items generalizing prevItem prevPrefixLen with
  | nil => exact forall_mem_nil _
  | cons item items ih =>
    obtain ⟨hitem, hitems⟩ := forall_mem_cons.1 h
    have hlen := (commonPrefixLen_le_right prevItem item).trans_lt hitem
    exact forall_mem_cons.2 ⟨Nat.xor_lt_two_pow hlen hprev, ih item hlen hitems⟩

theorem xorLens_lt {prevItemLen : Nat} (hprev : prevItemLen < 2 ^ 64)
    (h : ∀ item ∈ items, item.length < 2 ^ 64) : ∀ x ∈ xorLens prevItemLen items, x < 2 ^ 64 := by
  induction items generalizing prevItemLen with
  | nil => exact forall_mem_nil _
  | cons item items ih =>
    obtain ⟨hitem, hitems⟩ := forall_mem_cons.1 h
    exact forall_mem_cons.2 ⟨Nat.xor_lt_two_pow hitem hprev, ih hitem hitems⟩

theorem unmarshalItemsZstd_eq (ib : InmemoryBlock) (prevItem : Bytes) (prevPrefixLen : Nat)
    (items : List Bytes) (tail : Bytes) :
    unmarshalItemsZstd ib prevItem ((sharedLens prevItem prevPrefixLen items).2 ++ tail)
        ((prefixLens prevItem items).zip (items.map List.length)) =
      .ok (ib.pushAll (items.map (ib.commonPrefix ++ ·)), tail) := by
  induction items generalizing ib prevItem prevPrefixLen with
  | nil => rfl
  | cons item items ih =>
    have hle := commonPrefixLen_le_right prevItem item
    have hle' := commonPrefixLen_le_left prevItem item
    have hdrop : (item.drop (commonPrefixLen prevItem item)).length =
        item.length - commonPrefixLen prevItem item := length_drop
    -- the shared bytes come from the item before, the others from the data
    have hitem : prevItem.take (commonPrefixLen prevItem item) ++
        item.drop (commonPrefixLen prevItem item) = item := by
      rw [← take_commonPrefixLen, take_append_drop]
    simp only [sharedLens, prefixLens, map_cons, zip_cons_cons, unmarshalItemsZstd,
      append_assoc]
    rw [if_neg (by omega), if_neg (by rw [length_append]; omega), if_neg (by omega),
      take_left' hdrop, drop_left' hdrop, hitem, ih]
    rfl

/-- The compressed form is decoded to the items it was made of. -/
theorem unmarshalDataZstd_eq (hz : zstd.Lossless) (level : Int) {p first : Bytes}
    (hlen : (p ++ first).length + ((suffixes.map (p ++ ·)).map List.length).sum < 2 ^ 32) :
    unmarshalDataZstd zstd ⟨p, [], []⟩ ⟨zstd.compressLevel level (sharedLens first 0 suffixes).2,
        zstd.compressLevel level (marshalVarUint64s (sharedLens first 0 suffixes).1 ++
          marshalVarUint64s (xorLens first.length suffixes))⟩ (p ++ first) (suffixes.length + 1) =
      .ok (decoded p first suffixes) := by
  have hfirst : (p ++ first).length = p.length + first.length := length_append
  have hsmall : ∀ s ∈ suffixes, s.length < 2 ^ 64 := fun s hs => length_suffix_lt hlen hs
  have hread := reads_varUint64s (sharedLens_lt first (Nat.two_pow_pos 64) hsmall)
    (marshalVarUint64s (xorLens first.length suffixes))
  have hsmallFirst : first.length < 2 ^ 64 := by omega
  have hread' := reads_varUint64s (xorLens_lt hsmallFirst hsmall) []
  rw [length_sharedLens] at hread
  rw [length_xorLens, append_nil] at hread'
  have hitems := unmarshalItemsZstd_eq ((⟨p, [], []⟩ : InmemoryBlock).push (p ++ first)) first 0
    suffixes []
  rw [append_nil] at hitems
  change _ = Except.ok (decoded p first suffixes, []) at hitems
  have hfirstLen : (p ++ first).length - p.length = first.length := by omega
  have hdecompress : ∀ src, zstd.decompress (zstd.compressLevel level src) = .ok src := hz level
  simp only [unmarshalDataZstd, Nat.add_sub_cancel, hdecompress, except_mapError_ok, except_ok_bind, hread,
    hread', ensure_true, unxorLens_sharedLens, hfirstLen, unxorLens_xorLens, drop_left, hitems,
    (decoded_spec hlen).2]
  rfl

/-! ### The number of items -/

theorem length_times {α : Type} {p : Nat → Unmarshal α} {i n : Nat} {src tail : Bytes} {l : List α}
    (h : Unmarshal.times p i n src = .ok (l, tail)) : l.length = n := by
  induction n generalizing i src l with
  | zero =>
    cases h
    rfl
  | succ n ih =>
    obtain ⟨⟨a, src'⟩, -, h⟩ := except_bind_eq_ok_iff.1 h
    obtain ⟨⟨as, tail'⟩, hrest, h⟩ := except_bind_eq_ok_iff.1 h
    cases h
    rw [length_cons, ih hrest]

theorem length_unmarshalVarUint64s {src tail : Bytes} {l : List Nat}
    (h : unmarshalVarUint64s n src = .ok (l, tail)) : l.length = n := by
  rw [unmarshalVarUint64s, unmarshalVars] at h
  split_ifs at h with hshort hsmall
  · cases h
    rw [length_map, length_take]
    omega
  · exact length_times h

theorem length_unmarshalItemsPlain {b b' : Bytes} {lens : List Nat}
    (h : unmarshalItemsPlain ib b lens = .ok (ib', b')) : ib'.items.length = ib.items.length + lens.length := by
  induction lens generalizing ib b with
  | nil =>
    cases h
    rfl
  | cons len lens ih =>
    rw [unmarshalItemsPlain] at h
    split_ifs at h
    rw [ih h, push, length_append, length_singleton, length_cons]
    omega

theorem length_unmarshalItemsZstd {prevItem b b' : Bytes}
    {lens : List (Nat × Nat)} (h : unmarshalItemsZstd ib prevItem b lens = .ok (ib', b')) :
    ib'.items.length = ib.items.length + lens.length := by
  induction lens generalizing ib prevItem b with
  | nil =>
    cases h
    rfl
  | cons len lens ih =>
    simp only [unmarshalItemsZstd] at h
    split_ifs at h
    rw [ih h, push, length_append, length_singleton, length_cons]
    omega

theorem length_unmarshalDataPlain {p firstItem : Bytes} (hn : n ≠ 0)
    (h : unmarshalDataPlain ⟨p, [], []⟩ sb firstItem n = .ok ib) : ib.items.length = n := by
  obtain ⟨⟨lens, tail⟩, hlens, h⟩ := except_bind_eq_ok_iff.1 h
  obtain ⟨-, -, h⟩ := except_bind_eq_ok_iff.1 h
  obtain ⟨⟨ib', b⟩, hitems, h⟩ := except_bind_eq_ok_iff.1 h
  obtain ⟨-, -, h⟩ := except_bind_eq_ok_iff.1 h
  obtain ⟨-, -, h⟩ := except_bind_eq_ok_iff.1 h
  cases h
  rw [length_unmarshalItemsPlain hitems, length_times hlens]
  show 1 + (n - 1) = n
  omega

theorem length_unmarshalDataZstd {p firstItem : Bytes} (hn : n ≠ 0)
    (h : unmarshalDataZstd zstd ⟨p, [], []⟩ sb firstItem n = .ok ib) : ib.items.length = n := by
  obtain ⟨bb, -, h⟩ := except_bind_eq_ok_iff.1 h
  obtain ⟨⟨xs, tail⟩, hxs, h⟩ := except_bind_eq_ok_iff.1 h
  obtain ⟨⟨ys, tail'⟩, hys, h⟩ := except_bind_eq_ok_iff.1 h
  obtain ⟨-, -, h⟩ := except_bind_eq_ok_iff.1 h
  obtain ⟨bb', -, h⟩ := except_bind_eq_ok_iff.1 h
  obtain ⟨⟨ib', b⟩, hitems, h⟩ := except_bind_eq_ok_iff.1 h
  obtain ⟨-, -, h⟩ := except_bind_eq_ok_iff.1 h
  obtain ⟨-, -, h⟩ := except_bind_eq_ok_iff.1 h
  cases h
  have hxlen := length_unmarshalVarUint64s (except_mapError_eq_ok_iff.1 hxs)
  have hylen := length_unmarshalVarUint64s (except_mapError_eq_ok_iff.1 hys)
  rw [length_unmarshalItemsZstd hitems, length_zip, length_unxorLens, length_unxorLens, hxlen,
    hylen, Nat.min_self]
  show 1 + (n - 1) = n
  omega

theorem ensureSorted_eq_ok {what : String} (h : ensureSorted what ib = .ok ib') : ib' = ib := by
  rw [ensureSorted] at h
  split_ifs at h
  cases h
  rfl

theorem ensureSorted_of_sorted (h : Sorted ib.itemList) (what : String) :
    ensureSorted what ib = .ok ib :=
  if_neg (not_not.2 ((isSortedList_iff _).2 h))

/-- A block that is decoded has the number of items that it was said to have. -/
theorem length_unmarshalData {firstItem p : Bytes}
    {mt : UInt8} (h : unmarshalData zstd sb firstItem p n mt = .ok ib) :
    ib.itemList.length = n := by
  rw [itemList, length_map]
  rw [unmarshalData] at h
  split_ifs at h with hn hplain hzstd
  all_goals
    obtain ⟨ib', hdecode, hsorted⟩ := except_bind_eq_ok_iff.1 (except_mapError_eq_ok_iff.1 h)
    rw [ensureSorted_eq_ok hsorted]
  · exact length_unmarshalDataPlain hn (except_mapError_eq_ok_iff.1 hdecode)
  · exact length_unmarshalDataZstd hn hdecode

/-! ### The round trip -/

/-- The two forms in which a block is stored. -/
theorem marshalData_eq (zstd : ZstdLevels) (level : Int) {firstItem first : Bytes}
    (h : ib.itemList = firstItem :: items) (hfirst : firstItem.drop ib.commonPrefix.length = first)
    (hs : items.map (·.drop ib.commonPrefix.length) = suffixes) : ∃ mb, ib.marshalData zstd level = .ok mb ∧ mb.firstItem = firstItem ∧
      mb.commonPrefix = ib.commonPrefix ∧ mb.itemsCount = asU32 (items.length + 1) ∧
      ((mb.marshalType = marshalTypePlain ∧ mb.sb = marshalDataPlain suffixes) ∨
        (mb.marshalType = marshalTypeZstd ∧ mb.sb = ⟨zstd.compressLevel level (sharedLens first 0 suffixes).2,
          zstd.compressLevel level (marshalVarUint64s (sharedLens first 0 suffixes).1 ++
            marshalVarUint64s (xorLens first.length suffixes))⟩)) := by
  have hlen : ib.items.length = items.length + 1 := by
    have hmap := congrArg List.length h
    rwa [itemList, length_map, length_cons] at hmap
  simp only [marshalData, h, hlen, hfirst, hs]
  split_ifs
  · exact ⟨_, rfl, rfl, rfl, rfl, .inl ⟨rfl, rfl⟩⟩
  · exact ⟨_, rfl, rfl, rfl, rfl, .inl ⟨rfl, rfl⟩⟩
  · exact ⟨_, rfl, rfl, rfl, rfl, .inr ⟨rfl, rfl⟩⟩

/-- Items with a common prefix are the prefix and what follows it. -/
theorem map_append_drop {p : Bytes} (h : ∀ b ∈ items, p <+: b) :
    (items.map (·.drop p.length)).map (p ++ ·) = items := by
  rw [map_map]
  refine (map_congr_left fun b hb => ?_).trans (map_id items)
  obtain ⟨s, rfl⟩ := h b hb
  show p ++ (p ++ s).drop p.length = p ++ s
  rw [drop_left]

/-- A sorted block with fewer than 2^32 items is read back from either form. -/
theorem unmarshalData_marshalData (hz : zstd.Lossless) (level : Int)
    {firstItem : Bytes}
    (h : ib.itemList = firstItem :: items) (hsorted : Sorted ib.itemList)
    (hcommon : ∀ b ∈ ib.itemList, ib.commonPrefix <+: b)
    (hsize : (ib.itemList.map List.length).sum < 2 ^ 32) (hcount : ib.itemList.length < 2 ^ 32) :
    ∃ mb ib', ib.marshalData zstd level = .ok mb ∧
      unmarshalData zstd mb.sb mb.firstItem mb.commonPrefix mb.itemsCount mb.marshalType = .ok ib' ∧
      ib'.itemList = ib.itemList := by
  rw [h] at hcommon hsize hcount hsorted ⊢
  obtain ⟨first, hfirstItem⟩ := hcommon firstItem mem_cons_self
  have hitems := map_append_drop fun b hb => hcommon b (mem_cons_of_mem _ hb)
  have hdrop : firstItem.drop ib.commonPrefix.length = first := by rw [← hfirstItem, drop_left]
  generalize hs : items.map (·.drop ib.commonPrefix.length) = suffixes at hitems
  obtain ⟨mb, hmb, hfirst, hcp, hn, hform⟩ := marshalData_eq zstd level h hdrop hs
  have hslen : suffixes.length = items.length := by rw [← hs, length_map]
  rw [map_cons, sum_cons, ← hfirstItem, ← hitems] at hsize
  have hn' : mb.itemsCount = suffixes.length + 1 := by
    rw [hn, hslen]
    exact Nat.mod_eq_of_lt hcount
  have hlist' := (decoded_spec hsize).1.trans (by rw [hitems, hfirstItem] :
    (ib.commonPrefix ++ first) :: suffixes.map (ib.commonPrefix ++ ·) = firstItem :: items)
  refine ⟨mb, decoded ib.commonPrefix first suffixes, hmb, ?_, hlist'⟩
  -- the decoded block passes the check of its order
  rw [← hlist'] at hsorted
  rw [unmarshalData, if_neg (by omega), hfirst, hcp, hn', ← hfirstItem]
  rcases hform with ⟨hmt, hsb⟩ | ⟨hmt, hsb⟩
  · rw [hmt, hsb, if_pos rfl, unmarshalDataPlain_eq hsize, except_mapError_ok, except_ok_bind,
      ensureSorted_of_sorted hsorted]
    rfl
  · rw [hmt, hsb, if_neg (by decide), if_pos rfl, unmarshalDataZstd_eq hz level hsize,
      except_ok_bind, ensureSorted_of_sorted hsorted]
    rfl

/-- Items that are added to a block come back sorted, from either form, as long as there are fewer than
2^32 of them. -/
theorem unmarshalData_marshalUnsortedData_iff {zstd : ZstdLevels} (hz : zstd.Lossless) (level : Int)
    {xs : List Bytes} {ib : InmemoryBlock} (hne : xs ≠ []) (h : empty.addAll xs = some ib) :
    (∃ mb ib', ib.marshalUnsortedData zstd level = .ok mb ∧
      unmarshalData zstd mb.sb mb.firstItem mb.commonPrefix mb.itemsCount mb.marshalType = .ok ib' ∧
      ib'.itemList.Perm xs ∧ Sorted ib'.itemList) ↔ xs.length < 2 ^ 32 := by
  obtain ⟨-, hlist, -, hsize⟩ := addAll_empty h
  obtain ⟨-, hperm, hsorted, hcommon⟩ := sortItems_spec ib
  rw [hlist] at hperm
  have hlen := hperm.length_eq
  obtain ⟨firstItem, items, hcons⟩ := exists_cons_of_ne_nil (l := ib.sortItems.itemList)
    fun hnil => hne (List.Perm.nil_eq (hnil ▸ hperm)).symm
  constructor
  · rintro ⟨mb, ib', hmarshal, hunmarshal, hperm', -⟩
    obtain ⟨mb', hmb', -, -, hn, -⟩ := marshalData_eq zstd level hcons rfl rfl
    cases hmarshal.symm.trans hmb'
    -- what comes back has as many items as fit into 32 bits
    have hcount := length_unmarshalData hunmarshal
    rw [hperm'.length_eq, hn] at hcount
    rw [hcount]
    exact Nat.mod_lt _ (Nat.two_pow_pos 32)
  · intro hcount
    have hmax : maxInmemoryBlockSize < 2 ^ 32 := by decide
    have hsum : (ib.sortItems.itemList.map List.length).sum = (xs.map List.length).sum :=
      (hperm.map List.length).sum_eq
    obtain ⟨mb, ib', hmarshal, hunmarshal, heq⟩ := unmarshalData_marshalData hz level hcons hsorted
      hcommon (by omega) (by omega)
    exact ⟨mb, ib', hmarshal, hunmarshal, heq ▸ hperm, heq ▸ hsorted⟩

theorem unmarshalData_marshalUnsortedData_three :
    ([ascii "tag", ascii "table", ascii ""] : List Bytes) ≠ [] ∧
      ∃ ib, empty.addAll [ascii "tag", ascii "table", ascii ""] = some ib ∧
        ((∃ mb ib', ib.marshalUnsortedData storedZstd 1 = .ok mb ∧
          unmarshalData storedZstd mb.sb mb.firstItem mb.commonPrefix mb.itemsCount mb.marshalType =
            .ok ib' ∧
          ib'.itemList.Perm [ascii "tag", ascii "table", ascii ""] ∧ Sorted ib'.itemList) ↔
            [ascii "tag", ascii "table", ascii ""].length < 2 ^ 32) :=
  ⟨cons_ne_nil _ _, _, rfl,
    unmarshalData_marshalUnsortedData_iff storedZstd_lossless 1 (cons_ne_nil _ _) rfl⟩

/-- Empty items take no room, so that any number of them fits. -/
theorem addAll_replicate_nil (n : Nat) :
    empty.addAll (replicate n []) = some (empty.pushAll (replicate n [])) := by
  have hsum : ((replicate n ([] : Bytes)).map List.length).sum = 0 := by
    rw [map_replicate, sum_replicate]
    exact Nat.mul_zero n
  rw [addAll_eq _ (Nat.zero_le _), hsum]
  rfl

/-- A number of items that is a multiple of 2^32 is stored as zero. -/
theorem unmarshalData_of_count (hn : n ≠ 0) (hmod : n % 2 ^ 32 = 0) (zstd : ZstdLevels)
    (level : Int) :
    ∃ ib mb, empty.addAll (replicate n []) = some ib ∧
      ib.marshalUnsortedData zstd level = .ok mb ∧
      unmarshalData zstd mb.sb mb.firstItem mb.commonPrefix mb.itemsCount mb.marshalType =
        .error (.panic "BUG: cannot unmarshal zero items") := by
  have hadd := addAll_replicate_nil n
  obtain ⟨-, hlist, -, -⟩ := addAll_empty hadd
  obtain ⟨-, hperm, -, -⟩ := sortItems_spec (empty.pushAll (replicate n []))
  have hlen := hperm.length_eq
  rw [hlist, length_replicate] at hlen
  obtain ⟨firstItem, items, hcons⟩ := exists_cons_of_length_pos
    (hlen ▸ Nat.pos_of_ne_zero hn)
  obtain ⟨mb, hmb, -, -, hcount, -⟩ := marshalData_eq zstd level hcons rfl rfl
  refine ⟨_, mb, hadd, hmb, if_pos ?_⟩
  rw [hcons, length_cons] at hlen
  rw [hcount, hlen]
  exact hmod

theorem unmarshalData_four_billion_empty :
    ∃ ib mb, empty.addAll (List.replicate (2 ^ 32) []) = some ib ∧
      ib.marshalUnsortedData storedZstd 1 = .ok mb ∧
      unmarshalData storedZstd mb.sb mb.firstItem mb.commonPrefix mb.itemsCount mb.marshalType =
        .error (.panic "BUG: cannot unmarshal zero items") :=
  unmarshalData_of_count (Nat.two_pow_pos 32).ne' (Nat.mod_self _) storedZstd 1

end InmemoryBlock

end EsLogs.Mergeset
