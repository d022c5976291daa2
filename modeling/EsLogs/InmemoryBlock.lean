import EsLogs.ByteOrder
import EsLogs.VarInts

/-!
Blocks of index items and their encoding (`indexdb/mergeset/encoding.rs`). The first item and the prefix
that all items share are kept with the block's header; the other items are stored without this prefix,
plainly with their lengths, or compressed, each without what it shares with the item before it.
-/

namespace EsLogs.Mergeset

open Encoding ByteOrder

def asU32 (n : Nat) : Nat := n % 2 ^ 32

def maxInmemoryBlockSize : Nat := 64 * 1024

structure Item where
  start : Nat
  stop : Nat
  deriving DecidableEq, Repr

def Item.bytes (it : Item) (data : Bytes) : Bytes := (data.take it.stop).drop it.start

structure InmemoryBlock where
  commonPrefix : Bytes
  data : Bytes
  items : List Item
  deriving DecidableEq, Repr

structure StorageBlock where
  itemsData : Bytes
  lensData : Bytes
  deriving DecidableEq, Repr

def marshalTypePlain : UInt8 := 0

def marshalTypeZstd : UInt8 := 1

/-- What `marshal_data` hands to its caller along with the storage block. -/
structure MarshaledBlock where
  sb : StorageBlock
  firstItem : Bytes
  commonPrefix : Bytes
  itemsCount : Nat
  marshalType : UInt8
  deriving DecidableEq, Repr

namespace InmemoryBlock

def empty : InmemoryBlock := ⟨[], [], []⟩

def itemList (ib : InmemoryBlock) : List Bytes := ib.items.map (·.bytes ib.data)

/-- `add`, and whether the item is added. -/
def add (ib : InmemoryBlock) (x : Bytes) : InmemoryBlock × Bool :=
  if x.length + ib.data.length > maxInmemoryBlockSize then (ib, false)
  else
    let start := asU32 ib.data.length
    let data := ib.data ++ x
    ({ ib with data := data, items := ib.items ++ [⟨start, asU32 data.length⟩] }, true)

def isSortedList : List Bytes → Bool
  | a :: b :: l => a ≤ b && isSortedList (b :: l)
  | _ => true

def isSorted (ib : InmemoryBlock) : Bool := isSortedList ib.itemList

def upperHexByte (b : UInt8) : String :=
  if b < 16 then String.singleton (hexDigit 'A' b.toNat) else hexUpper [b]

def upperHexDebug (b : Bytes) : String := "[" ++ ", ".intercalate (b.map upperHexByte) ++ "]"

/-- The lines of `debug_items_string` from item number `i` on. -/
def debugItemsLines : Nat → Bytes → List Bytes → String
  | _, _, [] => ""
  | i, prevItem, item :: items =>
    (if item < prevItem then "!!! the next item is smaller than the previous item !!!\n" else "") ++
      String.ofList (List.replicate (5 - (toString i).length) '0') ++ toString i ++ " " ++
      upperHexDebug item ++ "\n" ++ debugItemsLines (i + 1) item items

def debugItemsString (ib : InmemoryBlock) : String := debugItemsLines 0 [] ib.itemList

/-- `update_common_prefix_sorted`: a single item is no prefix worth keeping. -/
def updateCommonPrefixSorted (ib : InmemoryBlock) : InmemoryBlock :=
  if ib.items.length ≤ 1 then { ib with commonPrefix := [] }
  else
    let first := ib.itemList.headD []
    let last := ib.itemList.getLastD []
    { ib with commonPrefix := first.take (commonPrefixLen first last) }

def commonPrefixOf : Bytes → List Bytes → Bytes
  | cp, [] => cp
  | cp, item :: items =>
    if cp.isPrefixOf item then commonPrefixOf cp items
    else
      let cpLen := commonPrefixLen cp item
      if cpLen = 0 then [] else commonPrefixOf (cp.take cpLen) items

def updateCommonPrefixUnsorted (ib : InmemoryBlock) : InmemoryBlock :=
  { ib with commonPrefix := match ib.itemList with
    | [] => []
    | item :: items => commonPrefixOf item items }

/-- `sort_items`; items that compare equal are equal as byte strings, so it does not matter that the
sorting of the code is not stable. -/
def sortItems (ib : InmemoryBlock) : InmemoryBlock :=
  if ¬ib.isSorted then
    let ib := ib.updateCommonPrefixUnsorted
    { ib with items := ib.items.mergeSort fun a b => decide (a.bytes ib.data ≤ b.bytes ib.data) }
  else ib.updateCommonPrefixSorted

/-! ### Encoding -/

/-- `marshal_data_plain`, by the items after the first one without the common prefix. -/
def marshalDataPlain (suffixes : List Bytes) : StorageBlock :=
  ⟨suffixes.flatten, suffixes.flatMap fun s => marshalUint64 s.length⟩

/-- The loop over the items data: what each item shares with the one before it, as changes of the
length by exclusive or, and the rest of the items. -/
def sharedLens : Bytes → Nat → List Bytes → List Nat × Bytes
  | _, _, [] => ([], [])
  | prevItem, prevPrefixLen, item :: items =>
    let prefixLen := commonPrefixLen prevItem item
    let (xs, bItems) := sharedLens item prefixLen items
    ((prefixLen ^^^ prevPrefixLen) :: xs, item.drop prefixLen ++ bItems)

/-- The loop over the lengths: their changes by exclusive or. -/
def xorLens : Nat → List Bytes → List Nat
  | _, [] => []
  | prevItemLen, item :: items => (item.length ^^^ prevItemLen) :: xorLens item.length items

/-- `marshal_data`. The comparison of the compressed length is that of `f64` numbers, which is exact for
lengths within a block. -/
def marshalData (zstd : ZstdLevels) (compressLevel : Int) (ib : InmemoryBlock) :
    Outcome MarshaledBlock :=
  match ib.itemList with
  | [] => .error (.panic "BUG: inmemoryBlock.marshalData must be called on non-empty blocks only")
  | firstItem :: items =>
    let cpLen := ib.commonPrefix.length
    let first := firstItem.drop cpLen
    let suffixes := items.map (·.drop cpLen)
    let size := ib.data.length - cpLen * ib.items.length
    let block (sb : StorageBlock) (mt : UInt8) : MarshaledBlock :=
      ⟨sb, firstItem, ib.commonPrefix, asU32 ib.items.length, mt⟩
    if size < 64 ∨ ib.items.length < 2 then
      .ok (block (marshalDataPlain suffixes) marshalTypePlain)
    else
      let (xs, bItems) := sharedLens first 0 suffixes
      let bLens := marshalVarUint64s xs ++ marshalVarUint64s (xorLens first.length suffixes)
      let itemsData := zstd.compressLevel compressLevel bItems
      if 10 * itemsData.length > 9 * size then
        .ok (block (marshalDataPlain suffixes) marshalTypePlain)
      else .ok (block ⟨itemsData, zstd.compressLevel compressLevel bLens⟩ marshalTypeZstd)

def marshalUnsortedData (zstd : ZstdLevels) (compressLevel : Int) (ib : InmemoryBlock) :
    Outcome MarshaledBlock :=
  ib.sortItems.marshalData zstd compressLevel

/-! ### Decoding -/

/-- The lengths from their changes by exclusive or. -/
def unxorLens : Nat → List Nat → List Nat
  | _, [] => []
  | prev, x :: xs => (x ^^^ prev) :: unxorLens (x ^^^ prev) xs

/-- Appends an item to a block that is being decoded. -/
def push (ib : InmemoryBlock) (item : Bytes) : InmemoryBlock :=
  let data := ib.data ++ item
  { ib with data := data, items := ib.items ++ [⟨asU32 ib.data.length, asU32 data.length⟩] }

/-- The loop of `unmarshal_data_plain` over the lengths; the tail of the items data that is left. -/
def unmarshalItemsPlain : InmemoryBlock → Bytes → List Nat → Except String (InmemoryBlock × Bytes)
  | ib, b, [] => .ok (ib, b)
  | ib, b, itemLen :: lens =>
    if b.length < itemLen then
      .error ("not enough data for decoding item from itemsData; want " ++ toString itemLen ++
        " bytes; remained " ++ toString b.length ++ " bytes")
    else unmarshalItemsPlain (ib.push (ib.commonPrefix ++ b.take itemLen)) (b.drop itemLen) lens

def readLen : Unmarshal Nat := do
  let b ← Unmarshal.take 8 fun n =>
    "too short tail for decoding len from lensData; got " ++ toString n ++
      " bytes; want at least " ++ toString 8 ++ " bytes"
  return unmarshalUint64 b

/-- `unmarshal_data_plain` into a block that holds the common prefix only. -/
def unmarshalDataPlain (ib : InmemoryBlock) (sb : StorageBlock) (firstItem : Bytes)
    (itemsCount : Nat) : Except String InmemoryBlock := do
  let (lens, tail) ← Unmarshal.times (fun _ => readLen) 1 (itemsCount - 1) sb.lensData
  ensure (tail = []) ("unexpected tail left after lensData with len " ++ toString tail.length ++
    ": " ++ upperHexDebug tail)
  let dataLen := firstItem.length + sb.itemsData.length +
    ib.commonPrefix.length * (itemsCount - 1)
  let (ib, b) ← unmarshalItemsPlain (ib.push firstItem) sb.itemsData lens
  ensure (b = []) ("unexpected tail left after itemsData with len " ++ toString b.length ++ ": " ++
    upperHexDebug b)
  ensure (ib.data.length = dataLen) ("unexpected data len; got " ++ toString ib.data.length ++
    "; want " ++ toString dataLen)
  return ib

/-- The loop of `unmarshal_data` over the lengths of the shared prefixes and of the items. -/
def unmarshalItemsZstd : InmemoryBlock → Bytes → Bytes → List (Nat × Nat) →
    Except String (InmemoryBlock × Bytes)
  | ib, _, b, [] => .ok (ib, b)
  | ib, prevItem, b, (prefixLen, itemLen) :: lens =>
    if prefixLen > itemLen then
      .error ("prefixLen=" ++ toString prefixLen ++ " exceeds itemLen=" ++ toString itemLen)
    else if b.length < itemLen - prefixLen then
      .error ("not enough data for decoding item from itemsData; want " ++
        toString (itemLen - prefixLen) ++ " bytes; remained " ++ toString b.length ++ " bytes")
    else if prefixLen > prevItem.length then
      .error ("prefixLen cannot exceed " ++ toString prevItem.length ++ "; got " ++
        toString prefixLen)
    else
      let item := prevItem.take prefixLen ++ b.take (itemLen - prefixLen)
      unmarshalItemsZstd (ib.push (ib.commonPrefix ++ item)) item (b.drop (itemLen - prefixLen))
        lens

/-- The part of `unmarshal_data` for compressed blocks. -/
def unmarshalDataZstd (zstd : ZstdLevels) (ib : InmemoryBlock) (sb : StorageBlock)
    (firstItem : Bytes) (itemsCount : Nat) : Except String InmemoryBlock := do
  let bb ← (zstd.decompress sb.lensData).mapError ("cannot decompress lensData: " ++ ·)
  let (xs, tail) ← (unmarshalVarUint64s (itemsCount - 1) bb).mapError
    ("cannot unmarshal prefixLens from lensData: " ++ ·)
  let prefixLens := unxorLens 0 xs
  let (xs, tail) ← (unmarshalVarUint64s (itemsCount - 1) tail).mapError
    ("cannot unmarshal lens from lensData: " ++ ·)
  ensure (tail = []) ("unexpected tail left unmarshaling " ++ toString itemsCount ++
    " lens; tail size=" ++ toString tail.length ++ "; contents=" ++ upperHexDebug tail)
  let firstLen := firstItem.length - ib.commonPrefix.length
  let lens := unxorLens firstLen xs
  let dataLen := ib.commonPrefix.length * itemsCount + firstLen + lens.sum
  let bb ← (zstd.decompress sb.itemsData).mapError ("cannot decompress lensData: " ++ ·)
  let (ib, b) ← unmarshalItemsZstd (ib.push firstItem) (firstItem.drop ib.commonPrefix.length) bb
    (prefixLens.zip lens)
  ensure (b = []) ("unexpected tail left after itemsData with len " ++ toString b.length ++ ": " ++
    upperHexDebug b)
  ensure (ib.data.length = dataLen) ("unexpected data len; got " ++ toString ib.data.length ++
    "; want " ++ toString dataLen)
  return ib

def ensureSorted (what : String) (ib : InmemoryBlock) : Except String InmemoryBlock :=
  if ¬ib.isSorted then
    .error (what ++ " data block contains unsorted items; items:\n" ++ ib.debugItemsString)
  else .ok ib

def unmarshalData (zstd : ZstdLevels) (sb : StorageBlock) (firstItem commonPrefix : Bytes)
    (itemsCount : Nat) (mt : UInt8) : Outcome InmemoryBlock :=
  if itemsCount = 0 then .error (.panic "BUG: cannot unmarshal zero items")
  else
    let ib : InmemoryBlock := ⟨commonPrefix, [], []⟩
    if mt = marshalTypePlain then
      ((unmarshalDataPlain ib sb firstItem itemsCount).mapError
        ("cannot unmarshal plain data: " ++ ·) >>= ensureSorted "plain").mapError .error
    else if mt = marshalTypeZstd then
      (unmarshalDataZstd zstd ib sb firstItem itemsCount >>= ensureSorted "decoded").mapError .error
    else .error (.error ("unknown marshalType=" ++ toString mt))

end InmemoryBlock

end EsLogs.Mergeset
