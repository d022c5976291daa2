import EsLogs.StreamId
import EsLogs.Rows
import EsLogs.InmemoryBlock

/-!
The rows of the index and the merging of rows for the same tag (`indexdb/mod.rs`, `stream_tags.rs`). A
row that leads from a tag to its streams holds the namespace, the tenant, the escaped name and value of
the tag, and stream ids. Before a block of sorted items is stored, adjacent rows for one tag are
joined.
-/

namespace EsLogs

/-! ### Escaped tag values -/

namespace StreamTags

def escapeChar : UInt8 := 0

def tagSeparatorChar : UInt8 := 1

def kvSeparatorChar : UInt8 := 2

/-- A byte in the slow path of `marshal_tag_value`. -/
def escape (ch : UInt8) : Bytes :=
  if ch = escapeChar then [escapeChar, byte '0']
  else if ch = tagSeparatorChar then [escapeChar, byte '1']
  else if ch = kvSeparatorChar then [escapeChar, byte '2']
  else [ch]

def marshalTagValue (src : Bytes) : Bytes :=
  if escapeChar ∉ src ∧ tagSeparatorChar ∉ src ∧ kvSeparatorChar ∉ src then
    src ++ [tagSeparatorChar]
  else src.flatMap escape ++ [tagSeparatorChar]

def unescape : Bytes → Except String Bytes
  | [] => .ok []
  | c :: b =>
    if c = escapeChar then
      match b with
      | [] => .error "missing escaped char"
      | d :: b =>
        if d = byte '0' then (unescape b).map (escapeChar :: ·)
        else if d = byte '1' then (unescape b).map (tagSeparatorChar :: ·)
        else if d = byte '2' then (unescape b).map (kvSeparatorChar :: ·)
        else .error ("unsupported escaped char: " ++ String.singleton (Char.ofNat d.toNat))
    else (unescape b).map (c :: ·)

def unmarshalTagValue : Unmarshal Bytes := fun src =>
  match src.idxOf? tagSeparatorChar with
  | none => .error "cannot find the end of tag value"
  | some n => (unescape (src.take n)).map fun value => (value, src.drop (n + 1))

end StreamTags

open StreamTags

def Field.indexdbMarshal (f : Field) : Bytes := marshalTagValue f.name ++ marshalTagValue f.value

def Field.indexdbUnmarshal : Unmarshal Field := do
  let name ← unmarshalTagValue.mapErr ("cannot unmarshal key: " ++ ·)
  let value ← unmarshalTagValue.mapErr ("cannot unmarshal value: " ++ ·)
  return ⟨name, value⟩

namespace Indexdb

open Mergeset InmemoryBlock

/-! ### Rows -/

def nsPrefixTagToStreamIDs : UInt8 := 2

def maxStreamIDsPerRow : Nat := 32

def commonPrefixLength : Nat := 1 + 8

def marshalCommonPrefix (ns : UInt8) (tenantId : TenantID) : Bytes := ns :: tenantId.marshal

/-- `unmarshal_common_prefix`: the namespace and the tenant. -/
def unmarshalCommonPrefix : Unmarshal (UInt8 × TenantID) := fun src =>
  if src.length < commonPrefixLength then
    .error ("cannot unmarshal common prefix from " ++ toString src.length ++
      " bytes; need at least " ++ toString commonPrefixLength ++ " bytes; data=" ++ upperHexDebug src)
  else
    ((TenantID.unmarshal (src.drop 1)).mapError ("cannot unmarshal tenantID: " ++ ·)).map
      fun (tenantId, tail) => ((src.headD 0, tenantId), tail)

/-- `TagToStreamIDsRowParser`; the ids are parsed from the tail when they are wanted. -/
structure TagToStreamIDsRowParser where
  tenantId : TenantID
  tag : Field
  tail : Bytes
  deriving DecidableEq, Repr

namespace TagToStreamIDsRowParser

def empty : TagToStreamIDsRowParser := ⟨default, ⟨[], []⟩, []⟩

def checkTail (tail : Bytes) : Except String Unit := do
  ensure (tail ≠ []) "missing streamID in the tenantID:name:value -> streamIDs row"
  ensure (tail.length % 16 = 0)
    ("invalid tail length in the tenantID:name:value -> streamIDs row; got " ++
      toString tail.length ++ " bytes; must be multiple of 16 bytes")

def init (b : Bytes) : Except String TagToStreamIDsRowParser := do
  let ((ns, tenantId), tail) ← (unmarshalCommonPrefix b).mapError fun err =>
    "invalid tenantID:name:value -> streamIDs row " ++ upperHexDebug b ++ ": " ++ err
  ensure (ns = nsPrefixTagToStreamIDs) ("invalid prefix for tenantID:name:value -> streamIDs row " ++
    upperHexDebug b ++ "; got " ++ toString ns ++ "; want " ++ toString nsPrefixTagToStreamIDs)
  let (tag, tail) ← (Field.indexdbUnmarshal tail).mapError fun err =>
    "cannot unmarshal tag from tenantID:name:value -> streamIDs row " ++ upperHexDebug b ++ ": " ++ err
  (checkTail tail).mapError fun err =>
    "cannot initialize tail from tenantID:name:value -> streamIDs row " ++ upperHexDebug b ++ ": " ++
      err
  return ⟨tenantId, tag, tail⟩

def marshalPrefix (sp : TagToStreamIDsRowParser) : Bytes :=
  marshalCommonPrefix nsPrefixTagToStreamIDs sp.tenantId ++ sp.tag.indexdbMarshal

def equalPrefix (sp x : TagToStreamIDsRowParser) : Bool := sp.tenantId == x.tenantId && sp.tag == x.tag

def streamIDsLen (sp : TagToStreamIDsRowParser) : Nat := sp.tail.length / 16

def parseStreamIDs (sp : TagToStreamIDsRowParser) : Outcome (List U128) :=
  ((Unmarshal.times (fun _ => U128.unmarshal) 0 (sp.tail.length / 16) sp.tail).map Prod.fst).mapError
    fun err => .panic ("FATAL: cannot unmarshal streamID: " ++ err)

end TagToStreamIDsRowParser

/-! ### Merging -/

/-- `TagToStreamIDsRowsMerger`; its other parser holds nothing between two rows. -/
structure TagToStreamIDsRowsMerger where
  pendingStreamIds : List U128
  spPrev : TagToStreamIDsRowParser
  deriving DecidableEq, Repr

/-- `Vec::dedup`: equal neighbours become one. -/
def dedupAdjacent {α : Type} [DecidableEq α] : List α → List α
  | a :: b :: l => if a = b then dedupAdjacent (b :: l) else a :: dedupAdjacent (b :: l)
  | l => l

/-- The order of `U128`, as `sort` uses it. -/
def sortStreamIDs (ids : List U128) : List U128 := ids.mergeSort fun a b => !b.less a

/-- `flush_pending_stream_ids`, with the items written so far. -/
def flushPendingStreamIDs (tsm : TagToStreamIDsRowsMerger) (dst : InmemoryBlock) :
    TagToStreamIDsRowsMerger × InmemoryBlock :=
  if tsm.pendingStreamIds = [] then (tsm, dst)
  else
    ({ tsm with pendingStreamIds := [] },
      dst.push (tsm.spPrev.marshalPrefix ++
        (dedupAdjacent (sortStreamIDs tsm.pendingStreamIds)).flatMap U128.marshal))

/-- Writes an item as it is, after what is pending. -/
def writeItem (tsm : TagToStreamIDsRowsMerger) (dst : InmemoryBlock) (item : Bytes) :
    TagToStreamIDsRowsMerger × InmemoryBlock :=
  let (tsm, dst) := flushPendingStreamIDs tsm dst
  (tsm, dst.push item)

/-- The body of the loop of `merge_tag_to_stream_ids_rows`; the first and the last item are at an
edge. -/
def mergeItem (edge : Bool) (tsm : TagToStreamIDsRowsMerger) (dst : InmemoryBlock) (item : Bytes) :
    Outcome (TagToStreamIDsRowsMerger × InmemoryBlock) :=
  if item.head? ≠ some nsPrefixTagToStreamIDs ∨ edge then .ok (writeItem tsm dst item)
  else do
    let sp ← (TagToStreamIDsRowParser.init item).mapError fun err =>
      .panic ("FATAL: cannot parse row during merge: " ++ err)
    if sp.streamIDsLen ≥ maxStreamIDsPerRow then return writeItem tsm dst item
    else do
      let (tsm, dst) := if ¬sp.equalPrefix tsm.spPrev then flushPendingStreamIDs tsm dst
        else (tsm, dst)
      let streamIds ← sp.parseStreamIDs
      let tsm : TagToStreamIDsRowsMerger := ⟨tsm.pendingStreamIds ++ streamIds, sp⟩
      return if tsm.pendingStreamIds.length ≥ maxStreamIDsPerRow then flushPendingStreamIDs tsm dst
        else (tsm, dst)

/-- The loop of `merge_tag_to_stream_ids_rows`, from the first item on or from a later one. -/
def mergeItems : Bool → List Bytes → TagToStreamIDsRowsMerger → InmemoryBlock →
    Outcome (TagToStreamIDsRowsMerger × InmemoryBlock)
  | _, [], tsm, dst => .ok (tsm, dst)
  | isFirst, item :: items, tsm, dst => do
    let (tsm, dst) ← mergeItem (isFirst || items.isEmpty) tsm dst item
    mergeItems false items tsm dst

/-- `merge_tag_to_stream_ids_rows` for the data and the items of a block. -/
def mergeTagToStreamIDsRows (data : Bytes) (items : List Item) : Outcome (Bytes × List Item) :=
  let ib : InmemoryBlock := ⟨[], data, items⟩
  if items.length ≤ 2 then .ok (data, items)
  else if (ib.itemList.headD []).head?.any (· > nsPrefixTagToStreamIDs) then .ok (data, items)
  else if (ib.itemList.getLastD []).head?.any (· < nsPrefixTagToStreamIDs) then .ok (data, items)
  else do
    let (tsm, dst) ← mergeItems true ib.itemList ⟨[], .empty⟩ InmemoryBlock.empty
    if tsm.pendingStreamIds ≠ [] then
      .error (.panic ("BUG: tsm.pending_stream_ids must be empty at this point; got " ++
        toString tsm.pendingStreamIds.length ++ " items"))
    else if ¬dst.isSorted then
      -- duplicate stream ids can break the order: the items are left for the next merge
      if ¬ib.isSorted then .error (.panic "BUG: the original items weren't sorted")
      else .ok (data, items)
    else .ok (dst.data, dst.items)

end Indexdb

end EsLogs
