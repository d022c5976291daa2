import EsLogs.BlockPacking
import EsLogs.FilterTree
import EsLogs.StreamFilter

/-!
The filter of a query (`parser/query.rs`, `storage_search.rs`): the leaves that the query planner knows,
how they are applied to the blocks of a partition, how the filter is optimized, and what is read off from
it before blocks are searched: a time range, stream ids and a stream filter.
-/

namespace EsLogs

variable {R L F κ : Type}

/-! ### Stream filters in the index -/

/-- The index of a partition, as far as searches for streams use it: what
`get_stream_ids_for_tag_filter` gives for the streams that are registered. -/
structure IndexSearch (R : Type) where
  getStreamIdsForTagFilter : TenantID → StreamTagFilter R → List U128

namespace IndexSearch

/-- The loop of `update_stream_ids`; an empty set ends it with nothing. -/
def intersectTagFilters (is : IndexSearch R) (tenantId : TenantID) :
    Option (List U128) → List (StreamTagFilter R) → List U128
  | m, [] => m.getD []
  | m, tf :: tagFilters =>
    let ids := is.getStreamIdsForTagFilter tenantId tf
    if ids.isEmpty then []
    else
      let m := m.elim ids fun cur => cur.filter fun id => ids.contains id
      intersectTagFilters is tenantId (some m) tagFilters

/-- `search_stream_ids`, without the cache; the ids are in some order. -/
def searchStreamIds (is : IndexSearch R) (tenantIds : List TenantID) (sf : StreamFilter R) :
    List StreamID :=
  tenantIds.flatMap fun tenantId => sf.orFilters.flatMap fun af =>
    (is.intersectTagFilters tenantId none af.tagFilters).map fun id => ⟨tenantId, id⟩

end IndexSearch

/-! ### Leaves -/

/-- The leaves that the planner knows: `FilterNoop`, `FilterTime`, `FilterStream` and `FilterStreamID`, and
the other ones. -/
inductive QueryLeaf (R L : Type) where
  | noop
  | time (minTimestamp maxTimestamp : Int)
  | stream (f : StreamFilter R)
  | streamId (streamIds : List StreamID)
  | other (l : L)

/-- What the leaves read of a block that is searched: its header, its timestamps, the tenants of the query
and the index of its partition. -/
structure SearchContext (R κ : Type) where
  blockHeader : BlockHeader
  timestamps : Outcome (List Int)
  streamFilterTenantIds : List TenantID
  idb : IndexSearch R
  caches : κ

/-- A block has a timestamp for each of its rows, so that the last case does not occur; the source would
panic there. -/
def applyFilterTime (minTimestamp maxTimestamp : Int) : BitmapStep (BlockSearch (SearchContext R κ)) :=
  fun bs bm =>
    let th := bs.caches.blockHeader.timestampsHeader
    if minTimestamp > maxTimestamp then .ok (bs, bm.resetBits)
    else if minTimestamp > th.maxTimestamp ∨ maxTimestamp < th.minTimestamp then .ok (bs, bm.resetBits)
    else if minTimestamp ≤ th.minTimestamp ∧ maxTimestamp ≥ th.maxTimestamp then .ok (bs, bm)
    else do
      let timestamps ← bs.caches.timestamps
      return (bs, bm.forEachSetBit fun idx =>
        match timestamps[idx]? with
        | some ts => ts ≥ minTimestamp && ts ≤ maxTimestamp
        | none => false)

def applyFilterStream (f : StreamFilter R) : BitmapStep (BlockSearch (SearchContext R κ)) := fun bs bm =>
  if f.isEmpty then .ok (bs, bm)
  else
    let streamIds := bs.caches.idb.searchStreamIds bs.caches.streamFilterTenantIds f
    if !streamIds.contains bs.caches.blockHeader.streamId then .ok (bs, bm.resetBits) else .ok (bs, bm)

def applyFilterStreamId (streamIds : List StreamID) : BitmapStep (BlockSearch (SearchContext R κ)) :=
  fun bs bm =>
    let m := streamIds.map StreamID.marshalString
    if m.isEmpty then .ok (bs, bm.resetBits)
    else if !m.contains bs.caches.blockHeader.streamId.marshalString then .ok (bs, bm.resetBits)
    else .ok (bs, bm)

def QueryLeaf.applyToBlockSearch [LeafFilter L (SearchContext R κ)] :
    QueryLeaf R L → BitmapStep (BlockSearch (SearchContext R κ))
  | .noop => fun bs bm => .ok (bs, bm)
  | .time minTimestamp maxTimestamp => applyFilterTime minTimestamp maxTimestamp
  | .stream f => applyFilterStream f
  | .streamId streamIds => applyFilterStreamId streamIds
  | .other l => LeafFilter.applyToBlockSearch l

abbrev QueryFilter (R L F : Type) := Filter (QueryLeaf R L) F

def QueryFilter.applyToBlockSearch [LeafFilter L (SearchContext R κ)] [FieldFilter F (SearchContext R κ)]
    (f : QueryFilter R L F) : BitmapStep (BlockSearch (SearchContext R κ)) :=
  Filter.applyWith ⟨QueryLeaf.applyToBlockSearch, FilterGeneric.applyToBlockSearch⟩ f

/-! ### Optimizing -/

namespace QueryFilter

def newFilterNoop : QueryFilter R L F := .leaf .noop

mutual

/-- `flatten_filters_and`; negations are not looked into. -/
def flattenFiltersAnd : QueryFilter R L F → QueryFilter R L F
  | .or children => .or (flattenOrChildren children)
  | .and children => .and (flattenAndChildren children)
  | .leaf l => .leaf l
  | .generic g => .generic g
  | .not f => .not f

def flattenOrChildren : List (QueryFilter R L F) → List (QueryFilter R L F)
  | [] => []
  | child :: children => flattenFiltersAnd child :: flattenOrChildren children

/-- The children of a conjunction, flattened, with the children of conjunctions in their place. -/
def flattenAndChildren : List (QueryFilter R L F) → List (QueryFilter R L F)
  | [] => []
  | child :: children =>
    match flattenFiltersAnd child with
    | .and grandchildren => grandchildren ++ flattenAndChildren children
    | child => child :: flattenAndChildren children

end

mutual

/-- `flatten_filters_or`; negations are not looked into. -/
def flattenFiltersOr : QueryFilter R L F → QueryFilter R L F
  | .and children => .and (flattenAllChildren children)
  | .or children => .or (flattenAnyChildren children)
  | .leaf l => .leaf l
  | .generic g => .generic g
  | .not f => .not f

def flattenAllChildren : List (QueryFilter R L F) → List (QueryFilter R L F)
  | [] => []
  | child :: children => flattenFiltersOr child :: flattenAllChildren children

/-- The children of a disjunction, flattened, with the children of disjunctions in their place. -/
def flattenAnyChildren : List (QueryFilter R L F) → List (QueryFilter R L F)
  | [] => []
  | child :: children =>
    match flattenFiltersOr child with
    | .or grandchildren => grandchildren ++ flattenAnyChildren children
    | child => child :: flattenAnyChildren children

end

end QueryFilter

/-- The method `is_empty_prefix` of the trait `FieldFilter`. -/
class EmptyPrefix (F : Type) where
  isEmptyPrefix : F → Bool

def isMsgFieldName (fieldName : Bytes) : Bool := fieldName.isEmpty || fieldName == ascii "_msg"

def FilterGeneric.isMatchAll [EmptyPrefix F] (g : FilterGeneric F) : Bool :=
  !g.isWildcard && isMsgFieldName g.fieldName && EmptyPrefix.isEmptyPrefix g.f

namespace QueryFilter

variable [EmptyPrefix F]

def isMatchAll : QueryFilter R L F → Bool
  | .leaf .noop => true
  | .generic g => g.isMatchAll
  | _ => false

mutual

/-- `remove_star_filters`; negations are not looked into. -/
def removeStarFilters : QueryFilter R L F → QueryFilter R L F
  | .or children =>
    let children := removeStarChildren children
    if children.any isMatchAll then newFilterNoop else .or children
  | .and children =>
    match (removeStarChildren children).filter fun c => !c.isMatchAll with
    | [] => newFilterNoop
    | [child] => child
    | children => .and children
  | .leaf l => if isMatchAll (F := F) (.leaf l) then newFilterNoop else .leaf l
  | .generic g => if g.isMatchAll then newFilterNoop else .generic g
  | .not f => .not f

def removeStarChildren : List (QueryFilter R L F) → List (QueryFilter R L F)
  | [] => []
  | child :: children => removeStarFilters child :: removeStarChildren children

end

end QueryFilter

/-- The conjunction of the filters that `merge_filters_stream_internal` merges, each of which is one
conjunction. -/
def StreamFilter.merged (fss : List (StreamFilter R)) : StreamFilter R :=
  let tfs := fss.flatMap fun sf => sf.orFilters.flatMap (·.tagFilters)
  { orFilters := [⟨tfs⟩]
    shape := by
      by_cases htfs : tfs = []
      · exact .inl (by rw [htfs])
      · refine .inr fun af haf => ?_
        obtain rfl := List.mem_singleton.1 haf
        exact htfs }

def mergeFiltersStreamInternal (fss : List (StreamFilter R)) : List (StreamFilter R) :=
  if fss.length < 2 then fss
  else if fss.any fun sf => sf.orFilters.length != 1 then fss
  else [.merged fss]

namespace QueryFilter

/-- `Filter::as_stream_filter`, and `take_stream_filter`. -/
def asStreamFilter : QueryFilter R L F → Option (StreamFilter R)
  | .leaf (.stream sf) => some sf
  | _ => none

def mergeFiltersStream : QueryFilter R L F → QueryFilter R L F
  | .and children =>
    let fss := children.filterMap asStreamFilter
    let otherFilters := children.filter fun child => (asStreamFilter child).isNone
    if fss.isEmpty then .and otherFilters
    else .and ((mergeFiltersStreamInternal fss).map (fun sf => .leaf (.stream sf)) ++ otherFilters)
  | f => f

def optimizeFilters [EmptyPrefix F] (f : QueryFilter R L F) : QueryFilter R L F :=
  mergeFiltersStream (removeStarFilters (flattenFiltersOr (flattenFiltersAnd f)))

/-- The negation that `parse_filter_not` makes of a filter. -/
def parseFilterNot : QueryFilter R L F → QueryFilter R L F
  | .not f => f
  | f => .not f

def unnegated : QueryFilter R L F → QueryFilter R L F
  | .not f => f
  | f => f

/-! ### What is read off before the search -/

/-- `i64::MIN`, where a time range without a lower bound begins. -/
def i64Min : Int := -2 ^ 63

/-- `i64::MAX`, where a time range without an upper bound ends. -/
def i64Max : Int := 2 ^ 63 - 1

def andChildren : QueryFilter R L F → Option (List (QueryFilter R L F))
  | .and children => some children
  | _ => none

def orChildren : QueryFilter R L F → Option (List (QueryFilter R L F))
  | .or children => some children
  | _ => none

def filterTimeRange : QueryFilter R L F → Option (Int × Int)
  | .leaf (.time minTimestamp maxTimestamp) => some (minTimestamp, maxTimestamp)
  | _ => none

def filterStreamIds : QueryFilter R L F → Option (List StreamID)
  | .leaf (.streamId streamIds) => some streamIds
  | _ => none

def intersectTimeRanges : Int × Int → List (QueryFilter R L F) → Int × Int
  | range, [] => range
  | (minTimestamp, maxTimestamp), child :: children =>
    match filterTimeRange child with
    | some (ftMin, ftMax) =>
      intersectTimeRanges
        (if ftMin > minTimestamp then ftMin else minTimestamp,
          if ftMax < maxTimestamp then ftMax else maxTimestamp) children
    | none => intersectTimeRanges (minTimestamp, maxTimestamp) children

def getFilterTimeRange (f : QueryFilter R L F) : Int × Int :=
  match andChildren f with
  | some children => intersectTimeRanges (i64Min, i64Max) children
  | none => (filterTimeRange f).getD (i64Min, i64Max)

def unionStreamIds : Nat → List StreamID → List (QueryFilter R L F) → List StreamID × Bool
  | streamIdsFilters, streamIds, [] => (streamIds, streamIdsFilters > 0)
  | streamIdsFilters, streamIds, child :: children =>
    match filterStreamIds child with
    | some ids => unionStreamIds (streamIdsFilters + 1) (streamIds ++ ids) children
    | none => ([], false)

def getStreamIdsFromFilterOr (f : QueryFilter R L F) : List StreamID × Bool :=
  match orChildren f with
  | some children => unionStreamIds 0 [] children
  | none =>
    match filterStreamIds f with
    | some ids => (ids, true)
    | none => ([], false)

def firstStreamIds : List (QueryFilter R L F) → List StreamID
  | [] => []
  | child :: children =>
    match getStreamIdsFromFilterOr child with
    | (streamIds, true) => streamIds
    | (_, false) => firstStreamIds children

def getStreamIds (f : QueryFilter R L F) : List StreamID :=
  match andChildren f with
  | some children => firstStreamIds children
  | none => (getStreamIdsFromFilterOr f).1

def getCommonStreamFilter (f : QueryFilter R L F) : Option (StreamFilter R) :=
  match andChildren f with
  | some children => (children.filterMap asStreamFilter).find? fun sf => !sf.isEmpty
  | none => (asStreamFilter f).filter fun sf => !sf.isEmpty

end QueryFilter

/-- `StorageSearchOptions`, as far as it restricts the blocks that are searched. -/
structure StorageSearchOptions (R : Type) where
  tenantIds : List TenantID
  streamIds : List StreamID
  minTimestamp : Int
  maxTimestamp : Int
  streamFilter : Option (StreamFilter R)

/-- `get_search_options`; the lists of ids are in some order. -/
def getSearchOptions (tenantIds : List TenantID) (f : QueryFilter R L F) : StorageSearchOptions R where
  tenantIds := tenantIds
  streamIds := f.getStreamIds
  minTimestamp := f.getFilterTimeRange.1
  maxTimestamp := f.getFilterTimeRange.2
  streamFilter := f.getCommonStreamFilter

/-- `PartitionSearchOptions`, as far as it restricts the blocks that are searched: the blocks of the stream
ids if there are no tenants, and the blocks of the tenants otherwise. -/
structure PartitionSearchOptions where
  tenantIds : List TenantID
  streamIds : List StreamID
  minTimestamp : Int
  maxTimestamp : Int

/-- `partition_search_options`; the lists of ids are in some order. -/
def partitionSearchOptions (sso : StorageSearchOptions R) (idb : IndexSearch R) : PartitionSearchOptions :=
  match sso.streamFilter with
  | some sf =>
    let streamIds := idb.searchStreamIds sso.tenantIds sf
    let streamIds :=
      if !sso.streamIds.isEmpty then streamIds.filter fun sid => sso.streamIds.contains sid
      else streamIds
    ⟨[], streamIds, sso.minTimestamp, sso.maxTimestamp⟩
  | none =>
    if !sso.streamIds.isEmpty then
      ⟨[], sso.streamIds.filter fun sid => sso.tenantIds.contains sid.tenantId, sso.minTimestamp,
        sso.maxTimestamp⟩
    else ⟨sso.tenantIds, [], sso.minTimestamp, sso.maxTimestamp⟩

end EsLogs
