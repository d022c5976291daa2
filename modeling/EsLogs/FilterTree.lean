import EsLogs.Bitmap
import EsLogs.BlockHeader
import EsLogs.BlockResult

/-!
Filters over blocks (`filter.rs`, `filter_and.rs`, `filter_or.rs`, `filter_not.rs`, `filter_generic.rs`).
A filter is applied to a bitmap of the rows that are still in question and clears the bits of the rows
that do not match. Disjunctions and negations work on copies of the bitmap; a field name that ends with
`*` stands for every column of the block with the prefix. The filters at the leaves are any objects with
the methods of the traits.
-/

namespace EsLogs

/-! ### Filters by name (`prefix_filter.rs`) -/

structure InnerFilter where
  fullStrings : List Bytes
  wildcards : List Bytes
  deriving DecidableEq, Repr

def InnerFilter.matchWildcard (f : InnerFilter) (wildcard : Bytes) : Bool :=
  f.wildcards.any fun wc => wc.isPrefixOf wildcard

def InnerFilter.matchString (f : InnerFilter) (s : Bytes) : Bool :=
  if f.fullStrings.isEmpty && f.wildcards.isEmpty then false
  else f.matchWildcard s || f.fullStrings.any fun x => x == s

structure NameFilter where
  allow : InnerFilter
  deny : InnerFilter
  deriving DecidableEq, Repr

def NameFilter.matchString (f : NameFilter) (s : Bytes) : Bool :=
  f.allow.matchString s && !f.deny.matchString s

def isWildcardFilter (filter : Bytes) : Bool := filter.getLast? == some (byte '*')

/-! ### Blocks that are searched -/

/-- The parts of `BlockSearch` that compound filters use: the names that are hidden, the columns header
as reading and unmarshaling it gives it, and its cache. The other caches belong to the leaves. -/
structure BlockSearch (κ : Type) where
  hiddenFieldsFilter : NameFilter
  columnsHeader : Outcome ColumnsHeader
  cshCache : Option ColumnsHeader
  caches : κ

variable {κ : Type}

def BlockSearch.isHiddenField (bs : BlockSearch κ) (name : Bytes) : Bool :=
  bs.hiddenFieldsFilter.matchString name

def BlockSearch.getColumnsHeader (bs : BlockSearch κ) : Outcome (BlockSearch κ × ColumnsHeader) :=
  match bs.cshCache with
  | some csh => .ok (bs, csh)
  | none => do
    let csh ← bs.columnsHeader
    return ({ bs with cshCache := some csh }, csh)

def specialColumns : List Bytes := [ascii "_msg", ascii "_time", ascii "_stream", ascii "_stream_id"]

def isSpecialColumn (c : Bytes) : Bool :=
  if c.isEmpty then true
  else if c.head? != some (byte '_') then false
  else c == ascii "_time" || c == ascii "_stream" || c == ascii "_stream_id"

/-! ### The traits -/

abbrev BitmapStep (S : Type) := S → Bitmap → Outcome (S × Bitmap)

/-- The trait `FieldFilter`. -/
class FieldFilter (F : Type) (κ : outParam Type) where
  matchRowByField : F → List Field → Bytes → Bool
  applyToBlockSearchByField : F → Bytes → BitmapStep (BlockSearch κ)
  applyToBlockResultByField : F → Bytes → BitmapStep BlockResult

/-- The trait `Filter`, as the filters without subfilters implement it. -/
class LeafFilter (L : Type) (κ : outParam Type) where
  applyToBlockSearch : L → BitmapStep (BlockSearch κ)
  applyToBlockResult : L → BitmapStep BlockResult

/-! ### Disjunctions -/

/-- One round of the loops of the disjunctions: the rows that are left are those which the step, applied
to a copy, does not keep. -/
def orRound {S : Type} (apply : BitmapStep S) (s : S) (bmResult : Bitmap) : Outcome (S × Bitmap) := do
  let bmTmp := (Bitmap.init bmResult.bitsLen).copyFrom bmResult
  let (s, bmTmp) ← apply s bmTmp
  let bmResult ← bmResult.andNot bmTmp
  return (s, bmResult)

/-- A loop over names; `none` when it returns early, since no row is left. -/
def orLoop {S : Type} (apply : Bytes → BitmapStep S) : List Bytes → S → Bitmap → Outcome (S × Option Bitmap)
  | [], s, bmResult => .ok (s, some bmResult)
  | name :: names, s, bmResult => do
    let (s, bmResult) ← orRound (apply name) s bmResult
    if bmResult.isZero then return (s, none) else orLoop apply names s bmResult

/-- The end of a disjunction: the rows that are left are cleared. -/
def orFinish {S : Type} (bm : Bitmap) : S × Option Bitmap → Outcome (S × Bitmap)
  | (s, none) => .ok (s, bm)
  | (s, some bmResult) => do
    let bm ← bm.andNot bmResult
    return (s, bm)

/-! ### Filters on fields -/

structure FilterGeneric (F : Type) where
  fieldName : Bytes
  isWildcard : Bool
  f : F

namespace FilterGeneric

variable {F : Type}

def new (fieldName : Bytes) (f : F) : FilterGeneric F :=
  if isWildcardFilter fieldName then ⟨fieldName, true, f⟩
  else ⟨getCanonicalColumnName fieldName, false, f⟩

def wildcard (g : FilterGeneric F) : Bytes := g.fieldName.dropLast

variable [FieldFilter F κ]

def matchRow (g : FilterGeneric F) (fields : List Field) : Bool :=
  if !g.isWildcard then FieldFilter.matchRowByField g.f fields g.fieldName
  else fields.any fun f =>
    g.wildcard.isPrefixOf f.name && FieldFilter.matchRowByField g.f fields f.name

/-- The second and third loop of `FilterGeneric::apply_to_block_search`, over the columns of the block
that are not special. -/
def searchColumns (g : FilterGeneric F) (bs : BlockSearch κ) (bmResult : Bitmap) :
    Outcome (BlockSearch κ × Option Bitmap) := do
  let (bs, csh) ← bs.getColumnsHeader
  let names := csh.constColumns.map (·.name) ++ csh.columnHeaders.map (·.name)
  orLoop (FieldFilter.applyToBlockSearchByField g.f)
    (names.filter fun name =>
      !isSpecialColumn name && g.wildcard.isPrefixOf name && !bs.isHiddenField name) bs bmResult

def applyToBlockSearch (g : FilterGeneric F) : BitmapStep (BlockSearch κ) := fun bs bm =>
  if !g.isWildcard then FieldFilter.applyToBlockSearchByField g.f g.fieldName bs bm
  else do
    let bmResult := (Bitmap.init bm.bitsLen).copyFrom bm
    let (bs, left) ← orLoop (FieldFilter.applyToBlockSearchByField g.f)
      (specialColumns.filter fun name => g.wildcard.isPrefixOf name && !bs.isHiddenField name) bs bmResult
    match left with
    | none => return (bs, bm)
    | some bmResult => do
      let r ← g.searchColumns bs bmResult
      orFinish bm r

def applyToBlockResult (g : FilterGeneric F) : BitmapStep BlockResult := fun br bm =>
  if !g.isWildcard then FieldFilter.applyToBlockResultByField g.f g.fieldName br bm
  else do
    let bmResult := (Bitmap.init bm.bitsLen).copyFrom bm
    let (br, cols) := br.getColumns
    let columns ← cols.mapM br.col
    let r ← orLoop (FieldFilter.applyToBlockResultByField g.f)
      ((columns.map (·.name)).filter fun name => g.wildcard.isPrefixOf name) br bmResult
    orFinish bm r

end FilterGeneric

/-! ### Trees -/

/-- A filter: `FilterAnd`, `FilterOr` and `FilterNot` over filters on fields and other leaves. -/
inductive Filter (L F : Type) where
  | leaf (l : L)
  | generic (g : FilterGeneric F)
  | and (filters : List (Filter L F))
  | or (filters : List (Filter L F))
  | not (f : Filter L F)

namespace Filter

variable {L F S : Type}

/-- Induction over trees; the children of a conjunction or a disjunction are a list. -/
@[elab_as_elim]
theorem induction {motive : Filter L F → Prop} (leaf : ∀ l, motive (.leaf l)) (generic : ∀ g, motive (.generic g))
    (and : ∀ filters, (∀ f ∈ filters, motive f) → motive (.and filters))
    (or : ∀ filters, (∀ f ∈ filters, motive f) → motive (.or filters))
    (not : ∀ f, motive f → motive (.not f)) (f : Filter L F) : motive f :=
  @Filter.rec L F motive (fun filters => ∀ f ∈ filters, motive f) leaf generic and or not (List.forall_mem_nil _)
    (fun _ _ hf hfilters => List.forall_mem_cons.2 ⟨hf, hfilters⟩) f

/-- How the leaves of a tree are applied to one kind of block. -/
structure Leaves (L F S : Type) where
  leaf : L → BitmapStep S
  generic : FilterGeneric F → BitmapStep S

mutual

/-- The body that `apply_to_block_search` and `apply_to_block_result` share. -/
def applyWith (leaves : Leaves L F S) : Filter L F → BitmapStep S
  | .leaf l, s, bm => leaves.leaf l s bm
  | .generic g, s, bm => leaves.generic g s bm
  | .and filters, s, bm => applyAnd leaves filters s bm
  | .or filters, s, bm => do
    let bmResult := (Bitmap.init bm.bitsLen).copyFrom bm
    let r ← applyOr leaves filters s bmResult
    orFinish bm r
  | .not f, s, bm => do
    let bmTmp := (Bitmap.init bm.bitsLen).copyFrom bm
    let (s, bmTmp) ← applyWith leaves f s bmTmp
    let bm ← bm.andNot bmTmp
    return (s, bm)

def applyAnd (leaves : Leaves L F S) : List (Filter L F) → BitmapStep S
  | [], s, bm => .ok (s, bm)
  | f :: filters, s, bm => do
    let (s, bm) ← applyWith leaves f s bm
    if bm.isZero then return (s, bm) else applyAnd leaves filters s bm

/-- The loop of `FilterOr`; `none` when it returns early, since no row is left. -/
def applyOr (leaves : Leaves L F S) : List (Filter L F) → S → Bitmap → Outcome (S × Option Bitmap)
  | [], s, bmResult => .ok (s, some bmResult)
  | f :: filters, s, bmResult => do
    let (s, bmResult) ← orRound (applyWith leaves f) s bmResult
    if bmResult.isZero then return (s, none) else applyOr leaves filters s bmResult

end

def applyToBlockSearch [LeafFilter L κ] [FieldFilter F κ] (f : Filter L F) : BitmapStep (BlockSearch κ) :=
  f.applyWith ⟨LeafFilter.applyToBlockSearch, FilterGeneric.applyToBlockSearch⟩

def applyToBlockResult [LeafFilter L κ] [FieldFilter F κ] (f : Filter L F) : BitmapStep BlockResult :=
  f.applyWith ⟨LeafFilter.applyToBlockResult, FilterGeneric.applyToBlockResult⟩

end Filter

end EsLogs
