import EsLogs.FilterTree
import EsLogs.Float64Text

/-!
Searching one column of a block on disk (`block_search.rs` and the shared parts of `filter_phrase.rs`,
`filter_prefix.rs` and `filter_exact.rs`). A filter on a field looks at the value that all rows share, or at the header
of the column; it may drop all rows by the header or by the Bloom filter, and else visits the encoded values of the
rows that are still in question.
-/

namespace EsLogs

open ColumnValues Encoding NumberText

/-! ### The block -/

/-- What the files of a part hold for a block, as reading and unmarshaling it gives it: values that all rows share,
the headers of the other columns and their encoded values. -/
structure BlockFiles where
  partPath : String
  constColumnValue : Bytes → Bytes
  columnHeader : Bytes → Option ColumnHeader
  values : ColumnHeader → List Bytes

def getCanonicalFieldName (fieldName : Bytes) : Bytes :=
  if fieldName = ascii "_msg" then [] else fieldName

namespace BlockSearch

variable (bs : BlockSearch BlockFiles)

def partPath : String := bs.caches.partPath

def getConstColumnValue (name : Bytes) : Bytes :=
  let name := getCanonicalFieldName name
  if bs.isHiddenField name then [] else bs.caches.constColumnValue name

def getColumnHeader (name : Bytes) : Option ColumnHeader :=
  let name := getCanonicalFieldName name
  if bs.isHiddenField name then none else bs.caches.columnHeader name

def getValuesForColumn (ch : ColumnHeader) : List Bytes := bs.caches.values ch

end BlockSearch

/-! ### Visiting a column -/

/-- What a callback is given that looks at the value of a row. -/
def visitedValue (values : List Bytes) (f : Bytes → Outcome Bool) (idx : Nat) : Outcome Bool :=
  match values[idx]? with
  | none => .error (.panic "index out of bounds")
  | some v => f v

/-- `Bitmap::for_each_set_bit` with a callback that is given the value of the row and may panic. -/
def visitRows (values : List Bytes) (bm : Bitmap) (f : Bytes → Outcome Bool) : Outcome Bitmap := do
  let kept ← (List.range bm.bitsLen).mapM fun idx =>
    if bm.isSetBit idx then visitedValue values f idx else .ok false
  return bm.forEachSetBit fun idx => kept.getD idx false

def visitValues (bs : BlockSearch BlockFiles) (ch : ColumnHeader) (bm : Bitmap) (f : Bytes → Outcome Bool) :
    Outcome Bitmap :=
  if bm.isZero then .ok bm else visitRows (bs.getValuesForColumn ch) bm f

def matchEncodedValuesDict (bs : BlockSearch BlockFiles) (ch : ColumnHeader) (bm : Bitmap)
    (encodedValues : List Bool) : Outcome Bitmap :=
  if !encodedValues.contains true then .ok bm.resetBits
  else visitValues bs ch bm fun v =>
    match v with
    | [idx] =>
      match encodedValues[idx.toNat]? with
      | some matched => .ok matched
      | none => .error (.panic (s!"FATAL: {bs.partPath}: too big index for dict value; got {idx.toNat}; must " ++
          s!"be smaller than {encodedValues.length}"))
    | v => .error (.panic s!"FATAL: {bs.partPath}: unexpected length for dict value: got {v.length}; want 1")

/-- The functions `match_values_dict_by_*`: the values of the dictionary are matched once. -/
def matchValuesDict (bs : BlockSearch BlockFiles) (ch : ColumnHeader) (bm : Bitmap) (matchValue : Bytes → Bool) :
    Outcome Bitmap :=
  matchEncodedValuesDict bs ch bm (ch.valuesDict.values.map matchValue)

/-- The check of a binary value that is made before it is read. -/
def checkBinaryLen (partPath what : String) (want : Nat) (v : Bytes) : Outcome Unit :=
  if v.length ≠ want then
    .error (.panic (s!"FATAL: {partPath}: unexpected length for binary representation of {what} got {v.length}; " ++
      s!"want {want}"))
  else .ok ()

/-- The shape of the functions `apply_to_block_search_by_field`: the value that all rows share, or no column with the
name, or the column. -/
def searchByField (bs : BlockSearch BlockFiles) (bm : Bitmap) (fieldName : Bytes) (matchValue : Bytes → Bool)
    (matchMissing : Bool) (byColumn : ColumnHeader → Outcome Bitmap) : Outcome Bitmap :=
  let v := bs.getConstColumnValue fieldName
  if v ≠ [] then .ok (if matchValue v then bm else bm.resetBits)
  else
    match bs.getColumnHeader fieldName with
    | none => .ok (if matchMissing then bm else bm.resetBits)
    | some ch => byColumn ch

def unknownValueType (bs : BlockSearch BlockFiles) (code : UInt8) : Outcome Bitmap :=
  .error (.panic s!"FATAL: {bs.partPath}: unknown valueType={code.toNat}")

def phraseUtf8 (v : Bytes) : Option Bytes := if Utf8.isValid v then some v else none

end EsLogs
