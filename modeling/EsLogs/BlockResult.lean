import EsLogs.ValuesEncoder
import EsLogs.Rows

/-!
Blocks of query results (`block_result.rs`): named columns over a number of rows. A column has one value
for all rows, or holds the times of the rows, or has one encoded value for each row. Columns are listed
in the order in which they were added; of columns with one name the last one counts, at the place of the
first. What the source reads and decodes on demand is there from the start.
-/

namespace EsLogs

open NumberText ColumnValues

/-- What a column holds: `is_const` and `is_time` of `BlockResultColumn` and the data that belongs to
either, or to neither. -/
inductive ColumnContent where
  | const (value : Bytes)
  | time
  | encoded (valueType : ValueType) (dictValues valuesEncoded : List Bytes)
  deriving DecidableEq, Repr

structure BlockResultColumn where
  name : Bytes
  content : ColumnContent
  deriving DecidableEq, Repr

/-- `ColRef`: a column, or a column that was asked for and is missing. -/
inductive ColRef where
  | buf (i : Nat)
  | empty (i : Nat)
  deriving DecidableEq, Repr

structure BlockResult where
  rowsLen : Nat
  timestampsBuf : List Int
  csBuf : List BlockResultColumn
  csEmpty : List BlockResultColumn
  cs : List Nat
  csInitialized : Bool
  deriving DecidableEq, Repr

namespace BlockResult

def csAddOrReplace (csBuf : List BlockResultColumn) (cs : List Nat) (ci : Nat) : List Nat :=
  match cs.findIdx? fun existing => csBuf[existing]?.map (·.name) = csBuf[ci]?.map (·.name) with
  | some pos => cs.set pos ci
  | none => cs ++ [ci]

def csInit (br : BlockResult) : BlockResult :=
  { br with
    cs := (List.range br.csBuf.length).foldl (csAddOrReplace br.csBuf) []
    csInitialized := true }

def ensureCs (br : BlockResult) : BlockResult := if br.csInitialized then br else br.csInit

def getColumns (br : BlockResult) : BlockResult × List ColRef :=
  let br := br.ensureCs
  (br, br.cs.map .buf)

def col (br : BlockResult) (r : ColRef) : Outcome BlockResultColumn :=
  let c := match r with
    | .buf i => br.csBuf[i]?
    | .empty i => br.csEmpty[i]?
  match c with
  | some c => .ok c
  | none => .error (.panic "index out of bounds")

def getEmptyColumnByName (br : BlockResult) (columnName : Bytes) : BlockResult × ColRef :=
  match br.csEmpty.findIdx? fun c => c.name = columnName with
  | some i => (br, .empty i)
  | none =>
    ({ br with csEmpty := br.csEmpty ++ [⟨columnName, .const []⟩] }, .empty br.csEmpty.length)

def getColumnByName (br : BlockResult) (columnName : Bytes) : BlockResult × ColRef :=
  let br := br.ensureCs
  let columnName := getCanonicalColumnName columnName
  match br.cs.find? fun ci => br.csBuf[ci]?.map (·.name) = some columnName with
  | some ci => (br, .buf ci)
  | none => br.getEmptyColumnByName columnName

/-- `BlockResult::new_values_for_column`, on which `column_get_values` is based; floats are left to a
codec. -/
def columnGetValues (c : Float64Codec) (br : BlockResult) (r : ColRef) : Outcome (List Bytes) := do
  let column ← br.col r
  match column.content with
  | .const value => return List.replicate br.rowsLen value
  | .time => return br.timestampsBuf.map marshalTimestampRfc3339NanoString
  | .encoded valueType dictValues valuesEncoded => valuesEncoded.mapM (decodeValue c valueType dictValues)

end BlockResult

end EsLogs
