import EsLogs.Outcome
import EsLogs.Rows

/-!
Blocks of log entries in columns (`block.rs`): how rows are turned into columns and constant columns,
and how the rows are read back from them.
-/

namespace EsLogs

def maxColumnsPerBlock : Nat := 2000

def maxConstColumnValueSize : Nat := 256

structure Column where
  name : Bytes
  values : List Bytes
  deriving DecidableEq, Repr

structure Block where
  timestamps : List Int
  columns : List Column
  constColumns : List Field
  deriving DecidableEq, Repr

def Block.uncompressedSizeBytes (b : Block) : Nat :=
  if b.timestamps.length = 0 then 0
  else
    estimatedJsonRowBase * b.timestamps.length +
      (b.constColumns.map fun f =>
        estimatedJsonFieldLen (getCanonicalColumnName f.name) f.value * b.timestamps.length).sum +
      (b.columns.map fun c =>
        (c.values.map fun v => (Field.mk c.name v).estimatedLen).sum).sum

/-- The fields of one row: the constant columns, then the columns with a value in that row. -/
def Block.fieldsAt (b : Block) (i : Nat) : List Field :=
  b.constColumns ++ b.columns.filterMap fun c =>
    let value := c.values.getD i []
    if value = [] then none else some ⟨c.name, value⟩

/-- `Block::append_rows_to`, into an empty destination. -/
def Block.appendRowsTo (b : Block) : List Row :=
  b.timestamps.zipIdx.map fun (timestamp, i) => ⟨timestamp, b.fieldsAt i⟩

/-- `assert_timestamps_sorted`, also the first check of `Block::assert_valid`. -/
def assertTimestampsSorted : List Int → Outcome Unit
  | prev :: cur :: rest =>
    if prev > cur then
      throw (.panic ("BUG: log entries must be sorted by timestamp; got the previous entry with " ++
        "bigger timestamp " ++ toString prev ++ " than the current entry with timestamp " ++
        toString cur))
    else assertTimestampsSorted (cur :: rest)
  | _ => pure ()

/-- The loop of `Block::assert_valid` over the columns; the name in its message is shown as bytes. -/
def assertColumnsLen (itemsCount : Nat) : List Column → Outcome Unit
  | [] => pure ()
  | c :: cs =>
    if c.values.length ≠ itemsCount then
      throw (.panic ("BUG: unexpected number of values for column " ++ toString c.name ++ ": got " ++
        toString c.values.length ++ "; want " ++ toString itemsCount))
    else assertColumnsLen itemsCount cs

def Block.assertValid (b : Block) : Outcome Unit := do
  assertTimestampsSorted b.timestamps
  assertColumnsLen b.timestamps.length b.columns

/-! ### From rows to columns -/

def areSameFieldsInRows : List Row → Bool
  | r :: s :: rest =>
    decide (r.fields.map Field.name).Nodup &&
      (s :: rest).all fun le => le.fields.map Field.name = r.fields.map Field.name
  | _ => true

def Row.valueAt (r : Row) (i : Nat) : Bytes := (r.fields[i]?.map Field.value).getD []

/-- Whether a column of values is kept as one constant: the free function and the method
`can_store_in_const_column`. -/
def canStoreInConstColumn : List Bytes → Bool
  | [] => true
  | value :: values => value.length ≤ maxConstColumnValueSize && values.all (value = ·)

/-- The fast path: the rows have the same fields in the same order. -/
def initFromSameFields (rows : List Row) (fields : List Field) : Block where
  timestamps := rows.map Row.timestamp
  columns := (fields.zipIdx.filter fun (_, i) => !canStoreInConstColumn (rows.map (·.valueAt i))).map
    fun (f, i) => ⟨f.name, rows.map (·.valueAt i)⟩
  constColumns := (fields.zipIdx.filter fun (_, i) =>
    canStoreInConstColumn (rows.map (·.valueAt i))).map Prod.fst

/-- A name gets the next index unless it has one. -/
def addColumnName (names : List Bytes) (f : Field) : List Bytes :=
  if f.name ∈ names then names else names ++ [f.name]

/-- The names of the columns in the order of their indexes, and the number of rows they are for: the
rows from the first one that could exceed the limit on are ignored. -/
def columnIdxs : List Bytes → List Row → List Bytes × Nat
  | names, [] => (names, 0)
  | names, r :: rows =>
    if names.length + r.fields.length > maxColumnsPerBlock then (names, 0)
    else
      let (all, rowsProcessed) := columnIdxs (r.fields.foldl addColumnName names) rows
      (all, rowsProcessed + 1)

/-- What is left in the cell of a row when its fields have been written: the last value wins. -/
def Row.cellValue (r : Row) (name : Bytes) : Bytes :=
  r.fields.foldl (fun value f => if f.name = name then f.value else value) []

def initColumns (names : List Bytes) (rows : List Row) : List Column :=
  names.map fun name => ⟨name, rows.map (·.cellValue name)⟩

/-- The detection of constant columns, from the last column to the first: a constant column gives its
place to the last one. -/
def detectConstColumns : Nat → List Column → List Field → List Column × List Field
  | 0, cs, ccs => (cs, ccs)
  | i + 1, cs, ccs =>
    match cs[i]?, cs.getLast? with
    | some c, some last =>
      if canStoreInConstColumn c.values then
        detectConstColumns i (cs.set i last).dropLast (ccs ++ [⟨c.name, c.values.headD []⟩])
      else detectConstColumns i cs ccs
    | _, _ => (cs, ccs)

def initFromRows (rows : List Row) : Block :=
  match rows with
  | [] => ⟨[], [], []⟩
  | r :: _ =>
    if areSameFieldsInRows rows then initFromSameFields rows r.fields
    else
      let (names, rowsProcessed) := columnIdxs [] rows
      let rows := rows.take rowsProcessed
      if rows.isEmpty then ⟨[], [], []⟩
      else
        let (columns, constColumns) := detectConstColumns names.length (initColumns names rows) []
        ⟨rows.map Row.timestamp, columns, constColumns⟩

def Block.sortColumnsByName (b : Block) : Outcome Block :=
  if b.columns.length + b.constColumns.length > maxColumnsPerBlock then
    throw (.panic ("BUG: too big number of columns detected in the block: " ++
      toString (b.columns.length + b.constColumns.length) ++
      "; the number of columns mustn't exceed " ++ toString maxColumnsPerBlock))
  else
    pure { b with
      columns := b.columns.insertionSort (·.name ≤ ·.name)
      constColumns := b.constColumns.insertionSort (·.name ≤ ·.name) }

def mustInitFromRows (rows : List Row) : Outcome Block := do
  assertTimestampsSorted (rows.map Row.timestamp)
  (initFromRows rows).sortColumnsByName

end EsLogs
