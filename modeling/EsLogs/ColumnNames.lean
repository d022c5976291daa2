import EsLogs.VarUint

/-!
The names of the columns of a part and the table of the shards that hold their values, as it is written
(`column_names.rs`). The names are read back: they keep their positions, which are their identifiers.
-/

namespace EsLogs

open Encoding Unmarshal List

/-- The compression of index data. -/
structure Zstd where
  compress : Bytes → Bytes
  decompress : Bytes → Except String Bytes

/-- Compression is lossless, and data that does not compress grows by no more than the documented
bound of the format. -/
structure Zstd.Lossless (zstd : Zstd) : Prop where
  decompress_compress : ∀ src, zstd.decompress (zstd.compress src) = .ok src
  length_compress_le : ∀ src, (zstd.compress src).length ≤ src.length + src.length / 256 + 64

def isizeMax : Nat := 2 ^ 63 - 1

/-- `ColumnNameIDGenerator`: the identifier of a name is its position. -/
structure ColumnNameIDGenerator where
  columnNames : List Bytes
  deriving DecidableEq, Repr

def ColumnNameIDGenerator.getColumnNameId (g : ColumnNameIDGenerator) (name : Bytes) :
    Nat × ColumnNameIDGenerator :=
  match g.columnNames.idxOf? name with
  | some id => (id, g)
  | none => (g.columnNames.length, ⟨g.columnNames ++ [name]⟩)

def marshalColumnNames (zstd : Zstd) (columnNames : List Bytes) : Bytes :=
  zstd.compress (marshalVarUint64 columnNames.length ++ columnNames.flatMap marshalBytes)

/-- The loop of `unmarshal_column_names` over the `k` names that are left of `n`. -/
def readColumnNames (n : Nat) : Nat → List Bytes → Unmarshal (List Bytes)
  | 0, columnNames => pure columnNames
  | k + 1, columnNames => do
    let id := columnNames.length
    let name ← readBytes ("cannot parse column name number " ++ toString id ++ " out of " ++
      toString n)
    match columnNames.idxOf? name with
    | some idPrev => Unmarshal.fail ("duplicate ids for column name " ++ toString name ++ ": " ++
        toString idPrev ++ " and " ++ toString id)
    | none => readColumnNames n k (columnNames ++ [name])

/-- `unmarshal_column_names`; the identifiers are the positions of the names. -/
def unmarshalColumnNames (zstd : Zstd) (src : Bytes) : Except String (List Bytes) := do
  let data ← (zstd.decompress src).mapError fun err =>
    "cannot decompress column names from len(src)=" ++ toString src.length ++ ": " ++ err
  Unmarshal.complete (do
    let n ← readVarUint64 ("cannot parse the number of column names for len(src)=" ++
      toString data.length)
    Unmarshal.ensure (n ≤ isizeMax) ("too many distinct column names: " ++ toString n ++
      "; mustn't exceed " ++ toString isizeMax)
    readColumnNames n n []) (fun k =>
      "unexpected non-empty tail left after unmarshaling column name ids; len(tail)=" ++
        toString k) data

/-- `marshal_column_idxs`, with the entries in the order in which the map lists them. -/
def marshalColumnIdxs (columnIdxs : List (Nat × Nat)) : Bytes :=
  marshalVarUint64 columnIdxs.length ++ columnIdxs.flatMap fun e =>
    marshalVarUint64 e.1 ++ marshalVarUint64 e.2

/-! ### The identifiers of names -/

namespace ColumnNameIDGenerator

/-- One generator is the other after it has seen more names. -/
def Extends (g g' : ColumnNameIDGenerator) : Prop := g.columnNames <+: g'.columnNames

theorem Extends.refl (g : ColumnNameIDGenerator) : g.Extends g := prefix_refl _

theorem Extends.trans {g g' g'' : ColumnNameIDGenerator} (h : g.Extends g') (h' : g'.Extends g'') :
    g.Extends g'' := List.IsPrefix.trans h h'

theorem Extends.getElem? {g g' : ColumnNameIDGenerator} (h : g.Extends g') {id : Nat} {name : Bytes}
    (hname : g.columnNames[id]? = some name) : g'.columnNames[id]? = some name := by
  obtain ⟨rest, hrest⟩ := h
  rw [← hrest, List.getElem?_append_left (List.getElem?_eq_some_iff.1 hname).1, hname]

theorem Extends.mem {g g' : ColumnNameIDGenerator} (h : g.Extends g') {name : Bytes}
    (hname : name ∈ g.columnNames) : name ∈ g'.columnNames := List.IsPrefix.mem hname h

/-- A name gets an identifier, and no other name loses its own. -/
theorem getColumnNameId_spec {g : ColumnNameIDGenerator} (hg : g.columnNames.Nodup) (name : Bytes) :
    g.Extends (g.getColumnNameId name).2 ∧ (g.getColumnNameId name).2.columnNames.Nodup ∧
      (g.getColumnNameId name).2.columnNames[(g.getColumnNameId name).1]? = some name ∧
      ∀ n ∈ (g.getColumnNameId name).2.columnNames, n ∈ g.columnNames ∨ n = name := by
  cases hid : g.columnNames.idxOf? name with
  | some id =>
    obtain ⟨s, t, hst, hlen, -⟩ := idxOf?_eq_some_iff_append.1 hid
    simp only [getColumnNameId, hid]
    refine ⟨Extends.refl g, hg, ?_, fun n hn => .inl hn⟩
    rw [hst, getElem?_append_right hlen.le, hlen, Nat.sub_self]
    rfl
  | none =>
    have hnew := idxOf?_eq_none_iff.1 hid
    simp only [getColumnNameId, hid]
    refine ⟨prefix_append _ _, ?_, ?_, fun n hn => ?_⟩
    · exact nodup_append'.2 ⟨hg, nodup_singleton _, disjoint_singleton.2 hnew⟩
    · rw [getElem?_append_right le_rfl, Nat.sub_self]
      rfl
    · exact (mem_append.1 hn).imp_right mem_singleton.1

end ColumnNameIDGenerator

/-! ### What is read back -/

theorem reads_columnNames {n : Nat} {names : List Bytes} (acc : List Bytes) (hnodup : (acc ++ names).Nodup)
    (hlen : ∀ name ∈ names, name.length < 2 ^ 64) :
    Reads (readColumnNames n names.length acc) (acc ++ names) (names.flatMap marshalBytes) := by
  induction names generalizing acc with
  | nil =>
    rw [append_nil]
    exact reads_pure acc
  | cons name names ih =>
    have hnew : acc.idxOf? name = none := idxOf?_eq_none_iff.2 fun hmem =>
      (nodup_append.1 hnodup).2.2 name hmem name mem_cons_self rfl
    have happend : acc ++ name :: names = acc ++ [name] ++ names := by simp
    rw [flatMap_cons]
    refine (reads_bytes (hlen name mem_cons_self) _).bind ?_
    rw [hnew, happend]
    rw [happend] at hnodup
    exact ih (acc ++ [name]) hnodup fun other hother => hlen other (mem_cons_of_mem _ hother)

theorem unmarshalColumnNames_marshal {zstd : Zstd} (hz : zstd.Lossless) {names : List Bytes}
    (hnodup : names.Nodup) (hcount : names.length ≤ isizeMax)
    (hlen : ∀ name ∈ names, name.length < 2 ^ 64) :
    unmarshalColumnNames zstd (marshalColumnNames zstd names) = .ok names := by
  rw [unmarshalColumnNames, marshalColumnNames, hz.decompress_compress, except_mapError_ok,
    except_ok_bind]
  refine Reads.complete ?_ _
  refine (reads_varUint64 (hcount.trans_lt (by decide)) _).bind ?_
  exact (reads_ensure hcount _).skip (reads_columnNames [] hnodup hlen)

theorem unmarshalColumnNames_two :
    let zstd : Zstd := ⟨fun src => src, .ok⟩
    unmarshalColumnNames zstd (marshalColumnNames zstd [ascii "a", []]) = .ok [ascii "a", []] :=
  unmarshalColumnNames_marshal ⟨fun _ => rfl, fun _ => (Nat.le_add_right _ _).trans (Nat.le_add_right _ _)⟩
    (by decide) (by decide) (by decide)

end EsLogs
