import EsLogs.PartWriter

/-!
Opening the index of a part (`part.rs`, `block_stream_reader.rs`). The index block headers are read from the metaindex
file; what cannot be parsed is fatal.
-/

namespace EsLogs.Part

/-- `ReaderWithStats`: what is left to read of a file. -/
structure ReaderWithStats where
  path : String
  rest : Bytes
  bytesRead : UInt64
  deriving DecidableEq, Repr

def ReaderWithStats.init (path : String) (data : Bytes) : ReaderWithStats := ⟨path, data, 0⟩

def ReaderWithStats.readAll (r : ReaderWithStats) : Bytes × ReaderWithStats :=
  (r.rest, { r with rest := [], bytesRead := r.bytesRead + .ofNat r.rest.length })

/-- A failure to parse a file is fatal. -/
def mustParse {α : Type} (what : String) (r : Except String α) : Outcome α :=
  r.mapError fun err => .panic ("FATAL: " ++ what ++ err)

def panicIf (p : Prop) [Decidable p] (msg : String) : Outcome Unit :=
  if p then .error (.panic msg) else .ok ()

def mustReadIndexBlockHeaders (env : PartEnv) (r : ReaderWithStats) : Outcome (List IndexBlockHeader) := do
  let (src, r) := r.readAll
  let data ← mustParse (r.path ++ ": cannot decompress indexBlockHeader entries: ") (env.zstd.decompress src)
  mustParse (r.path ++ ": cannot parse indexBlockHeader entries: ") (unmarshalIndexBlockHeaders data)

/-- `Part`, as far as its index is concerned. -/
structure OpenPart where
  formatVersion : Nat
  indexBlockHeaders : List IndexBlockHeader
  indexPath : String
  indexFile : Bytes
  deriving DecidableEq, Repr

/-- What `must_open_inmemory_part` and `must_open_file_part` do for the index of a part. They also read the names
and the shards of its columns. -/
def mustOpenIndex (env : PartEnv) (path : String) (part : PartFiles) : Outcome OpenPart := do
  let indexBlockHeaders ← mustReadIndexBlockHeaders env (.init (path ++ "/metaindex.bin") part.metaindex)
  return ⟨part.ph.formatVersion, indexBlockHeaders, path ++ "/index.bin", part.index⟩

end EsLogs.Part
