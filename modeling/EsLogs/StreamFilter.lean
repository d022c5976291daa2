import EsLogs.Strconv
import EsLogs.Rows

/-!
Filters for streams (`stream_filter.rs`, `stream_tags.rs`, `indexdb/mod.rs`). A filter is evaluated in two
ways: on the text of the `_stream` field, which is parsed again, and in the index, which knows the tags of
every stream.
-/

namespace EsLogs

open Strconv

structure Text where
  bytes : Bytes
  valid : Utf8.isValid bytes = true
  deriving DecidableEq

/-- Compiled regular expressions (`PromRegex`). -/
class Regexp (R : Type) where
  matchBytes : R → Bytes → Bool

/-! ### Filters -/

/-- The operations `=`, `!=`, `=~` and `!~`; the last two with the compiled expression. -/
inductive TagFilterOp (R : Type) where
  | equal
  | notEqual
  | regexp (re : R)
  | notRegexp (re : R)

structure StreamTagFilter (R : Type) where
  tagName : Text
  op : TagFilterOp R
  value : Bytes

structure AndStreamFilter (R : Type) where
  tagFilters : List (StreamTagFilter R)

/-- `StreamFilter`. The parser makes a conjunction without tag filters for `{}` only, and merging filters
makes no others. -/
structure StreamFilter (R : Type) where
  orFilters : List (AndStreamFilter R)
  shape : orFilters = [⟨[]⟩] ∨ ∀ af ∈ orFilters, af.tagFilters ≠ []

variable {R : Type}

def StreamFilter.isEmpty (f : StreamFilter R) : Bool := f.orFilters.all fun af => af.tagFilters.isEmpty

/-! ### The text of a stream -/

def Field.marshalToStreamTag (tag : Field) : Bytes := tag.name ++ byte '=' :: appendQuote tag.value

namespace StreamTags

def marshalTags : List Field → Bytes
  | [] => []
  | tag :: tags => tag.marshalToStreamTag ++ tags.flatMap fun tag => byte ',' :: tag.marshalToStreamTag

def marshalString (tags : List Field) : Bytes := byte '\x7b' :: marshalTags tags ++ [byte '\x7d']

end StreamTags

namespace StreamName

/-- The loop of `StreamName::parse`. Every round takes at least the `=` of a tag. -/
def parseTags : Nat → Bytes → Option (List Field)
  | 0, _ => none
  | fuel + 1, s => do
    let n ← s.idxOf? (byte '=')
    let name := s.take n
    let s := s.drop (n + 1)
    if s.head? ≠ some (byte '"') then none
    else do
      let size ← quotedPrefixLen s
      let value ← unquoteBytes (s.take size)
      let tag : Field := ⟨name, value⟩
      match s.drop size with
      | [] => return [tag]
      | c :: tail =>
        if c ≠ byte ',' then none
        else do
          let tags ← parseTags fuel tail
          return tag :: tags

def parse (s : Bytes) : Option (List Field) :=
  if s.length < 2 ∨ s.head? ≠ some (byte '\x7b') ∨ s.getLast? ≠ some (byte '\x7d') then none
  else
    let s := s.tail.dropLast
    if s.isEmpty then some [] else parseTags s.length s

def getTagValueByTagName (tags : List Field) (name : Bytes) : Bytes :=
  ((tags.find? fun tag => tag.name == name).map (·.value)).getD []

variable [Regexp R]

def matchesTag (tags : List Field) (tf : StreamTagFilter R) : Bool :=
  let v := getTagValueByTagName tags tf.tagName.bytes
  match tf.op with
  | .equal => v == tf.value
  | .notEqual => v != tf.value
  | .regexp re => Regexp.matchBytes re v
  | .notRegexp re => !Regexp.matchBytes re v

end StreamName

def StreamFilter.matchStreamName [Regexp R] (f : StreamFilter R) (s : Bytes) : Bool :=
  match StreamName.parse (Utf8.lossy s) with
  | some sn => f.orFilters.any fun af => af.tagFilters.all (StreamName.matchesTag sn)
  | none => false

/-! ### The tags of a stream -/

section Index

variable [Regexp R] (tags : List Field)

/-- Whether a stream is found by `get_stream_ids_for_tag_name`. -/
def hasTagName (name : Bytes) : Bool := tags.any fun tag => tag.name == name

/-- Whether a stream is found by `get_stream_ids_for_non_empty_tag_value`. -/
def hasTagValue (name value : Bytes) : Bool := tags.any fun tag => tag.name == name && tag.value == value

/-- Whether a stream is found by `get_stream_ids_for_tag_regexp`. -/
def hasTagRegexp (name : Bytes) (re : R) : Bool :=
  tags.any fun tag => tag.name == name && Regexp.matchBytes re tag.value

/-- Whether a stream with the tags is among the ones of `get_stream_ids_for_tag_filter`. -/
def StreamTagFilter.matchTags (tf : StreamTagFilter R) : Bool :=
  let name := tf.tagName.bytes
  match tf.op with
  | .equal => if tf.value.isEmpty then !hasTagName tags name else hasTagValue tags name tf.value
  | .notEqual => if tf.value.isEmpty then hasTagName tags name else !hasTagValue tags name tf.value
  | .regexp re =>
    if Regexp.matchBytes re [] then !hasTagName tags name || hasTagRegexp tags name re
    else hasTagRegexp tags name re
  | .notRegexp re =>
    if Regexp.matchBytes re [] then hasTagName tags name && !hasTagRegexp tags name re
    else !hasTagRegexp tags name re

/-- Whether `update_stream_ids` adds a stream with the tags; a conjunction without tag filters adds none. -/
def AndStreamFilter.matchTags (af : AndStreamFilter R) : Bool :=
  !af.tagFilters.isEmpty && af.tagFilters.all fun tf => tf.matchTags tags

/-- Whether `search_stream_ids` gives a stream with the tags. -/
def StreamFilter.matchTags (f : StreamFilter R) : Bool := f.orFilters.any fun af => af.matchTags tags

end Index

end EsLogs
