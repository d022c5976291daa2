import EsLogs.StreamFilter

/-!
The text of a stream is parsed back into its tags, as far as their names have no `=` and are valid UTF-8.
Values are read as text: bytes that are not valid UTF-8 are replaced, whereas the index keeps them.
-/

namespace EsLogs

open Strconv Utf8 StreamTags List

variable {v : Bytes} (tags : List Field)

/-! ### Values -/

/-- `append_quote` of a valid text is read as the text. -/
theorem quotes_quoteByte (h : isValid v = true) : Quotes (v.flatMap quoteByte) v := by
  induction h using isValid_induction with
  | nil => exact .nil
  | rune r s x hr _ ih =>
    rw [flatMap_append]
    obtain ⟨b, r', rfl⟩ := exists_cons_of_ne_nil hr.ne_nil
    by_cases hb : b < 0x80
    · obtain rfl := hr.tail_eq_nil hb
      rw [flatMap_singleton]
      exact .cons (stands_quoteByte hb) ih
    · -- all bytes of a longer rune stay as they are
      rw [flatMap_of_high (fun c => quoteByte_of_high) (hr.not_ascii hb)]
      refine .cons (stands_of_isRune hr ?_ ?_ ?_) ih
      all_goals
        rintro rfl
        exact hb (by decide)

theorem length_appendQuote (v : Bytes) : (appendQuote v).length = (v.flatMap quoteByte).length + 2 := by
  rw [appendQuote, length_append, length_cons]
  rfl

theorem quotedPrefixLen_appendQuote (h : isValid v = true) (rest : Bytes) :
    quotedPrefixLen (appendQuote v ++ rest) = some (appendQuote v).length := by
  have hinner := (quotes_quoteByte h).unquoteInner_eq rest
  rw [length_appendQuote, quotedPrefixLen, appendQuote, append_assoc, singleton_append, hinner]
  rfl

theorem unquoteBytes_appendQuote (h : isValid v = true) : unquoteBytes (appendQuote v) = some v := by
  have hinner := (quotes_quoteByte h).unquoteInner_eq []
  have hlen := length_appendQuote v
  unfold unquoteBytes
  rw [show unquoteInner false (appendQuote v) = _ from hinner]
  simp only [Option.bind_eq_bind, Option.bind_some]
  rw [if_neg (by omega)]
  rfl

/-- Values are read as text before they are unquoted, which comes to the same as before they are quoted. -/
theorem lossy_appendQuote (v rest : Bytes) :
    lossy (appendQuote v ++ rest) = appendQuote (lossy v) ++ lossy rest := by
  have hascii : ∀ b : UInt8, b < 0x80 → quoteByte b ≠ [] ∧ ∀ c ∈ quoteByte b, c < 0x80 := by
    decide +kernel
  have hflat := lossy_flatMap (fun b => quoteByte_of_high) hascii v
  rw [appendQuote, append_assoc, cons_append, lossy_cons_of_ascii (by decide),
    singleton_append, lossy_append_ascii _ (by decide), hflat, appendQuote, append_assoc,
    singleton_append, cons_append]

/-! ### Tags -/

/-- A tag as it is read from the text. -/
def Field.lossy (tag : Field) : Field := ⟨Utf8.lossy tag.name, Utf8.lossy tag.value⟩

theorem lossy_marshalToStreamTag (tag : Field) (rest : Bytes) :
    Utf8.lossy (tag.marshalToStreamTag ++ rest) = tag.lossy.marshalToStreamTag ++ Utf8.lossy rest := by
  rw [Field.marshalToStreamTag, append_assoc, cons_append, lossy_append_ascii _ (by decide),
    lossy_appendQuote, Field.marshalToStreamTag, append_assoc, cons_append]
  rfl

theorem lossy_flatMap_tags (rest : Bytes) :
    Utf8.lossy ((tags.flatMap fun tag => byte ',' :: tag.marshalToStreamTag) ++ rest) =
      ((tags.map Field.lossy).flatMap fun tag => byte ',' :: tag.marshalToStreamTag) ++ Utf8.lossy rest := by
  induction tags with
  | nil => rfl
  | cons tag tags ih =>
    rw [flatMap_cons, append_assoc, cons_append, lossy_cons_of_ascii (by decide),
      lossy_marshalToStreamTag, ih, map_cons, flatMap_cons, append_assoc,
      cons_append]

theorem lossy_marshalString : Utf8.lossy (marshalString tags) = marshalString (tags.map Field.lossy) := by
  have hend : Utf8.lossy [byte '\x7d'] = [byte '\x7d'] := by decide
  rw [marshalString, cons_append, lossy_cons_of_ascii (by decide)]
  cases tags with
  | nil =>
    rw [marshalTags, nil_append, hend]
    rfl
  | cons tag tags =>
    rw [marshalTags, append_assoc, lossy_marshalToStreamTag, lossy_flatMap_tags, hend,
      map_cons, marshalString, marshalTags, cons_append, append_assoc]

/-- One round of the loop reads a valid value under a name without `=`. -/
theorem parseTags_tag {tag : Field} (hname : byte '=' ∉ tag.name) (hvalue : isValid tag.value = true)
    (fuel : Nat) (rest : Bytes) :
    StreamName.parseTags (fuel + 1) (tag.marshalToStreamTag ++ rest) =
      match rest with
      | [] => some [tag]
      | c :: tail =>
        if c ≠ byte ',' then none
        else do
          let tags ← StreamName.parseTags fuel tail
          return tag :: tags := by
  have hsplit : tag.marshalToStreamTag ++ rest = tag.name ++ byte '=' :: (appendQuote tag.value ++ rest) := by
    rw [Field.marshalToStreamTag, append_assoc, cons_append]
  have hidx : (tag.name ++ byte '=' :: (appendQuote tag.value ++ rest)).idxOf? (byte '=') =
      some tag.name.length := idxOf?_eq_some_iff_append.2 ⟨tag.name, _, rfl, rfl, hname⟩
  have hdrop : (tag.name ++ byte '=' :: (appendQuote tag.value ++ rest)).drop (tag.name.length + 1) =
      appendQuote tag.value ++ rest := by
    rw [← drop_drop, drop_left]
    rfl
  have hhead : (appendQuote tag.value ++ rest).head? = some (byte '"') := rfl
  rw [hsplit, StreamName.parseTags, hidx]
  simp only [Option.bind_eq_bind, Option.bind_some, take_left, hdrop, hhead, ne_eq,
    not_true_eq_false, if_false, quotedPrefixLen_appendQuote hvalue, unquoteBytes_appendQuote hvalue,
    drop_left]
  rfl

/-- The loop reads back valid values under names without `=`. -/
theorem parseTags_marshalTags (tag : Field) (tags : List Field)
    (h : ∀ t ∈ tag :: tags, byte '=' ∉ t.name ∧ isValid t.value = true) (fuel : Nat)
    (hfuel : tags.length < fuel) :
    StreamName.parseTags fuel (marshalTags (tag :: tags)) = some (tag :: tags) := by
  induction tags generalizing tag fuel with
  | nil =>
    obtain ⟨fuel, rfl⟩ : ∃ k, fuel = k + 1 := ⟨fuel - 1, by omega⟩
    obtain ⟨hname, hvalue⟩ := forall_mem_singleton.1 h
    exact parseTags_tag hname hvalue fuel []
  | cons next tags ih =>
    obtain ⟨fuel, rfl⟩ : ∃ k, fuel = k + 1 := ⟨fuel - 1, by omega⟩
    obtain ⟨⟨hname, hvalue⟩, hnext⟩ := forall_mem_cons.1 h
    have hrest := ih next hnext fuel (Nat.lt_of_succ_lt_succ hfuel)
    rw [marshalTags, flatMap_cons, cons_append, parseTags_tag hname hvalue]
    rw [marshalTags] at hrest
    simp only [ne_eq, not_true_eq_false, if_false, hrest, Option.bind_eq_bind, Option.bind_some]
    rfl

theorem length_le_length_marshalTags : tags.length ≤ (marshalTags tags).length := by
  cases tags with
  | nil => exact Nat.zero_le _
  | cons tag tags =>
    have hle : tags.length ≤ _ :=
      length_le_length_flatMap fun t _ => cons_ne_nil (byte ',') (Field.marshalToStreamTag t)
    rw [marshalTags, length_append, Field.marshalToStreamTag, length_append,
      length_cons, length_cons]
    omega

variable {tags : List Field}

/-- A stream is parsed back from its text. -/
theorem parse_marshalString (h : ∀ t ∈ tags, byte '=' ∉ t.name ∧ isValid t.value = true) :
    StreamName.parse (marshalString tags) = some tags := by
  have hlen : ¬((marshalString tags).length < 2 ∨ (marshalString tags).head? ≠ some (byte '\x7b') ∨
      (marshalString tags).getLast? ≠ some (byte '\x7d')) := by
    have hlast : (marshalString tags).getLast? = some (byte '\x7d') := List.getLast?_concat
    have hhead : (marshalString tags).head? = some (byte '\x7b') := rfl
    rw [hlast, hhead, marshalString, length_append, length_cons, length_singleton]
    rintro (hlt | hne | hne)
    · omega
    · exact hne rfl
    · exact hne rfl
  have hinner : (marshalString tags).tail.dropLast = marshalTags tags := by
    rw [marshalString, cons_append, tail_cons, dropLast_concat]
  rw [StreamName.parse, if_neg hlen, hinner]
  cases tags with
  | nil => rfl
  | cons tag tags =>
    have hle := length_le_length_marshalTags (tag :: tags)
    rw [length_cons] at hle
    have hne : (marshalTags (tag :: tags)).isEmpty = false := by
      rw [isEmpty_eq_false_iff, ← length_pos_iff]
      omega
    simp only [hne, Bool.false_eq_true, if_false]
    exact parseTags_marshalTags tag tags h _ (by omega)

/-- What is parsed has no names with `=`. -/
theorem not_mem_name_of_parseTags {fuel : Nat} {s : Bytes}
    (h : StreamName.parseTags fuel s = some tags) : ∀ t ∈ tags, byte '=' ∉ t.name := by
  induction fuel generalizing s tags with
  | zero => cases h
  | succ fuel ih =>
    rw [StreamName.parseTags] at h
    simp only [Option.bind_eq_bind, Option.bind_eq_some_iff] at h
    obtain ⟨n, hn, h⟩ := h
    obtain ⟨name, rest, rfl, rfl, hname⟩ := idxOf?_eq_some_iff_append.1 hn
    rw [take_left] at h
    split_ifs at h with hquote
    obtain ⟨size, -, h⟩ := Option.bind_eq_some_iff.1 h
    obtain ⟨value, -, h⟩ := Option.bind_eq_some_iff.1 h
    split at h
    · cases h
      exact forall_mem_singleton.2 hname
    · rename_i c tail _
      split_ifs at h with hc
      obtain ⟨tags', htags', h⟩ := Option.bind_eq_some_iff.1 h
      cases h
      exact forall_mem_cons.2 ⟨hname, ih htags'⟩

theorem not_mem_name_of_parse {s : Bytes} (h : StreamName.parse s = some tags) :
    ∀ t ∈ tags, byte '=' ∉ t.name := by
  unfold StreamName.parse at h
  simp only at h
  split_ifs at h
  · cases h
    intro t ht
    cases ht
  · exact not_mem_name_of_parseTags h

/-! ### The two evaluations -/

/-- Tags with distinct names and without empty values. -/
structure StreamTags.Proper (tags : List Field) : Prop where
  nodup : (tags.map (·.name)).Nodup
  nonempty : ∀ t ∈ tags, t.value ≠ []

theorem getTagValueByTagName_of_mem (hnodup : (tags.map (·.name)).Nodup) {t : Field}
    (ht : t ∈ tags) : StreamName.getTagValueByTagName tags t.name = t.value := by
  induction tags with
  | nil => cases ht
  | cons u tags ih =>
    rw [map_cons, nodup_cons] at hnodup
    unfold StreamName.getTagValueByTagName
    rcases mem_cons.1 ht with rfl | ht
    · rw [List.find?_cons_of_pos (by simp)]
      rfl
    · have hne : u.name ≠ t.name := by
        intro heq
        exact hnodup.1 (heq ▸ mem_map_of_mem ht)
      rw [List.find?_cons_of_neg (by simpa using hne)]
      exact ih hnodup.2 ht

theorem getTagValueByTagName_of_not_mem {name : Bytes}
    (h : ∀ t ∈ tags, t.name ≠ name) : StreamName.getTagValueByTagName tags name = [] := by
  have hnone : tags.find? (fun t => t.name == name) = none := by
    rw [List.find?_eq_none]
    intro t ht
    simpa using h t ht
  rw [StreamName.getTagValueByTagName, hnone]
  rfl

/-- Tags with a name are found by the value that is looked up. -/
theorem any_name_and (h : StreamTags.Proper tags) (name : Bytes) (p : Bytes → Bool) :
    (tags.any fun u => u.name == name && p u.value) =
      (!(StreamName.getTagValueByTagName tags name).isEmpty && p (StreamName.getTagValueByTagName tags name)) := by
  by_cases hmem : ∃ t ∈ tags, t.name = name
  · obtain ⟨t, ht, rfl⟩ := hmem
    rw [getTagValueByTagName_of_mem h.nodup ht, isEmpty_eq_false_iff.2 (h.nonempty t ht), Bool.not_false,
      Bool.true_and, Bool.eq_iff_iff, any_eq_true]
    constructor
    · rintro ⟨u, hu, hmatch⟩
      rw [Bool.and_eq_true, beq_iff_eq] at hmatch
      have hvalue := getTagValueByTagName_of_mem h.nodup hu
      rw [hmatch.1, getTagValueByTagName_of_mem h.nodup ht] at hvalue
      rw [hvalue]
      exact hmatch.2
    · intro hp
      exact ⟨t, ht, by simp [hp]⟩
  · push Not at hmem
    rw [getTagValueByTagName_of_not_mem hmem]
    refine any_eq_false.2 fun t ht => ?_
    simp [hmem t ht]

variable {R : Type} [Regexp R]

/-- The index decides about a stream as `matches` does about its tags. -/
theorem StreamTagFilter.matchTags_eq (h : StreamTags.Proper tags)
    (tf : StreamTagFilter R) : tf.matchTags tags = StreamName.matchesTag tags tf := by
  have hhas := any_name_and h tf.tagName.bytes fun _ => true
  have hvalue := any_name_and h tf.tagName.bytes fun v => v == tf.value
  have hregexp := fun re : R => any_name_and h tf.tagName.bytes fun v => Regexp.matchBytes re v
  simp only [Bool.and_true] at hhas
  unfold StreamTagFilter.matchTags StreamName.matchesTag hasTagName hasTagValue hasTagRegexp
  simp only [hhas, hvalue, hregexp]
  cases tf.op with
  | equal | notEqual => cases StreamName.getTagValueByTagName tags tf.tagName.bytes <;> cases tf.value <;> rfl
  | regexp re | notRegexp re => cases StreamName.getTagValueByTagName tags tf.tagName.bytes <;> simp

theorem StreamFilter.matchTags_eq (h : StreamTags.Proper tags) {f : StreamFilter R}
    (hf : f.isEmpty = false) :
    f.matchTags tags = f.orFilters.any fun af => af.tagFilters.all (StreamName.matchesTag tags) := by
  have hshape : ∀ af ∈ f.orFilters, af.tagFilters ≠ [] := by
    rcases f.shape with hshape | hshape
    · rw [StreamFilter.isEmpty, hshape] at hf
      cases hf
    · exact hshape
  unfold StreamFilter.matchTags
  rw [Bool.eq_iff_iff, any_eq_true, any_eq_true]
  apply exists_congr
  intro af
  apply and_congr_right
  intro haf
  have hne : af.tagFilters.isEmpty = false := isEmpty_eq_false_iff.2 (hshape af haf)
  have hall : (af.tagFilters.all fun tf => tf.matchTags tags) =
      af.tagFilters.all (StreamName.matchesTag tags) := by
    congr 1
    funext tf
    exact tf.matchTags_eq h
  rw [AndStreamFilter.matchTags, hne, Bool.not_false, Bool.true_and, hall]

def StreamFilter.single (name : Text) (value : Bytes) : StreamFilter R where
  orFilters := [⟨[⟨name, .equal, value⟩]⟩]
  shape := .inr fun af haf => by
    obtain rfl := mem_singleton.1 haf
    exact cons_ne_nil _ _

theorem matchStreamName_single {name : Text} {value s : Bytes} (hvalue : value ≠ [])
    (h : (StreamFilter.single name value : StreamFilter R).matchStreamName s = true) :
    ∃ sn, StreamName.parse (Utf8.lossy s) = some sn ∧ (∃ t ∈ sn, t.name = name.bytes) ∧
      StreamName.getTagValueByTagName sn name.bytes = value := by
  unfold StreamFilter.matchStreamName at h
  cases hparse : StreamName.parse (Utf8.lossy s) with
  | none =>
    rw [hparse] at h
    cases h
  | some sn =>
    rw [hparse] at h
    have hlookup : StreamName.getTagValueByTagName sn name.bytes = value := by
      simpa [StreamFilter.single, StreamName.matchesTag] using h
    refine ⟨sn, rfl, ?_, hlookup⟩
    by_contra hnone
    push Not at hnone
    exact hvalue (hlookup.symm.trans (getTagValueByTagName_of_not_mem hnone))

/-- The text of a stream and its tags give the same answer to every filter exactly if no name has a `=` and
all values are valid UTF-8, for tags with valid names. -/
theorem matchStreamName_eq_matchTags_iff (tags : List Field) (h : StreamTags.Proper tags)
    (hnames : ∀ t ∈ tags, isValid t.name = true) :
    (∀ f : StreamFilter R, f.isEmpty = false →
        f.matchStreamName (marshalString tags) = f.matchTags tags) ↔
      ∀ t ∈ tags, byte '=' ∉ t.name ∧ isValid t.value = true := by
  have hlossyName : ∀ t ∈ tags, t.lossy.name = t.name := fun t ht => lossy_of_isValid (hnames t ht)
  have hlossyNames : (tags.map Field.lossy).map (·.name) = tags.map (·.name) := by
    rw [map_map]
    exact map_congr_left hlossyName
  -- what is parsed, whatever the values
  have hparse : (∀ t ∈ tags, byte '=' ∉ t.name) →
      StreamName.parse (Utf8.lossy (marshalString tags)) = some (tags.map Field.lossy) := by
    intro hequal
    rw [lossy_marshalString]
    refine parse_marshalString (forall_mem_map.2 fun t ht => ⟨?_, isValid_lossy t.value⟩)
    rw [hlossyName t ht]
    exact hequal t ht
  constructor
  · intro hagree
    -- ask for each tag with its value
    have hasked : ∀ t (ht : t ∈ tags),
        (StreamFilter.single ⟨t.name, hnames t ht⟩ t.value : StreamFilter R).matchStreamName
          (marshalString tags) = true := by
      intro t ht
      rw [hagree _ rfl, StreamFilter.matchTags_eq h rfl]
      simp [StreamFilter.single, StreamName.matchesTag, getTagValueByTagName_of_mem h.nodup ht]
    have hequal : ∀ t ∈ tags, byte '=' ∉ t.name := by
      intro t ht
      obtain ⟨sn, hsn, ⟨u, hu, hname⟩, -⟩ := matchStreamName_single (h.nonempty t ht) (hasked t ht)
      have hnot := not_mem_name_of_parse hsn u hu
      rwa [hname] at hnot
    intro t ht
    refine ⟨hequal t ht, ?_⟩
    obtain ⟨sn, hsn, -, hlookup⟩ := matchStreamName_single (h.nonempty t ht) (hasked t ht)
    cases hsn.symm.trans (hparse hequal)
    have hread := getTagValueByTagName_of_mem (hlossyNames ▸ h.nodup) (mem_map_of_mem ht)
    rw [hlossyName t ht] at hread
    exact lossy_eq_self_iff.1 (hread.symm.trans hlookup)
  · intro hplain f hf
    have hsame : tags.map Field.lossy = tags := by
      refine (map_congr_left ?_).trans (map_id tags)
      intro t ht
      show (⟨Utf8.lossy t.name, Utf8.lossy t.value⟩ : Field) = t
      rw [lossy_of_isValid (hnames t ht), lossy_of_isValid (hplain t ht).2]
    have hparsed := hparse fun t ht => (hplain t ht).1
    rw [hsame] at hparsed
    rw [StreamFilter.matchTags_eq h hf, StreamFilter.matchStreamName, hparsed]

/-! ### Samples -/

/-- Regular expressions without special characters. -/
structure Literal where
  text : Bytes

instance : Regexp Literal where
  matchBytes re s := re.text == s

theorem matchStreamName_sampleTags :
    (StreamFilter.single ⟨ascii "app", by decide⟩ (ascii "a\"b") :
        StreamFilter Literal).matchStreamName (marshalString [⟨ascii "app", ascii "a\"b"⟩]) =
      (StreamFilter.single ⟨ascii "app", by decide⟩ (ascii "a\"b") :
        StreamFilter Literal).matchTags [⟨ascii "app", ascii "a\"b"⟩] :=
  (matchStreamName_eq_matchTags_iff [⟨ascii "app", ascii "a\"b"⟩] ⟨by decide, by decide⟩ (by decide)).2
    (by decide) _ (by decide)

/-- The value `\xff` is not the value of the text, and neither is a name with `=` found there. -/
theorem matchStreamName_ne_matchTags :
    (StreamFilter.single ⟨ascii "a", by decide⟩ [0xFF] : StreamFilter Literal).matchTags
        [⟨ascii "a", [0xFF]⟩] = true ∧
      (StreamFilter.single ⟨ascii "a", by decide⟩ [0xFF] : StreamFilter Literal).matchStreamName
        (marshalString [⟨ascii "a", [0xFF]⟩]) = false ∧
      (StreamFilter.single ⟨ascii "a=b", by decide⟩ [1] : StreamFilter Literal).matchTags
        [⟨ascii "a=b", [1]⟩] = true ∧
      (StreamFilter.single ⟨ascii "a=b", by decide⟩ [1] : StreamFilter Literal).matchStreamName
        (marshalString [⟨ascii "a=b", [1]⟩]) = false := by
  decide

end EsLogs
