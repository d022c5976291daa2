import EsLogs.Decimal

/-!
The integer texts of column values (`values_encoder.rs`): parsing of unsigned and signed integers
and their rendering. For each parser the texts it accepts are described by a grammar that does not
mention the parser, and the accepted texts that the renderer gives back unchanged are singled out.

`try_parse_uint64_bytes` skips underscores and `try_parse_int64_bytes` accepts `-0`, so not every
accepted text comes back.
-/

namespace EsLogs.NumberText

def u64Max : Nat := 2 ^ 64 - 1

/-! ### Unsigned integers -/

/-- The digit loop of `try_parse_uint64_bytes`; the sum wraps as `wrapping_add` does. -/
def parseUint64Loop : Nat → Bytes → Option Nat
  | n, [] => some n
  | n, ch :: b =>
    if ch = byte '_' then parseUint64Loop n b
    else if !isDigit ch then none
    else if n > u64Max / 10 then none
    else
      let n1 := (n * 10 + digitVal ch) % 2 ^ 64
      if n1 < n * 10 then none else parseUint64Loop n1 b

/-- `try_parse_uint64_bytes`; 26 is the length of `18_446_744_073_709_551_615`. -/
def tryParseUint64Bytes (b : Bytes) : Option Nat :=
  if b = [] ∨ b.length > 26 then none
  else if b.length > 1 ∧ b.head? = some (byte '0') then none
  else parseUint64Loop 0 b

/-- `marshal_uint64_string`, and the narrower ones, which call it. -/
def marshalUint64String (n : Nat) : Bytes := decimal n

/-- The digits of a text, without its underscores. -/
def stripUnderscores (b : Bytes) : Bytes := b.filter (· ≠ byte '_')

/-- The texts `try_parse_uint64_bytes` accepts: up to 26 digits and underscores, without a leading
zero, whose digits stand for a number that fits 64 bits. -/
structure UintText (b : Bytes) : Prop where
  ne_nil : b ≠ []
  length_le : b.length ≤ 26
  lead : 1 < b.length → b.head? ≠ some (byte '0')
  chars : ∀ c ∈ b, isDigit c ∨ c = byte '_'
  range : digitsValue (stripUnderscores b) < 2 ^ 64

theorem parseUint64Loop_eq (n : Nat) (hn : n < 2 ^ 64) (b : Bytes) :
    parseUint64Loop n b =
      if (∀ c ∈ b, isDigit c ∨ c = byte '_') ∧ digitsFrom n (stripUnderscores b) < 2 ^ 64
      then some (digitsFrom n (stripUnderscores b)) else none := by
  induction b generalizing n with
  | nil =>
    have hok : (∀ c ∈ ([] : Bytes), isDigit c ∨ c = byte '_') ∧
        digitsFrom n (stripUnderscores []) < 2 ^ 64 := ⟨by simp, hn⟩
    rw [if_pos hok]
    rfl
  | cons ch b ih =>
    unfold parseUint64Loop
    by_cases hus : ch = byte '_'
    · rw [if_pos hus, ih n hn]
      simp [stripUnderscores, hus]
    rw [if_neg hus]
    have hstrip : stripUnderscores (ch :: b) = ch :: stripUnderscores b := by
      simp [stripUnderscores, hus]
    by_cases hdig : isDigit ch
    · have hd := digitVal_lt hdig
      simp only [hdig, Bool.not_true, Bool.false_eq_true, if_false, hstrip, digitsFrom_cons,
        List.forall_mem_cons, true_or, true_and]
      by_cases hfit : n * 10 + digitVal ch < 2 ^ 64
      · rw [if_neg (by unfold u64Max; omega), Nat.mod_eq_of_lt hfit, if_neg (by omega),
          ih _ hfit]
      -- an overflow at this digit: the final value is no smaller
      · have hle := le_digitsFrom (n * 10 + digitVal ch) (stripUnderscores b)
        rw [if_neg (c := _ ∧ _) (by omega)]
        split_ifs with h1 h2
        · rfl
        · rfl
        · unfold u64Max at h1
          omega
    · simp [hdig, hus]

variable {b : Bytes} {s : Bytes} {n : Nat}

theorem tryParseUint64Bytes_eq_some :
    tryParseUint64Bytes b = some n ↔ UintText b ∧ n = digitsValue (stripUnderscores b) := by
  unfold tryParseUint64Bytes
  constructor
  · intro h
    split_ifs at h with hlen hlead
    rw [parseUint64Loop_eq 0 (by decide)] at h
    split_ifs at h with hok
    push Not at hlen hlead
    exact ⟨⟨hlen.1, hlen.2, hlead, hok.1, hok.2⟩, (Option.some.inj h).symm⟩
  · rintro ⟨h, rfl⟩
    rw [if_neg (by simpa using ⟨h.ne_nil, h.length_le⟩), if_neg (fun hc => h.lead hc.1 hc.2),
      parseUint64Loop_eq 0 (by decide), if_pos ⟨h.chars, h.range⟩]
    rfl

theorem tryParseUint64Bytes_lt (h : tryParseUint64Bytes b = some n) :
    n < 2 ^ 64 := by
  obtain ⟨ht, rfl⟩ := tryParseUint64Bytes_eq_some.1 h
  exact ht.range

theorem underscore_not_mem_decimal (n : Nat) : byte '_' ∉ decimal n := fun hm =>
  absurd (allDigits_decimal n _ hm) (by decide)

theorem stripUnderscores_of_not_mem (h : byte '_' ∉ b) : stripUnderscores b = b := by
  rw [stripUnderscores, List.filter_eq_self]
  intro c hc
  exact decide_eq_true (ne_of_mem_of_not_mem hc h)

theorem digitsValue_stripUnderscores_decimal (n : Nat) : digitsValue (stripUnderscores (decimal n)) = n := by
  rw [stripUnderscores_of_not_mem (underscore_not_mem_decimal n), digitsValue_decimal]

/-- An accepted unsigned text comes back exactly when it has no underscore. -/
theorem marshal_uint_eq_iff (h : UintText b) :
    marshalUint64String (digitsValue (stripUnderscores b)) = b ↔ byte '_' ∉ b := by
  constructor
  · intro heq
    rw [← heq]
    exact underscore_not_mem_decimal _
  · intro hus
    rw [stripUnderscores_of_not_mem hus]
    refine decimal_digitsValue h.ne_nil (fun c hc => ?_) h.lead
    rcases h.chars c hc with hd | rfl
    · exact hd
    · exact absurd hc hus

/-- The rendering of a number of 64 bits is accepted. -/
theorem uintText_decimal (h : n < 2 ^ 64) : UintText (decimal n) where
  ne_nil := decimal_ne_nil n
  length_le := (length_decimal_le (by omega) (show n < 10 ^ 20 by omega)).trans (by omega)
  lead := by
    intro hlen
    by_cases hn : n = 0
    · subst hn
      exact absurd hlen (by decide)
    · exact head_decimal_ne_zero hn
  chars := fun c hc => .inl (allDigits_decimal n c hc)
  range := by rwa [digitsValue_stripUnderscores_decimal]

theorem tryParseUint64Bytes_marshal (h : n < 2 ^ 64) : tryParseUint64Bytes (marshalUint64String n) = some n :=
  tryParseUint64Bytes_eq_some.2 ⟨uintText_decimal h, (digitsValue_stripUnderscores_decimal n).symm⟩

/-! ### Signed integers -/

def tryParseInt64Bytes (s : Bytes) : Option Int :=
  if s = [] then none
  else
    let isMinus := s.head? = some (byte '-')
    let s := if isMinus then s.tail else s
    match tryParseUint64Bytes s with
    | none => none
    | some n =>
      if n ≥ 2 ^ 63 then
        if isMinus ∧ n = 2 ^ 63 then some (-2 ^ 63) else none
      else some (if isMinus then -(n : Int) else n)

def marshalInt64String (n : Int) : Bytes :=
  if n < 0 then byte '-' :: decimal n.natAbs else decimal n.natAbs

/-- The texts `try_parse_int64_bytes` accepts: an accepted unsigned text below `2 ^ 63`, or a minus
sign followed by one up to `2 ^ 63`. -/
def IntText (s : Bytes) : Prop :=
  (UintText s ∧ digitsValue (stripUnderscores s) < 2 ^ 63) ∨
    ∃ t, s = byte '-' :: t ∧ UintText t ∧ digitsValue (stripUnderscores t) ≤ 2 ^ 63

theorem head_ne_minus_of_uintText (h : UintText b) : b.head? ≠ some (byte '-') := by
  intro hhead
  rcases h.chars _ (List.mem_of_mem_head? hhead) with hd | hd
  · exact absurd hd (by decide)
  · exact absurd hd (by decide)

theorem tryParseInt64Bytes_minus (t : Bytes) :
    tryParseInt64Bytes (byte '-' :: t) =
      (tryParseUint64Bytes t).bind fun n => if n ≤ 2 ^ 63 then some (-(n : Int)) else none := by
  simp only [tryParseInt64Bytes, reduceCtorEq, if_false, List.head?_cons, if_true, List.tail_cons,
    true_and]
  cases tryParseUint64Bytes t with
  | none => rfl
  | some n =>
    simp only [Option.bind_some]
    split_ifs with h1 h2 h3 h3 h3
    · subst h2
      rfl
    · omega
    · omega
    · rfl
    · rfl
    · omega

theorem tryParseInt64Bytes_plain (h : s.head? ≠ some (byte '-')) :
    tryParseInt64Bytes s =
      (tryParseUint64Bytes s).bind fun n => if n < 2 ^ 63 then some (n : Int) else none := by
  by_cases hnil : s = []
  · subst hnil
    rfl
  simp only [tryParseInt64Bytes, hnil, if_false, h, false_and]
  cases tryParseUint64Bytes s with
  | none => rfl
  | some n =>
    simp only [Option.bind_some]
    split_ifs with h1 h2 h2
    · omega
    · rfl
    · rfl
    · omega

/-- What an accepted signed text stands for. -/
theorem tryParseInt64Bytes_eq_some {n : Int} :
    tryParseInt64Bytes s = some n ↔
      (UintText s ∧ digitsValue (stripUnderscores s) < 2 ^ 63 ∧
        n = digitsValue (stripUnderscores s)) ∨
      ∃ t, s = byte '-' :: t ∧ UintText t ∧ digitsValue (stripUnderscores t) ≤ 2 ^ 63 ∧
        n = -(digitsValue (stripUnderscores t) : Int) := by
  by_cases hminus : s.head? = some (byte '-')
  · obtain ⟨t, rfl⟩ : ∃ t, s = byte '-' :: t := by
      cases s with
      | nil => cases hminus
      | cons c t => exact ⟨t, by rw [Option.some.inj hminus]⟩
    have hno : ¬UintText (byte '-' :: t) := fun h => head_ne_minus_of_uintText h hminus
    simp only [tryParseInt64Bytes_minus, Option.bind_eq_some_iff, tryParseUint64Bytes_eq_some,
      Option.ite_none_right_eq_some, Option.some.injEq, List.cons.injEq, true_and, hno, false_and,
      false_or]
    constructor
    · rintro ⟨m, ⟨ht, rfl⟩, hle, rfl⟩
      exact ⟨t, rfl, ht, hle, rfl⟩
    · rintro ⟨t', rfl, ht, hle, rfl⟩
      exact ⟨_, ⟨ht, rfl⟩, hle, rfl⟩
  · have hno : ¬∃ t, s = byte '-' :: t ∧ UintText t ∧ digitsValue (stripUnderscores t) ≤ 2 ^ 63 ∧
        n = -(digitsValue (stripUnderscores t) : Int) := by
      rintro ⟨t, rfl, -⟩
      exact hminus rfl
    simp only [tryParseInt64Bytes_plain hminus, Option.bind_eq_some_iff,
      tryParseUint64Bytes_eq_some, Option.ite_none_right_eq_some, Option.some.injEq, hno, or_false]
    constructor
    · rintro ⟨m, ⟨ht, rfl⟩, hlt, rfl⟩
      exact ⟨ht, hlt, rfl⟩
    · rintro ⟨ht, hlt, rfl⟩
      exact ⟨_, ⟨ht, rfl⟩, hlt, rfl⟩

theorem intText_iff : IntText s ↔ ∃ n, tryParseInt64Bytes s = some n := by
  simp only [tryParseInt64Bytes_eq_some]
  constructor
  · rintro (⟨ht, hlt⟩ | ⟨t, hs, ht, hle⟩)
    · exact ⟨_, .inl ⟨ht, hlt, rfl⟩⟩
    · exact ⟨_, .inr ⟨t, hs, ht, hle, rfl⟩⟩
  · rintro ⟨n, ⟨ht, hlt, -⟩ | ⟨t, hs, ht, hle, -⟩⟩
    · exact .inl ⟨ht, hlt⟩
    · exact .inr ⟨t, hs, ht, hle⟩

theorem tryParseInt64Bytes_range {n : Int} (h : tryParseInt64Bytes s = some n) :
    -2 ^ 63 ≤ n ∧ n < 2 ^ 63 := by
  rcases tryParseInt64Bytes_eq_some.1 h with ⟨-, hlt, rfl⟩ | ⟨t, -, -, hle, rfl⟩
  · omega
  · omega

theorem marshalInt64String_natCast (n : Nat) : marshalInt64String n = decimal n := by
  rw [marshalInt64String, if_neg (by omega), Int.natAbs_natCast]

theorem marshalInt64String_neg (h : n ≠ 0) :
    marshalInt64String (-(n : Int)) = byte '-' :: decimal n := by
  rw [marshalInt64String, if_pos (by omega), Int.natAbs_neg, Int.natAbs_natCast]

theorem tryParseInt64Bytes_marshal {n : Int} (hlo : -2 ^ 63 ≤ n) (hhi : n < 2 ^ 63) :
    tryParseInt64Bytes (marshalInt64String n) = some n := by
  by_cases hn : 0 ≤ n
  · obtain ⟨k, rfl⟩ := Int.eq_ofNat_of_zero_le hn
    have hk : k < 2 ^ 64 := by omega
    rw [marshalInt64String_natCast, tryParseInt64Bytes_plain (head_ne_minus_of_uintText (uintText_decimal hk)),
      ← marshalUint64String, tryParseUint64Bytes_marshal hk, Option.bind_some, if_pos (by omega)]
  · obtain ⟨k, hk⟩ := Int.eq_ofNat_of_zero_le (show 0 ≤ -n by omega)
    obtain rfl : n = -k := by omega
    rw [marshalInt64String_neg (by omega), tryParseInt64Bytes_minus, ← marshalUint64String,
      tryParseUint64Bytes_marshal (by omega), Option.bind_some, if_pos (by omega)]

/-- An accepted signed text comes back exactly when it has no underscore and is not `-0`. -/
theorem marshal_int_eq_iff {n : Int} (h : tryParseInt64Bytes s = some n) :
    marshalInt64String n = s ↔ byte '_' ∉ s ∧ s ≠ ascii "-0" := by
  rcases tryParseInt64Bytes_eq_some.1 h with ⟨ht, -, rfl⟩ | ⟨t, rfl, ht, -, rfl⟩
  · have hne : s ≠ ascii "-0" := by
      rintro rfl
      exact head_ne_minus_of_uintText ht (by decide)
    rw [marshalInt64String_natCast]
    simpa only [ne_eq, hne, not_false_eq_true, and_true, marshalUint64String]
      using marshal_uint_eq_iff ht
  · have hmem : byte '_' ∉ byte '-' :: t ↔ byte '_' ∉ t := by
      rw [List.mem_cons, or_iff_right (by decide)]
    have hzero : byte '-' :: t = ascii "-0" ↔ t = decimal 0 := by
      rw [show ascii "-0" = byte '-' :: decimal 0 by decide, List.cons.injEq]
      simp
    rw [hmem, ne_eq, hzero, ← marshal_uint_eq_iff ht]
    by_cases hval : digitsValue (stripUnderscores t) = 0
    -- zero has no sign in the rendered text, so only `0` itself could come back
    · have hrender : marshalInt64String (-((0 : Nat) : Int)) = decimal 0 := by decide
      rw [hval, hrender]
      constructor
      · intro heq
        have hhead := congrArg List.head? heq
        rw [List.head?_cons] at hhead
        exact absurd hhead (by decide)
      · rintro ⟨heq, hne⟩
        exact absurd heq.symm hne
    · rw [marshalInt64String_neg hval, List.cons.injEq]
      constructor
      · rintro ⟨-, heq⟩
        refine ⟨heq, ?_⟩
        rintro rfl
        exact hval (decimal_injective heq)
      · rintro ⟨heq, -⟩
        exact ⟨rfl, heq⟩

end EsLogs.NumberText
