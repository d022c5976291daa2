import EsLogs.NumberText

/-!
The numbers inside dates and addresses, and the IPv4 texts of column values (`values_encoder.rs`).
An address is read as three octets that a dot ends and a last one that ends with the text. An octet
may have leading zeros, and a two-byte octet may end in any byte, because the fast path of
`try_parse_date_uint64` does not look at it; the rendered address has neither.
-/

namespace EsLogs.NumberText

open List

variable {n : Nat} {s : Bytes} {b : Bytes}

/-! ### Numbers of a date -/

def parseDateLoop : Nat → Bytes → Option Nat
  | n, [] => some n
  | n, ch :: s =>
    if !isDigit ch then none
    else if n > u64Max / 10 then none
    else if n * 10 > u64Max - digitVal ch then none
    else parseDateLoop (n * 10 + digitVal ch) s

def tryParseDateUint64 (s : Bytes) : Option Nat :=
  if s = [] ∨ s.length > 9 then none
  else
    match s with
    -- the fast path for two bytes: the second one is not validated, its subtraction wraps
    | [a, b] => if !isDigit a then none else some (10 * digitVal a + (b - byte '0').toNat)
    | s => parseDateLoop 0 s

/-- What the accepted number of a date stands for. -/
def dateValue (s : Bytes) : Nat :=
  match s with
  | [a, b] => 10 * digitVal a + (b - byte '0').toNat
  | s => digitsValue s

/-- The texts `try_parse_date_uint64` accepts: one to nine digits, except that the second byte of
two is arbitrary. -/
structure DateText (s : Bytes) : Prop where
  ne_nil : s ≠ []
  length_le : s.length ≤ 9
  chars : AllDigits (if s.length = 2 then s.take 1 else s)

theorem parseDateLoop_eq (n : Nat) (hn : n < 2 ^ 64) (s : Bytes) :
    parseDateLoop n s =
      if AllDigits s ∧ digitsFrom n s < 2 ^ 64 then some (digitsFrom n s) else none := by
  induction s generalizing n with
  | nil =>
    have hok : AllDigits [] ∧ digitsFrom n [] < 2 ^ 64 := ⟨by simp [AllDigits], hn⟩
    rw [if_pos hok]
    rfl
  | cons ch s ih =>
    unfold parseDateLoop
    by_cases hdig : isDigit ch
    · have hd := digitVal_lt hdig
      have hall : AllDigits (ch :: s) ↔ AllDigits s := by simp [AllDigits, hdig]
      simp only [hdig, Bool.not_true, Bool.false_eq_true, if_false, digitsFrom_cons, hall]
      by_cases hfit : n * 10 + digitVal ch < 2 ^ 64
      · rw [if_neg (by unfold u64Max; omega), if_neg (by unfold u64Max; omega), ih _ hfit]
      · have hle := le_digitsFrom (n * 10 + digitVal ch) s
        rw [if_neg (c := _ ∧ _) (by omega)]
        split_ifs with h1 h2
        · rfl
        · rfl
        · unfold u64Max at h1 h2
          omega
    · simp [hdig, AllDigits]

theorem tryParseDateUint64_of_length_ne_two (hlen : s.length ≠ 2) :
    tryParseDateUint64 s = if s = [] ∨ s.length > 9 then none else parseDateLoop 0 s := by
  unfold tryParseDateUint64
  split_ifs with h
  · rfl
  · split
    · exact absurd rfl hlen
    · rfl

theorem dateValue_of_length_ne_two (hlen : s.length ≠ 2) : dateValue s = digitsValue s := by
  unfold dateValue
  split
  · exact absurd rfl hlen
  · rfl

theorem tryParseDateUint64_eq_some : tryParseDateUint64 s = some n ↔ DateText s ∧ n = dateValue s := by
  by_cases hlen : s.length = 2
  · obtain ⟨a, b, rfl⟩ := length_eq_two.1 hlen
    have htext : DateText [a, b] ↔ isDigit a = true := by
      constructor
      · intro h
        exact h.chars a (by simp)
      · intro h
        exact ⟨by simp, by simp, by simpa [AllDigits] using h⟩
    rw [htext]
    by_cases hdig : isDigit a
    · simp only [tryParseDateUint64, hdig, dateValue, true_and]
      simpa using eq_comm
    · simp [tryParseDateUint64, hdig]
  · rw [tryParseDateUint64_of_length_ne_two hlen, dateValue_of_length_ne_two hlen]
    constructor
    · intro h
      split_ifs at h with hshort
      push Not at hshort
      rw [parseDateLoop_eq 0 (by decide)] at h
      split_ifs at h with hok
      exact ⟨⟨hshort.1, hshort.2, by rw [if_neg hlen]; exact hok.1⟩, (Option.some.inj h).symm⟩
    · rintro ⟨ht, rfl⟩
      have hall : AllDigits s := by simpa [hlen] using ht.chars
      have hlt : digitsValue s < 2 ^ 64 := by
        have hpow : 10 ^ s.length ≤ 10 ^ 9 := Nat.pow_le_pow_right (by omega) ht.length_le
        have := digitsValue_lt hall
        omega
      rw [if_neg (by simpa using ⟨ht.ne_nil, ht.length_le⟩), parseDateLoop_eq 0 (by decide),
        if_pos ⟨hall, hlt⟩]
      rfl

/-- On digits the fast path agrees with the loop. -/
theorem dateValue_of_allDigits (h : AllDigits s) : dateValue s = digitsValue s := by
  by_cases hlen : s.length = 2
  · obtain ⟨a, b, rfl⟩ := length_eq_two.1 hlen
    have hb := (isDigit_iff b).1 (h b (by simp))
    have hsub : (b - byte '0').toNat = digitVal b := by
      have hle : byte '0' ≤ b := UInt8.le_iff_toNat_le.2 hb.1
      rw [UInt8.toNat_sub_of_le _ _ hle]
      rfl
    simp only [dateValue, digitsValue, digitsFrom_cons, digitsFrom_nil, hsub]
    ring
  · exact dateValue_of_length_ne_two hlen

theorem tryParseDateUint64_of_allDigits (hne : s ≠ []) (hlen : s.length ≤ 9)
    (h : AllDigits s) : tryParseDateUint64 s = some (digitsValue s) := by
  refine tryParseDateUint64_eq_some.2 ⟨⟨hne, hlen, ?_⟩, (dateValue_of_allDigits h).symm⟩
  split_ifs
  · exact fun c hc => h c (mem_of_mem_take hc)
  · exact h

/-! ### IPv4 addresses -/

/-- The loop of `try_parse_ipv4_bytes` over the first octets: each ends at the next dot. -/
def parseOctets : Nat → Bytes → Option (List Nat × Bytes)
  | 0, s => some ([], s)
  | k + 1, s =>
    match s.idxOf? (byte '.') with
    | none => none
    | some n =>
      if n = 0 ∨ n > 3 then none
      else
        match tryParseDateUint64 (s.take n) with
        | none => none
        | some v =>
          if v > 255 then none
          else (parseOctets k (s.drop (n + 1))).map fun r => (v :: r.1, r.2)

/-- `try_parse_ipv4_bytes`; the address is the big-endian number of its octets. -/
def tryParseIpv4Bytes (b : Bytes) : Option Nat :=
  if b.length < 7 ∨ b.length > 15 ∨ b.count (byte '.') ≠ 3 then none
  else
    match parseOctets 3 b with
    | none => none
    | some (octets, s) =>
      match tryParseDateUint64 s with
      | none => none
      | some v => if v > 255 then none else some (beNat ((octets ++ [v]).map UInt8.ofNat))

def marshalUint8String (n : Nat) : Bytes :=
  if n < 10 then [digitByte n]
  else if n < 100 then [digitByte (n / 10), digitByte (n % 10)]
  else
    let first := if n < 200 then digitByte 1 else digitByte 2
    let n := if n < 200 then n - 100 else n - 200
    if n < 10 then [first, digitByte 0, digitByte n]
    else [first, digitByte (n / 10), digitByte (n % 10)]

def marshalIpv4String (n : Nat) : Bytes :=
  marshalUint8String (n / 2 ^ 24 % 256) ++ byte '.' :: (marshalUint8String (n / 2 ^ 16 % 256) ++
    byte '.' :: (marshalUint8String (n / 2 ^ 8 % 256) ++ byte '.' :: marshalUint8String (n % 256)))

/-- An octet as `try_parse_ipv4_bytes` accepts it. -/
structure OctetText (s : Bytes) : Prop where
  date : DateText s
  le : dateValue s ≤ 255

/-- The texts `try_parse_ipv4_bytes` accepts: 7 to 15 bytes with three dots, three octets of one to
three bytes that a dot ends, and a last octet. -/
def Ipv4Text (b : Bytes) : Prop :=
  7 ≤ b.length ∧ b.length ≤ 15 ∧ b.count (byte '.') = 3 ∧
    ∃ (octets : List Bytes) (last : Bytes), octets.length = 3 ∧ b = octets.flatMap (· ++ [byte '.']) ++ last ∧
      (∀ t ∈ octets, byte '.' ∉ t ∧ t.length ≤ 3 ∧ OctetText t) ∧ OctetText last

/-- The addresses that are written as four decimal numbers below 256, without leading zeros. -/
def DottedQuad (v : Bytes) : Prop :=
  ∃ a b c d, a < 256 ∧ b < 256 ∧ c < 256 ∧ d < 256 ∧
    v = decimal a ++ byte '.' :: (decimal b ++ byte '.' :: (decimal c ++ byte '.' :: decimal d))

/-- What both parsers do with the text of an octet. -/
theorem octet_eq_some {α : Type} {t : Bytes} {next : Nat → Option α} {x : α} :
    (match tryParseDateUint64 t with
      | none => none
      | some v => if v > 255 then none else next v) = some x ↔ OctetText t ∧ next (dateValue t) = some x := by
  cases hdate : tryParseDateUint64 t with
  | none =>
    refine iff_of_false (fun h => by cases h) fun h => ?_
    rw [tryParseDateUint64_eq_some.2 ⟨h.1.date, rfl⟩] at hdate
    cases hdate
  | some v =>
    obtain ⟨htext, rfl⟩ := tryParseDateUint64_eq_some.1 hdate
    dsimp only
    split_ifs with hv
    · exact iff_of_false (fun h => by cases h) fun h => absurd h.1.le (by omega)
    · exact (and_iff_right ⟨htext, by omega⟩).symm

theorem parseOctets_eq_some {k : Nat} {s last : Bytes} {vs : List Nat} :
    parseOctets k s = some (vs, last) ↔
      ∃ octets : List Bytes, octets.length = k ∧ s = octets.flatMap (· ++ [byte '.']) ++ last ∧
        (∀ t ∈ octets, byte '.' ∉ t ∧ t.length ≤ 3 ∧ OctetText t) ∧
        vs = octets.map dateValue := by
  induction k generalizing s vs with
  | zero =>
    simp only [parseOctets, Option.some.injEq, Prod.mk.injEq, length_eq_zero_iff]
    constructor
    · rintro ⟨rfl, rfl⟩
      exact ⟨[], rfl, rfl, by simp, rfl⟩
    · rintro ⟨octets, rfl, rfl, -, rfl⟩
      exact ⟨rfl, rfl⟩
  | succ k ih =>
    constructor
    · intro h
      rw [parseOctets] at h
      split at h
      · cases h
      · rename_i n hpos
        obtain ⟨t, rest, rfl, rfl, hdot⟩ := idxOf?_eq_some_iff_append.1 hpos
        rw [take_left, drop_length_add_append, drop_one, tail_cons] at h
        split_ifs at h with hlen
        obtain ⟨htext, h⟩ := octet_eq_some.1 h
        obtain ⟨⟨ws, tail⟩, hrec, heq⟩ := Option.map_eq_some_iff.1 h
        cases heq
        obtain ⟨octets, rfl, rfl, hoct, rfl⟩ := ih.1 hrec
        refine ⟨t :: octets, rfl, by simp, ?_, rfl⟩
        rw [forall_mem_cons]
        exact ⟨⟨hdot, by omega, htext⟩, hoct⟩
    · rintro ⟨octets, hlen, rfl, hoct, rfl⟩
      obtain ⟨t, octets, rfl⟩ := exists_cons_of_length_eq_add_one hlen
      rw [forall_mem_cons] at hoct
      obtain ⟨⟨hdot, htlen, htext⟩, hoct⟩ := hoct
      have hne : t.length ≠ 0 := fun h => htext.date.ne_nil (length_eq_zero_iff.1 h)
      have hrec := ih.2 ⟨octets, Nat.succ.inj hlen, rfl, hoct, rfl⟩
      rw [flatMap_cons, append_assoc, append_assoc, singleton_append, parseOctets,
        idxOf?_eq_some_iff_append.2 ⟨t, _, rfl, rfl, hdot⟩]
      dsimp only
      rw [take_left, drop_length_add_append, drop_one, tail_cons, if_neg (by omega)]
      exact octet_eq_some.2 ⟨htext, by rw [hrec]; rfl⟩

theorem tryParseIpv4Bytes_eq_some : tryParseIpv4Bytes b = some n ↔
      7 ≤ b.length ∧ b.length ≤ 15 ∧ b.count (byte '.') = 3 ∧
        ∃ (octets : List Bytes) (last : Bytes), octets.length = 3 ∧ b = octets.flatMap (· ++ [byte '.']) ++ last ∧
          (∀ t ∈ octets, byte '.' ∉ t ∧ t.length ≤ 3 ∧ OctetText t) ∧ OctetText last ∧
          n = beNat ((octets.map dateValue ++ [dateValue last]).map UInt8.ofNat) := by
  rw [tryParseIpv4Bytes]
  constructor
  · intro h
    split_ifs at h with hshape
    push Not at hshape
    split at h
    · cases h
    · rename_i hoct
      obtain ⟨octets, hlen, hb, hall, rfl⟩ := parseOctets_eq_some.1 hoct
      obtain ⟨hlast, h⟩ := octet_eq_some.1 h
      exact ⟨hshape.1, hshape.2.1, hshape.2.2, octets, _, hlen, hb, hall, hlast, (Option.some.inj h).symm⟩
  · rintro ⟨hmin, hmax, hcount, octets, last, hlen, hb, hall, hlast, rfl⟩
    rw [if_neg (by omega), parseOctets_eq_some.2 ⟨octets, hlen, hb, hall, rfl⟩]
    exact octet_eq_some.2 ⟨hlast, rfl⟩

theorem ipv4Text_iff : Ipv4Text b ↔ ∃ n, tryParseIpv4Bytes b = some n := by
  simp only [tryParseIpv4Bytes_eq_some, Ipv4Text]
  constructor
  · rintro ⟨hmin, hmax, hcount, octets, last, hlen, hb, hall, hlast⟩
    exact ⟨_, hmin, hmax, hcount, octets, last, hlen, hb, hall, hlast, rfl⟩
  · rintro ⟨n, hmin, hmax, hcount, octets, last, hlen, hb, hall, hlast, -⟩
    exact ⟨hmin, hmax, hcount, octets, last, hlen, hb, hall, hlast⟩

theorem tryParseIpv4Bytes_lt (h : tryParseIpv4Bytes b = some n) : n < 2 ^ 32 := by
  obtain ⟨-, -, -, octets, last, hlen, -, -, -, rfl⟩ := tryParseIpv4Bytes_eq_some.1 h
  have hlt := beNat_lt ((octets.map dateValue ++ [dateValue last]).map UInt8.ofNat)
  simpa [hlen] using hlt

/-! ### Rendering addresses -/

set_option maxRecDepth 4000 in
theorem marshalUint8String_eq (h : n < 256) : marshalUint8String n = decimal n := by
  have hall : ∀ n < 256, marshalUint8String n = decimal n := by decide
  exact hall n h

theorem marshalIpv4String_eq (n : Nat) :
    marshalIpv4String n = decimal (n / 2 ^ 24 % 256) ++ byte '.' :: (decimal (n / 2 ^ 16 % 256) ++
      byte '.' :: (decimal (n / 2 ^ 8 % 256) ++ byte '.' :: decimal (n % 256))) := by
  have hlt : ∀ m, m % 256 < 256 := fun m => Nat.mod_lt m (by omega)
  simp only [marshalIpv4String, marshalUint8String_eq (hlt _)]

theorem dottedQuad_marshal (n : Nat) : DottedQuad (marshalIpv4String n) :=
  ⟨_, _, _, _, Nat.mod_lt _ (by omega), Nat.mod_lt _ (by omega), Nat.mod_lt _ (by omega),
    Nat.mod_lt _ (by omega), marshalIpv4String_eq n⟩

theorem dot_not_mem_decimal (n : Nat) : byte '.' ∉ decimal n := by
  intro hm
  exact absurd (allDigits_decimal n _ hm) (by decide)

theorem octetText_decimal (h : n < 256) : byte '.' ∉ decimal n ∧ (decimal n).length ≤ 3 ∧ OctetText (decimal n) := by
  have hlen : (decimal n).length ≤ 3 := length_decimal_le (by omega) (by omega)
  have hparse := tryParseDateUint64_of_allDigits (decimal_ne_nil n) (by omega) (allDigits_decimal n)
  obtain ⟨hdate, hval⟩ := tryParseDateUint64_eq_some.1 hparse
  rw [digitsValue_decimal] at hval
  exact ⟨dot_not_mem_decimal n, hlen, hdate, by omega⟩

theorem dateValue_decimal (n : Nat) : dateValue (decimal n) = n := by
  rw [dateValue_of_allDigits (allDigits_decimal n), digitsValue_decimal]

/-- A canonical address is read as its four numbers. -/
theorem tryParseIpv4Bytes_dotted {a b c d : Nat} (ha : a < 256) (hb : b < 256) (hc : c < 256)
    (hd : d < 256) :
    tryParseIpv4Bytes (decimal a ++ byte '.' :: (decimal b ++ byte '.' ::
      (decimal c ++ byte '.' :: decimal d))) =
      some (a * 2 ^ 24 + b * 2 ^ 16 + c * 2 ^ 8 + d) := by
  have hlen : ∀ {n : Nat}, n < 256 → 1 ≤ (decimal n).length ∧ (decimal n).length ≤ 3 :=
    fun {n} h => ⟨length_pos_iff.2 (decimal_ne_nil n), (octetText_decimal h).2.1⟩
  have hcount : ∀ n, (decimal n).count (byte '.') = 0 :=
    fun n => count_eq_zero_of_not_mem (dot_not_mem_decimal n)
  have hla := hlen ha
  have hlb := hlen hb
  have hlc := hlen hc
  have hld := hlen hd
  refine tryParseIpv4Bytes_eq_some.2 ⟨?_, ?_, ?_, [decimal a, decimal b, decimal c], decimal d, rfl,
    by simp, ?_, (octetText_decimal hd).2.2, ?_⟩
  · simp only [length_append, length_cons]
    omega
  · simp only [length_append, length_cons]
    omega
  · simp [count_append, hcount]
  · simp only [forall_mem_cons]
    exact ⟨octetText_decimal ha, octetText_decimal hb, octetText_decimal hc, by simp⟩
  · simp only [map_cons, map_nil, cons_append, nil_append, dateValue_decimal,
      beNat, length_cons, length_nil, UInt8.toNat_ofNat']
    omega

/-- What is rendered for a number is read as this number. -/
theorem tryParseIpv4Bytes_marshal (h : n < 2 ^ 32) : tryParseIpv4Bytes (marshalIpv4String n) = some n := by
  have hlt : ∀ m, m % 256 < 256 := fun m => Nat.mod_lt m (by omega)
  rw [marshalIpv4String_eq, tryParseIpv4Bytes_dotted (hlt _) (hlt _) (hlt _) (hlt _), Option.some.injEq]
  omega

/-- An accepted address comes back exactly when it is written canonically. -/
theorem marshal_ipv4_eq_iff {v : Bytes} (h : tryParseIpv4Bytes v = some n) :
    marshalIpv4String n = v ↔ DottedQuad v := by
  constructor
  · intro heq
    rw [← heq]
    exact dottedQuad_marshal n
  · rintro ⟨a, b, c, d, ha, hb, hc, hd, rfl⟩
    rw [tryParseIpv4Bytes_dotted ha hb hc hd] at h
    have hn := Option.some.inj h
    have h1 : n / 2 ^ 24 % 256 = a := by omega
    have h2 : n / 2 ^ 16 % 256 = b := by omega
    have h3 : n / 2 ^ 8 % 256 = c := by omega
    have h4 : n % 256 = d := by omega
    rw [marshalIpv4String_eq, h1, h2, h3, h4]

/-! ### What accepted addresses denote -/

/-- Four decimal numbers up to 255 with dots between them, and the address that they denote. -/
def DottedDecimal (s : Bytes) (n : Nat) : Prop :=
  (s.splitOn (byte '.')).length = 4 ∧
    (∀ t ∈ s.splitOn (byte '.'), t ≠ [] ∧ AllDigits t ∧ digitsValue t ≤ 255) ∧
    n = beNat ((s.splitOn (byte '.')).map fun t => UInt8.ofNat (digitsValue t))

theorem splitOn_dots {octets : List Bytes} {last : Bytes} (h : ∀ t ∈ octets ++ [last], byte '.' ∉ t) :
    (octets.flatMap (· ++ [byte '.']) ++ last).splitOn (byte '.') = octets ++ [last] := by
  have hne : ∀ t ∈ octets ++ [last], ∀ x ∈ t, (x == byte '.') = false := fun t ht x hx =>
    beq_eq_false_iff_ne.2 fun he => h t ht (he ▸ hx)
  rw [splitOn]
  induction octets with
  | nil => exact splitOnP_eq_singleton (hne last mem_cons_self)
  | cons t octets ih =>
    rw [cons_append, forall_mem_cons] at h hne
    rw [flatMap_cons, append_assoc, append_assoc, singleton_append,
      splitOnP_append_cons_of_forall_mem hne.1 _ (by simp), ih h.2 hne.2, cons_append]

/-- An address that is accepted is the one its text denotes, unless an octet of two bytes ends in something else
than a digit. -/
theorem ipv4_denotes_iff (s : Bytes) :
    (∀ n, tryParseIpv4Bytes s = some n → DottedDecimal s n) ↔
      (Ipv4Text s → ∀ t ∈ s.splitOn (byte '.'), t.length = 2 → AllDigits t) := by
  constructor
  · intro h htext t ht _
    obtain ⟨n, hn⟩ := ipv4Text_iff.1 htext
    exact ((h n hn).2.1 t ht).2.1
  · intro h n hn
    have htext := h (ipv4Text_iff.2 ⟨n, hn⟩)
    obtain ⟨-, -, hcount, octets, last, hlen, rfl, hoctets, hlast, rfl⟩ := tryParseIpv4Bytes_eq_some.1 hn
    have hoctet : ∀ t ∈ octets ++ [last], OctetText t :=
      forall_mem_append.2 ⟨fun t ht => (hoctets t ht).2.2, forall_mem_singleton.2 hlast⟩
    -- the three dots are those behind the octets
    have hdot : byte '.' ∉ last := by
      obtain ⟨a, b, c, rfl⟩ := length_eq_three.1 hlen
      simp only [flatMap_cons, flatMap_nil, count_append, count_singleton_self] at hcount
      exact count_eq_zero.1 (by omega)
    have hsplit := splitOn_dots (forall_mem_append.2 ⟨fun t ht => (hoctets t ht).1, forall_mem_singleton.2 hdot⟩)
    rw [hsplit] at htext
    rw [DottedDecimal, hsplit]
    have hdigits : ∀ t ∈ octets ++ [last], AllDigits t := by
      intro t ht
      by_cases htwo : t.length = 2
      · exact htext t ht htwo
      · simpa only [if_neg htwo] using (hoctet t ht).date.chars
    refine ⟨by simp [hlen], fun t ht => ⟨(hoctet t ht).date.ne_nil, hdigits t ht, ?_⟩, ?_⟩
    · rw [← dateValue_of_allDigits (hdigits t ht)]
      exact (hoctet t ht).le
    · rw [← map_singleton, ← map_append, map_map]
      congr 1
      exact map_congr_left fun t ht => congrArg UInt8.ofNat (dateValue_of_allDigits (hdigits t ht))

/-- The last octet `1:` is read as 20. -/
theorem not_ipv4_denotes_colon :
    tryParseIpv4Bytes (ascii "1.1.1.1:") = some 0x01010114 ∧ ¬DottedDecimal (ascii "1.1.1.1:") 0x01010114 := by
  refine ⟨by decide, fun h => ?_⟩
  exact absurd (h.2.1 (ascii "1:") (by decide)).2.1 (by decide)

end EsLogs.NumberText
