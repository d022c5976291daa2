import EsLogs.Iso8601Text

/-!
The RFC3339 timestamps (`values_encoder.rs`): a date and a time of day, a fraction of a second of up to nine digits and
a time zone; the local one counts where a text names none. A timestamp within the range of the parser is read back from
its text.
-/

namespace EsLogs.NumberText

open CivilDate List

/-- `sub_int64_no_overflow`: the two extreme values stand for infinity. -/
def subInt64NoOverflow (a b : Int) : Int :=
  if b ≥ 0 then
    if a = 2 ^ 63 - 1 then a else if a < -2 ^ 63 + b then -2 ^ 63 else a - b
  else if a = -2 ^ 63 then a
  else if a > 2 ^ 63 - 1 + b then 2 ^ 63 - 1
  else a - b

def tryParseHhmm (s : Bytes) : Option Int := do
  let (hourStr, minuteStr) ← match s with
    | [h0, h1, sep, m0, m1] => if sep = byte ':' then some ([h0, h1], [m0, m1]) else none
    | [h0, h1, m0, m1] => some ([h0, h1], [m0, m1])
    | _ => none
  let hours ← tryParseDateUint64 hourStr
  guard (hours ≤ 24)
  let minutes ← tryParseDateUint64 minuteStr
  guard (minutes ≤ 60)
  return hours * 3600000000000 + minutes * 60000000000

/-- `parse_timezone_offset`: the offset in nanoseconds and the text in front of it. -/
def parseTimezoneOffset (localOffset : Int) (s : Bytes) : Option (Int × Bytes) :=
  if s.getLast? = some (byte 'Z') then some (0, s.dropLast)
  else
    -- the last sign, looked for from the end
    match s.reverse.findIdx? fun c => c = byte '+' ∨ c = byte '-' with
    | none => some (localOffset, s)
    | some i => do
      let n := s.length - 1 - i
      let offsetStr := s.drop (n + 1)
      guard (offsetStr ≠ [])
      let offsetNsecs ← tryParseHhmm offsetStr
      return (if s.getD n 0 = byte '-' then -offsetNsecs else offsetNsecs, s.take n)

/-- `try_parse_timestamp_rfc3339_nano`; the last addition wraps around. -/
def tryParseTimestampRfc3339Nano (localOffset : Int) (s : Bytes) : Option Int := do
  guard (19 ≤ s.length)
  let (secs, tail) ← tryParseTimestampSecs s
  let (offsetNsecs, s) ← parseTimezoneOffset localOffset tail
  let nsecs := subInt64NoOverflow (secs * 1000000000) offsetNsecs
  if s = [] then return nsecs
  else do
    let s := if s.head? = some (byte '.') then s.tail else s
    guard (s.length ≤ 9)
    let n64 ← tryParseDateUint64 s
    return Int.bmod (nsecs + n64 * 10 ^ (9 - s.length)) (2 ^ 64)

theorem trimFraction_spec {k : Nat} {n : Int} (hpos : 0 < n) (hlt : n < 10 ^ k) :
    (0 < (trimFraction k n).1 ∧ (trimFraction k n).1 ≤ k) ∧
      (0 ≤ (trimFraction k n).2 ∧ (trimFraction k n).2 < 10 ^ (trimFraction k n).1) ∧
      (trimFraction k n).2 * 10 ^ (k - (trimFraction k n).1) = n := by
  induction k generalizing n with
  | zero =>
    rw [pow_zero] at hlt
    omega
  | succ k ih =>
    rw [trimFraction]
    split_ifs with hzero
    · rw [pow_succ] at hlt
      obtain ⟨⟨hlen, hle⟩, hbounds, hvalue⟩ := ih (n := n / 10) (by omega) (by omega)
      refine ⟨⟨hlen, by omega⟩, hbounds, ?_⟩
      rw [Nat.sub_add_comm hle, pow_succ, ← mul_assoc, hvalue]
      omega
    · exact ⟨⟨Nat.succ_pos k, le_rfl⟩, ⟨hpos.le, hlt⟩, by rw [Nat.sub_self, pow_zero, mul_one]⟩

theorem subInt64NoOverflow_zero {a : Int} (h : -2 ^ 63 ≤ a) : subInt64NoOverflow a 0 = a := by
  unfold subInt64NoOverflow
  split_ifs <;> omega

theorem parseTimezoneOffset_utc (localOffset : Int) (s : Bytes) :
    parseTimezoneOffset localOffset (s ++ [byte 'Z']) = some (0, s) := by
  rw [parseTimezoneOffset, if_pos (by simp), dropLast_concat]

/-- A timestamp whose second is in the range of the parser is read back from its RFC3339 text, and from its ISO8601 text
if it has whole milliseconds. -/
theorem timestamps_read_back {t : Int} (ht : -9223372036 ≤ t / 1000000000 ∧ t / 1000000000 < 9223372036)
    (localOffset : Int) :
    tryParseTimestampRfc3339Nano localOffset (marshalTimestampRfc3339NanoString t) = some t ∧
      (t % 1000000 = 0 → tryParseTimestampIso8601Bytes (marshalTimestampIso8601String t) = some t) := by
  refine ⟨?_, tryParseTimestampIso8601Bytes_marshal (by omega)⟩
  obtain ⟨f, -, htext, hf, hsecs, -⟩ := exists_acceptedFields (t := t) (by omega)
  have hparse := fun tail => (tryParseTimestampSecs_text f tail).2
    ⟨⟨hf.year.1, hf.year.2, hf.month, hf.delim, hf.day, hf.hour, hf.minute, hf.second, hf.range⟩, rfl⟩
  have hlen : ∀ tail, 19 ≤ (f.secsText ++ tail).length := fun tail => by
    simp only [TimestampFields.secsText, length_append, length_cons, f.length_year, f.length_month, f.length_day,
      f.length_hour, f.length_minute, f.length_second]
    omega
  have hsub := subInt64NoOverflow_zero (a := t / 1000000000 * 1000000000) (by omega)
  rw [htext, fractionText]
  by_cases hnsec : t % 1000000000 = 0
  · rw [if_neg (not_not.2 hnsec)]
    simp only [tryParseTimestampRfc3339Nano, option_bind_eq_some_iff, Option.guard_eq_some', hlen, hparse,
      parseTimezoneOffset_utc, Option.some.injEq, exists_eq_left', exists_const, true_and, hsecs, hsub, if_true, pure]
    omega
  · obtain ⟨⟨hpos, hle⟩, ⟨hlo, hhi⟩, hvalue⟩ := trimFraction_spec (k := 9) (n := t % 1000000000) (by omega) (by omega)
    obtain ⟨hwidth, hwrites⟩ := formatPad_spec hpos hlo hhi
    obtain ⟨hdate, hval⟩ := Writes.dateText hwrites (by omega)
    rw [if_pos hnsec]
    simp only [tryParseTimestampRfc3339Nano, option_bind_eq_some_iff, Option.guard_eq_some', hlen, hparse,
      parseTimezoneOffset_utc, Option.some.injEq, exists_eq_left', exists_const, true_and, hsecs, hsub, reduceCtorEq,
      if_false, List.head?_cons, if_true, tail_cons, hwidth, hle, tryParseDateUint64_eq_some, hdate, exists_eq_left,
      hval, hvalue, pure]
    rw [Int.bmod_eq_of_le (by omega) (by omega)]
    omega

theorem timestamps_read_back_before_epoch :
    tryParseTimestampRfc3339Nano 3600000000000 (marshalTimestampRfc3339NanoString (-500000000)) = some (-500000000) ∧
      tryParseTimestampIso8601Bytes (marshalTimestampIso8601String (-500000000)) = some (-500000000) :=
  have h := timestamps_read_back (t := -500000000) (by decide) 3600000000000
  ⟨h.1, h.2 (by decide)⟩

end EsLogs.NumberText
