import EsLogs.Ipv4Text
import EsLogs.CivilDate
import EsLogs.Outcome

/-!
The ISO8601 timestamps of column values (`values_encoder.rs`), `YYYY-MM-DDThh:mm:ss.mssZ`. The
parser normalises what is not a date: a month above twelve or a day above the month's last moves
into the following months, a blank may stand for the `T`, and the second byte of a two-byte field
is not validated. The renderer writes the calendar date, so exactly the texts of a calendar date
come back.
-/

namespace EsLogs.NumberText

open CivilDate List

variable {t : Int} {v : Bytes}

/-- `{n:0w}` of a signed number. -/
def formatPad (w : Nat) (n : Int) : Bytes :=
  if n < 0 then byte '-' :: decimalPad (w - 1) n.natAbs else decimalPad w n.natAbs

/-- `try_parse_timestamp_secs`: the seconds and the rest of the text. -/
def tryParseTimestampSecs (s : Bytes) : Option (Int × Bytes) := do
  guard (s.getD 4 0 = byte '-')
  let year ← tryParseDateUint64 (s.take 4)
  guard (1677 ≤ year ∧ year ≤ 2262)
  let s := s.drop 5
  guard (s.getD 2 0 = byte '-')
  let month ← tryParseDateUint64 (s.take 2)
  let s := s.drop 3
  -- a blank is allowed besides `T`, so that SQL dates are parsed too
  guard (s.getD 2 0 = byte 'T' ∨ s.getD 2 0 = byte ' ')
  let day ← tryParseDateUint64 (s.take 2)
  let s := s.drop 3
  guard (s.getD 2 0 = byte ':')
  let hour ← tryParseDateUint64 (s.take 2)
  let s := s.drop 3
  guard (s.getD 2 0 = byte ':')
  let minute ← tryParseDateUint64 (s.take 2)
  let s := s.drop 3
  let second ← tryParseDateUint64 (s.take 2)
  let s := s.drop 2
  let secs := unixSecsFromDate year month day hour minute second
  guard (-9223372036 ≤ secs ∧ secs < 9223372036)
  return (secs, s)

def tryParseTimestampIso8601Bytes (s : Bytes) : Option Int := do
  guard (s.length = 24)
  let (secs, s) ← tryParseTimestampSecs s
  let nsecs := secs * 1000000000
  guard (s.getD 0 0 = byte '.')
  let s := s.drop 1
  guard (s.getD 3 0 = byte 'Z')
  let msecs ← tryParseDateUint64 (s.take 3)
  return nsecs + msecs * 1000000

def marshalTimestampIso8601String (nsecs : Int) : Bytes :=
  let (year, month, day, hour, minute, second, nsec) := utcDateTimeFromNsecs nsecs
  formatPad 4 year ++ byte '-' :: (formatPad 2 month ++ byte '-' :: (formatPad 2 day ++
    byte 'T' :: (formatPad 2 hour ++ byte ':' :: (formatPad 2 minute ++ byte ':' ::
      (formatPad 2 second ++ byte '.' :: (formatPad 3 (nsec / 1000000) ++ [byte 'Z']))))))

/-- The digits of a fraction without its trailing zeros; the bound is the number of digits. -/
def trimFraction : Nat → Int → Nat × Int
  | 0, nsec => (0, nsec)
  | fracLen + 1, nsec => if nsec % 10 = 0 then trimFraction fracLen (nsec / 10) else (fracLen + 1, nsec)

def marshalTimestampRfc3339NanoString (nsecs : Int) : Bytes :=
  let (year, month, day, hour, minute, second, nsec) := utcDateTimeFromNsecs nsecs
  let fraction :=
    if nsec ≠ 0 then
      let (fracLen, nsec) := trimFraction 9 nsec
      byte '.' :: formatPad fracLen nsec
    else []
  formatPad 4 year ++ byte '-' :: (formatPad 2 month ++ byte '-' :: (formatPad 2 day ++
    byte 'T' :: (formatPad 2 hour ++ byte ':' :: (formatPad 2 minute ++ byte ':' ::
      (formatPad 2 second ++ fraction ++ [byte 'Z'])))))

/-! ### The fields of a timestamp -/

/-- The fields of a text of the shape `YYYY-MM-DD?hh:mm:ss.mssZ`. -/
structure TimestampFields where
  year : Bytes
  month : Bytes
  day : Bytes
  delim : UInt8
  hour : Bytes
  minute : Bytes
  second : Bytes
  msec : Bytes
  length_year : year.length = 4
  length_month : month.length = 2
  length_day : day.length = 2
  length_hour : hour.length = 2
  length_minute : minute.length = 2
  length_second : second.length = 2
  length_msec : msec.length = 3

namespace TimestampFields

variable (f : TimestampFields)

def text : Bytes :=
  f.year ++ byte '-' :: (f.month ++ byte '-' :: (f.day ++ f.delim :: (f.hour ++ byte ':' ::
    (f.minute ++ byte ':' :: (f.second ++ byte '.' :: (f.msec ++ [byte 'Z']))))))

/-- The text up to the seconds. -/
def secsText : Bytes :=
  f.year ++ byte '-' :: (f.month ++ byte '-' :: (f.day ++ f.delim :: (f.hour ++ byte ':' ::
    (f.minute ++ byte ':' :: f.second))))

def secs : Int :=
  unixSecsFromDate (dateValue f.year) (dateValue f.month) (dateValue f.day) (dateValue f.hour)
    (dateValue f.minute) (dateValue f.second)

structure Accepted : Prop where
  year : DateText f.year ∧ 1677 ≤ dateValue f.year ∧ dateValue f.year ≤ 2262
  month : DateText f.month
  day : DateText f.day
  delim : f.delim = byte 'T' ∨ f.delim = byte ' '
  hour : DateText f.hour
  minute : DateText f.minute
  second : DateText f.second
  msec : DateText f.msec
  range : -9223372036 ≤ f.secs ∧ f.secs < 9223372036

end TimestampFields

def TimestampText (v : Bytes) : Prop := ∃ f : TimestampFields, v = f.text ∧ f.Accepted

/-- The timestamps that write a date of the calendar and a time of day in digits, with a `T`. -/
def CalendarText (v : Bytes) : Prop :=
  ∃ f : TimestampFields, v = f.text ∧ f.delim = byte 'T' ∧ AllDigits f.year ∧ AllDigits f.month ∧
    AllDigits f.day ∧ AllDigits f.hour ∧ AllDigits f.minute ∧ AllDigits f.second ∧
    AllDigits f.msec ∧
    ValidDateTime (digitsValue f.year) (digitsValue f.month) (digitsValue f.day)
      (digitsValue f.hour) (digitsValue f.minute) (digitsValue f.second)

/-! ### What the parser accepts -/

theorem tryParseTimestampSecs_text (f : TimestampFields) (tail : Bytes) {r : Int × Bytes} :
    tryParseTimestampSecs (f.secsText ++ tail) = some r ↔
      (DateText f.year ∧ (1677 ≤ dateValue f.year ∧ dateValue f.year ≤ 2262) ∧ DateText f.month ∧
        (f.delim = byte 'T' ∨ f.delim = byte ' ') ∧ DateText f.day ∧ DateText f.hour ∧ DateText f.minute ∧
        DateText f.second ∧ -9223372036 ≤ f.secs ∧ f.secs < 9223372036) ∧ (f.secs, tail) = r := by
  obtain ⟨year, month, day, delim, hour, minute, second, msec, hy, hm, hd, hh, hn, hs, -⟩ := f
  -- with the fields spelled out byte by byte, every index and slice of the parser evaluates
  obtain ⟨y0, y1, y2, y3, rfl⟩ := length_eq_four.1 hy
  obtain ⟨m0, m1, rfl⟩ := length_eq_two.1 hm
  obtain ⟨d0, d1, rfl⟩ := length_eq_two.1 hd
  obtain ⟨h0, h1, rfl⟩ := length_eq_two.1 hh
  obtain ⟨n0, n1, rfl⟩ := length_eq_two.1 hn
  obtain ⟨s0, s1, rfl⟩ := length_eq_two.1 hs
  simp only [tryParseTimestampSecs, TimestampFields.secsText, cons_append, nil_append, Option.guard_eq_some',
    option_bind_eq_some_iff, tryParseDateUint64_eq_some, take_succ_cons, take_zero, drop_succ_cons, drop_zero,
    getD_cons_succ, getD_cons_zero, true_and, pure, Option.some.injEq, exists_const, and_assoc, exists_and_left,
    exists_eq_left, TimestampFields.secs]

theorem tryParseTimestampIso8601Bytes_text (f : TimestampFields) (t : Int) :
    tryParseTimestampIso8601Bytes f.text = some t ↔
      f.Accepted ∧ t = f.secs * 1000000000 + dateValue f.msec * 1000000 := by
  have htext : f.text = f.secsText ++ byte '.' :: (f.msec ++ [byte 'Z']) := by
    simp [TimestampFields.text, TimestampFields.secsText]
  have hlen : f.text.length = 24 := by
    simp [TimestampFields.text, f.length_year, f.length_month, f.length_day, f.length_hour, f.length_minute,
      f.length_second, f.length_msec]
  have hz : (f.msec ++ [byte 'Z']).getD 3 0 = byte 'Z' ∧ (f.msec ++ [byte 'Z']).take 3 = f.msec := by
    obtain ⟨k0, k1, k2, hk⟩ := length_eq_three.1 f.length_msec
    rw [hk]
    exact ⟨rfl, rfl⟩
  simp only [tryParseTimestampIso8601Bytes, Option.guard_eq_some', hlen, option_bind_eq_some_iff, true_and,
    exists_const]
  rw [htext]
  simp only [tryParseTimestampSecs_text, and_assoc, exists_and_left, exists_eq_left',
    getD_cons_zero, drop_succ_cons, drop_zero, hz, true_and, tryParseDateUint64_eq_some, exists_eq_left, pure,
    Option.some.injEq]
  constructor
  · rintro ⟨hy, hfrom, hto, hm, hdelim, hd, hh, hn, hs, hlo, hhi, hk, rfl⟩
    exact ⟨⟨⟨hy, hfrom, hto⟩, hm, hd, hdelim, hh, hn, hs, hk, hlo, hhi⟩, rfl⟩
  · rintro ⟨⟨⟨hy, hfrom, hto⟩, hm, hd, hdelim, hh, hn, hs, hk, hlo, hhi⟩, rfl⟩
    exact ⟨hy, hfrom, hto, hm, hdelim, hd, hh, hn, hs, hlo, hhi, hk, rfl⟩

/-- An accepted text has the fields of a timestamp. -/
theorem exists_fields (h : tryParseTimestampIso8601Bytes v = some t) : ∃ f : TimestampFields, v = f.text := by
  have hlen : v.length = 24 := by
    rw [tryParseTimestampIso8601Bytes, option_bind_eq_some_iff] at h
    obtain ⟨_, hguard, -⟩ := h
    exact (Option.guard_eq_some' _).1 hguard
  match v, hlen with
  | [y0, y1, y2, y3, p4, m0, m1, p7, d0, d1, p10, h0, h1, p13, n0, n1, p16, s0, s1, p19, k0, k1, k2,
      p23], _ =>
      simp only [tryParseTimestampIso8601Bytes, tryParseTimestampSecs, Option.guard_eq_some',
        option_bind_eq_some_iff, length_cons, length_nil, take_succ_cons, take_zero,
        drop_succ_cons, drop_zero, getD_cons_succ, getD_cons_zero, true_and,
        pure, Option.some.injEq, exists_const, Prod.exists, Prod.mk.injEq] at h
      obtain ⟨secs, rest, ⟨rfl, _, -, -, rfl, _, -, -, _, -, rfl, _, -, rfl, _, -, _, -, -, -, rfl⟩,
        hdot, hz, -⟩ := h
      simp only [getD_cons_zero, drop_succ_cons, drop_zero,
        getD_cons_succ] at hdot hz
      subst hdot hz
      exact ⟨⟨[y0, y1, y2, y3], [m0, m1], [d0, d1], p10, [h0, h1], [n0, n1], [s0, s1], [k0, k1, k2],
        rfl, rfl, rfl, rfl, rfl, rfl, rfl⟩, rfl⟩

theorem timestampText_iff : TimestampText v ↔ ∃ t, tryParseTimestampIso8601Bytes v = some t := by
  constructor
  · rintro ⟨f, rfl, hf⟩
    exact ⟨_, (tryParseTimestampIso8601Bytes_text f _).2 ⟨hf, rfl⟩⟩
  · rintro ⟨t, ht⟩
    obtain ⟨f, rfl⟩ := exists_fields ht
    exact ⟨f, rfl, ((tryParseTimestampIso8601Bytes_text f t).1 ht).1⟩

/-- The nanoseconds of an accepted timestamp fit 64 bits, and are whole milliseconds. -/
theorem tryParseTimestampIso8601Bytes_range (h : tryParseTimestampIso8601Bytes v = some t) :
    (-9223372036000000000 ≤ t ∧ t < 9223372036000000000) ∧ t % 1000000 = 0 := by
  obtain ⟨f, rfl⟩ := exists_fields h
  obtain ⟨hf, rfl⟩ := (tryParseTimestampIso8601Bytes_text f t).1 h
  have hms : dateValue f.msec < 1000 := by
    have hdigits : AllDigits f.msec := by simpa [f.length_msec] using hf.msec.chars
    have hlt := digitsValue_lt hdigits
    rwa [f.length_msec, ← dateValue_of_allDigits hdigits] at hlt
  have hrange := hf.range
  omega

/-! ### Rendering -/

theorem formatPad_natCast (w n : Nat) : formatPad w n = decimalPad w n := by
  rw [formatPad, if_neg (by omega), Int.natAbs_natCast]

/-- The rendered number has the wanted width and is the number again. -/
theorem formatPad_spec {w : Nat} {n : Int} (hw : 0 < w) (h0 : 0 ≤ n) (h1 : n < 10 ^ w) :
    (formatPad w n).length = w ∧ AllDigits (formatPad w n) ∧
      (digitsValue (formatPad w n) : Int) = n := by
  obtain ⟨m, rfl⟩ := Int.eq_ofNat_of_zero_le h0
  rw [formatPad_natCast]
  refine ⟨length_decimalPad hw (by exact_mod_cast h1), allDigits_decimalPad w m, ?_⟩
  rw [digitsValue_decimalPad]

/-- The fraction of a second without trailing zeros. -/
def fractionText (nsec : Int) : Bytes :=
  if nsec ≠ 0 then byte '.' :: formatPad (trimFraction 9 nsec).1 (trimFraction 9 nsec).2 else []

def Writes (s : Bytes) (n : Int) : Prop := AllDigits s ∧ (digitsValue s : Int) = n

/-- The fields that are rendered for a timestamp in the accepted range. -/
theorem exists_renderedFields (ht : -9223372036000000000 ≤ t ∧ t < 9223372036000000000) :
    ∃ f : TimestampFields, marshalTimestampIso8601String t = f.text ∧
      marshalTimestampRfc3339NanoString t = f.secsText ++ (fractionText (t % 1000000000) ++ [byte 'Z']) ∧
      f.delim = byte 'T' ∧
      Writes f.year (utcDateTimeFromNsecs t).1 ∧ Writes f.month (utcDateTimeFromNsecs t).2.1 ∧
      Writes f.day (utcDateTimeFromNsecs t).2.2.1 ∧ Writes f.hour (utcDateTimeFromNsecs t).2.2.2.1 ∧
      Writes f.minute (utcDateTimeFromNsecs t).2.2.2.2.1 ∧ Writes f.second (utcDateTimeFromNsecs t).2.2.2.2.2.1 ∧
      Writes f.msec ((utcDateTimeFromNsecs t).2.2.2.2.2.2 / 1000000) := by
  have hvalid := validDateTime_utc t
  have hyear := civilFromDays_year_range (z := t / 1000000000 / 86400) (by omega) (by omega)
  obtain ⟨⟨hmonth, hday⟩, hhour, hminute, hsecond⟩ := hvalid
  have hdays : daysInMonth (utcDateTimeFromNsecs t).1 (utcDateTimeFromNsecs t).2.1 ≤ 31 := by
    unfold daysInMonth
    split_ifs <;> omega
  have hnsec : 0 ≤ (utcDateTimeFromNsecs t).2.2.2.2.2.2 / 1000000 ∧
      (utcDateTimeFromNsecs t).2.2.2.2.2.2 / 1000000 < 1000 := by
    simp only [utcDateTimeFromNsecs]
    omega
  obtain ⟨hly, hy⟩ := formatPad_spec (w := 4) (by omega) (le_trans (by decide) hyear.1) (by omega)
  obtain ⟨hlm, hm⟩ := formatPad_spec (w := 2) (n := (utcDateTimeFromNsecs t).2.1) (by omega)
    (by omega) (by omega)
  obtain ⟨hld, hd⟩ := formatPad_spec (w := 2) (n := (utcDateTimeFromNsecs t).2.2.1) (by omega)
    (by omega) (by omega)
  obtain ⟨hlh, hh⟩ := formatPad_spec (w := 2) (by omega) hhour.1 (by omega)
  obtain ⟨hln, hn⟩ := formatPad_spec (w := 2) (by omega) hminute.1 (by omega)
  obtain ⟨hls, hs⟩ := formatPad_spec (w := 2) (by omega) hsecond.1 (by omega)
  obtain ⟨hlk, hk⟩ := formatPad_spec (w := 3) (by omega) hnsec.1 (by omega)
  refine ⟨⟨_, _, _, byte 'T', _, _, _, _, hly, hlm, hld, hlh, hln, hls, hlk⟩, rfl, ?_, rfl, hy, hm, hd, hh, hn, hs,
    hk⟩
  simp only [marshalTimestampRfc3339NanoString, TimestampFields.secsText, append_assoc, cons_append]
  rfl

/-- What is rendered for a timestamp in the accepted range is the text of a calendar date. -/
theorem calendarText_marshal (ht : -9223372036000000000 ≤ t ∧ t < 9223372036000000000) :
    CalendarText (marshalTimestampIso8601String t) := by
  obtain ⟨f, htext, -, hdelim, hy, hm, hd, hh, hn, hs, hk⟩ := exists_renderedFields ht
  refine ⟨f, htext, hdelim, hy.1, hm.1, hd.1, hh.1, hn.1, hs.1, hk.1, ?_⟩
  rw [hy.2, hm.2, hd.2, hh.2, hn.2, hs.2]
  exact validDateTime_utc t

/-- An accepted timestamp comes back exactly when it writes a date of the calendar. -/
theorem marshal_timestamp_eq_iff (h : tryParseTimestampIso8601Bytes v = some t) :
    marshalTimestampIso8601String t = v ↔ CalendarText v := by
  constructor
  · intro heq
    rw [← heq]
    exact calendarText_marshal (tryParseTimestampIso8601Bytes_range h).1
  · rintro ⟨f, rfl, hdelim, hy, hm, hd, hh, hn, hs, hk, hvalid⟩
    obtain ⟨-, rfl⟩ := (tryParseTimestampIso8601Bytes_text f t).1 h
    have hms : digitsValue f.msec < 1000 := by
      have hlt := digitsValue_lt hk
      rwa [f.length_msec] at hlt
    have hsecs : f.secs = unixSecsFromDate (digitsValue f.year) (digitsValue f.month)
        (digitsValue f.day) (digitsValue f.hour) (digitsValue f.minute) (digitsValue f.second) := by
      simp only [TimestampFields.secs, dateValue_of_allDigits hy, dateValue_of_allDigits hm,
        dateValue_of_allDigits hd, dateValue_of_allDigits hh, dateValue_of_allDigits hn,
        dateValue_of_allDigits hs]
    have hfield : ∀ {s : Bytes} {w : Nat}, AllDigits s → s.length = w → 0 < w →
        formatPad w (digitsValue s) = s := by
      intro s w hdig hlen hw
      subst hlen
      rw [formatPad_natCast]
      exact decimalPad_digitsValue (length_pos_iff.1 hw) hdig
    have hdiv : (digitsValue f.msec : Int) * 1000000 / 1000000 = digitsValue f.msec := by omega
    rw [hsecs, dateValue_of_allDigits hk, marshalTimestampIso8601String,
      utcDateTimeFromNsecs_unixSecsFromDate hvalid ⟨by omega, by omega⟩]
    simp only [hdiv, hfield hy f.length_year (by omega), hfield hm f.length_month (by omega),
      hfield hd f.length_day (by omega), hfield hh f.length_hour (by omega),
      hfield hn f.length_minute (by omega), hfield hs f.length_second (by omega),
      hfield hk f.length_msec (by omega), TimestampFields.text, hdelim]

theorem Writes.dateText {s : Bytes} {n : Int} (h : Writes s n) (hlen : 0 < s.length ∧ s.length ≤ 9) :
    DateText s ∧ (dateValue s : Int) = n := by
  have hparse := tryParseDateUint64_of_allDigits (length_pos_iff.1 hlen.1) hlen.2 h.1
  exact ⟨(tryParseDateUint64_eq_some.1 hparse).1, by rw [dateValue_of_allDigits h.1, h.2]⟩

/-- The fields that are rendered for a timestamp are accepted and are its seconds and milliseconds. -/
theorem exists_acceptedFields (ht : -9223372036000000000 ≤ t ∧ t < 9223372036000000000) :
    ∃ f : TimestampFields, marshalTimestampIso8601String t = f.text ∧
      marshalTimestampRfc3339NanoString t = f.secsText ++ (fractionText (t % 1000000000) ++ [byte 'Z']) ∧
      f.Accepted ∧ f.secs = t / 1000000000 ∧ (dateValue f.msec : Int) = t % 1000000000 / 1000000 := by
  obtain ⟨f, htext, hnano, hdelim, hy, hm, hd, hh, hn, hs, hk⟩ := exists_renderedFields ht
  have hy := hy.dateText (by rw [f.length_year]; omega)
  have hm := hm.dateText (by rw [f.length_month]; omega)
  have hd := hd.dateText (by rw [f.length_day]; omega)
  have hh := hh.dateText (by rw [f.length_hour]; omega)
  have hn := hn.dateText (by rw [f.length_minute]; omega)
  have hs := hs.dateText (by rw [f.length_second]; omega)
  have hk := hk.dateText (by rw [f.length_msec]; omega)
  have hsecs : f.secs = t / 1000000000 := by
    rw [TimestampFields.secs, hy.2, hm.2, hd.2, hh.2, hn.2, hs.2, unixSecsFromDate_utcDateTimeFromNsecs]
  have hyear := civilFromDays_year_range (z := t / 1000000000 / 86400) (by omega) (by omega)
  have hrange : 1677 ≤ dateValue f.year ∧ dateValue f.year ≤ 2262 := by
    have heq : (dateValue f.year : Int) = (civilFromDays (t / 1000000000 / 86400)).1 := hy.2
    omega
  refine ⟨f, htext, hnano, ⟨⟨hy.1, hrange⟩, hm.1, hd.1, .inl hdelim, hh.1, hn.1, hs.1, hk.1, ?_⟩, hsecs, hk.2⟩
  rw [hsecs]
  omega

/-- What is rendered for a timestamp of whole milliseconds is accepted as this timestamp. -/
theorem tryParseTimestampIso8601Bytes_marshal (ht : -9223372036000000000 ≤ t ∧ t < 9223372036000000000)
    (hwhole : t % 1000000 = 0) : tryParseTimestampIso8601Bytes (marshalTimestampIso8601String t) = some t := by
  obtain ⟨f, htext, -, hf, hsecs, hmsec⟩ := exists_acceptedFields ht
  rw [htext, tryParseTimestampIso8601Bytes_text, hsecs, hmsec]
  exact ⟨hf, by omega⟩

end EsLogs.NumberText
