import CtBrowser.Script.Temporal.Written

/-!
# Round Trips of Temporal Objects

The string that a Temporal object is written as is read back as the object. A year-month keeps no
day of reference in its string, and a month-day no year.

## Main results

- `toTemporalDate_toString`, `toTemporalTime_toString` and the others — the plain types.
- `toTemporalInstant_toString` — exact times, in any zone.
-/

namespace CtBrowser.Script.Temporal

open Foundations.Reading Foundations.Reading.Grammar

/-! ## Strings without annotations -/

theorem derives_annotated_nil : (Productions.annotated false).derives [] {} :=
  ⟨[], [], none, rfl, .inl ⟨rfl, rfl⟩, derives_require_bind.mpr ⟨fun h => absurd h Bool.false_ne_true,
    [], [], [], rfl, derives_many_nil.mpr rfl, rfl, rfl⟩⟩

theorem derives_withAnnotations {N : Grammar UInt8 Parsed} {u : Text} {p : Parsed}
    (hu : N.derives u p) (hp : p.notes = {}) : (Productions.withAnnotations false N).derives u p := by
  refine ⟨u, [], p, (List.append_nil u).symm, hu, [], [], {}, rfl, derives_annotated_nil, rfl, ?_⟩
  rw [← hp]

theorem parseIsoDatetime_plain {t : Text} {g : Goal} {p : Parsed}
    (ht : (Productions.goal g).derives t p) (hp : p.notes = {}) :
    parseIsoDatetime t [g] = some ⟨p.date.year, p.date.month, p.date.day, p.time, p.offset.z,
      p.offset.text, [], []⟩ := by
  rw [parseIsoDatetime, parseGoal_eq_some.mpr ht]
  dsimp only
  rw [recordOf, hp]
  simp [scanAnnotations]

theorem formatCalendarAnnotation_iso : formatCalendarAnnotation isoCalendar .auto = [] := by decide

theorem year_of_within {dt : IsoDatetime}
    (hvalid : isValidIsoDate dt.date.year dt.date.month dt.date.day = true)
    (hwithin : isoDatetimeWithinLimits dt = true) : -999999 ≤ dt.date.year ∧ dt.date.year ≤ 999999 := by
  rw [isoDatetimeWithinLimits, decide_eq_true_eq] at hwithin
  obtain ⟨hlow, hhigh⟩ := year_bounds hvalid hwithin.1
  exact ⟨by omega, by omega⟩

/-! ## Plain types -/

theorem toTemporalDate_toString (d : PlainDate) :
    toTemporalDate (temporalDateToString d.date isoCalendar .auto) = some (d.date, isoCalendar) := by
  obtain ⟨hlow, hhigh⟩ := @year_of_within ⟨d.date, noon⟩ d.valid d.within
  have hdate := derives_dateWritten d.valid hlow hhigh
  have htext : temporalDateToString d.date isoCalendar .auto = dateWritten d.date := by
    rw [temporalDateToString, formatCalendarAnnotation_iso, List.append_nil, dateWritten]
  have hgoal := @derives_withAnnotations (Productions.dateTime false false) _ _
    (.inl (derives_require_bind.mpr ⟨rfl, _, [], _, (List.append_nil _).symm, hdate, rfl, rfl⟩)) rfl
  rw [htext, toTemporalDate, parseIsoDatetime_plain (g := .dateTime) hgoal rfl]
  exact if_pos d.within

theorem toTemporalTime_toString (t : PlainTime) :
    toTemporalTime (timeRecordToString t.time precisionAuto) = some t.time := by
  have htime := derives_timeWritten t.valid t.no_days
  have hword : (Productions.timeAndOffset false).derives (timeRecordToString t.time precisionAuto)
      (t.time, {}) :=
    ⟨_, [], _, (List.append_nil _).symm, htime, [], [], none, rfl, .inl ⟨rfl, rfl⟩, rfl, rfl⟩
  -- the colon keeps the time from being a date
  have hcolon : ch ':' ∈ timeRecordToString t.time precisionAuto := by
    rw [timeRecordToString, formatTimeString, if_neg (by decide)]
    simp [show ch ':' ∈ ascii ":" by decide]
  have hnoDate : isDateByte (ch ':') = false := by decide
  have hearly : ¬ Productions.Derivable Productions.dateSpecMonthDay
        (timeRecordToString t.time precisionAuto) ∧
      ¬ Productions.Derivable Productions.dateSpecYearMonth
        (timeRecordToString t.time precisionAuto) := by
    constructor
    · rintro ⟨d, hd⟩
      exact Bool.false_ne_true (hnoDate.symm.trans ((dateSpecMonthDay_word hd).2 _ hcolon))
    · rintro ⟨d, hd⟩
      exact Bool.false_ne_true (hnoDate.symm.trans (dateSpecYearMonth_word hd _ hcolon))
  have hgoal : Productions.annotatedTime.derives (timeRecordToString t.time precisionAuto)
      { time := some t.time } :=
    derives_withAnnotations (.inr ⟨_, [], (_, t.time, {}), (List.append_nil _).symm, ⟨rfl, hword⟩,
      derives_require_bind.mpr ⟨hearly, rfl, rfl⟩⟩) rfl
  rw [toTemporalTime, parseIsoDatetime_plain (g := .time) (.inl hgoal) rfl]
  rfl

theorem derives_dateTimeWritten {dt : IsoDatetime}
    (hdate : isValidIsoDate dt.date.year dt.date.month dt.date.day = true)
    (hlow : -999999 ≤ dt.date.year) (hhigh : dt.date.year ≤ 999999) 
    (htime : isValidTime dt.time = true) (hdays : dt.time.days = 0) {allowZ : Bool} {uo : Text} {o : Option OffsetPart}
    (ho : (Productions.dateTimeUtcOffset allowZ).opt.derives uo o) :
    (Productions.date >>= fun d => Productions.dateTimeSeparator >>= fun _ =>
      Productions.timeAndOffset allowZ >>= fun t =>
      (pure { date := d, time := some t.1, offset := t.2 } : Grammar UInt8 Parsed)).derives
      (dateWritten dt.date ++ (ascii "T" ++ (timeRecordToString dt.time precisionAuto ++ uo)))
      { date := { year := some dt.date.year, month := dt.date.month, day := dt.date.day, hasDay := true },
        time := some dt.time, offset := o.getD {} } :=
  ⟨_, _, _, rfl, derives_dateWritten hdate hlow hhigh, _, _, (), rfl, .inr (.inl rfl), _, [], _,
    (List.append_nil _).symm, ⟨_, _, _, rfl, derives_timeWritten htime hdays, uo, [], o,
      (List.append_nil uo).symm, ho, rfl, rfl⟩, rfl, rfl⟩

theorem toTemporalDateTime_toString (d : PlainDateTime) :
    toTemporalDateTime (isoDatetimeToString d.dt isoCalendar precisionAuto .auto) =
      some (d.dt, isoCalendar) := by
  obtain ⟨hlow, hhigh⟩ := year_of_within d.valid_date d.within
  have hgoal := @derives_withAnnotations (Productions.dateTime false false) _ _
    (.inr (derives_dateTimeWritten d.valid_date hlow hhigh d.valid_time d.no_days (.inl ⟨rfl, rfl⟩))) rfl
  have htext : isoDatetimeToString d.dt isoCalendar precisionAuto .auto =
      dateWritten d.dt.date ++ (ascii "T" ++ (timeRecordToString d.dt.time precisionAuto ++ [])) := by
    rw [isoDatetimeToString, formatCalendarAnnotation_iso]
    simp only [dateWritten, List.append_assoc]
  rw [htext, toTemporalDateTime, parseIsoDatetime_plain (g := .dateTime) hgoal rfl]
  exact if_pos d.within

theorem toTemporalYearMonth_toString (d : PlainYearMonth) :
    toTemporalYearMonth (yearMonthToString d.date isoCalendar .auto) =
      some ({ d.date with day := 1 }, isoCalendar) := by
  have hyear : -999999 ≤ d.date.year ∧ d.date.year ≤ 999999 := by
    have hwithin := d.within
    rw [isoYearMonthWithinLimits, Bool.and_eq_true, Bool.and_eq_true, Bool.not_eq_true',
      decide_eq_false_iff_not] at hwithin
    omega
  obtain ⟨hm₁, hm₂, -, -⟩ := isValidIsoDate_iff.mp d.valid
  have htext : yearMonthToString d.date isoCalendar .auto =
      padIsoYear d.date.year ++ (ascii "-" ++ zeroPadded d.date.month 2) := by
    rw [yearMonthToString, formatCalendarAnnotation_iso, if_neg (by simp)]
    simp only [List.append_assoc, List.append_nil]
  have hword : Productions.dateSpecYearMonth.derives
      (padIsoYear d.date.year ++ (ascii "-" ++ zeroPadded d.date.month 2))
      ⟨some d.date.year, d.date.month, 1, false⟩ :=
    .inl ⟨_, _, _, rfl, derives_padIsoYear hyear.1 hyear.2, _, _, (), rfl, rfl, _, [], _,
      (List.append_nil _).symm, derives_month hm₁ hm₂, rfl, rfl⟩
  have hgoal : (Productions.annotatedDate Productions.dateSpecYearMonth).derives
      (padIsoYear d.date.year ++ (ascii "-" ++ zeroPadded d.date.month 2))
      { date := ⟨some d.date.year, d.date.month, 1, false⟩ } :=
    derives_withAnnotations ⟨_, [], _, (List.append_nil _).symm, hword, rfl, rfl⟩ rfl
  rw [htext, toTemporalYearMonth, parseIsoDatetime_plain (g := .yearMonth) (.inl hgoal) rfl]
  exact if_pos d.within

theorem isoDaysInMonth_le_leap (y m : ℤ) : isoDaysInMonth y m ≤ isoDaysInMonth 1972 m := by
  have hleap : isLeapYear 1972 = true := by decide
  simp only [isoDaysInMonth, hleap, if_true]
  split_ifs <;> norm_num

theorem toTemporalMonthDay_toString (d : PlainMonthDay) :
    toTemporalMonthDay (monthDayToString d.date isoCalendar .auto) =
      some ({ d.date with year := 1972 }, isoCalendar) := by
  obtain ⟨hm₁, hm₂, hd₁, hd₂⟩ := isValidIsoDate_iff.mp d.valid
  have htext : monthDayToString d.date isoCalendar .auto =
      [] ++ (zeroPadded d.date.month 2 ++ (ascii "-" ++ zeroPadded d.date.day 2)) := by
    rw [monthDayToString, formatCalendarAnnotation_iso, if_neg (by simp)]
    simp only [List.append_assoc, List.append_nil]
  have hword : Productions.dateSpecMonthDay.derives
      ([] ++ (zeroPadded d.date.month 2 ++ (ascii "-" ++ zeroPadded d.date.day 2)))
      ⟨none, d.date.month, d.date.day, true⟩ :=
    .inl ⟨[], _, (), rfl, .inr rfl, _, _, _, rfl, derives_month hm₁ hm₂, _, _, (), rfl, rfl, _, [], _,
      (List.append_nil _).symm, derives_day hd₁ (hd₂.trans (isoDaysInMonth_le _ _)),
      derives_require_bind.mpr ⟨hd₂.trans (isoDaysInMonth_le_leap _ _), rfl, rfl⟩⟩
  have hgoal : (Productions.annotatedDate Productions.dateSpecMonthDay).derives
      ([] ++ (zeroPadded d.date.month 2 ++ (ascii "-" ++ zeroPadded d.date.day 2)))
      { date := ⟨none, d.date.month, d.date.day, true⟩ } :=
    derives_withAnnotations ⟨_, [], _, (List.append_nil _).symm, hword, rfl, rfl⟩ rfl
  rw [htext, toTemporalMonthDay, parseIsoDatetime_plain (g := .monthDay) (.inl hgoal) rfl]
  rfl

/-! ## Exact times -/

theorem offsetMinutesOf_bounds (zone : Text) : |offsetMinutesOf zone| ≤ 1439 := by
  rw [offsetMinutesOf, parseTimeZoneIdentifier]
  split
  · next ns hns =>
    obtain ⟨us, _, s, rfl, hs, uc, _, c, rfl, hc, rfl, rfl⟩ := parseUtcOffset_eq_some.mp hns
    obtain ⟨hhour, hminute, -, -⟩ := clock_bounds hc
    obtain ⟨hsecond, hfraction⟩ : c.second = 0 ∧ c.fraction = [] := by
      obtain ⟨e, hc⟩ : ∃ e, (Productions.clockSpec false 59 e).derives uc c :=
        hc.elim (⟨true, ·⟩) (⟨false, ·⟩)
      rcases derives_clockSpec.mp hc with ⟨h, -, rfl⟩ | ⟨_, _, h, m, -, -, -, rfl⟩ | ⟨hsub, -⟩
      · exact ⟨rfl, rfl⟩
      · exact ⟨rfl, rfl⟩
      · cases hsub
    have hzero : Productions.nanoseconds [] = 0 := rfl
    rw [Option.bind_some, Option.getD_some, hfraction, hzero, hsecond]
    obtain ⟨n, hn⟩ : ∃ n : ℤ, n = s * (c.hour * 60 + c.minute) := ⟨_, rfl⟩
    have hns : s * ((c.hour * 3600 + c.minute * 60 + (0 : ℕ)) * 1000000000 + 0) = n * 60000000000 := by
      rw [hn]
      push_cast
      ring
    rw [hns, Int.mul_tdiv_cancel n (by norm_num), abs_le, hn]
    rcases hs with ⟨-, rfl⟩ | ⟨-, rfl⟩ <;> omega
  · split
    · exact abs_zero.trans_le (by norm_num)
    · exact abs_zero.trans_le (by norm_num)

theorem derives_formatDatetimeUtcOffsetRounded {m : ℤ} (hm : |m| ≤ 1439) :
    (Productions.utcOffset true).derives (formatDatetimeUtcOffsetRounded (m * 60000000000))
      (m * 60000000000) := by
  have habs : (if m < 0 then -m else m) = |m| := by
    split_ifs with hneg
    · exact (abs_of_neg hneg).symm
    · exact (abs_of_nonneg (not_lt.mp hneg)).symm
  have hpos := abs_nonneg m
  have hclock := @derives_minutePrecision (|m| / 60) (|m| % 60) 0 0 (by omega) (by omega) (by omega)
    (by omega) 59
  have hsign : (0 ≤ m * 60000000000) ↔ 0 ≤ m := by omega
  have hword := @derives_signedClock (m * 60000000000) _ _ hclock (by
    have hzero : Productions.nanoseconds [] = 0 := rfl
    have hscale : |m * 60000000000| = |m| * 60000000000 := by
      rw [abs_mul, abs_of_pos (by norm_num : (0 : ℤ) < 60000000000)]
    dsimp only
    rw [hscale, hzero]
    omega)
  rw [formatDatetimeUtcOffsetRounded, roundNumberToIncrement, if_pos (Int.mul_tmod_left _ _),
    Int.mul_tdiv_cancel m (by norm_num), formatOffsetTimeZoneIdentifier, habs]
  simp only [hsign] at hword
  exact hword

/-- The parts of an exact time at an offset of less than a day, and back. -/
theorem toTemporalInstant_of_offset {ns offset : ℤ} (hns : isValidEpochNanoseconds ns = true)
    (hoffset : |offset| ≤ 1439 * 60000000000) {uo : Text} {o : OffsetPart}
    (ho : (Productions.dateTimeUtcOffset true).derives uo o)
    (hvalue : (if o.z then some 0 else parseUtcOffset o.text true) = some offset) :
    let parts := isoPartsFromEpoch ns
    let dt := balanceIsoDatetime parts.date.year parts.date.month parts.date.day parts.time.hour
      parts.time.minute parts.time.second parts.time.millisecond parts.time.microsecond
      (parts.time.nanosecond + offset)
    toTemporalInstant (dateWritten dt.date ++ (ascii "T" ++
      (timeRecordToString dt.time precisionAuto ++ uo))) = some ns := by
  intro parts dt
  rw [isValidEpochNanoseconds, decide_eq_true_eq, nsMinInstant, nsMaxInstant, nsPerDay] at hns
  obtain ⟨-, -, -, hpartsDays, hpartsNs⟩ := isoPartsFromEpoch_spec ns
  obtain ⟨hdate, htime, hzero, hdays, hdt⟩ := balanceIsoDatetime_spec parts.date.year parts.date.month
    parts.date.day parts.time.hour parts.time.minute parts.time.second parts.time.millisecond
    parts.time.microsecond (parts.time.nanosecond + offset)
  have hshift : getUtcEpochNanoseconds dt = ns + offset := by
    rw [← hpartsNs]
    refine hdt.trans ?_
    rw [getUtcEpochNanoseconds, timeNanoseconds, timeNanoseconds]
    dsimp only
    ring
  have hyear : -271822 ≤ dt.date.year ∧ dt.date.year ≤ 275761 := by
    refine year_bounds hdate ?_
    rw [abs_le] at hoffset ⊢
    have hfloor : epochDays dt.date = (ns + offset) / nsPerDay := hdays.trans (by rw [hshift])
    rw [hfloor, nsPerDay]
    omega
  have hgoal : Productions.temporalInstantString.derives (dateWritten dt.date ++ (ascii "T" ++
      (timeRecordToString dt.time precisionAuto ++ uo)))
      { date := ⟨some dt.date.year, dt.date.month, dt.date.day, true⟩, time := some dt.time, offset := o } :=
    derives_withAnnotations ⟨_, _, _, rfl, derives_dateWritten hdate (by omega) (by omega), _, _, (),
      rfl, .inr (.inl rfl), _, _, _, rfl, derives_timeWritten htime hzero, uo, [], o,
      (List.append_nil uo).symm, ho, rfl, rfl⟩ rfl
  -- taking the offset away again gives the exact time
  obtain ⟨-, -, -, hbackDays, hback⟩ := balanceIsoDatetime_spec dt.date.year dt.date.month dt.date.day
    dt.time.hour dt.time.minute dt.time.second dt.time.millisecond dt.time.microsecond
    (dt.time.nanosecond - offset)
  have hresult : getUtcEpochNanoseconds (balanceIsoDatetime dt.date.year dt.date.month dt.date.day
      dt.time.hour dt.time.minute dt.time.second dt.time.millisecond dt.time.microsecond
      (dt.time.nanosecond - offset)) = ns := by
    have hdefinition : getUtcEpochNanoseconds dt =
        epochDays dt.date * nsPerDay + timeNanoseconds dt.time := rfl
    rw [timeNanoseconds] at hdefinition
    refine hback.trans ?_
    rw [timeNanoseconds]
    dsimp only
    have heq : (⟨dt.date.year, dt.date.month, dt.date.day⟩ : IsoDate) = dt.date := rfl
    rw [heq]
    linarith
  rw [toTemporalInstant, parseIsoDatetime_plain (g := .instant) hgoal rfl]
  have hrange : checkIsoDaysRange (balanceIsoDatetime dt.date.year dt.date.month dt.date.day
      dt.time.hour dt.time.minute dt.time.second dt.time.millisecond dt.time.microsecond
      (dt.time.nanosecond - offset)).date = true := by
    rw [checkIsoDaysRange, decide_eq_true_eq, hbackDays, hresult, nsPerDay, abs_le]
    omega
  have hvalidNs : isValidEpochNanoseconds ns = true := by
    rw [isValidEpochNanoseconds, decide_eq_true_eq, nsMinInstant, nsMaxInstant, nsPerDay]
    exact hns
  have hoffsetValue : instantOffset ⟨some dt.date.year, dt.date.month, dt.date.day, some dt.time, o.z,
      o.text, [], []⟩ = some offset := hvalue
  simp only [Option.bind_eq_bind, Option.bind_some, hoffsetValue, hrange, if_true, hresult, hvalidNs]

/-- An exact time written in any zone, or in none, is read back. -/
theorem toTemporalInstant_toString (i : Instant) (zone : Text) :
    toTemporalInstant (instantToString i.epochNs zone precisionAuto) = some i.epochNs := by
  have hnever : formatCalendarAnnotation isoCalendar .never = [] := by decide
  have hutc : offsetMinutesOf (ascii "UTC") = 0 := by decide
  have hbounds : ∀ z, |offsetMinutesOf z * 60000000000| ≤ 1439 * 60000000000 := fun z => by
    rw [abs_mul, abs_of_pos (by norm_num : (0 : ℤ) < 60000000000)]
    exact mul_le_mul_of_nonneg_right (offsetMinutesOf_bounds z) (by norm_num)
  have htext : ∀ (dt : IsoDatetime) (uo : Text),
      isoDatetimeToString dt isoCalendar precisionAuto .never ++ uo =
        dateWritten dt.date ++ (ascii "T" ++ (timeRecordToString dt.time precisionAuto ++ uo)) := by
    intro dt uo
    rw [isoDatetimeToString, hnever]
    simp only [dateWritten, List.append_assoc, List.append_nil]
  rw [instantToString]
  by_cases hzone : zone = []
  · have hz : (Productions.dateTimeUtcOffset true).derives (ascii "Z") { z := true } :=
      .inl (derives_require_bind.mpr ⟨rfl, [ch 'Z'], [], (), rfl, .inl rfl, rfl, rfl⟩)
    simp only [if_pos hzone, htext]
    have hread := toTemporalInstant_of_offset i.within (hbounds (ascii "UTC")) hz (by rw [hutc]; rfl)
    exact hread
  · have hoffset := derives_formatDatetimeUtcOffsetRounded (offsetMinutesOf_bounds zone)
    simp only [if_neg hzone, htext]
    exact toTemporalInstant_of_offset i.within (hbounds zone)
      (.inr ⟨_, [], (_, _), (List.append_nil _).symm, ⟨rfl, hoffset⟩, rfl, rfl⟩)
      (parseUtcOffset_eq_some.mpr hoffset)

theorem parseUtcOffset_format (o : UtcOffset) :
    parseUtcOffset (formatUtcOffsetNanoseconds o.ns) true = some o.ns :=
  parseUtcOffset_eq_some.mpr (derives_formatUtcOffsetNanoseconds o.within)

end CtBrowser.Script.Temporal
