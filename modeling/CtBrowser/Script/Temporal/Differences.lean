import CtBrowser.Script.Temporal.CheckedDurations
import CtBrowser.Script.Temporal.ObjectRoundTrip

/-!
# Differences of Date-times

The differences of date-times and of exact times in a zone, and the additions that take them back,
with the integer types of the source. Every zone has a fixed offset.

## Main definitions

- `differenceIsoDatetime`, `addDuration` — date-times.
- `differenceZonedDatetime`, `addZonedDatetime` — exact times in a zone.

## Main results

- `temporal_differences` — a difference added to the first of two gives the second, and nothing
  overflows.
-/

namespace CtBrowser.Script.Temporal

open Foundations.FixedWidth

namespace Checked

/-! ## Date-times -/

def differenceTime (one two : TimeRecord) : Option ℤ := do
  int128 ((← timeNanoseconds two) - (← timeNanoseconds one))

def addTime (t : TimeRecord) (duration : ℤ) : Option TimeRecord := do
  balanceTime t.hour t.minute t.second t.millisecond t.microsecond (← int128 (t.nanosecond + duration))

/-- The duration from one date to another and a time, the days as hours if the largest unit is
one of a time. -/
def dateAndTimeUntil (one two : IsoDate) (time : ℤ) (largest : DurationUnit) :
    Option InternalDuration := do
  let dateLargest := largerUnit .day largest
  let date ← calendarDateUntil one two dateLargest
  if largest ≠ dateLargest then do
    let days ← int128 ((← int128 date.days) * nsPerDay)
    let time ← int128 (time + days)
    pure { date := { date with days := 0 }, time }
  else pure { date, time }

/-- A day is borrowed where the times differ in the direction opposite to the dates. -/
def differenceIsoDatetime (one two : IsoDatetime) (largest : DurationUnit) :
    Option InternalDuration := do
  let time ← differenceTime one.time two.time
  let timeSign := timeDurationSign time
  let dateSign := compareIsoDate one.date two.date
  if timeSign = dateSign then do
    let adjusted ← addDaysToIsoDate two.date timeSign
    let time ← int128 (time - (← int128 (timeSign * nsPerDay)))
    dateAndTimeUntil one.date adjusted time largest
  else dateAndTimeUntil one.date two.date time largest

/-- A duration with its days as 24 hours each, added to a date-time. -/
def addDuration (dt : IsoDatetime) (d : DurationRecord) (how : Overflow) :
    Option (Option IsoDatetime) := do
  let internal ← toInternalDuration24hDays d
  let time ← addTime dt.time internal.time
  let days ← double time.days
  match ← createDateDuration internal.date.years internal.date.months internal.date.weeks days with
  | none => pure none
  | some duration =>
    match ← calendarDateAdd dt.date duration how with
    | none => pure none
    | some added => pure (some { date := added, time := { time with days := 0 } })

/-! ## Zones -/

def getOffsetNanosecondsFor (zone : Text) : Option ℤ := int128 (offsetMinutesOf zone * 60000000000)

def getIsoDatetimeFor (zone : Text) (epochNs : ℤ) : Option IsoDatetime := do
  let parts ← isoPartsFromEpoch epochNs
  let t := parts.time
  let nanosecond ← int128 (t.nanosecond + (← getOffsetNanosecondsFor zone))
  balanceIsoDatetime parts.date.year parts.date.month parts.date.day t.hour t.minute t.second
    t.millisecond t.microsecond nanosecond

/-- The exact times of a date-time in a zone, of which a fixed offset has one. -/
def getPossibleEpochNanoseconds (zone : Text) (dt : IsoDatetime) : Option (Option (List ℤ)) := do
  let t := dt.time
  let minute ← int128 (t.minute - offsetMinutesOf zone)
  let balanced ← balanceIsoDatetime dt.date.year dt.date.month dt.date.day t.hour minute t.second
    t.millisecond t.microsecond t.nanosecond
  let inRange ← checkIsoDaysRange balanced.date
  if inRange = false then pure none
  else do
    let epochNs ← getUtcEpochNanoseconds balanced
    pure (if isValidEpochNanoseconds epochNs then some [epochNs] else none)

def getEpochNanosecondsFor (zone : Text) (dt : IsoDatetime) : Option (Option ℤ) := do
  let possible ← getPossibleEpochNanoseconds zone dt
  pure (possible.bind List.head?)

/-! ## Exact times in a zone -/

def addInstant (epochNs duration : ℤ) : Option (Option ℤ) := do
  let result ← int128 (epochNs + duration)
  pure (if isValidEpochNanoseconds result then some result else none)

/-- Moves the date of the second time towards the first day by day, so many times at most, until the
time that is left does not go back. -/
def intermediateDatetime (zone : Text) (sign ns₂ : ℤ) (start finish : IsoDatetime) :
    ℕ → ℤ → Option (Option (IsoDatetime × ℤ))
  | 0, _ => pure none
  | tries + 1, dayCorrection => do
    let date ← addDaysToIsoDate finish.date (← int32 (dayCorrection * sign))
    let intermediate : IsoDatetime := { date, time := start.time }
    match ← getEpochNanosecondsFor zone intermediate with
    | none => pure none
    | some intermediateNs => do
      let time ← int128 (ns₂ - intermediateNs)
      if sign ≠ timeDurationSign time then pure (some (intermediate, time))
      else do
        let next ← int32 (dayCorrection + 1)
        intermediateDatetime zone sign ns₂ start finish tries next

def differenceZonedDatetime (ns₁ ns₂ : ℤ) (zone : Text) (largest : DurationUnit) :
    Option (Option InternalDuration) :=
  if ns₁ = ns₂ then pure (some {})
  else do
    let start ← getIsoDatetimeFor zone ns₁
    let finish ← getIsoDatetimeFor zone ns₂
    let apart ← int128 (ns₂ - ns₁)
    if compareIsoDate start.date finish.date = 0 then pure (some { time := apart })
    else do
      let sign : ℤ := if apart < 0 then 1 else -1
      let maxDayCorrection : ℤ := if sign = -1 then 2 else 1
      let time ← differenceTime start.time finish.time
      let dayCorrection : ℤ := if timeDurationSign time = sign then 1 else 0
      let found ← intermediateDatetime zone sign ns₂ start finish
        (maxDayCorrection + 1 - dayCorrection).toNat dayCorrection
      match found with
      | none => pure none
      | some (intermediate, time) => do
        let date ← calendarDateUntil start.date intermediate.date (largerUnit largest .day)
        pure (some { date, time })

def addZonedDatetime (epochNs : ℤ) (zone : Text) (d : InternalDuration) (how : Overflow) :
    Option (Option ℤ) :=
  if dateDurationSign d.date = 0 then addInstant epochNs d.time
  else do
    let dt ← getIsoDatetimeFor zone epochNs
    match ← calendarDateAdd dt.date d.date how with
    | none => pure none
    | some added => do
      let intermediate : IsoDatetime := { date := added, time := dt.time }
      let within ← isoDatetimeWithinLimits intermediate
      if within = false then pure none
      else
        match ← getEpochNanosecondsFor zone intermediate with
        | none => pure none
        | some intermediateNs => addInstant intermediateNs d.time

/-! ## Dates and times in range -/

variable {date : IsoDate} {dt one two : IsoDatetime} {zone : Text} {ns ns₁ ns₂ : ℤ}

theorem inRange_of_days (h : date.Valid) (hdays : |Temporal.epochDays date| ≤ 100000001) :
    InRange date := by
  obtain ⟨hlow, hhigh⟩ := year_bounds h hdays
  exact ⟨h, by omega, by omega⟩

/-- A date of the calendar and a time of day, in range. -/
structure DatetimeInRange (dt : IsoDatetime) : Prop where
  date : InRange dt.date
  time : isValidTime dt.time = true
  days : dt.time.days = 0

theorem timeNanoseconds_inj {t t' : TimeRecord} (ht : isValidTime t = true)
    (ht' : isValidTime t' = true) (hdays : t.days = t'.days)
    (h : Temporal.timeNanoseconds t = Temporal.timeNanoseconds t') : t = t' := by
  rw [isValidTime, decide_eq_true_eq] at ht ht'
  rw [Temporal.timeNanoseconds, Temporal.timeNanoseconds] at h
  obtain ⟨days, hour, minute, second, millisecond, microsecond, nanosecond⟩ := t
  obtain ⟨days', hour', minute', second', millisecond', microsecond', nanosecond'⟩ := t'
  simp only [TimeRecord.mk.injEq] at *
  omega

/-! ## Zones -/

theorem balanceIsoDatetime_moved (h : DatetimeInRange dt) (minute nanosecond : ℤ)
    (hminute : |minute| ≤ 1500) (hnanosecond : |nanosecond| ≤ 90000000000000) :
    ∃ moved, balanceIsoDatetime dt.date.year dt.date.month dt.date.day dt.time.hour
        (dt.time.minute + minute) dt.time.second dt.time.millisecond dt.time.microsecond
        (dt.time.nanosecond + nanosecond) = some moved ∧
      moved.date.Valid ∧ isValidTime moved.time = true ∧ moved.time.days = 0 ∧
      Temporal.getUtcEpochNanoseconds moved =
        Temporal.getUtcEpochNanoseconds dt + minute * 60000000000 + nanosecond := by
  obtain ⟨hvalid, htime, hzero, -, hns⟩ := balanceIsoDatetime_spec dt.date.year dt.date.month
    dt.date.day dt.time.hour (dt.time.minute + minute) dt.time.second dt.time.millisecond
    dt.time.microsecond (dt.time.nanosecond + nanosecond)
  have hfields := h.time
  have hdays : -111000000 ≤ Temporal.epochDays ⟨dt.date.year, dt.date.month, dt.date.day⟩ ∧
      Temporal.epochDays ⟨dt.date.year, dt.date.month, dt.date.day⟩ ≤ 111000000 := h.date.days
  rw [isValidTime, decide_eq_true_eq] at hfields
  rw [abs_le] at hminute hnanosecond
  refine ⟨_, balanceIsoDatetime_eq h.date.near (abs_le.mpr (by omega)) (abs_le.mpr (by omega))
    (abs_le.mpr (by omega)) (abs_le.mpr (by omega)) (abs_le.mpr (by omega)) (abs_le.mpr (by omega))
    (abs_le.mpr (by omega)), hvalid, htime, hzero, hns.trans ?_⟩
  rw [Temporal.getUtcEpochNanoseconds, Temporal.timeNanoseconds, Temporal.timeNanoseconds]
  dsimp only
  ring

theorem epochDays_of_ns (htime : isValidTime dt.time = true) :
    Temporal.epochDays dt.date = Temporal.getUtcEpochNanoseconds dt / nsPerDay := by
  have hbounds := timeNanoseconds_bounds htime
  rw [Temporal.getUtcEpochNanoseconds]
  rw [nsPerDay] at hbounds ⊢
  omega

theorem exists_getIsoDatetimeFor (zone : Text) (hns : isValidEpochNanoseconds ns = true) :
    ∃ dt, getIsoDatetimeFor zone ns = some dt ∧ DatetimeInRange dt ∧
      Temporal.getUtcEpochNanoseconds dt = ns + offsetMinutesOf zone * 60000000000 := by
  have hoffset := abs_le.mp (offsetMinutesOf_bounds zone)
  rw [isValidEpochNanoseconds, decide_eq_true_eq, nsMinInstant] at hns
  obtain ⟨hvalid, htime, hzero, hdays, hparts⟩ := isoPartsFromEpoch_spec ns
  have hrange : DatetimeInRange (Temporal.isoPartsFromEpoch ns) := by
    refine ⟨inRange_of_days hvalid ?_, htime, hzero⟩
    rw [hdays, abs_le]
    rw [nsMaxInstant] at hns
    rw [nsPerDay] at hns ⊢
    omega
  obtain ⟨moved, hmoved, hvalid', htime', hzero', hns'⟩ :=
    balanceIsoDatetime_moved hrange 0 (offsetMinutesOf zone * 60000000000) (by norm_num)
      (abs_le.mpr (by omega))
  rw [hparts, zero_mul, add_zero] at hns'
  refine ⟨moved, ?_, ⟨inRange_of_days hvalid' ?_, htime', hzero'⟩, hns'⟩
  · rw [add_zero] at hmoved
    rw [getIsoDatetimeFor]
    refine step (isoPartsFromEpoch_eq (abs_le.mpr (by omega))) ?_
    have hfields := hrange.time
    rw [isValidTime, decide_eq_true_eq] at hfields
    refine step (int128_eq (by omega) (by omega)) ?_
    exact step (int128_eq (by omega) (by omega)) hmoved
  · rw [epochDays_of_ns htime', hns', abs_le]
    rw [nsMaxInstant] at hns
    rw [nsPerDay] at hns ⊢
    omega

/-- The exact time of a date-time in a zone. -/
theorem getEpochNanosecondsFor_eq (zone : Text) (h : DatetimeInRange dt)
    (hns : isValidEpochNanoseconds ns = true)
    (hdt : Temporal.getUtcEpochNanoseconds dt = ns + offsetMinutesOf zone * 60000000000) :
    getEpochNanosecondsFor zone dt = some (some ns) := by
  have hoffset := abs_le.mp (offsetMinutesOf_bounds zone)
  have hbounds := hns
  rw [isValidEpochNanoseconds, decide_eq_true_eq, nsMinInstant, nsMaxInstant] at hbounds
  obtain ⟨moved, hmoved, hvalid, htime, -, hns'⟩ :=
    balanceIsoDatetime_moved h (-offsetMinutesOf zone) 0 (abs_le.mpr (by omega)) (by norm_num)
  have hback : Temporal.getUtcEpochNanoseconds moved = ns := by
    rw [hns', hdt]
    ring
  have hdays := epochDays_of_ns htime
  rw [hback] at hdays
  have hrange : |Temporal.epochDays moved.date| ≤ 100000000 := by
    rw [hdays, abs_le]
    rw [nsPerDay] at hbounds ⊢
    omega
  have hnear := (inRange_of_days hvalid (hrange.trans (by norm_num))).near
  have hcheck : Temporal.checkIsoDaysRange moved.date = true := by
    rw [Temporal.checkIsoDaysRange]
    exact decide_eq_true hrange
  rw [add_zero, ← sub_eq_add_neg] at hmoved
  have hfields := h.time
  rw [isValidTime, decide_eq_true_eq] at hfields
  have hpossible : getPossibleEpochNanoseconds zone dt = some (some [ns]) := by
    rw [getPossibleEpochNanoseconds]
    refine step (int128_eq (by omega) (by omega)) ?_
    refine step hmoved ?_
    refine step (checkIsoDaysRange_eq hnear) ?_
    rw [if_neg (by rw [hcheck]; exact Bool.noConfusion)]
    refine step (getUtcEpochNanoseconds_eq hnear htime) ?_
    rw [hback, if_pos hns]
    rfl
  rw [getEpochNanosecondsFor]
  exact step hpossible rfl

/-! ## Differences of date-times -/

theorem calendarDateUntil_sign {a b : IsoDate} (ha : InRange a) (hb : InRange b) (largest : DurationUnit) :
    ∃ d, calendarDateUntil a b largest = some d ∧ IsDifference a b largest d ∧ Moderate d ∧
      |d.days| ≤ 222000000 ∧
      (¬ b.Before a → ∀ v ∈ [d.years, d.months, d.weeks, d.days], 0 ≤ v) ∧
      (¬ a.Before b → ∀ v ∈ [d.years, d.months, d.weeks, d.days], v ≤ 0) := by
  obtain ⟨d, hd, hdifference, hmoderate, hdays⟩ := calendarDateUntil_spec ha hb largest
  have hfields := hdifference.fields_sign
  refine ⟨d, hd, hdifference, hmoderate, hdays, fun h v hv => ?_, fun h v hv => ?_⟩
  · have hv' := hfields v hv
    rwa [direction, if_neg h, one_mul] at hv'
  · rcases a.before_trichotomy b with hlt | rfl | hlt
    · exact absurd hlt h
    · rw [calendarDateUntil, compareIsoDate_self, if_pos rfl] at hd
      obtain rfl : {} = d := Option.some.inj hd
      simp only [List.mem_cons, List.not_mem_nil, or_false, or_self] at hv
      exact hv.le
    · have hv' := hfields v hv
      rw [direction, if_pos hlt] at hv'
      omega

theorem inRange_between {a b : IsoDate} (ha : InRange a) (hb : InRange b) (hdate : date.Valid)
    (hlow : Temporal.epochDays a ≤ Temporal.epochDays date)
    (hhigh : Temporal.epochDays date ≤ Temporal.epochDays b) : InRange date := by
  have hbefore := (epochDays_lt_iff hdate ha.valid).not.mp (by omega)
  have hafter := (epochDays_lt_iff hb.valid hdate).not.mp (by omega)
  have ha₁ := ha.low
  have hb₂ := hb.high
  rw [IsoDate.Before] at hbefore hafter
  exact ⟨hdate, by omega, by omega⟩

/-- The day that a difference borrows for its time. -/
def borrowedDays (one two : IsoDatetime) : ℤ :=
  let sign := timeDurationSign
    (Temporal.timeNanoseconds two.time - Temporal.timeNanoseconds one.time)
  if sign = compareIsoDate one.date two.date then sign else 0

theorem timeDurationSign_cases (t : ℤ) : timeDurationSign t = -1 ∧ t < 0 ∨
    timeDurationSign t = 1 ∧ 0 < t ∨ timeDurationSign t = 0 ∧ t = 0 := by
  rw [timeDurationSign]
  split_ifs <;> omega

theorem borrowedDays_cases (hone : one.date.Valid) (htwo : two.date.Valid) {t : ℤ}
    (ht : t = Temporal.timeNanoseconds two.time - Temporal.timeNanoseconds one.time) :
    (borrowedDays one two = -1 ∧ Temporal.epochDays one.date < Temporal.epochDays two.date ∧ t < 0) ∨
    (borrowedDays one two = 1 ∧ Temporal.epochDays two.date < Temporal.epochDays one.date ∧ 0 < t) ∨
    (borrowedDays one two = 0 ∧
      (Temporal.epochDays two.date ≤ Temporal.epochDays one.date ∨ 0 ≤ t) ∧
      (Temporal.epochDays one.date ≤ Temporal.epochDays two.date ∨ t ≤ 0)) := by
  have hforward := epochDays_lt_iff hone htwo
  have hbackward := epochDays_lt_iff htwo hone
  have hsign := timeDurationSign_cases t
  rw [borrowedDays, ← ht]
  rcases one.date.before_trichotomy two.date with h | h | h
  · rw [compareIsoDate_before h]
    rw [← hforward] at h
    split_ifs <;> omega
  · rw [h, compareIsoDate_self]
    split_ifs <;> omega
  · rw [compareIsoDate_after h]
    rw [← hbackward] at h
    split_ifs <;> omega

/-- A day borrowed for the time leaves the date on its side of the first, and gives the time the
sign of the date. -/
theorem adjusted_spec (hone : DatetimeInRange one) (htwo : DatetimeInRange two) {adjusted : IsoDate}
    {time : ℤ} (hadjusted : adjusted = Temporal.addDaysToIsoDate two.date (borrowedDays one two))
    (htime : time = Temporal.timeNanoseconds two.time - Temporal.timeNanoseconds one.time -
      borrowedDays one two * nsPerDay) :
    InRange adjusted ∧ |time| < nsPerDay ∧
      Temporal.epochDays adjusted * nsPerDay + Temporal.timeNanoseconds one.time + time =
        Temporal.getUtcEpochNanoseconds two ∧
      (¬ adjusted.Before one.date ∧ 0 ≤ time ∨ ¬ one.date.Before adjusted ∧ time ≤ 0) := by
  have hone' := timeNanoseconds_bounds hone.time
  have htwo' := timeNanoseconds_bounds htwo.time
  have hcases := borrowedDays_cases hone.date.valid htwo.date.valid rfl
  have hvalid : adjusted.Valid := hadjusted ▸ valid_addDaysToIsoDate _ _
  have hdays : Temporal.epochDays adjusted = Temporal.epochDays two.date + borrowedDays one two := by
    rw [hadjusted, epochDays_addDaysToIsoDate]
  have hutc : Temporal.getUtcEpochNanoseconds two =
      Temporal.epochDays two.date * nsPerDay + Temporal.timeNanoseconds two.time := rfl
  rw [hutc, ← epochDays_lt_iff hvalid hone.date.valid, ← epochDays_lt_iff hone.date.valid hvalid]
  rw [nsPerDay] at *
  refine ⟨?_, abs_lt.mpr (by omega), by omega, by omega⟩
  rcases hcases with ⟨h, hdate, -⟩ | ⟨h, hdate, -⟩ | ⟨h, -⟩
  · exact inRange_between hone.date htwo.date hvalid (by omega) (by omega)
  · exact inRange_between htwo.date hone.date hvalid (by omega) (by omega)
  · exact inRange_between htwo.date htwo.date hvalid (by omega) (by omega)

theorem differenceTime_eq (hone : DatetimeInRange one) (htwo : DatetimeInRange two) :
    differenceTime one.time two.time =
      some (Temporal.timeNanoseconds two.time - Temporal.timeNanoseconds one.time) := by
  have hone' := timeNanoseconds_bounds hone.time
  have htwo' := timeNanoseconds_bounds htwo.time
  rw [nsPerDay] at hone' htwo'
  rw [differenceTime]
  refine step (timeNanoseconds_eq htwo.time) ?_
  refine step (timeNanoseconds_eq hone.time) ?_
  exact int128_eq (by omega) (by omega)

theorem differenceIsoDatetime_eq (hone : DatetimeInRange one) (htwo : DatetimeInRange two)
    (largest : DurationUnit) : differenceIsoDatetime one two largest =
      dateAndTimeUntil one.date (Temporal.addDaysToIsoDate two.date (borrowedDays one two))
        (Temporal.timeNanoseconds two.time - Temporal.timeNanoseconds one.time -
          borrowedDays one two * nsPerDay) largest := by
  have hone' := timeNanoseconds_bounds hone.time
  have htwo' := timeNanoseconds_bounds htwo.time
  have hdays := htwo.date.days
  have hcases := borrowedDays_cases hone.date.valid htwo.date.valid rfl
  rw [differenceIsoDatetime, differenceTime_eq hone htwo, Option.bind_eq_bind, Option.bind_some]
  dsimp only
  split_ifs with h
  · have hborrowed : borrowedDays one two = timeDurationSign
        (Temporal.timeNanoseconds two.time - Temporal.timeNanoseconds one.time) := if_pos h
    rw [nsPerDay] at hone' htwo'
    rw [← hborrowed, addDaysToIsoDate_eq htwo.date.near (abs_le.mpr (by omega)), Option.bind_eq_bind,
      Option.bind_some, nsPerDay, int128_eq (by omega) (by omega), Option.bind_some,
      int128_eq (by omega) (by omega), Option.bind_some]
  · have hborrowed : borrowedDays one two = 0 := if_neg h
    rw [hborrowed, zero_mul, sub_zero, addDaysToIsoDate_eq_of_days htwo.date.valid (add_zero _)]

theorem largerUnit_day {largest : DurationUnit} (h : isDateUnit largest = true) :
    largerUnit .day largest = largest ∧ largerUnit largest .day = largest := by
  cases largest <;> first | exact ⟨rfl, rfl⟩ | cases h

/-- What the difference of two date-times is: counts of dates and a time of less than a day, of one
sign, that lead from the first to the second. -/
structure IsTimedDifference (one two : IsoDatetime) (i : InternalDuration) : Prop where
  moderate : Moderate i.date
  days : |i.date.days| ≤ 222000000
  time : |i.time| < nsPerDay
  sign : OneSign [i.date.years, i.date.months, i.date.weeks, i.date.days, i.time]
  reaches : (Temporal.epochDays (one.date.monthsLater i.date.years i.date.months) +
      (7 * i.date.weeks + i.date.days)) * nsPerDay + Temporal.timeNanoseconds one.time + i.time =
    Temporal.getUtcEpochNanoseconds two

theorem isTimedDifference_of {adjusted : IsoDate} {time : ℤ} (largest : DurationUnit)
    (hone : DatetimeInRange one) (hadjusted : InRange adjusted) (htime : |time| < nsPerDay)
    (hreaches : Temporal.epochDays adjusted * nsPerDay + Temporal.timeNanoseconds one.time + time =
      Temporal.getUtcEpochNanoseconds two)
    (hsides : ¬ adjusted.Before one.date ∧ 0 ≤ time ∨ ¬ one.date.Before adjusted ∧ time ≤ 0) :
    ∃ d, calendarDateUntil one.date adjusted largest = some d ∧ IsTimedDifference one two ⟨d, time⟩ := by
  obtain ⟨d, hd, hdifference, hmoderate, hdays, hpos, hneg⟩ :=
    calendarDateUntil_sign hone.date hadjusted largest
  refine ⟨d, hd, hmoderate, hdays, htime, ?_, ?_⟩
  · simp only [OneSign, List.forall_mem_cons, List.not_mem_nil, IsEmpty.forall_iff, implies_true,
      and_true] at hpos hneg ⊢
    rcases hsides with ⟨h, h'⟩ | ⟨h, h'⟩
    · have hd := hpos h
      omega
    · have hd := hneg h
      omega
  · rw [hdifference.reaches hadjusted.valid, hreaches]

theorem differenceIsoDatetime_spec {largest : DurationUnit} (hlargest : isDateUnit largest = true)
    (hone : DatetimeInRange one) (htwo : DatetimeInRange two) :
    ∃ i, differenceIsoDatetime one two largest = some i ∧ IsTimedDifference one two i := by
  obtain ⟨hadjusted, htime, hreaches, hsides⟩ := adjusted_spec hone htwo rfl rfl
  obtain ⟨d, hd, hdifference⟩ := isTimedDifference_of largest hone hadjusted htime hreaches hsides
  refine ⟨⟨d, _⟩, ?_, hdifference⟩
  rw [differenceIsoDatetime_eq hone htwo, dateAndTimeUntil, (largerUnit_day hlargest).1]
  refine step hd ?_
  rw [if_neg (not_not.mpr rfl)]
  rfl

/-! ## Adding to a date-time -/

theorem addTime_spec {t : TimeRecord} (ht : isValidTime t = true) (duration : ℤ)
    (hduration : |duration| ≤ 20000000000000000000000) : ∃ later,
      addTime t duration = some later ∧ isValidTime { later with days := 0 } = true ∧
      later.days * nsPerDay + Temporal.timeNanoseconds { later with days := 0 } =
        Temporal.timeNanoseconds t + duration := by
  rw [isValidTime, decide_eq_true_eq] at ht
  rw [abs_le] at hduration
  refine ⟨Temporal.balanceTime t.hour t.minute t.second t.millisecond t.microsecond
    (t.nanosecond + duration), ?_, ?_, ?_⟩
  · rw [addTime]
    refine step (int128_eq (by omega) (by omega)) ?_
    exact balanceTime_eq (abs_le.mpr (by omega)) (abs_le.mpr (by omega)) (abs_le.mpr (by omega))
      (abs_le.mpr (by omega)) (abs_le.mpr (by omega)) (abs_le.mpr (by omega))
  · rw [isValidTime, decide_eq_true_eq]
    simp only [Temporal.balanceTime]
    omega
  · simp only [Temporal.balanceTime, Temporal.timeNanoseconds, nsPerDay]
    omega

/-- The difference of two date-times as a duration, added to the first, gives the second. -/
theorem addDuration_difference {i : InternalDuration} {largest : DurationUnit}
    (hlargest : isDateUnit largest = true) (hone : DatetimeInRange one) (htwo : DatetimeInRange two)
    (hwithin : Temporal.isoDateWithinLimits two.date = true) (h : IsTimedDifference one two i) :
    ∃ d, temporalDurationFromInternal i largest = some (some d) ∧
      addDuration one d .constrain = some (some two) := by
  obtain ⟨d, hd, hfields, hdate, htime⟩ := temporalDurationFromInternal_spec
    (Nat.le_succ_of_le (of_decide_eq_true hlargest)) h.moderate h.time h.sign
  refine ⟨d, hd, ?_⟩
  obtain ⟨⟨y, m, w, days⟩, time⟩ := i
  obtain ⟨rfl, rfl, rfl, rfl⟩ : d.years = y ∧ d.months = m ∧ d.weeks = w ∧ d.days = days := by
    simpa only [DateDuration.mk.injEq] using hdate
  obtain ⟨hmoderate, hdays, hshort, hsign, hreaches⟩ := h
  dsimp only at *
  have hdays' := abs_le.mp hdays
  have hshort' := abs_lt.mp hshort
  have hone' := timeNanoseconds_bounds hone.time
  have htwo' := timeNanoseconds_bounds htwo.time
  rw [nsPerDay] at hshort' hone' htwo' hreaches
  obtain ⟨later, hlater, hvalid, hsum⟩ := addTime_spec hone.time (time + d.days * nsPerDay)
    (by rw [nsPerDay, abs_le]; omega)
  have hlater' := timeNanoseconds_bounds hvalid
  rw [nsPerDay] at hsum hlater'
  have hutc : Temporal.getUtcEpochNanoseconds two =
      Temporal.epochDays two.date * nsPerDay + Temporal.timeNanoseconds two.time := rfl
  rw [nsPerDay] at hutc
  rw [hutc] at hreaches
  -- the days that the time carries lead to the day of the second date-time
  have hcarried : Temporal.epochDays (one.date.monthsLater d.years d.months) +
      (7 * d.weeks + later.days) = Temporal.epochDays two.date := by omega
  have hsame : { later with days := 0 } = two.time :=
    timeNanoseconds_inj hvalid htwo.time htwo.days.symm (by omega)
  have hmoderate' : Moderate ⟨d.years, d.months, d.weeks, later.days⟩ :=
    ⟨hmoderate.years, hmoderate.months, hmoderate.weeks, abs_le.mpr (by dsimp only; omega)⟩
  have hsign' : OneSign [d.years, d.months, d.weeks, later.days] := by
    clear hutc hreaches hcarried hdays' hshort' htwo'
    simp only [OneSign, List.forall_mem_cons, List.not_mem_nil, IsEmpty.forall_iff, implies_true,
      and_true] at hsign ⊢
    omega
  rw [addDuration]
  refine step (toInternalDuration24hDays_eq hfields (hdays.trans (by norm_num))) ?_
  rw [htime]
  refine step hlater ?_
  refine step (double_eq (by omega) (by omega)) ?_
  refine step (createDateDuration_eq hmoderate' hsign') ?_
  dsimp only
  refine step (calendarDateAdd_eq hone.date htwo.date hmoderate' hcarried) ?_
  rw [if_pos hwithin, hsame]
  rfl

/-! ## Differences in a zone -/

/-- A date-time is the one of an exact time in a zone. -/
structure IsLocal (zone : Text) (ns : ℤ) (dt : IsoDatetime) : Prop where
  range : DatetimeInRange dt
  valid : isValidEpochNanoseconds ns = true
  utc : Temporal.getUtcEpochNanoseconds dt = ns + offsetMinutesOf zone * 60000000000

theorem IsLocal.within (h : IsLocal zone ns dt) : Temporal.isoDatetimeWithinLimits dt = true ∧
    Temporal.isoDateWithinLimits dt.date = true := by
  have hvalid := h.valid
  have hoffset := abs_le.mp (offsetMinutesOf_bounds zone)
  have hutc := h.utc
  have hdays := epochDays_of_ns h.range.time
  have hnoon : Temporal.getUtcEpochNanoseconds ⟨dt.date, noon⟩ =
      Temporal.epochDays dt.date * nsPerDay + 43200000000000 := rfl
  rw [isValidEpochNanoseconds, decide_eq_true_eq, nsMinInstant, nsMaxInstant] at hvalid
  rw [Temporal.isoDateWithinLimits, Temporal.isoDatetimeWithinLimits, decide_eq_true_eq,
    Temporal.isoDatetimeWithinLimits, decide_eq_true_eq, hnoon, nsMinInstant, nsMaxInstant, abs_le]
  rw [nsPerDay] at *
  omega

/-- An exact time of a wall clock between two others is valid with them. -/
theorem intermediateDatetime_spec {start finish : IsoDatetime} {ns₁ ns₂ sign : ℤ}
    (hstart : IsLocal zone ns₁ start) (hfinish : IsLocal zone ns₂ finish)
    (hsign : sign = if ns₂ - ns₁ < 0 then 1 else -1) (hdates : start.date ≠ finish.date)
    {adjusted : IsoDate} {time : ℤ} (tries : ℕ)
    (hadjusted : adjusted = Temporal.addDaysToIsoDate finish.date (borrowedDays start finish))
    (htime : time = Temporal.timeNanoseconds finish.time - Temporal.timeNanoseconds start.time -
      borrowedDays start finish * nsPerDay) :
    intermediateDatetime zone sign ns₂ start finish (tries + 1)
        (if timeDurationSign (Temporal.timeNanoseconds finish.time -
          Temporal.timeNanoseconds start.time) = sign then 1 else 0) =
      some (some (⟨adjusted, start.time⟩, time)) ∧ IsLocal zone (ns₂ - time) ⟨adjusted, start.time⟩ := by
  obtain ⟨hrange, hshort, hreaches, hsides⟩ := adjusted_spec hstart.range hfinish.range hadjusted htime
  have hstart' := timeNanoseconds_bounds hstart.range.time
  have hfinish' := timeNanoseconds_bounds hfinish.range.time
  have hutc₁ := hstart.utc
  have hutc₂ := hfinish.utc
  have hdays₁ : Temporal.getUtcEpochNanoseconds start =
    Temporal.epochDays start.date * nsPerDay + Temporal.timeNanoseconds start.time := rfl
  have hdays₂ : Temporal.getUtcEpochNanoseconds finish =
    Temporal.epochDays finish.date * nsPerDay + Temporal.timeNanoseconds finish.time := rfl
  have hvalid₁ := hstart.valid
  have hvalid₂ := hfinish.valid
  rw [isValidEpochNanoseconds, decide_eq_true_eq, nsMinInstant, nsMaxInstant] at hvalid₁ hvalid₂
  rw [nsPerDay] at hstart' hfinish' hdays₁ hdays₂ hreaches hshort hvalid₁ hvalid₂
  rw [← epochDays_lt_iff hrange.valid hstart.range.date.valid,
    ← epochDays_lt_iff hstart.range.date.valid hrange.valid] at hsides
  -- the sign is the one of the comparison of the dates
  have hcompare : compareIsoDate start.date finish.date = sign := by
    rw [hsign]
    rcases start.date.before_trichotomy finish.date with h | h | h
    · rw [compareIsoDate_before h]
      have hlt := epochDays_lt hstart.range.date.valid hfinish.range.date.valid h
      rw [if_neg (by omega)]
    · exact absurd h hdates
    · rw [compareIsoDate_after h]
      have hlt := epochDays_lt hfinish.range.date.valid hstart.range.date.valid h
      rw [if_pos (by omega)]
  have hborrowed : (if timeDurationSign (Temporal.timeNanoseconds finish.time -
      Temporal.timeNanoseconds start.time) = sign then 1 else 0) * sign = borrowedDays start finish := by
    rw [borrowedDays, hcompare]
    split_ifs with h
    · rw [one_mul, h]
    · exact zero_mul sign
  have hlocal : IsLocal zone (ns₂ - time) ⟨adjusted, start.time⟩ := by
    refine ⟨⟨hrange, hstart.range.time, hstart.range.days⟩, ?_, ?_⟩
    · rw [isValidEpochNanoseconds, decide_eq_true_eq, nsMinInstant, nsMaxInstant, nsPerDay]
      omega
    · have hdays : Temporal.getUtcEpochNanoseconds ⟨adjusted, start.time⟩ =
        Temporal.epochDays adjusted * nsPerDay + Temporal.timeNanoseconds start.time := rfl
      rw [hdays, nsPerDay]
      omega
  refine ⟨?_, hlocal⟩
  have hmoved : addDaysToIsoDate finish.date (borrowedDays start finish) = some adjusted := by
    have hbounds := hfinish.range.date.days
    have hcases := borrowedDays_cases hstart.range.date.valid hfinish.range.date.valid rfl
    rw [hadjusted]
    exact addDaysToIsoDate_eq hfinish.range.date.near (abs_le.mpr (by omega))
  have hcases := borrowedDays_cases hstart.range.date.valid hfinish.range.date.valid rfl
  have hother : sign ≠ timeDurationSign time := by
    have htimes := timeDurationSign_cases time
    split_ifs at hsign <;> omega
  rw [abs_lt] at hshort
  rw [intermediateDatetime, hborrowed]
  refine step (int32_eq (by omega) (by omega)) ?_
  refine step hmoved ?_
  refine step (getEpochNanosecondsFor_eq zone hlocal.range hlocal.valid hlocal.utc) ?_
  dsimp only
  refine step_int128 (by omega) (by omega) fun left hleft => ?_
  have htime' : left = time := by omega
  rw [htime', if_pos hother]
  rfl

theorem dateDurationSign_eq_zero {d : DateDuration} (h : dateDurationSign d = 0) : d = {} := by
  obtain ⟨y, m, w, days⟩ := d
  simp only [dateDurationSign, signOf] at h
  rw [DateDuration.mk.injEq]
  split_ifs at h <;> omega

theorem addInstant_eq {time : ℤ} (hns₂ : isValidEpochNanoseconds ns₂ = true) (h : ns₁ + time = ns₂) :
    addInstant ns₁ time = some (some ns₂) := by
  have hbounds := hns₂
  rw [isValidEpochNanoseconds, decide_eq_true_eq, nsMinInstant, nsMaxInstant, nsPerDay] at hbounds
  rw [addInstant, h]
  refine step (int128_eq (by omega) (by omega)) ?_
  rw [if_pos hns₂]
  rfl

theorem addZonedDatetime_difference {start : IsoDatetime} {adjusted : IsoDate} {i : InternalDuration}
    (hcode : getIsoDatetimeFor zone ns₁ = some start) (hstart : IsLocal zone ns₁ start)
    (hlocal : IsLocal zone (ns₂ - i.time) ⟨adjusted, start.time⟩)
    (hns₂ : isValidEpochNanoseconds ns₂ = true) (hmoderate : Moderate i.date)
    (hreaches : Temporal.epochDays (start.date.monthsLater i.date.years i.date.months) +
      (7 * i.date.weeks + i.date.days) = Temporal.epochDays adjusted) :
    addZonedDatetime ns₁ zone i .constrain = some (some ns₂) := by
  rw [addZonedDatetime]
  split_ifs with hzero
  · refine addInstant_eq hns₂ ?_
    rw [dateDurationSign_eq_zero hzero, monthsLater_zero hstart.range.date.valid] at hreaches
    have hsame : start.date = adjusted := epochDays_inj hstart.range.date.valid
      hlocal.range.date.valid (by simpa only [mul_zero, add_zero] using hreaches)
    have hutc := hstart.utc
    have hutc' := hlocal.utc
    rw [← hsame] at hutc'
    have heta : (⟨start.date, start.time⟩ : IsoDatetime) = start := rfl
    rw [heta] at hutc'
    omega
  · obtain ⟨hwithin, hdate⟩ := hlocal.within
    refine step hcode ?_
    refine step (calendarDateAdd_eq hstart.range.date hlocal.range.date hmoderate hreaches) ?_
    rw [if_pos hdate]
    dsimp only
    refine step (isoDatetimeWithinLimits_eq hlocal.range.date.near hlocal.range.time) ?_
    rw [if_neg (by rw [hwithin]; exact Bool.noConfusion)]
    refine step (getEpochNanosecondsFor_eq zone hlocal.range hlocal.valid hlocal.utc) ?_
    exact addInstant_eq hns₂ (sub_add_cancel ns₂ i.time)

theorem isTimedDifference_sameDate (hone : DatetimeInRange one) (htwo : DatetimeInRange two)
    (hdate : one.date = two.date) {time : ℤ} (htime : time = Temporal.getUtcEpochNanoseconds two -
      Temporal.getUtcEpochNanoseconds one) : IsTimedDifference one two { time } := by
  have hone' := timeNanoseconds_bounds hone.time
  have htwo' := timeNanoseconds_bounds htwo.time
  rw [Temporal.getUtcEpochNanoseconds, Temporal.getUtcEpochNanoseconds, hdate] at htime
  refine ⟨⟨by norm_num, by norm_num, by norm_num, by norm_num⟩, by norm_num, ?_, ?_, ?_⟩
  · rw [abs_lt]
    dsimp only
    omega
  · simp only [OneSign, List.forall_mem_cons, List.not_mem_nil, IsEmpty.forall_iff, implies_true,
      and_true]
    omega
  · dsimp only
    rw [monthsLater_zero hone.date.valid, hdate, Temporal.getUtcEpochNanoseconds, mul_zero, add_zero,
      add_zero]
    omega

theorem exists_durationRecord {i : InternalDuration} (h : IsTimedDifference one two i) :
    ∃ d, temporalDurationFromInternal i .hour = some (some d) ∧ toInternalDuration d = some i := by
  obtain ⟨d, hd, hfields, hdate, htime⟩ :=
    temporalDurationFromInternal_spec (le_refl DurationUnit.hour.ctorIdx) h.moderate h.time h.sign
  refine ⟨d, hd, ?_⟩
  rw [toInternalDuration_eq hfields, htime, hdate]

/-- The difference of exact times in a zone: counts and a time from one wall clock to the other,
which added to the first exact time give the second. -/
theorem differenceZonedDatetime_spec (zone : Text) {largest : DurationUnit}
    (hlargest : isDateUnit largest = true) (hns₁ : isValidEpochNanoseconds ns₁ = true)
    (hns₂ : isValidEpochNanoseconds ns₂ = true) :
    ∃ start finish i, differenceZonedDatetime ns₁ ns₂ zone largest = some (some i) ∧
      IsTimedDifference start finish i ∧ addZonedDatetime ns₁ zone i .constrain = some (some ns₂) := by
  obtain ⟨start, hcode₁, hrange₁, hutc₁⟩ := exists_getIsoDatetimeFor zone hns₁
  obtain ⟨finish, hcode₂, hrange₂, hutc₂⟩ := exists_getIsoDatetimeFor zone hns₂
  have hstart : IsLocal zone ns₁ start := ⟨hrange₁, hns₁, hutc₁⟩
  have hfinish : IsLocal zone ns₂ finish := ⟨hrange₂, hns₂, hutc₂⟩
  have hbounds₁ := hns₁
  have hbounds₂ := hns₂
  rw [isValidEpochNanoseconds, decide_eq_true_eq, nsMinInstant, nsMaxInstant, nsPerDay] at hbounds₁
  rw [isValidEpochNanoseconds, decide_eq_true_eq, nsMinInstant, nsMaxInstant, nsPerDay] at hbounds₂
  refine ⟨start, finish, ?_⟩
  rw [differenceZonedDatetime]
  split_ifs with hsame
  · subst hsame
    have hdate : start.date = finish.date :=
      congrArg IsoDatetime.date (Option.some.inj (hcode₁.symm.trans hcode₂))
    refine ⟨{}, rfl, isTimedDifference_sameDate hrange₁ hrange₂ hdate (by omega), ?_⟩
    exact addInstant_eq hns₂ (add_zero ns₁)
  · by_cases hdate : start.date = finish.date
    · refine ⟨{ time := ns₂ - ns₁ }, ?_,
        isTimedDifference_sameDate hrange₁ hrange₂ hdate (by omega), addInstant_eq hns₂ (by ring)⟩
      refine step hcode₁ ?_
      refine step hcode₂ ?_
      refine step (int128_eq (by omega) (by omega)) ?_
      rw [hdate, compareIsoDate_self, if_pos rfl]
      rfl
    · obtain ⟨hadjusted, htime, hreaches, hsides⟩ := adjusted_spec hrange₁ hrange₂ rfl rfl
      obtain ⟨d, hd, hdifference⟩ :=
        isTimedDifference_of largest hrange₁ hadjusted htime hreaches hsides
      refine ⟨⟨d, _⟩, ?_, hdifference, ?_⟩
      · refine step hcode₁ ?_
        refine step hcode₂ ?_
        refine step (int128_eq (by omega) (by omega)) ?_
        have hcompare := compareIsoDate_direction hdate
        have hdirection := direction_or start.date finish.date
        rw [if_neg (by omega)]
        refine step (differenceTime_eq hrange₁ hrange₂) ?_
        obtain ⟨sign, hsign⟩ : ∃ s : ℤ, s = if ns₂ - ns₁ < 0 then 1 else -1 := ⟨_, rfl⟩
        obtain ⟨tries, htries⟩ : ∃ n : ℕ, ((if sign = -1 then 2 else 1 : ℤ) + 1 -
            if timeDurationSign (Temporal.timeNanoseconds finish.time -
              Temporal.timeNanoseconds start.time) = sign then 1 else 0).toNat = n + 1 :=
          Nat.exists_eq_add_one.mpr (by split_ifs <;> omega)
        obtain ⟨hfound, -⟩ :=
          intermediateDatetime_spec hstart hfinish hsign hdate tries rfl rfl
        rw [← hsign]
        dsimp only
        rw [htries]
        refine step hfound ?_
        dsimp only
        rw [(largerUnit_day hlargest).2]
        exact step hd rfl
      · obtain ⟨-, hlocal⟩ := intermediateDatetime_spec hstart hfinish rfl hdate 0 rfl rfl
        refine addZonedDatetime_difference hcode₁ hstart hlocal hns₂ hdifference.moderate ?_
        -- both lead to the second exact time with the same time left
        have hreaches' := hdifference.reaches
        rw [nsPerDay] at hreaches hreaches'
        dsimp only at hreaches' ⊢
        omega

/-! ## All differences -/

theorem inRange_of_limits {time : TimeRecord} (h : date.Valid)
    (hwithin : Temporal.isoDatetimeWithinLimits ⟨date, time⟩ = true) : InRange date := by
  rw [Temporal.isoDatetimeWithinLimits, decide_eq_true_eq] at hwithin
  exact inRange_of_days h hwithin.1

theorem isoDateWithinLimits_of_datetime (htime : isValidTime dt.time = true)
    (hwithin : Temporal.isoDatetimeWithinLimits dt = true) :
    Temporal.isoDateWithinLimits dt.date = true := by
  have hbounds := timeNanoseconds_bounds htime
  have hnoon : Temporal.getUtcEpochNanoseconds ⟨dt.date, noon⟩ =
      Temporal.epochDays dt.date * nsPerDay + 43200000000000 := rfl
  rw [Temporal.isoDatetimeWithinLimits, decide_eq_true_eq, Temporal.getUtcEpochNanoseconds,
    nsMinInstant, nsMaxInstant] at hwithin
  rw [Temporal.isoDateWithinLimits, Temporal.isoDatetimeWithinLimits, decide_eq_true_eq, hnoon,
    nsMinInstant, nsMaxInstant]
  rw [nsPerDay] at *
  exact ⟨hwithin.1, by omega, by omega⟩

theorem inRange_plainDateTime (dt : PlainDateTime) : DatetimeInRange dt.dt :=
  ⟨inRange_of_limits dt.valid_date dt.within, dt.valid_time, dt.no_days⟩

/-- For all dates within the limits and every unit up to weeks, the difference has the greatest
counts that do not pass the second date and one sign, and adding it to the first date gives the
second; so does adding the differences of date-times and of exact times in a zone, as durations of
ten fields. No integer on the way overflows. -/
theorem temporal_differences :
    (∀ (one two : PlainDate) (largest : DurationUnit), ∃ d,
      calendarDateUntil one.date two.date largest = some d ∧
      IsDifference one.date two.date largest d ∧
      OneSign [d.years, d.months, d.weeks, d.days] ∧
      calendarDateAdd one.date d .constrain = some (some two.date)) ∧
    (∀ (one two : PlainDateTime) (largest : DurationUnit), isDateUnit largest = true → ∃ i d,
      differenceIsoDatetime one.dt two.dt largest = some i ∧
      temporalDurationFromInternal i largest = some (some d) ∧
      addDuration one.dt d .constrain = some (some two.dt)) ∧
    (∀ (one two : Instant) (zone : Text) (largest : DurationUnit), isDateUnit largest = true →
      ∃ i d i', differenceZonedDatetime one.epochNs two.epochNs zone largest = some (some i) ∧
      temporalDurationFromInternal i .hour = some (some d) ∧
      toInternalDuration d = some i' ∧
      addZonedDatetime one.epochNs zone i' .constrain = some (some two.epochNs)) := by
  refine ⟨fun one two largest => ?_, fun one two largest hlargest => ?_,
    fun one two zone largest hlargest => ?_⟩
  · have hone : InRange one.date := inRange_of_limits one.valid one.within
    have htwo : InRange two.date := inRange_of_limits two.valid two.within
    obtain ⟨d, hd, hdifference, hmoderate, -⟩ := calendarDateUntil_spec hone htwo largest
    refine ⟨d, hd, hdifference, ?_, calendarDateAdd_difference hone htwo hmoderate hdifference two.within⟩
    have hfields := hdifference.fields_sign
    rcases direction_or one.date two.date with h | h <;> rw [h] at hfields
    · exact .inl fun v hv => by simpa using hfields v hv
    · exact .inr fun v hv => by simpa using hfields v hv
  · have hone := inRange_plainDateTime one
    have htwo := inRange_plainDateTime two
    obtain ⟨i, hi, hdifference⟩ := differenceIsoDatetime_spec hlargest hone htwo
    obtain ⟨d, hd, hadd⟩ := addDuration_difference hlargest hone htwo
      (isoDateWithinLimits_of_datetime two.valid_time two.within) hdifference
    exact ⟨i, d, hi, hd, hadd⟩
  · obtain ⟨start, finish, i, hi, hdifference, hadd⟩ :=
      differenceZonedDatetime_spec zone hlargest one.within two.within
    obtain ⟨d, hd, hback⟩ := exists_durationRecord hdifference
    exact ⟨i, d, i, hi, hd, hback, hadd⟩

/-- From the last of January, noon, to two hours before noon on the first of March of a leap year
there are 29 days and 22 hours, and no month. -/
theorem temporal_differences_month : ∃ i d,
    differenceIsoDatetime ⟨⟨2020, 1, 31⟩, { hour := 12 }⟩ ⟨⟨2020, 3, 1⟩, { hour := 10 }⟩ .month =
      some i ∧
    temporalDurationFromInternal i .month = some (some d) ∧
    addDuration ⟨⟨2020, 1, 31⟩, { hour := 12 }⟩ d .constrain =
      some (some ⟨⟨2020, 3, 1⟩, { hour := 10 }⟩) :=
  temporal_differences.2.1
    ⟨⟨⟨2020, 1, 31⟩, { hour := 12 }⟩, by decide, by decide, rfl, by decide⟩
    ⟨⟨⟨2020, 3, 1⟩, { hour := 10 }⟩, by decide, by decide, rfl, by decide⟩ .month rfl

example : differenceIsoDatetime ⟨⟨2020, 1, 31⟩, { hour := 12 }⟩ ⟨⟨2020, 3, 1⟩, { hour := 10 }⟩ .month =
    some ⟨{ days := 29 }, 79200000000000⟩ := by decide

end Checked

end CtBrowser.Script.Temporal
