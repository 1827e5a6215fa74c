import Mathlib.Tactic

/-!
# The ISO Calendar

Dates, times of day and exact times as the records that the Temporal operations take. Integers
are exact: every operation here is bounded far inside of what the engine's 64 and 128 bits hold.

## Main definitions

- `IsoDate`, `TimeRecord`, `IsoDatetime` — the records.
- `epochDays`, `epochDaysToIsoDate` — a date as a number of days, and back.
- `balanceIsoDatetime`, `isoPartsFromEpoch` — an exact time as a date and a time of day.

## Main results

- `epochDays_epochDaysToIsoDate` — the days of the date of a number of days.
- `isValidIsoDate_epochDaysToIsoDate` — that date is one of the calendar.
- `getUtcEpochNanoseconds_isoPartsFromEpoch` — the exact time of the parts of an exact time.
-/

namespace CtBrowser.Script.Temporal

/-! ## Records -/

/-- An ISO calendar date. -/
structure IsoDate where
  year : ℤ := 1970
  month : ℤ := 1
  day : ℤ := 1
deriving DecidableEq, Repr

/-- A time of day, with the days carried out of it. -/
structure TimeRecord where
  days : ℤ := 0
  hour : ℤ := 0
  minute : ℤ := 0
  second : ℤ := 0
  millisecond : ℤ := 0
  microsecond : ℤ := 0
  nanosecond : ℤ := 0
deriving DecidableEq, Repr

structure IsoDatetime where
  date : IsoDate
  time : TimeRecord
deriving DecidableEq, Repr

def nsPerDay : ℤ := 86400000000000

/-- The last exact time, 10⁸ days after the epoch. -/
def nsMaxInstant : ℤ := nsPerDay * 100000000

def nsMinInstant : ℤ := -nsMaxInstant

/-- The largest time duration. -/
def maxTimeDuration : ℤ := 2 ^ 53 * 1000000000 - 1

/-! ## Dates -/

def isLeapYear (year : ℤ) : Bool := year % 4 = 0 ∧ year % 100 ≠ 0 ∨ year % 400 = 0

def isoDaysInMonth (year month : ℤ) : ℤ :=
  if month = 1 ∨ month = 3 ∨ month = 5 ∨ month = 7 ∨ month = 8 ∨ month = 10 ∨ month = 12 then 31
  else if month = 4 ∨ month = 6 ∨ month = 9 ∨ month = 11 then 30
  else if isLeapYear year then 29 else 28

def isValidIsoDate (year month day : ℤ) : Bool :=
  1 ≤ month ∧ month ≤ 12 ∧ 1 ≤ day ∧ day ≤ isoDaysInMonth year month

/-- Days since 1970-01-01. -/
def daysFromCivil (y m d : ℤ) : ℤ :=
  let y := y - if m ≤ 2 then 1 else 0
  -- floor division, written with the division that truncates
  let era := Int.tdiv (if 0 ≤ y then y else y - 399) 400
  let yoe := y - era * 400
  let doy := (153 * (if 2 < m then m - 3 else m + 9) + 2) / 5 + d - 1
  let doe := yoe * 365 + yoe / 4 - yoe / 100 + doy
  era * 146097 + doe - 719468

/-- The inverse of `daysFromCivil`. -/
def civilFromDays (z : ℤ) : IsoDate :=
  let z := z + 719468
  let era := Int.tdiv (if 0 ≤ z then z else z - 146096) 146097
  let doe := z - era * 146097
  let yoe := (doe - doe / 1460 + doe / 36524 - doe / 146096) / 365
  let doy := doe - (365 * yoe + yoe / 4 - yoe / 100)
  let mp := (5 * doy + 2) / 153
  let m := if mp < 10 then mp + 3 else mp - 9
  { year := yoe + era * 400 + (if m ≤ 2 then 1 else 0), month := m, day := doy - (153 * mp + 2) / 5 + 1 }

/-- The month is zero-based here, and may be any integer. -/
def isoDateToEpochDays (year month day : ℤ) : ℤ :=
  daysFromCivil (year + month / 12) (month % 12 + 1) 1 + day - 1

def epochDays (date : IsoDate) : ℤ := isoDateToEpochDays date.year (date.month - 1) date.day

def epochDaysToIsoDate (z : ℤ) : IsoDate := civilFromDays z

def addDaysToIsoDate (date : IsoDate) (days : ℤ) : IsoDate :=
  epochDaysToIsoDate (epochDays date + days)

def checkIsoDaysRange (date : IsoDate) : Bool := |epochDays date| ≤ 100000000

def isoYearMonthWithinLimits (date : IsoDate) : Bool :=
  !(date.year < -271821 ∨ date.year > 275760) && !(date.year = -271821 ∧ date.month < 4) &&
    !(date.year = 275760 ∧ date.month > 9)

/-! ## Times -/

def isValidTime (t : TimeRecord) : Bool :=
  0 ≤ t.hour ∧ t.hour ≤ 23 ∧ 0 ≤ t.minute ∧ t.minute ≤ 59 ∧ 0 ≤ t.second ∧ t.second ≤ 59 ∧
    0 ≤ t.millisecond ∧ t.millisecond ≤ 999 ∧ 0 ≤ t.microsecond ∧ t.microsecond ≤ 999 ∧
    0 ≤ t.nanosecond ∧ t.nanosecond ≤ 999

/-- Carries every field into the next larger one, and hours into days. -/
def balanceTime (hour minute second millisecond microsecond nanosecond : ℤ) : TimeRecord :=
  let microsecond := microsecond + nanosecond / 1000
  let nanosecond := nanosecond % 1000
  let millisecond := millisecond + microsecond / 1000
  let microsecond := microsecond % 1000
  let second := second + millisecond / 1000
  let millisecond := millisecond % 1000
  let minute := minute + second / 60
  let second := second % 60
  let hour := hour + minute / 60
  let minute := minute % 60
  { days := hour / 24, hour := hour % 24, minute, second, millisecond, microsecond, nanosecond }

/-- Nanoseconds since midnight. -/
def timeNanoseconds (t : TimeRecord) : ℤ :=
  ((((t.hour * 60 + t.minute) * 60 + t.second) * 1000 + t.millisecond) * 1000 +
    t.microsecond) * 1000 + t.nanosecond

def noon : TimeRecord := { hour := 12 }

/-! ## Exact times -/

def getUtcEpochNanoseconds (dt : IsoDatetime) : ℤ :=
  epochDays dt.date * nsPerDay + timeNanoseconds dt.time

def balanceIsoDatetime (year month day hour minute second millisecond microsecond
    nanosecond : ℤ) : IsoDatetime :=
  let time := balanceTime hour minute second millisecond microsecond nanosecond
  { date := addDaysToIsoDate { year, month, day } time.days, time := { time with days := 0 } }

def isoDatetimeWithinLimits (dt : IsoDatetime) : Bool :=
  |epochDays dt.date| ≤ 100000001 ∧ nsMinInstant - nsPerDay < getUtcEpochNanoseconds dt ∧
    getUtcEpochNanoseconds dt < nsMaxInstant + nsPerDay

def isoDateWithinLimits (date : IsoDate) : Bool := isoDatetimeWithinLimits ⟨date, noon⟩

def isoPartsFromEpoch (epochNs : ℤ) : IsoDatetime :=
  let days := epochNs / nsPerDay
  let rest := epochNs - days * nsPerDay
  { date := epochDaysToIsoDate days, time := { balanceTime 0 0 0 0 0 rest with days := 0 } }

def isValidEpochNanoseconds (epochNs : ℤ) : Bool := nsMinInstant ≤ epochNs ∧ epochNs ≤ nsMaxInstant

/-! ## Days and dates -/

theorem era_eq (y : ℤ) : Int.tdiv (if 0 ≤ y then y else y - 399) 400 = y / 400 := by
  split_ifs with h
  · exact Int.tdiv_eq_ediv_of_nonneg h
  · have hsign : Int.sign 400 = 1 := rfl
    rw [Int.tdiv_eq_ediv]
    omega

theorem era_eq_days (z : ℤ) :
    Int.tdiv (if 0 ≤ z then z else z - 146096) 146097 = z / 146097 := by
  split_ifs with h
  · exact Int.tdiv_eq_ediv_of_nonneg h
  · have hsign : Int.sign 146097 = 1 := rfl
    rw [Int.tdiv_eq_ediv]
    omega

/-- The year of an era is one of its 400, and the day is one of that year, the 366th if the year
that begins in it is a leap year. -/
theorem yoe_bounds {doe yoe : ℤ} (hlow : 0 ≤ doe) (hhigh : doe ≤ 146096)
    (hyoe : yoe = (doe - doe / 1460 + doe / 36524 - doe / 146096) / 365) :
    0 ≤ yoe ∧ yoe ≤ 399 ∧ 365 * yoe + yoe / 4 - yoe / 100 ≤ doe ∧
      doe ≤ 365 * yoe + yoe / 4 - yoe / 100 +
        if yoe % 4 = 3 ∧ (yoe % 100 ≠ 99 ∨ yoe = 399) then 365 else 364 := by
  obtain rfl | hlast : doe = 146096 ∨ doe < 146096 := by omega
  · subst hyoe
    decide
  have hzero : doe / 146096 = 0 := by omega
  rw [hzero] at hyoe
  -- by centuries, the last one apart
  obtain ⟨century, hcentury⟩ : ∃ c, c = doe / 36524 := ⟨_, rfl⟩
  obtain ⟨cycle, hcycle⟩ : ∃ c, c = doe / 1460 := ⟨_, rfl⟩
  rw [← hcentury, ← hcycle] at hyoe
  have hfirst : 0 ≤ century := by omega
  have hfour : century ≤ 3 := by omega
  have hyoe' : 365 * yoe ≤ doe - cycle + century ∧ doe - cycle + century < 365 * yoe + 365 := by omega
  have hcycle' : 1460 * cycle ≤ doe ∧ doe < 1460 * cycle + 1460 := by omega
  have hcentury' : 36524 * century ≤ doe ∧ doe < 36524 * century + 36524 := by omega
  clear hyoe hcycle hcentury hzero hlow hhigh
  have hhundred : yoe / 100 = century := by interval_cases century <;> omega
  -- by the place of the year among four
  obtain ⟨quarter, place, rfl, hplace₀, hplace₁⟩ : ∃ q r : ℤ, yoe = 4 * q + r ∧ 0 ≤ r ∧ r ≤ 3 :=
    ⟨yoe / 4, yoe % 4, by omega, by omega, by omega⟩
  have hquarter : quarter = cycle ∨ quarter = cycle - 1 ∨ quarter = cycle + 1 := by
    clear hhundred
    interval_cases century <;> omega
  have hdiv : (4 * quarter + place) / 4 = quarter := by omega
  have hmod : (4 * quarter + place) % 4 = place := by omega
  rw [hhundred, hdiv, hmod]
  clear hdiv hmod
  have hlastOf : (4 * quarter + place) % 100 = 4 * quarter + place - 100 * century := by omega
  rw [hlastOf]
  clear hlastOf hhundred
  split_ifs <;> interval_cases century <;> rcases hquarter with rfl | rfl | rfl <;> omega

theorem civil_day {doy mp : ℤ} (hlow : 0 ≤ doy) (hhigh : doy ≤ 365) (hmp : mp = (5 * doy + 2) / 153) :
    0 ≤ mp ∧ mp ≤ 11 ∧ 1 ≤ doy - (153 * mp + 2) / 5 + 1 ∧
      doy - (153 * mp + 2) / 5 + 1 ≤
        (if mp = 11 then (if doy = 365 then 29 else 28)
        else if mp = 1 ∨ mp = 3 ∨ mp = 6 ∨ mp = 8 then 30 else 31) := by
  have hfirst : 0 ≤ mp := by omega
  have hlast : mp ≤ 11 := by omega
  refine ⟨hfirst, hlast, by omega, ?_⟩
  split_ifs with h₁ h₂ h₃
  · omega
  · omega
  · rcases h₃ with rfl | rfl | rfl | rfl <;> omega
  · interval_cases mp <;> omega

theorem exists_civilFromDays (z : ℤ) : ∃ era yoe doy mp : ℤ,
    z + 719468 = era * 146097 + (365 * yoe + yoe / 4 - yoe / 100 + doy) ∧
    0 ≤ yoe ∧ yoe ≤ 399 ∧ 0 ≤ doy ∧
    doy ≤ (if yoe % 4 = 3 ∧ (yoe % 100 ≠ 99 ∨ yoe = 399) then 365 else 364) ∧
    mp = (5 * doy + 2) / 153 ∧
    civilFromDays z = ⟨yoe + era * 400 + (if 10 ≤ mp then 1 else 0),
      if mp < 10 then mp + 3 else mp - 9, doy - (153 * mp + 2) / 5 + 1⟩ := by
  obtain ⟨era, hera⟩ : ∃ e, e = (z + 719468) / 146097 := ⟨_, rfl⟩
  obtain ⟨doe, hdoe⟩ : ∃ d, d = z + 719468 - era * 146097 := ⟨_, rfl⟩
  obtain ⟨yoe, hyoe⟩ : ∃ y, y = (doe - doe / 1460 + doe / 36524 - doe / 146096) / 365 := ⟨_, rfl⟩
  obtain ⟨doy, hdoy⟩ : ∃ d, d = doe - (365 * yoe + yoe / 4 - yoe / 100) := ⟨_, rfl⟩
  obtain ⟨hyoe₀, hyoe₁, hdoy₀, hdoy₁⟩ := yoe_bounds (by omega) (by omega) hyoe
  refine ⟨era, yoe, doy, (5 * doy + 2) / 153, by omega, hyoe₀, hyoe₁, by omega, by omega, rfl, ?_⟩
  have hmp : 0 ≤ (5 * doy + 2) / 153 ∧ (5 * doy + 2) / 153 ≤ 11 := by
    split_ifs at hdoy₁ <;> omega
  rw [civilFromDays, era_eq_days, ← hera, ← hdoe, ← hyoe, ← hdoy]
  congr 2
  split_ifs <;> omega

theorem isLeapYear_iff (y : ℤ) :
    isLeapYear y = true ↔ y % 4 = 0 ∧ y % 100 ≠ 0 ∨ y % 400 = 0 := by
  simp [isLeapYear]

/-- The date of a number of days is one of the calendar. -/
theorem isValidIsoDate_epochDaysToIsoDate (z : ℤ) :
    isValidIsoDate (epochDaysToIsoDate z).year (epochDaysToIsoDate z).month
      (epochDaysToIsoDate z).day = true := by
  obtain ⟨era, yoe, doy, mp, -, hyoe₀, hyoe₁, hdoy₀, hdoy₁, hmp, hcivil⟩ := exists_civilFromDays z
  have hlast : doy ≤ 365 := by split_ifs at hdoy₁ <;> omega
  obtain ⟨hmp₀, hmp₁, hday₀, hday₁⟩ := civil_day hdoy₀ hlast hmp
  rw [epochDaysToIsoDate, hcivil]
  have hleap : mp = 11 → doy = 365 → isLeapYear (yoe + era * 400 + 1) = true := by
    intro _ hdoy
    rw [isLeapYear_iff]
    split_ifs at hdoy₁ <;> omega
  simp only [isValidIsoDate, decide_eq_true_eq, isoDaysInMonth]
  refine ⟨by split_ifs <;> omega, by split_ifs <;> omega, hday₀, hday₁.trans ?_⟩
  interval_cases mp <;> norm_num
  by_cases hdoy : doy = 365
  · rw [if_pos hdoy, if_pos (hleap rfl hdoy)]
  · rw [if_neg hdoy]
    split_ifs <;> omega

theorem epochDays_eq {date : IsoDate} (hlow : 1 ≤ date.month) (hhigh : date.month ≤ 12) {y mp : ℤ}
    (hy : y = date.year - if date.month ≤ 2 then 1 else 0)
    (hmp : mp = if 2 < date.month then date.month - 3 else date.month + 9) :
    epochDays date = y / 400 * 146097 +
      (y % 400 * 365 + y % 400 / 4 - y % 400 / 100 + ((153 * mp + 2) / 5 + date.day - 1)) - 719468 := by
  have hyear : date.year + (date.month - 1) / 12 = date.year := by omega
  have hmonth : (date.month - 1) % 12 + 1 = date.month := by omega
  have hyoe : y - y / 400 * 400 = y % 400 := by omega
  rw [epochDays, isoDateToEpochDays, hyear, hmonth, daysFromCivil]
  rw [← hy, ← hmp, era_eq, hyoe]
  ring

/-- The days of the date of a number of days. -/
theorem epochDays_epochDaysToIsoDate (z : ℤ) : epochDays (epochDaysToIsoDate z) = z := by
  obtain ⟨era, yoe, doy, mp, hz, hyoe₀, hyoe₁, hdoy₀, hdoy₁, hmp, hcivil⟩ := exists_civilFromDays z
  have hlast : doy ≤ 365 := by split_ifs at hdoy₁ <;> omega
  obtain ⟨hmp₀, hmp₁, -, -⟩ := civil_day hdoy₀ hlast hmp
  have hera : (yoe + era * 400) / 400 = era := by omega
  have hyear : (yoe + era * 400) % 400 = yoe := by omega
  rw [epochDaysToIsoDate, hcivil]
  have hdays := @epochDays_eq ⟨yoe + era * 400 + (if 10 ≤ mp then 1 else 0),
      if mp < 10 then mp + 3 else mp - 9, doy - (153 * mp + 2) / 5 + 1⟩
    (by dsimp only; split_ifs <;> omega) (by dsimp only; split_ifs <;> omega) (yoe + era * 400) mp
    (by dsimp only; split_ifs <;> omega) (by dsimp only; split_ifs <;> omega)
  rw [hdays, hera, hyear]
  dsimp only
  omega

theorem year_bounds {date : IsoDate} (hvalid : isValidIsoDate date.year date.month date.day = true)
    (hdays : |epochDays date| ≤ 100000001) : -271822 ≤ date.year ∧ date.year ≤ 275761 := by
  simp only [isValidIsoDate, decide_eq_true_eq] at hvalid
  obtain ⟨hlow, hhigh, hday, hday'⟩ := hvalid
  have hthirty : isoDaysInMonth date.year date.month ≤ 31 := by
    rw [isoDaysInMonth]
    split_ifs <;> omega
  rw [epochDays_eq hlow hhigh rfl rfl, abs_le] at hdays
  obtain ⟨hfirst, hlast⟩ := hdays
  constructor
  · by_contra h
    split_ifs at hfirst hlast <;> omega
  · by_contra h
    split_ifs at hfirst hlast <;> omega

/-! ## Balancing -/

theorem carry_of_lt {v per : ℤ} (hv : 0 ≤ v) (hper : v < per) : v / per = 0 ∧ v % per = v :=
  ⟨Int.ediv_eq_zero_of_lt hv hper, Int.emod_eq_of_lt hv hper⟩

theorem balanceTime_of_valid {t : TimeRecord} (h : isValidTime t = true) :
    balanceTime t.hour t.minute t.second t.millisecond t.microsecond t.nanosecond =
      { t with days := 0 } := by
  simp only [isValidTime, decide_eq_true_eq] at h
  obtain ⟨hh, hh', hm, hm', hs, hs', hms, hms', hus, hus', hns, hns'⟩ := h
  have hnanosecond := carry_of_lt hns (Int.lt_add_one_of_le hns')
  have hmicrosecond := carry_of_lt hus (Int.lt_add_one_of_le hus')
  have hmillisecond := carry_of_lt hms (Int.lt_add_one_of_le hms')
  have hsecond := carry_of_lt hs (Int.lt_add_one_of_le hs')
  have hminute := carry_of_lt hm (Int.lt_add_one_of_le hm')
  have hhour := carry_of_lt hh (Int.lt_add_one_of_le hh')
  norm_num only at hnanosecond hmicrosecond hmillisecond hsecond hminute hhour
  rw [balanceTime]
  simp only [hnanosecond, hmicrosecond, hmillisecond, hsecond, hminute, hhour, add_zero]

theorem balanceTime_nanoseconds {rest : ℤ} (hlow : 0 ≤ rest) (hhigh : rest < nsPerDay) :
    isValidTime (balanceTime 0 0 0 0 0 rest) = true ∧
      timeNanoseconds (balanceTime 0 0 0 0 0 rest) = rest := by
  rw [nsPerDay] at hhigh
  constructor
  · rw [isValidTime, decide_eq_true_eq]
    simp only [balanceTime]
    omega
  · simp only [balanceTime, timeNanoseconds]
    omega

theorem isoPartsFromEpoch_spec (ns : ℤ) :
    isValidIsoDate (isoPartsFromEpoch ns).date.year (isoPartsFromEpoch ns).date.month
        (isoPartsFromEpoch ns).date.day = true ∧
      isValidTime (isoPartsFromEpoch ns).time = true ∧ (isoPartsFromEpoch ns).time.days = 0 ∧
      epochDays (isoPartsFromEpoch ns).date = ns / nsPerDay ∧
      getUtcEpochNanoseconds (isoPartsFromEpoch ns) = ns := by
  have hrest : 0 ≤ ns - ns / nsPerDay * nsPerDay ∧ ns - ns / nsPerDay * nsPerDay < nsPerDay := by
    rw [nsPerDay]
    omega
  obtain ⟨hvalid, hns⟩ := balanceTime_nanoseconds hrest.1 hrest.2
  have hdays : epochDays (isoPartsFromEpoch ns).date = ns / nsPerDay :=
    epochDays_epochDaysToIsoDate _
  refine ⟨isValidIsoDate_epochDaysToIsoDate _, hvalid, rfl, hdays, ?_⟩
  have htime : timeNanoseconds (isoPartsFromEpoch ns).time = ns - ns / nsPerDay * nsPerDay := hns
  rw [getUtcEpochNanoseconds, hdays, htime]
  omega

/-- A balanced date-time: a date of the calendar, a valid time, and the exact time that the fields
add up to. -/
theorem balanceIsoDatetime_spec (year month day hour minute second millisecond microsecond
    nanosecond : ℤ) :
    let dt := balanceIsoDatetime year month day hour minute second millisecond microsecond nanosecond
    isValidIsoDate dt.date.year dt.date.month dt.date.day = true ∧ isValidTime dt.time = true ∧
      dt.time.days = 0 ∧ epochDays dt.date = getUtcEpochNanoseconds dt / nsPerDay ∧
      getUtcEpochNanoseconds dt = epochDays ⟨year, month, day⟩ * nsPerDay +
        timeNanoseconds ⟨0, hour, minute, second, millisecond, microsecond, nanosecond⟩ := by
  intro dt
  obtain ⟨time, htime⟩ : ∃ t, t = balanceTime hour minute second millisecond microsecond nanosecond :=
    ⟨_, rfl⟩
  have hdate : epochDays dt.date = epochDays ⟨year, month, day⟩ + time.days := by
    rw [htime]
    exact epochDays_epochDaysToIsoDate _
  have htimes : dt.time = { time with days := 0 } := by rw [htime]; rfl
  have hvalid : isValidTime time = true := by
    rw [htime, isValidTime, decide_eq_true_eq]
    simp only [balanceTime]
    omega
  have hbalance : time.days * nsPerDay + timeNanoseconds time =
      timeNanoseconds ⟨0, hour, minute, second, millisecond, microsecond, nanosecond⟩ := by
    rw [htime, nsPerDay]
    simp only [balanceTime, timeNanoseconds]
    omega
  have hns : timeNanoseconds dt.time = timeNanoseconds time := by rw [htimes]; rfl
  have hday : 0 ≤ timeNanoseconds time ∧ timeNanoseconds time < nsPerDay := by
    rw [isValidTime, decide_eq_true_eq] at hvalid
    rw [timeNanoseconds, nsPerDay]
    omega
  have hsum : getUtcEpochNanoseconds dt = epochDays dt.date * nsPerDay + timeNanoseconds time := by
    rw [getUtcEpochNanoseconds, hns]
  refine ⟨isValidIsoDate_epochDaysToIsoDate _, by rw [htimes]; exact hvalid, by rw [htimes], ?_, ?_⟩
  · rw [hsum]
    rw [nsPerDay] at hday ⊢
    omega
  · rw [hsum, hdate, ← hbalance]
    ring

theorem balanceIsoDatetime_isoPartsFromEpoch (ns : ℤ) :
    balanceIsoDatetime (isoPartsFromEpoch ns).date.year (isoPartsFromEpoch ns).date.month
      (isoPartsFromEpoch ns).date.day (isoPartsFromEpoch ns).time.hour
      (isoPartsFromEpoch ns).time.minute (isoPartsFromEpoch ns).time.second
      (isoPartsFromEpoch ns).time.millisecond (isoPartsFromEpoch ns).time.microsecond
      (isoPartsFromEpoch ns).time.nanosecond = isoPartsFromEpoch ns := by
  set dt := isoPartsFromEpoch ns
  obtain ⟨-, hvalid, hzero, hdays, -⟩ := isoPartsFromEpoch_spec ns
  rw [balanceIsoDatetime, balanceTime_of_valid hvalid]
  have hdate : addDaysToIsoDate ⟨dt.date.year, dt.date.month, dt.date.day⟩ 0 = dt.date := by
    rw [addDaysToIsoDate, add_zero]
    exact congrArg epochDaysToIsoDate hdays
  have htime : ({ dt.time with days := 0 } : TimeRecord) = dt.time := rfl
  rw [htime]
  exact congrArg (IsoDatetime.mk · dt.time) hdate

end CtBrowser.Script.Temporal
