import CtBrowser.Script.Temporal.Checked
import CtBrowser.Script.Temporal.DateCounts

/-!
# Differences of Dates

The duration between two dates of the calendar and its addition, with the integer types of the
source. The difference counts each unit as far as it does not pass the second date, where a month
too short for the day counts as not reached; adding it to the first date gives the second.

## Main definitions

- `calendarDateAdd`, `calendarDateUntil` — addition and difference.
- `IsDifference` — the greatest counts of the units that do not pass a date.

## Main results

- `calendarDateUntil_spec` — no integer overflows, and the difference is of the greatest counts.
- `calendarDateAdd_difference` — a difference added to the first date gives the second.
-/

namespace CtBrowser.Script.Temporal

open Foundations.FixedWidth

namespace Checked

/-! ## Addition -/

def balanceIsoYearMonth (year month : ℤ) : Option YearMonth := do
  let before ← int64 (month - 1)
  let year ← int64 (year + (← floorDiv 64 before 12))
  let month ← int32 ((← int32 (← floorMod 64 before 12)) + 1)
  pure { year, month }

/-- A number between two others. -/
def clamp (v low high : ℤ) : ℤ := if v < low then low else if high < v then high else v

/-- The year is kept out of range rather than overflowing. -/
def regulateIsoDate (year month day : ℤ) (how : Overflow) : Option (Option IsoDate) := do
  let y ← int64 (clamp year (-1000000000000) 1000000000000)
  match how with
  | .constrain =>
    let m ← int32 (clamp month 1 12)
    let d ← int32 (clamp day 1 (isoDaysInMonth y m))
    pure (some { year := y, month := m, day := d })
  | .reject =>
    if month < 1 ∨ 12 < month then pure none
    else
      let m ← int32 month
      if day < 1 ∨ isoDaysInMonth y m < day then pure none
      else pure (some { year := y, month := m, day := ← int32 day })

/-- The date after a duration, if it is within the limits. -/
def calendarDateAdd (date : IsoDate) (duration : DateDuration) (how : Overflow) :
    Option (Option IsoDate) := do
  let year ← int64 (date.year + (← int64 duration.years))
  let ym ← balanceIsoYearMonth year (← int64 (date.month + (← int64 duration.months)))
  let regulated ← regulateIsoDate (← double ym.year) (← double ym.month) (← double date.day) how
  match regulated with
  | none => pure none
  | some regulated =>
    let days ← int64 ((← int64 duration.days) + (← int64 (7 * (← int64 duration.weeks))))
    let result ← addDaysToIsoDate regulated days
    let within ← isoDateWithinLimits result
    pure (if within then some result else none)

/-! ## Difference -/

def compareIsoDate (a b : IsoDate) : ℤ :=
  if a.year ≠ b.year then if b.year < a.year then 1 else -1
  else if a.month ≠ b.month then if b.month < a.month then 1 else -1
  else if a.day ≠ b.day then if b.day < a.day then 1 else -1
  else 0

/-- Whether a year, month and day are beyond a date in the direction of a sign. -/
def surpasses (sign year month day : ℤ) (target : IsoDate) : Option Bool :=
  if year ≠ target.year then do
    let beyond ← int64 (sign * (← int64 (year - target.year)))
    pure (0 < beyond)
  else if month ≠ target.month then do
    let beyond ← int32 (sign * (← int32 (month - target.month)))
    pure (0 < beyond)
  else if day ≠ target.day then do
    let beyond ← int32 (sign * (← int32 (day - target.day)))
    pure (0 < beyond)
  else pure false

/-- The years that land in the year of the second date, less one if they overshoot. -/
def yearsUntil (sign : ℤ) (one two : IsoDate) : Option ℤ := do
  let years ← int64 (two.year - one.year)
  if years ≠ 0 then do
    let passed ← surpasses sign (← int64 (one.year + years)) one.month one.day two
    if passed then int64 (years - sign) else pure years
  else pure years

/-- The months that land in the month of the second date, less one if they overshoot. -/
def monthsUntil (sign years : ℤ) (one two : IsoDate) : Option ℤ := do
  let y₀ ← int64 (one.year + years)
  let whole ← int64 ((← int64 (two.year - y₀)) * 12)
  let months ← int64 (whole + (← int32 (two.month - one.month)))
  if months ≠ 0 then do
    let added ← balanceIsoYearMonth y₀ (← int64 (one.month + months))
    let passed ← surpasses sign added.year added.month one.day two
    if passed then int64 (months - sign) else pure months
  else pure months

/-- The duration from one date to another, in units up to the largest. -/
def calendarDateUntil (one two : IsoDate) (largest : DurationUnit) : Option DateDuration :=
  let compared := compareIsoDate one two
  if compared = 0 then pure {}
  else do
    let sign ← int32 (-compared)
    let years ← (if largest = .year then yearsUntil sign one two else pure 0 : Option ℤ)
    let months ← (if largest = .year ∨ largest = .month then monthsUntil sign years one two
      else pure 0 : Option ℤ)
    let added ← balanceIsoYearMonth (← int64 (one.year + years)) (← int64 (one.month + months))
    let day := min one.day (isoDaysInMonth added.year added.month)
    let remaining ← int64 ((← epochDays two) - (← epochDays ⟨added.year, added.month, day⟩))
    let weeks := if largest = .week then remaining.tdiv 7 else 0
    let days := if largest = .week then remaining.tmod 7 else remaining
    pure { years := ← double years, months := ← double months, weeks := ← double weeks,
           days := ← double days }

/-! ## The comparisons -/

variable {sign years months : ℤ} {date one two : IsoDate}

theorem compareIsoDate_before {a b : IsoDate} (h : a.Before b) : compareIsoDate a b = -1 := by
  rw [IsoDate.Before] at h
  rw [compareIsoDate]
  split_ifs <;> omega

theorem compareIsoDate_after {a b : IsoDate} (h : b.Before a) : compareIsoDate a b = 1 := by
  rw [IsoDate.Before] at h
  rw [compareIsoDate]
  split_ifs <;> omega

theorem compareIsoDate_self (a : IsoDate) : compareIsoDate a a = 0 := by
  rw [compareIsoDate, if_neg (not_not.mpr rfl), if_neg (not_not.mpr rfl), if_neg (not_not.mpr rfl)]

theorem surpasses_eq {date target : IsoDate} (hsign : sign = 1 ∨ sign = -1) (hdate : NearDate date)
    (htarget : NearDate target) :
    surpasses sign date.year date.month date.day target = some (decide (Passes sign date target)) := by
  obtain ⟨hyear, hm₁, hm₂, hd₁, hd₂⟩ := hdate
  obtain ⟨hyear', hm₁', hm₂', hd₁', hd₂'⟩ := htarget
  rw [abs_le] at hyear hyear'
  have hpasses := passes_iff hsign ⟨hm₁, hm₂⟩ ⟨hm₁', hm₂'⟩
  simp only [monthIndex] at hpasses
  rw [surpasses]
  split_ifs with hy hm hd
  · refine step_int64 (by omega) (by omega) fun v hv => ?_
    have hproduct := sign_mul hsign v
    refine step_int64 (by omega) (by omega) fun w hw => ?_
    refine congrArg some (decide_eq_decide.mpr ?_)
    rw [hpasses, hw, hv]
    rcases hsign with rfl | rfl <;> omega
  · refine step_int32 (by omega) (by omega) fun v hv => ?_
    have hproduct := sign_mul hsign v
    refine step_int32 (by omega) (by omega) fun w hw => ?_
    refine congrArg some (decide_eq_decide.mpr ?_)
    rw [hpasses, hw, hv]
    rcases hsign with rfl | rfl <;> omega
  · refine step_int32 (by omega) (by omega) fun v hv => ?_
    have hproduct := sign_mul hsign v
    refine step_int32 (by omega) (by omega) fun w hw => ?_
    refine congrArg some (decide_eq_decide.mpr ?_)
    rw [hpasses, hw, hv]
    rcases hsign with rfl | rfl <;> omega
  · refine congrArg some (decide_eq_false ?_).symm
    rw [hpasses]
    rcases hsign with rfl | rfl <;> omega

/-! ## Months later -/

theorem balanceIsoYearMonth_eq {year month : ℤ} (hyear : |year| ≤ 1000000000000)
    (hmonth : |month| ≤ 1000000000000) :
    balanceIsoYearMonth year month = some ⟨year + (month - 1) / 12, (month - 1) % 12 + 1⟩ := by
  rw [abs_le] at hyear hmonth
  rw [balanceIsoYearMonth]
  refine step_int64 (by omega) (by omega) fun before hbefore => ?_
  refine step (floorDiv_eq (by norm_num) (fits_64 (abs_le.mpr (by omega)))) ?_
  refine step_int64 (by omega) (by omega) fun y hy => ?_
  refine step (floorMod_eq (by norm_num) (fits_64 (abs_le.mpr (by omega)))
    (fits_64 (abs_le.mpr (by omega))) (fits_64 (by norm_num))) ?_
  refine step_int32 (by omega) (by omega) fun r hr => ?_
  refine step_int32 (by omega) (by omega) fun m hm => ?_
  rw [hy, hm, hr, hbefore]
  rfl

theorem balanceIsoYearMonth_counted {date : IsoDate} {years months : ℤ}
    (hyear : |date.year + years| ≤ 1000000000000) (hmonth : |date.month + months| ≤ 1000000000000) :
    balanceIsoYearMonth (date.year + years) (date.month + months) =
      some ⟨(date.counted years months).year, (date.counted years months).month⟩ :=
  balanceIsoYearMonth_eq hyear hmonth

/-- A date of the calendar in the years around its limits. -/
structure InRange (date : IsoDate) : Prop where
  valid : date.Valid
  low : -300000 ≤ date.year
  high : date.year ≤ 300000

theorem InRange.near (h : InRange date) : NearDate date := by
  obtain ⟨hm₁, hm₂, hd₁, hd₂⟩ := IsoDate.valid_iff.mp h.valid
  have hlength := isoDaysInMonth_bounds date.year date.month
  have hlow := h.low
  have hhigh := h.high
  exact ⟨abs_le.mpr (by omega), hm₁, hm₂, hd₁, by omega⟩

theorem InRange.days (h : InRange date) :
    -111000000 ≤ Temporal.epochDays date ∧ Temporal.epochDays date ≤ 111000000 := by
  obtain ⟨hm₁, hm₂, hd₁, hd₂⟩ := IsoDate.valid_iff.mp h.valid
  have hlength := isoDaysInMonth_bounds date.year date.month
  have hlow := h.low
  have hhigh := h.high
  rw [epochDays_eq_march hm₁ hm₂ rfl rfl, marchDays, monthDays]
  constructor <;> split_ifs <;> omega

theorem InRange.near_counted (h : InRange date) (hyears : |years| ≤ 700000)
    (hmonths : |months| ≤ 20000000) : NearDate (date.counted years months) := by
  obtain ⟨hyear, hm₁, hm₂, hd₁, hd₂⟩ := h.near
  have hlow := h.low
  have hhigh := h.high
  rw [abs_le] at hyears hmonths
  refine ⟨abs_le.mpr ?_, (counted_month date years months).1, (counted_month date years months).2,
    hd₁, hd₂⟩
  simp only [IsoDate.counted]
  omega

/-! ## The difference -/

theorem yearsUntil_eq (hsign : sign = 1 ∨ sign = -1) (hone : InRange one) (htwo : InRange two) :
    yearsUntil sign one two = some (if two.year - one.year ≠ 0 ∧
      Passes sign (one.counted (two.year - one.year) 0) two then two.year - one.year - sign
      else two.year - one.year) := by
  have hone₁ := hone.low
  have hone₂ := hone.high
  have htwo₁ := htwo.low
  have htwo₂ := htwo.high
  rw [yearsUntil]
  refine step_int64 (by omega) (by omega) fun years hyears => ?_
  rw [← hyears]
  by_cases hzero : years = 0
  · rw [if_neg (not_not.mpr hzero), if_neg fun h => h.1 hzero]
    rfl
  · rw [if_pos hzero]
    refine step_int64 (by omega) (by omega) fun y hy => ?_
    have hdate : one.counted years 0 = ⟨y, one.month, one.day⟩ := by
      obtain ⟨hm₁, hm₂, -⟩ := IsoDate.valid_iff.mp hone.valid
      simp only [IsoDate.counted, IsoDate.mk.injEq, and_true]
      omega
    have hnear : NearDate (one.counted years 0) :=
      hone.near_counted (abs_le.mpr (by omega)) (by norm_num)
    rw [hdate] at hnear ⊢
    have hsurpasses : surpasses sign y one.month one.day two =
        some (decide (Passes sign ⟨y, one.month, one.day⟩ two)) := surpasses_eq hsign hnear htwo.near
    refine step hsurpasses ?_
    by_cases hpassed : Passes sign ⟨y, one.month, one.day⟩ two
    · rw [if_pos (decide_eq_true hpassed), if_pos ⟨hzero, hpassed⟩]
      rcases hsign with rfl | rfl <;> exact int64_eq (by omega) (by omega)
    · rw [if_neg (by simpa using hpassed), if_neg fun h => hpassed h.2]
      rfl

theorem yearsUntil_spec (hsign : sign = 1 ∨ sign = -1) (hone : InRange one) (htwo : InRange two)
    (hpasses : ¬ Passes sign (one.counted 0 0) two) : ∃ k, yearsUntil sign one two = some k ∧
      Greatest sign (one.counted · 0) two k ∧ |k| ≤ 600001 := by
  refine ⟨_, yearsUntil_eq hsign hone htwo, greatest_years hsign hone.valid htwo.valid hpasses, ?_⟩
  have hone₁ := hone.low
  have hone₂ := hone.high
  have htwo₁ := htwo.low
  have htwo₂ := htwo.high
  rw [abs_le]
  split_ifs <;> rcases hsign with rfl | rfl <;> omega

theorem monthsUntil_eq (hsign : sign = 1 ∨ sign = -1) (hone : InRange one) (htwo : InRange two)
    (hyears : |years| ≤ 600001) :
    let k := monthIndex two - monthIndex one - 12 * years
    monthsUntil sign years one two =
      some (if k ≠ 0 ∧ Passes sign (one.counted years k) two then k - sign else k) := by
  intro k
  rw [abs_le] at hyears
  have hone₁ := hone.low
  have hone₂ := hone.high
  have htwo₁ := htwo.low
  have htwo₂ := htwo.high
  obtain ⟨hm₁, hm₂, -⟩ := IsoDate.valid_iff.mp hone.valid
  obtain ⟨hm₁', hm₂', -⟩ := IsoDate.valid_iff.mp htwo.valid
  have hk : k = 12 * (two.year - (one.year + years)) + (two.month - one.month) := by
    simp only [k, monthIndex]
    ring
  clear_value k
  rw [monthsUntil]
  refine step_int64 (by omega) (by omega) fun y₀ hy₀ => ?_
  refine step_int64 (by omega) (by omega) fun gap hgap => ?_
  refine step_int64 (by omega) (by omega) fun whole hwhole => ?_
  refine step_int32 (by omega) (by omega) fun more hmore => ?_
  refine step_int64 (by omega) (by omega) fun months hmonths => ?_
  obtain rfl : months = k := by omega
  by_cases hzero : months = 0
  · rw [if_neg (not_not.mpr hzero), if_neg fun h => h.1 hzero]
    rfl
  · rw [if_pos hzero, hy₀]
    refine step_int64 (by omega) (by omega) fun m hm => ?_
    rw [hm]
    refine step (balanceIsoYearMonth_counted (abs_le.mpr (by omega)) (abs_le.mpr (by omega))) ?_
    have hnear : NearDate (one.counted years months) :=
      hone.near_counted (abs_le.mpr (by omega)) (abs_le.mpr (by omega))
    refine step (surpasses_eq hsign hnear htwo.near) ?_
    by_cases hpassed : Passes sign (one.counted years months) two
    · rw [if_pos (decide_eq_true hpassed), if_pos ⟨hzero, hpassed⟩]
      rcases hsign with rfl | rfl <;> exact int64_eq (by omega) (by omega)
    · rw [if_neg (by simpa using hpassed), if_neg fun h => hpassed h.2]
      rfl

theorem monthsUntil_spec (hsign : sign = 1 ∨ sign = -1) (hone : InRange one) (htwo : InRange two)
    (hyears : |years| ≤ 600001) (hpasses : ¬ Passes sign (one.counted years 0) two) :
    ∃ k, monthsUntil sign years one two = some k ∧
      Greatest sign (one.counted years ·) two k ∧ |k| ≤ 16000000 := by
  refine ⟨_, monthsUntil_eq hsign hone htwo hyears, greatest_months hsign htwo.valid hpasses, ?_⟩
  obtain ⟨hm₁, hm₂, -⟩ := IsoDate.valid_iff.mp hone.valid
  obtain ⟨hm₁', hm₂', -⟩ := IsoDate.valid_iff.mp htwo.valid
  have hone₁ := hone.low
  have hone₂ := hone.high
  have htwo₁ := htwo.low
  have htwo₂ := htwo.high
  obtain ⟨k, hk⟩ : ∃ k, k = monthIndex two - monthIndex one - 12 * years := ⟨_, rfl⟩
  rw [← hk]
  rw [monthIndex, monthIndex] at hk
  rw [abs_le] at hyears ⊢
  split_ifs <;> rcases hsign with rfl | rfl <;> omega

/-! ## The whole difference -/

theorem compareIsoDate_direction (h : one ≠ two) : compareIsoDate one two = -direction one two := by
  rcases one.before_trichotomy two with hlt | heq | hlt
  · rw [compareIsoDate_before hlt, direction_of_before hlt]
  · exact absurd heq h
  · rw [compareIsoDate_after hlt, direction, if_pos hlt]
    rfl

theorem exists_years (hone : InRange one) (htwo : InRange two) (largest : DurationUnit) :
    ∃ k, (if largest = .year then yearsUntil (direction one two) one two else pure 0) = some k ∧
      (if largest = .year then Greatest (direction one two) (one.counted · 0) two k else k = 0) ∧
      ¬ Passes (direction one two) (one.counted k 0) two ∧ |k| ≤ 600001 := by
  have hstart : ¬ Passes (direction one two) (one.counted 0 0) two := by
    rw [counted_zero hone.valid]
    exact not_passes_direction one two
  split_ifs with hlargest
  · obtain ⟨k, hk, hgreatest, hbound⟩ := yearsUntil_spec (direction_or one two) hone htwo hstart
    exact ⟨k, hk, hgreatest, hgreatest.within, hbound⟩
  · exact ⟨0, rfl, rfl, hstart, by norm_num⟩

theorem exists_months (hone : InRange one) (htwo : InRange two) (largest : DurationUnit)
    (hyears : |years| ≤ 600001) (hpasses : ¬ Passes (direction one two) (one.counted years 0) two) :
    ∃ k, (if largest = .year ∨ largest = .month then monthsUntil (direction one two) years one two
        else pure 0) = some k ∧
      (if largest = .year ∨ largest = .month then
        Greatest (direction one two) (one.counted years ·) two k else k = 0) ∧
      ¬ Passes (direction one two) (one.counted years k) two ∧ |k| ≤ 16000000 := by
  split_ifs with hlargest
  · obtain ⟨k, hk, hgreatest, hbound⟩ :=
      monthsUntil_spec (direction_or one two) hone htwo hyears hpasses
    exact ⟨k, hk, hgreatest, hgreatest.within, hbound⟩
  · exact ⟨0, rfl, rfl, hpasses, by norm_num⟩

theorem InRange.near_monthsLater (h : InRange date) (hyears : |years| ≤ 700000)
    (hmonths : |months| ≤ 20000000) : NearDate (date.monthsLater years months) := by
  obtain ⟨hyear, hm₁, hm₂, -, -⟩ := h.near_counted hyears hmonths
  obtain ⟨-, -, hd₁, hd₂⟩ := IsoDate.valid_iff.mp (valid_monthsLater h.valid years months)
  have hlength := isoDaysInMonth_bounds (date.monthsLater years months).year
    (date.monthsLater years months).month
  exact ⟨hyear, hm₁, hm₂, hd₁, by omega⟩

theorem inRange_monthsLater (hone : InRange one) (htwo : InRange two)
    (hdirection : 0 ≤ direction one two * (12 * years + months))
    (hpasses : ¬ Passes (direction one two) (one.counted years months) two) :
    InRange (one.monthsLater years months) := by
  obtain ⟨hm₁, hm₂, -⟩ := IsoDate.valid_iff.mp htwo.valid
  obtain ⟨hm₁', hm₂', -⟩ := IsoDate.valid_iff.mp hone.valid
  have hcounted := counted_month one years months
  have hindex := monthIndex_counted one years months
  rw [passes_iff (direction_or one two) hcounted ⟨hm₁, hm₂⟩] at hpasses
  simp only [monthIndex] at hpasses hindex
  have hone₁ := hone.low
  have hone₂ := hone.high
  have htwo₁ := htwo.low
  have htwo₂ := htwo.high
  have hyear : (one.monthsLater years months).year = (one.counted years months).year := rfl
  refine ⟨valid_monthsLater hone.valid years months, ?_, ?_⟩
  · rw [hyear]
    rcases direction_or one two with h | h <;> rw [h] at hpasses hdirection <;> omega
  · rw [hyear]
    rcases direction_or one two with h | h <;> rw [h] at hpasses hdirection <;> omega

theorem abs_tdiv_tmod_le (r : ℤ) : |r.tdiv 7| ≤ |r| ∧ |r.tmod 7| ≤ |r| := by
  have hnonneg : ∀ r : ℤ, 0 ≤ r → |r.tdiv 7| ≤ r ∧ |r.tmod 7| ≤ r := by
    intro r hr
    rw [Int.tdiv_eq_ediv_of_nonneg hr, Int.tmod_eq_emod_of_nonneg hr, abs_le, abs_le]
    omega
  rcases le_total 0 r with hr | hr
  · rw [abs_of_nonneg hr]
    exact hnonneg r hr
  · have hneg := hnonneg (-r) (by omega)
    rwa [Int.neg_tdiv, Int.neg_tmod, abs_neg, abs_neg, ← abs_of_nonpos hr] at hneg

/-- What the counts of a difference are at most. -/
structure Moderate (d : DateDuration) : Prop where
  years : |d.years| ≤ 600001
  months : |d.months| ≤ 16000000
  weeks : |d.weeks| ≤ 230000000
  days : |d.days| ≤ 230000000

/-- No integer of a difference overflows, and its counts are the greatest. -/
theorem calendarDateUntil_spec (hone : InRange one) (htwo : InRange two) (largest : DurationUnit) :
    ∃ d, calendarDateUntil one two largest = some d ∧ IsDifference one two largest d ∧ Moderate d ∧
      |d.days| ≤ 222000000 := by
  rw [calendarDateUntil]
  by_cases heq : one = two
  · subst heq
    rw [compareIsoDate_self, if_pos rfl]
    exact ⟨{}, rfl, .self hone.valid largest, ⟨by norm_num, by norm_num, by norm_num, by norm_num⟩,
      by norm_num⟩
  · have hsign := direction_or one two
    have hcompared := compareIsoDate_direction heq
    rw [hcompared, if_neg (by omega), neg_neg]
    obtain ⟨y, hy, hyears, hpassed, hyear⟩ := exists_years hone htwo largest
    obtain ⟨m, hm, hmonths, hpassed', hmonth⟩ := exists_months hone htwo largest hyear hpassed
    have hlater := not_passes_monthsLater hsign htwo.valid hpassed'
    have hvalid := valid_monthsLater hone.valid y m
    rw [passes_days hsign hvalid htwo.valid] at hlater
    obtain ⟨r, hr⟩ : ∃ r, r = Temporal.epochDays two - Temporal.epochDays (one.monthsLater y m) :=
      ⟨_, rfl⟩
    have hreaches : Temporal.epochDays (one.monthsLater y m) + r = Temporal.epochDays two := by omega
    have hdirection : 0 ≤ direction one two * r := by
      rcases hsign with h | h <;> rw [h] at hlater ⊢ <;> omega
    obtain ⟨hweeks, hdays⟩ := greatest_weeks hsign htwo.valid hreaches hdirection
    have hday : InRange (one.monthsLater y m) := by
      refine inRange_monthsLater hone htwo ?_ hpassed'
      have hyears' : 0 ≤ direction one two * y := by
        split_ifs at hyears
        · exact hyears.direction
        · rw [hyears, mul_zero]
      have hmonths' : 0 ≤ direction one two * m := by
        split_ifs at hmonths
        · exact hmonths.direction
        · rw [hmonths, mul_zero]
      rcases hsign with h | h <;> rw [h] at hyears' hmonths' ⊢ <;> omega
    have hbounds := hday.days
    have hbounds' := htwo.days
    have hr' : |r| ≤ 222000000 := abs_le.mpr (by omega)
    have hweek := (abs_tdiv_tmod_le r).1.trans hr'
    have hday' := (abs_tdiv_tmod_le r).2.trans hr'
    have hone₁ := hone.low
    have hone₂ := hone.high
    have hyear' := abs_le.mp hyear
    have hweek' := abs_le.mp hweek
    have hday'' := abs_le.mp hday'
    have hmonth' := abs_le.mp hmonth
    obtain ⟨hm₁, hm₂, -⟩ := IsoDate.valid_iff.mp hone.valid
    have hdays' : |if largest = .week then r.tmod 7 else r| ≤ 222000000 := by
      split_ifs
      · exact hday'
      · exact hr'
    refine ⟨⟨y, m, if largest = .week then r.tdiv 7 else 0,
      if largest = .week then r.tmod 7 else r⟩, ?_, ⟨hyears, hmonths, ?_, ?_⟩,
      ⟨hyear, hmonth, ?_, hdays'.trans (by norm_num)⟩, hdays'⟩
    · refine step_int32 (by omega) (by omega) fun sign hsign' => ?_
      rw [hsign']
      refine step hy ?_
      refine step hm ?_
      refine step_int64 (by omega) (by omega) fun y' hy' => ?_
      refine step_int64 (by omega) (by omega) fun m' hm' => ?_
      rw [hy', hm']
      refine step (balanceIsoYearMonth_counted (abs_le.mpr (by omega)) (abs_le.mpr (by omega))) ?_
      refine step (epochDays_eq htwo.near) ?_
      refine step (a := Temporal.epochDays (one.monthsLater y m)) (epochDays_eq hday.near) ?_
      refine step_int64 (by omega) (by omega) fun r' hr' => ?_
      obtain rfl : r' = r := hr'.trans hr.symm
      refine step_double (by omega) (by omega) fun _ h₁ => ?_
      refine step_double (by omega) (by omega) fun _ h₂ => ?_
      rw [h₁, h₂]
      refine step (double_eq ?_ ?_) ?_
      · split_ifs <;> omega
      · split_ifs <;> omega
      · refine step (double_eq ?_ ?_) rfl
        · split_ifs <;> omega
        · split_ifs <;> omega
    · split_ifs
      · exact hweeks
      · rfl
    · dsimp only
      split_ifs
      · exact hdays
      · simpa only [mul_zero, zero_add] using greatest_days hsign htwo.valid hreaches hdirection
    · split_ifs
      · exact hweek.trans (by norm_num)
      · norm_num

/-! ## Adding a difference -/

theorem regulateIsoDate_counted (hone : InRange one) (hyears : |years| ≤ 700000)
    (hmonths : |months| ≤ 20000000) :
    regulateIsoDate (one.counted years months).year (one.counted years months).month one.day
      .constrain = some (some (one.monthsLater years months)) := by
  obtain ⟨hyear, hm₁, hm₂, hd₁, hd₂⟩ := hone.near_counted hyears hmonths
  have hday : (one.counted years months).day = one.day := rfl
  rw [abs_le] at hyear
  rw [hday] at hd₁ hd₂
  have hlength := isoDaysInMonth_bounds (one.counted years months).year (one.counted years months).month
  have hclampYear : clamp (one.counted years months).year (-1000000000000) 1000000000000 =
      (one.counted years months).year := by
    rw [clamp, if_neg (by omega), if_neg (by omega)]
  have hclampMonth : clamp (one.counted years months).month 1 12 = (one.counted years months).month := by
    rw [clamp, if_neg (by omega), if_neg (by omega)]
  have hclampDay : ∀ last, clamp one.day 1 last = min one.day last := by
    intro last
    rw [clamp, if_neg (by omega)]
    split_ifs <;> omega
  rw [regulateIsoDate, hclampYear, hclampMonth]
  refine step (int64_eq (by omega) (by omega)) ?_
  refine step (int32_eq (by omega) (by omega)) ?_
  rw [hclampDay]
  exact step (int32_eq (by omega) (by omega)) rfl

/-- No integer of the addition overflows, and it leads where the counts do. -/
theorem calendarDateAdd_eq {d : DateDuration} (hone : InRange one) (htwo : InRange two) (hd : Moderate d)
    (hreaches : Temporal.epochDays (one.monthsLater d.years d.months) + (7 * d.weeks + d.days) =
      Temporal.epochDays two) :
    calendarDateAdd one d .constrain =
      some (if Temporal.isoDateWithinLimits two then some two else none) := by
  have hyears := abs_le.mp hd.years
  have hmonths := abs_le.mp hd.months
  have hweeks := abs_le.mp hd.weeks
  have hdays := abs_le.mp hd.days
  have hone₁ := hone.low
  have hone₂ := hone.high
  obtain ⟨hyear, hm₁, hm₂, hd₁, hd₂⟩ := hone.near
  have hyears' := hd.years.trans (by norm_num : (600001 : ℤ) ≤ 700000)
  have hmonths' := hd.months.trans (by norm_num : (16000000 : ℤ) ≤ 20000000)
  obtain ⟨hcounted, hcm₁, hcm₂, -⟩ := hone.near_counted hyears' hmonths'
  rw [abs_le] at hcounted
  rw [calendarDateAdd]
  refine step (int64_eq (by omega) (by omega)) ?_
  refine step_int64 (by omega) (by omega) fun y hy => ?_
  refine step (int64_eq (by omega) (by omega)) ?_
  refine step_int64 (by omega) (by omega) fun m hm => ?_
  rw [hy, hm]
  refine step (balanceIsoYearMonth_counted (abs_le.mpr (by omega)) (abs_le.mpr (by omega))) ?_
  refine step (double_eq (x := (one.counted d.years d.months).year) (by omega) (by omega)) ?_
  refine step (double_eq (x := (one.counted d.years d.months).month) (by omega) (by omega)) ?_
  refine step (double_eq (by omega) (by omega)) ?_
  refine step (regulateIsoDate_counted hone hyears' hmonths') ?_
  refine step (int64_eq (by omega) (by omega)) ?_
  refine step (int64_eq (by omega) (by omega)) ?_
  refine step_int64 (by omega) (by omega) fun w hw => ?_
  refine step_int64 (by omega) (by omega) fun total htotal => ?_
  have hreaches' : Temporal.epochDays (one.monthsLater d.years d.months) + total =
      Temporal.epochDays two := by omega
  have hbounds := epochDays_bounds htwo.near
  refine step (addDaysToIsoDate_eq (hone.near_monthsLater hyears' hmonths') (abs_le.mpr (by omega))) ?_
  rw [addDaysToIsoDate_eq_of_days htwo.valid hreaches']
  exact step (isoDateWithinLimits_eq htwo.near) rfl

/-- Adding the difference of two dates to the first gives the second. -/
theorem calendarDateAdd_difference {d : DateDuration} {largest : DurationUnit} (hone : InRange one)
    (htwo : InRange two) (hd : Moderate d) (h : IsDifference one two largest d)
    (hwithin : Temporal.isoDateWithinLimits two = true) :
    calendarDateAdd one d .constrain = some (some two) := by
  rw [calendarDateAdd_eq hone htwo hd (h.reaches htwo.valid), if_pos hwithin]

end Checked

end CtBrowser.Script.Temporal
