import CtBrowser.Foundations.FixedWidth
import CtBrowser.Script.Temporal.Calendar

/-!
# The Calendar on Fixed Widths

The calendar's operations with the integer types of the source: 32 and 64 bits for dates, 128 bits
for nanoseconds. Each has a value only if none of its intermediate results overflows. Far around
the limits of the calendar none does, and the values are the exact ones.

## Main definitions

- `epochDays`, `addDaysToIsoDate`, `isoDatetimeWithinLimits` — dates.
- `balanceTime`, `timeNanoseconds`, `balanceIsoDatetime`, `isoPartsFromEpoch` — times.

## Main results

- `epochDays_eq`, `addDaysToIsoDate_eq`, `balanceIsoDatetime_eq` and the others — an operation is
  the exact one.
-/

namespace CtBrowser.Script.Temporal.Checked

open Foundations.FixedWidth

/-! ## Dates -/

def absOf (fit : ℤ → Option ℤ) (v : ℤ) : Option ℤ := if v < 0 then fit (-v) else pure v

/-- Days since 1970-01-01. -/
def daysFromCivil (y m d : ℤ) : Option ℤ := do
  let y ← int64 (y - if m ≤ 2 then 1 else 0)
  let shifted ← int64 (if 0 ≤ y then y else y - 399)
  let era ← int64 (shifted.tdiv 400)
  let yoe ← int64 (y - (← int64 (era * 400)))
  let mp ← int32 (if 2 < m then m - 3 else m + 9)
  let begun ← int64 ((← int32 ((← int32 (153 * mp)) + 2)).tdiv 5)
  let doy ← int32 ((← int32 (begun + d)) - 1)
  let years ← int64 ((← int64 (yoe * 365)) + (← int64 (yoe.tdiv 4)))
  let doe ← int64 ((← int64 (years - (← int64 (yoe.tdiv 100)))) + doy)
  int64 ((← int64 ((← int64 (era * 146097)) + doe)) - 719468)

/-- The inverse of `daysFromCivil`. -/
def civilFromDays (z : ℤ) : Option IsoDate := do
  let z ← int64 (z + 719468)
  let shifted ← int64 (if 0 ≤ z then z else z - 146096)
  let era ← int64 (shifted.tdiv 146097)
  let doe ← int64 (z - (← int64 (era * 146097)))
  let days ← int64 (doe - (← int64 (doe.tdiv 1460)))
  let days ← int64 (days + (← int64 (doe.tdiv 36524)))
  let days ← int64 (days - (← int64 (doe.tdiv 146096)))
  let yoe ← int64 (days.tdiv 365)
  let years ← int64 ((← int64 (365 * yoe)) + (← int64 (yoe.tdiv 4)))
  let doy ← int64 (doe - (← int64 (years - (← int64 (yoe.tdiv 100)))))
  let mp ← int64 ((← int64 ((← int64 (5 * doy)) + 2)).tdiv 153)
  let m ← int64 (if mp < 10 then mp + 3 else mp - 9)
  let m ← int32 m
  let year ← int64 ((← int64 (yoe + (← int64 (era * 400)))) + if m ≤ 2 then 1 else 0)
  let begun ← int64 ((← int64 ((← int64 (153 * mp)) + 2)).tdiv 5)
  let d ← int64 ((← int64 (doy - begun)) + 1)
  let d ← int32 d
  pure { year, month := m, day := d }

/-- The month is zero-based here, and may be any integer. -/
def isoDateToEpochDays (year month day : ℤ) : Option ℤ := do
  let y ← int64 (year + (← floorDiv 64 month 12))
  let m ← int32 ((← int32 (← floorMod 64 month 12)) + 1)
  int64 ((← int64 ((← daysFromCivil y m 1) + day)) - 1)

def epochDays (date : IsoDate) : Option ℤ := do
  isoDateToEpochDays date.year (← int32 (date.month - 1)) date.day

def epochDaysToIsoDate (z : ℤ) : Option IsoDate := civilFromDays z

def addDaysToIsoDate (date : IsoDate) (days : ℤ) : Option IsoDate := do
  epochDaysToIsoDate (← int64 ((← epochDays date) + days))

def checkIsoDaysRange (date : IsoDate) : Option Bool := do
  let days ← absOf int64 (← epochDays date)
  pure (days ≤ 100000000)

/-! ## Times -/

/-- Carries every field into the next larger one, and hours into days. -/
def balanceTime (hour minute second millisecond microsecond nanosecond : ℤ) : Option TimeRecord := do
  let microsecond ← int128 (microsecond + (← floorDiv 128 nanosecond 1000))
  let nanosecond ← floorMod 128 nanosecond 1000
  let millisecond ← int128 (millisecond + (← floorDiv 128 microsecond 1000))
  let microsecond ← floorMod 128 microsecond 1000
  let second ← int128 (second + (← floorDiv 128 millisecond 1000))
  let millisecond ← floorMod 128 millisecond 1000
  let minute ← int128 (minute + (← floorDiv 128 second 60))
  let second ← floorMod 128 second 60
  let hour ← int128 (hour + (← floorDiv 128 minute 60))
  let minute ← floorMod 128 minute 60
  let days ← floorDiv 128 hour 24
  let hour ← floorMod 128 hour 24
  pure { days := ← int64 days, hour := ← int32 hour, minute := ← int32 minute,
         second := ← int32 second, millisecond := ← int32 millisecond,
         microsecond := ← int32 microsecond, nanosecond := ← int32 nanosecond }

/-- Nanoseconds since midnight. -/
def timeNanoseconds (t : TimeRecord) : Option ℤ := do
  let minutes ← int128 ((← int128 (t.hour * 60)) + t.minute)
  let seconds ← int128 ((← int128 (minutes * 60)) + t.second)
  let milliseconds ← int128 ((← int128 (seconds * 1000)) + t.millisecond)
  let microseconds ← int128 ((← int128 (milliseconds * 1000)) + t.microsecond)
  int128 ((← int128 (microseconds * 1000)) + t.nanosecond)

/-! ## Exact times -/

def getUtcEpochNanoseconds (dt : IsoDatetime) : Option ℤ := do
  let days ← int128 ((← epochDays dt.date) * nsPerDay)
  int128 (days + (← timeNanoseconds dt.time))

def balanceIsoDatetime (year month day hour minute second millisecond microsecond
    nanosecond : ℤ) : Option IsoDatetime := do
  let time ← balanceTime hour minute second millisecond microsecond nanosecond
  let date ← addDaysToIsoDate { year, month, day } time.days
  pure { date, time := { time with days := 0 } }

def isoDatetimeWithinLimits (dt : IsoDatetime) : Option Bool := do
  let days ← absOf int64 (← epochDays dt.date)
  if 100000001 < days then pure false
  else
    let ns ← getUtcEpochNanoseconds dt
    pure (nsMinInstant - nsPerDay < ns ∧ ns < nsMaxInstant + nsPerDay)

def isoDateWithinLimits (date : IsoDate) : Option Bool := isoDatetimeWithinLimits ⟨date, noon⟩

def isoPartsFromEpoch (epochNs : ℤ) : Option IsoDatetime := do
  let days ← floorDiv 128 epochNs nsPerDay
  let rest ← int128 (epochNs - (← int128 (days * nsPerDay)))
  let time ← balanceTime 0 0 0 0 0 rest
  let date ← epochDaysToIsoDate (← int64 days)
  pure { date, time := { time with days := 0 } }

/-! ## Exactness -/

theorem daysFromCivil_eq {y m d : ℤ} (hy : |y| ≤ 9007199254740992) (hm : 1 ≤ m) (hm' : m ≤ 12) (hd : |d| ≤ 1000) :
    daysFromCivil y m d = some (Temporal.daysFromCivil y m d) := by
  rw [abs_le] at hy hd
  rw [daysFromCivil]
  refine step_int64_within (-9007199254740993) 9007199254740992 (by omega) (by norm_num) fun y' hy' ey' => ?_
  refine step_int64_within (-9007199254741392) 9007199254740992 (by omega) (by norm_num) fun shifted _ eshifted => ?_
  rw [eshifted, era_eq]
  refine step_int64_within (-22517998136853) 22517998136852 (by omega) (by norm_num) fun era hera eera => ?_
  refine step_int64_within (-9007199254741200) 9007199254740800 (by omega) (by norm_num) fun begin' _ ebegin => ?_
  have hyoe : 0 ≤ y' - begin' ∧ y' - begin' ≤ 399 := by
    rw [ebegin, eera]
    clear * -
    omega
  refine step_int64_within 0 399 hyoe (by norm_num) fun yoe hyoe eyoe => ?_
  refine step_int32_within 0 11 (by omega) (by norm_num) fun mp hmp emp => ?_
  refine step_int32_within 0 1683 (by omega) (by norm_num) fun v₁ _ e₁ => ?_
  refine step_int32_within 2 1685 (by omega) (by norm_num) fun v₂ _ e₂ => ?_
  refine step_quotient_within 0 337 (by omega) (by omega) (by norm_num) fun begun _ ebegun => ?_
  refine step_int32_within (-1000) 1337 (by omega) (by norm_num) fun v₃ _ e₃ => ?_
  refine step_int32_within (-1001) 1336 (by omega) (by norm_num) fun doy hdoy edoy => ?_
  refine step_int64_within 0 145635 (by omega) (by norm_num) fun v₄ _ e₄ => ?_
  refine step_quotient_within 0 99 (by omega) (by omega) (by norm_num) fun v₅ _ e₅ => ?_
  refine step_int64_within 0 145734 (by omega) (by norm_num) fun years _ eyears => ?_
  refine step_quotient_within 0 3 (by omega) (by omega) (by norm_num) fun v₆ _ e₆ => ?_
  refine step_int64_within (-3) 145734 (by omega) (by norm_num) fun v₇ _ e₇ => ?_
  refine step_int64_within (-1004) 147070 (by omega) (by norm_num) fun doe _ edoe => ?_
  refine step_int64_within (-3289811973799812741) 3289811973799666644 (by omega) (by norm_num) fun v₈ _ e₈ => ?_
  refine step_int64_within (-3289811973799813745) 3289811973799813714 (by omega) (by norm_num) fun v₉ _ e₉ => ?_
  rw [int64_eq (by omega) (by omega), Temporal.daysFromCivil, era_eq]
  rw [e₉, e₈, edoe, e₇, eyears, e₆, e₅, e₄, edoy, e₃, ebegun, e₂, e₁, emp, eyoe, ebegin, eera, ey']

theorem daysFromCivil_bounds {y m d : ℤ} (hy : -10000000 ≤ y ∧ y ≤ 10000000) (hm : 1 ≤ m ∧ m ≤ 12)
    (hd : 1 ≤ d ∧ d ≤ 31) :
    -3700000000 ≤ Temporal.daysFromCivil y m d ∧ Temporal.daysFromCivil y m d ≤ 3700000000 := by
  rw [Temporal.daysFromCivil, era_eq]
  constructor <;> split_ifs <;> omega

/-- And nothing for the days of such a year. -/
theorem civilFromDays_eq {z : ℤ} (hz : |z| ≤ 4611686018427387904) :
    civilFromDays z = some (Temporal.civilFromDays z) := by
  rw [abs_le] at hz
  rw [civilFromDays]
  refine step_int64_within (-4611686018426668436) 4611686018428107372 (by omega) (by norm_num) fun z' hz' ez' => ?_
  refine step_int64_within (-4611686018426814532) 4611686018428107372 (by omega) (by norm_num) fun shifted _ eshifted => ?_
  rw [eshifted, era_eq_days]
  refine step_int64_within (-31565918659704) 31565918659713 (by omega) (by norm_num) fun era hera eera => ?_
  refine step_int64_within (-4611686018426775288) 4611686018428090161 (by omega) (by norm_num) fun begin' _ ebegin => ?_
  have hdoe : 0 ≤ z' - begin' ∧ z' - begin' ≤ 146096 := by
    rw [ebegin, eera]
    clear * -
    omega
  refine step_int64_within 0 146096 hdoe (by norm_num) fun doe hdoe edoe => ?_
  refine step_quotient_within 0 100 (by omega) (by omega) (by norm_num) fun v₁ _ e₁ => ?_
  refine step_int64_within (-100) 146096 (by omega) (by norm_num) fun days₁ _ edays₁ => ?_
  refine step_quotient_within 0 4 (by omega) (by omega) (by norm_num) fun v₂ _ e₂ => ?_
  refine step_int64_within (-100) 146100 (by omega) (by norm_num) fun days₂ _ edays₂ => ?_
  refine step_quotient_within 0 1 (by omega) (by omega) (by norm_num) fun v₃ _ e₃ => ?_
  refine step_int64_within (-101) 146100 (by omega) (by norm_num) fun days₃ _ edays₃ => ?_
  -- the year of the era and the day of that year are in their ranges
  have hparts := yoe_bounds hdoe.1 hdoe.2 rfl
  have hnonneg : 0 ≤ days₃ := by
    rw [edays₃, edays₂, edays₁, e₁, e₂, e₃]
    clear * - hdoe
    omega
  have hquotient : (doe - doe / 1460 + doe / 36524 - doe / 146096) / 365 = days₃ / 365 := by
    rw [edays₃, edays₂, edays₁, e₁, e₂, e₃]
  rw [hquotient] at hparts
  refine step_quotient_within 0 399 hnonneg ⟨hparts.1, hparts.2.1⟩ (by norm_num) fun yoe hyoe eyoe => ?_
  rw [← eyoe] at hparts
  obtain ⟨-, -, hfirst, hlast⟩ := hparts
  have hlast : doe ≤ 365 * yoe + yoe / 4 - yoe / 100 + 365 := hlast.trans (by split_ifs <;> omega)
  refine step_int64_within 0 145635 (by omega) (by norm_num) fun v₄ _ e₄ => ?_
  refine step_quotient_within 0 99 (by omega) (by omega) (by norm_num) fun v₅ _ e₅ => ?_
  refine step_int64_within 0 145734 (by omega) (by norm_num) fun years _ eyears => ?_
  refine step_quotient_within 0 3 (by omega) (by omega) (by norm_num) fun v₆ _ e₆ => ?_
  have hyears : years - v₆ = 365 * yoe + yoe / 4 - yoe / 100 := by rw [eyears, e₄, e₅, e₆]
  rw [← hyears] at hfirst hlast
  refine step_int64_within (-3) 145734 (by omega) (by norm_num) fun v₇ _ e₇ => ?_
  have hdoy : 0 ≤ doe - v₇ ∧ doe - v₇ ≤ 365 := by
    rw [e₇]
    exact ⟨sub_nonneg.mpr hfirst, sub_le_iff_le_add'.mpr hlast⟩
  clear hfirst hlast hyears
  refine step_int64_within 0 365 hdoy (by norm_num) fun doy hdoy' edoy => ?_
  clear hdoy
  refine step_int64_within 0 1825 (by omega) (by norm_num) fun v₈ _ e₈ => ?_
  refine step_int64_within 2 1827 (by omega) (by norm_num) fun v₉ _ e₉ => ?_
  refine step_quotient_within 0 11 (by omega) (by omega) (by norm_num) fun mp hmp emp => ?_
  refine step_int64_within 1 12 (by omega) (by norm_num) fun m hm em => ?_
  refine step_int32_within 1 12 hm (by norm_num) fun m' hm' em' => ?_
  refine step_int64_within (-12626367463881600) 12626367463885200 (by omega) (by norm_num) fun v₁₀ _ e₁₀ => ?_
  refine step_int64_within (-12626367463881600) 12626367463885599 (by omega) (by norm_num) fun v₁₁ _ e₁₁ => ?_
  refine step_int64_within (-12626367463881600) 12626367463885600 (by omega) (by norm_num) fun year _ eyear => ?_
  refine step_int64_within 0 1683 (by omega) (by norm_num) fun v₁₂ _ e₁₂ => ?_
  refine step_int64_within 2 1685 (by omega) (by norm_num) fun v₁₃ _ e₁₃ => ?_
  refine step_quotient_within 0 337 (by omega) (by omega) (by norm_num) fun begun _ ebegun => ?_
  refine step_int64_within (-337) 365 (by omega) (by norm_num) fun v₁₄ _ e₁₄ => ?_
  refine step_int64_within (-336) 366 (by omega) (by norm_num) fun d hd ed => ?_
  refine step_int32_within (-336) 366 hd (by norm_num) fun d' _ ed' => ?_
  rw [Temporal.civilFromDays, era_eq_days]
  rw [ed', ed, e₁₄, ebegun, e₁₃, e₁₂, eyear, e₁₁, e₁₀, em', em, emp, e₉, e₈, edoy, e₇, eyears, e₆, e₅, e₄, eyoe,
    edays₃, e₃, edays₂, e₂, edays₁, e₁, edoe, ebegin, eera, ez']
  rfl

/-- The years far around the limits of the calendar. -/
def NearDate (date : IsoDate) : Prop :=
  |date.year| ≤ 9999999 ∧ 1 ≤ date.month ∧ date.month ≤ 12 ∧ 1 ≤ date.day ∧ date.day ≤ 31

theorem fits_64 {x : ℤ} (h : |x| ≤ 4000000000000000000) : Fits 64 x := by
  rw [abs_le] at h
  exact ⟨by norm_num; omega, by norm_num; omega⟩

theorem fits_128 {x : ℤ} (h : |x| ≤ 100000000000000000000000000000000000000) : Fits 128 x := by
  rw [abs_le] at h
  exact ⟨by norm_num; omega, by norm_num; omega⟩

theorem epochDays_eq {date : IsoDate} (h : NearDate date) :
    epochDays date = some (Temporal.epochDays date) := by
  obtain ⟨hyear, hmonth, hmonth', hday, hday'⟩ := h
  rw [abs_le] at hyear
  have hzero : (date.month - 1) / 12 = 0 := by omega
  rw [epochDays, Temporal.epochDays, Temporal.isoDateToEpochDays]
  refine step_int32 (by omega) (by omega) fun m hm => ?_
  rw [← hm] at hzero ⊢
  rw [isoDateToEpochDays]
  refine step (floorDiv_eq (by norm_num) (fits_64 (abs_le.mpr (by omega)))) ?_
  refine step_int64 (by omega) (by omega) fun y hy => ?_
  refine step (floorMod_eq (by norm_num) (fits_64 (abs_le.mpr (by omega)))
    (fits_64 (abs_le.mpr (by omega))) (fits_64 (by norm_num))) ?_
  refine step_int32 (by omega) (by omega) fun _ _ => ?_
  refine step_int32 (by omega) (by omega) fun m' hm' => ?_
  have hbounds := daysFromCivil_bounds (y := y) (m := m') (d := 1) (by omega) (by omega) (by omega)
  refine step (daysFromCivil_eq (abs_le.mpr (by omega)) (by omega) (by omega) (by norm_num)) ?_
  refine step_int64 (by omega) (by omega) fun _ _ => ?_
  rw [int64_eq (by omega) (by omega), Option.some.injEq, ← hy]
  have hm'' : m % 12 + 1 = m' := by omega
  rw [hm'']
  omega

theorem epochDays_bounds {date : IsoDate} (h : NearDate date) :
    -3700000000 ≤ Temporal.epochDays date ∧ Temporal.epochDays date ≤ 3700000000 := by
  obtain ⟨hyear, hmonth, hmonth', hday, hday'⟩ := h
  rw [abs_le] at hyear
  have hzero : (date.month - 1) / 12 = 0 := by omega
  have hmonth'' : (date.month - 1) % 12 + 1 = date.month := by omega
  rw [Temporal.epochDays, Temporal.isoDateToEpochDays, hzero, hmonth'', add_zero]
  have hfirst := @daysFromCivil_bounds date.year date.month date.day (by omega) (by omega) (by omega)
  have hday : Temporal.daysFromCivil date.year date.month 1 + date.day - 1 =
      Temporal.daysFromCivil date.year date.month date.day := by
    rw [Temporal.daysFromCivil, Temporal.daysFromCivil]
    ring
  rwa [hday]

theorem addDaysToIsoDate_eq {date : IsoDate} {days : ℤ} (h : NearDate date)
    (hdays : |Temporal.epochDays date + days| ≤ 4000000000) :
    addDaysToIsoDate date days = some (Temporal.addDaysToIsoDate date days) := by
  rw [addDaysToIsoDate]
  refine step (epochDays_eq h) ?_
  have hbounds := abs_le.mp hdays
  refine step_int64 (by omega) (by omega) fun z hz => ?_
  rw [← hz] at hdays
  rw [Temporal.addDaysToIsoDate, ← hz]
  exact civilFromDays_eq (hdays.trans (by norm_num))

theorem absOf_int64 {v : ℤ} (hlow : -4000000000 ≤ v) (hhigh : v ≤ 4000000000) :
    absOf int64 v = some |v| := by
  rw [absOf]
  split_ifs with h
  · rw [int64_eq (by omega) (by omega), abs_of_neg h]
  · exact congrArg some (abs_of_nonneg (not_lt.mp h)).symm

theorem checkIsoDaysRange_eq {date : IsoDate} (h : NearDate date) :
    checkIsoDaysRange date = some (Temporal.checkIsoDaysRange date) := by
  obtain ⟨hlow, hhigh⟩ := epochDays_bounds h
  rw [checkIsoDaysRange]
  refine step (epochDays_eq h) ?_
  exact step (absOf_int64 (by omega) (by omega)) rfl

/-! ## Times -/

theorem floorDiv_128 {a b : ℤ} (hb : 0 < b) (ha : |a| ≤ 100000000000000000000000000000000000000) :
    floorDiv 128 a b = some (a / b) :=
  floorDiv_eq hb (fits_128 ha)

theorem floorMod_128 {a b : ℤ} (hb : 0 < b) (hb' : b ≤ 1000000000000000)
    (ha : |a| ≤ 10000000000000000000000000000000000000) : floorMod 128 a b = some (a % b) := by
  rw [abs_le] at ha
  exact floorMod_eq hb (fits_128 (abs_le.mpr (by omega))) (fits_128 (abs_le.mpr (by omega)))
    (fits_128 (abs_le.mpr (by omega)))

theorem step_carry {β : Type} {rest : ℤ → Option β} {value : β} {a b : ℤ} (hb : 0 < b)
    (ha : |a| ≤ 100000000000000000000000000000000000000) (h : ∀ v, v = a / b → rest v = some value) :
    floorDiv 128 a b >>= rest = some value :=
  step (floorDiv_128 hb ha) (h _ rfl)

theorem step_carry_within {β : Type} {rest : ℤ → Option β} {value : β} {a b : ℤ} (lo hi : ℤ) (hb : 0 < b)
    (ha : |a| ≤ 100000000000000000000000000000000000000) (hx : lo ≤ a / b ∧ a / b ≤ hi)
    (h : ∀ v, lo ≤ v ∧ v ≤ hi → Named v (a / b) → rest v = some value) : floorDiv 128 a b >>= rest = some value :=
  step (floorDiv_128 hb ha) (h _ hx rfl)

theorem step_kept_within {β : Type} {rest : ℤ → Option β} {value : β} {a b : ℤ} (hb : 0 < b)
    (hb' : b ≤ 1000000000000000) (ha : |a| ≤ 10000000000000000000000000000000000000)
    (h : ∀ v, 0 ≤ v ∧ v ≤ b - 1 → Named v (a % b) → rest v = some value) : floorMod 128 a b >>= rest = some value :=
  step (floorMod_128 hb hb' ha)
    (h _ ⟨Int.emod_nonneg a hb.ne', Int.le_sub_one_of_lt (Int.emod_lt_of_pos a hb)⟩ rfl)

theorem balanceTime_eq {hour minute second millisecond microsecond nanosecond : ℤ}
    (hhour : |hour| ≤ 100000000000000000) (hminute : |minute| ≤ 100000000000000000)
    (hsecond : |second| ≤ 100000000000000000) (hmillisecond : |millisecond| ≤ 100000000000000000)
    (hmicrosecond : |microsecond| ≤ 100000000000000000)
    (hnanosecond : |nanosecond| ≤ 10000000000000000000000000) :
    balanceTime hour minute second millisecond microsecond nanosecond =
      some (Temporal.balanceTime hour minute second millisecond microsecond nanosecond) := by
  rw [abs_le] at hhour hminute hsecond hmillisecond hmicrosecond hnanosecond
  rw [balanceTime]
  -- each field with what is carried into it
  refine step_carry_within (-10000000000000000000000) 10000000000000000000000 (by norm_num)
    (abs_le.mpr (by omega)) (by omega) fun q₁ _ eq₁ => ?_
  refine step_int128_within (-10000100000000000000000) 10000100000000000000000 (by omega) (by norm_num)
    fun micro _ emicro => ?_
  refine step_kept_within (by norm_num) (by norm_num) (abs_le.mpr (by omega)) fun ns hns ens => ?_
  clear hnanosecond hmicrosecond
  refine step_carry_within (-10000100000000000000) 10000100000000000000 (by norm_num)
    (abs_le.mpr (by omega)) (by omega) fun q₂ _ eq₂ => ?_
  refine step_int128_within (-10100100000000000000) 10100100000000000000 (by omega) (by norm_num)
    fun milli _ emilli => ?_
  refine step_kept_within (by norm_num) (by norm_num) (abs_le.mpr (by omega)) fun us hus eus => ?_
  clear hmillisecond
  refine step_carry_within (-10100100000000000) 10100100000000000 (by norm_num)
    (abs_le.mpr (by omega)) (by omega) fun q₃ _ eq₃ => ?_
  refine step_int128_within (-110100100000000000) 110100100000000000 (by omega) (by norm_num)
    fun sec _ esec => ?_
  refine step_kept_within (by norm_num) (by norm_num) (abs_le.mpr (by omega)) fun ms hms ems => ?_
  clear hsecond
  refine step_carry_within (-1835001666666667) 1835001666666667 (by norm_num)
    (abs_le.mpr (by omega)) (by omega) fun q₄ _ eq₄ => ?_
  refine step_int128_within (-101835001666666667) 101835001666666667 (by omega) (by norm_num)
    fun min _ emin => ?_
  refine step_kept_within (by norm_num) (by norm_num) (abs_le.mpr (by omega)) fun s hs es => ?_
  clear hminute
  refine step_carry_within (-1697250027777778) 1697250027777778 (by norm_num)
    (abs_le.mpr (by omega)) (by omega) fun q₅ _ eq₅ => ?_
  refine step_int128_within (-101697250027777778) 101697250027777778 (by omega) (by norm_num)
    fun hr _ ehr => ?_
  refine step_kept_within (by norm_num) (by norm_num) (abs_le.mpr (by omega)) fun m hm em => ?_
  clear hhour
  refine step_carry_within (-4237385417824075) 4237385417824075 (by norm_num)
    (abs_le.mpr (by omega)) (by omega) fun days hdays edays => ?_
  refine step_kept_within (by norm_num) (by norm_num) (abs_le.mpr (by omega)) fun h hh eh => ?_
  refine step_int64_within _ _ hdays (by norm_num) fun days' _ edays' => ?_
  refine step_int32_within _ _ hh (by norm_num) fun h' _ eh' => ?_
  refine step_int32_within _ _ hm (by norm_num) fun m' _ em' => ?_
  refine step_int32_within _ _ hs (by norm_num) fun s' _ es' => ?_
  refine step_int32_within _ _ hms (by norm_num) fun ms' _ ems' => ?_
  refine step_int32_within _ _ hus (by norm_num) fun us' _ eus' => ?_
  refine step_int32_within _ _ hns (by norm_num) fun ns' _ ens' => ?_
  rw [ens', eus', ems', es', em', eh', edays', eh, edays, em, ehr, eq₅, es, emin, eq₄, ems, esec, eq₃, eus, emilli, eq₂,
    ens, emicro, eq₁]
  rfl

theorem timeNanoseconds_eq {t : TimeRecord} (h : isValidTime t = true) :
    timeNanoseconds t = some (Temporal.timeNanoseconds t) := by
  rw [isValidTime, decide_eq_true_eq] at h
  rw [timeNanoseconds, Temporal.timeNanoseconds]
  refine step_int128 (by omega) (by omega) fun _ _ => ?_
  refine step_int128 (by omega) (by omega) fun _ _ => ?_
  refine step_int128 (by omega) (by omega) fun _ _ => ?_
  refine step_int128 (by omega) (by omega) fun _ _ => ?_
  refine step_int128 (by omega) (by omega) fun _ _ => ?_
  refine step_int128 (by omega) (by omega) fun _ _ => ?_
  refine step_int128 (by omega) (by omega) fun _ _ => ?_
  refine step_int128 (by omega) (by omega) fun _ _ => ?_
  refine step_int128 (by omega) (by omega) fun _ _ => ?_
  rw [int128_eq (by omega) (by omega), Option.some.injEq]
  omega

/-! ## Exact times -/

theorem timeNanoseconds_bounds {t : TimeRecord} (h : isValidTime t = true) :
    0 ≤ Temporal.timeNanoseconds t ∧ Temporal.timeNanoseconds t < nsPerDay := by
  rw [isValidTime, decide_eq_true_eq] at h
  rw [Temporal.timeNanoseconds, nsPerDay]
  omega

theorem getUtcEpochNanoseconds_eq {dt : IsoDatetime} (hdate : NearDate dt.date)
    (htime : isValidTime dt.time = true) :
    getUtcEpochNanoseconds dt = some (Temporal.getUtcEpochNanoseconds dt) := by
  obtain ⟨hlow, hhigh⟩ := epochDays_bounds hdate
  obtain ⟨hlow', hhigh'⟩ := timeNanoseconds_bounds htime
  rw [nsPerDay] at hhigh'
  rw [getUtcEpochNanoseconds, Temporal.getUtcEpochNanoseconds, nsPerDay]
  refine step (epochDays_eq hdate) ?_
  refine step_int128 (by omega) (by omega) fun _ _ => ?_
  refine step (timeNanoseconds_eq htime) ?_
  rw [int128_eq (by omega) (by omega), Option.some.injEq]
  omega

theorem isoDatetimeWithinLimits_eq {dt : IsoDatetime} (hdate : NearDate dt.date)
    (htime : isValidTime dt.time = true) :
    isoDatetimeWithinLimits dt = some (Temporal.isoDatetimeWithinLimits dt) := by
  obtain ⟨hlow, hhigh⟩ := epochDays_bounds hdate
  rw [isoDatetimeWithinLimits, Temporal.isoDatetimeWithinLimits]
  refine step (epochDays_eq hdate) ?_
  refine step (absOf_int64 (by omega) (by omega)) ?_
  split_ifs with h
  · exact congrArg some (decide_eq_false fun hall => absurd hall.1 (not_le.mpr h)).symm
  · refine step (getUtcEpochNanoseconds_eq hdate htime) (congrArg some ?_)
    exact decide_eq_decide.mpr (and_iff_right (not_lt.mp h)).symm

theorem isoDateWithinLimits_eq {date : IsoDate} (h : NearDate date) :
    isoDateWithinLimits date = some (Temporal.isoDateWithinLimits date) :=
  @isoDatetimeWithinLimits_eq ⟨date, noon⟩ h rfl

theorem isoPartsFromEpoch_eq {ns : ℤ} (h : |ns| ≤ nsMaxInstant) :
    isoPartsFromEpoch ns = some (Temporal.isoPartsFromEpoch ns) := by
  rw [nsMaxInstant, nsPerDay, abs_le] at h
  rw [isoPartsFromEpoch, Temporal.isoPartsFromEpoch, nsPerDay]
  refine step_carry (by norm_num) (abs_le.mpr (by omega)) fun days hdays => ?_
  refine step_int128 (by omega) (by omega) fun whole hwhole => ?_
  refine step_int128 (by omega) (by omega) fun rest hrest => ?_
  refine step (balanceTime_eq (by norm_num) (by norm_num) (by norm_num) (by norm_num) (by norm_num)
    (abs_le.mpr (by omega))) ?_
  refine step_int64 (by omega) (by omega) fun days' hdays' => ?_
  refine step (civilFromDays_eq (z := days') (abs_le.mpr (by omega))) ?_
  rw [hdays', hdays, hrest, hwhole, hdays]
  rfl

/-- Dates near enough stay near when a time is balanced into them. -/
theorem balanceIsoDatetime_eq {year month day hour minute second millisecond microsecond
    nanosecond : ℤ} (hdate : NearDate ⟨year, month, day⟩)
    (hdays : |Temporal.epochDays ⟨year, month, day⟩| ≤ 1000000000)
    (hhour : |hour| ≤ 1000000) (hminute : |minute| ≤ 1000000)
    (hsecond : |second| ≤ 1000000) (hmillisecond : |millisecond| ≤ 1000000)
    (hmicrosecond : |microsecond| ≤ 1000000)
    (hnanosecond : |nanosecond| ≤ 1000000000000000000) :
    balanceIsoDatetime year month day hour minute second millisecond microsecond nanosecond =
      some (Temporal.balanceIsoDatetime year month day hour minute second millisecond microsecond
        nanosecond) := by
  rw [balanceIsoDatetime, Temporal.balanceIsoDatetime]
  refine step (balanceTime_eq (hhour.trans (by norm_num)) (hminute.trans (by norm_num))
    (hsecond.trans (by norm_num)) (hmillisecond.trans (by norm_num))
    (hmicrosecond.trans (by norm_num)) (hnanosecond.trans (by norm_num))) ?_
  refine step (addDaysToIsoDate_eq hdate ?_) rfl
  rw [abs_le] at *
  simp only [Temporal.balanceTime]
  omega

end CtBrowser.Script.Temporal.Checked
