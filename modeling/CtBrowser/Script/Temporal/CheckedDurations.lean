import CtBrowser.Script.Temporal.DateDifference
import CtBrowser.Script.Temporal.DurationRoundTrip

/-!
# Durations on Fixed Widths

Internal durations, which are a duration of dates and nanoseconds, the durations of ten fields they
are written as, and the validity of the latter, with the integer types of the source.

## Main definitions

- `InternalDuration` — a duration of dates, and a time in nanoseconds.
- `temporalDurationFromInternal`, `toInternalDuration` — the ten fields, and back.

## Main results

- `temporalDurationFromInternal_spec` — less than a day of time comes back exactly.
- `createDateDuration_eq` — counts of one sign are a valid duration.
-/

namespace CtBrowser.Script.Temporal

open Foundations.FixedWidth

structure InternalDuration where
  date : DateDuration := {}
  time : ℤ := 0
deriving DecidableEq, Repr

/-- The larger of two units. -/
def largerUnit (a b : DurationUnit) : DurationUnit := if a.ctorIdx < b.ctorIdx then a else b

def isDateUnit (u : DurationUnit) : Bool := u.ctorIdx ≤ DurationUnit.day.ctorIdx

def timeDurationSign (d : ℤ) : ℤ := if d < 0 then -1 else if 0 < d then 1 else 0

def dateDurationSign (d : DateDuration) : ℤ := signOf [d.years, d.months, d.weeks, d.days]

namespace Checked

/-! ## Validity -/

def timeDurationFromComponents (hours minutes seconds milliseconds microseconds nanoseconds : ℤ) :
    Option ℤ := do
  let sum ← int128 ((← int128 ((← int128 hours) * 3600000000000)) +
    (← int128 ((← int128 minutes) * 60000000000)))
  let sum ← int128 (sum + (← int128 ((← int128 seconds) * 1000000000)))
  let sum ← int128 (sum + (← int128 ((← int128 milliseconds) * 1000000)))
  let sum ← int128 (sum + (← int128 ((← int128 microseconds) * 1000)))
  int128 (sum + (← int128 nanoseconds))

/-- The limits of the fields are looked at before any is converted. -/
def isValidDuration (d : DurationRecord) : Option Bool :=
  if signsAgree 0 d.fields = false then pure false
  else if 2 ^ 32 ≤ |d.years| ∨ 2 ^ 32 ≤ |d.months| ∨ 2 ^ 32 ≤ |d.weeks| then pure false
  else if (d.timeFields.zip timeFieldLimits).any fun x => x.2 < |x.1| then pure false
  else do
    let days ← int128 ((← int128 d.days) * nsPerDay)
    let time ← timeDurationFromComponents d.hours d.minutes d.seconds d.milliseconds
      d.microseconds d.nanoseconds
    let total ← absOf int128 (← int128 (days + time))
    pure (total ≤ maxTimeDuration)

def createDateDuration (years months weeks days : ℤ) : Option (Option DateDuration) := do
  let valid ← isValidDuration { years, months, weeks, days }
  pure (if valid then some { years, months, weeks, days } else none)

/-! ## The ten fields -/

/-- The whole larger units of a number and what is left, if units that large are allowed. -/
def carried (allowed : Bool) (n per : ℤ) : ℤ × ℤ :=
  if allowed then (n.tdiv per, n.tmod per) else (0, n)

/-- Nanoseconds in units up to the largest. -/
def balancedFields (largest : DurationUnit) (nanoseconds : ℤ) : DurationRecord :=
  let upTo (u : DurationUnit) : Bool := largest.ctorIdx ≤ u.ctorIdx
  let (microseconds, nanoseconds) := carried (upTo .microsecond) nanoseconds 1000
  let (milliseconds, microseconds) := carried (upTo .millisecond) microseconds 1000
  let (seconds, milliseconds) := carried (upTo .second) milliseconds 1000
  let (minutes, seconds) := carried (upTo .minute) seconds 60
  let (hours, minutes) := carried (upTo .hour) minutes 60
  let (days, hours) := carried (upTo .day) hours 24
  { days, hours, minutes, seconds, milliseconds, microseconds, nanoseconds }

/-- A field of the sign of the duration. -/
def signedField (sign v : ℤ) : Option ℤ := do double (← int128 (sign * v))

/-- The duration of ten fields that an internal one is, with the time in units up to the largest. -/
def temporalDurationFromInternal (d : InternalDuration) (largest : DurationUnit) :
    Option (Option DurationRecord) := do
  let sign := timeDurationSign d.time
  let time := balancedFields largest (← absOf int128 d.time)
  let days ← int128 ((← int128 d.date.days) + (← int128 (sign * time.days)))
  let result : DurationRecord := {
    years := d.date.years, months := d.date.months, weeks := d.date.weeks, days := ← double days,
    hours := ← signedField sign time.hours, minutes := ← signedField sign time.minutes,
    seconds := ← signedField sign time.seconds,
    milliseconds := ← signedField sign time.milliseconds,
    microseconds := ← signedField sign time.microseconds,
    nanoseconds := ← signedField sign time.nanoseconds }
  let valid ← isValidDuration result
  pure (if valid then some result else none)

def toInternalDuration (d : DurationRecord) : Option InternalDuration := do
  let time ← timeDurationFromComponents d.hours d.minutes d.seconds d.milliseconds d.microseconds
    d.nanoseconds
  pure { date := ⟨d.years, d.months, d.weeks, d.days⟩, time }

/-- With the days as 24 hours each. -/
def toInternalDuration24hDays (d : DurationRecord) : Option InternalDuration := do
  let time ← timeDurationFromComponents d.hours d.minutes d.seconds d.milliseconds d.microseconds
    d.nanoseconds
  let time ← int128 (time + (← int128 ((← int128 d.days) * nsPerDay)))
  pure { date := ⟨d.years, d.months, d.weeks, 0⟩, time }

/-! ## Exactness -/

theorem absOf_int128 {v : ℤ} (h : |v| ≤ 100000000000000000000000000000000000000) :
    absOf int128 v = some |v| := by
  rw [absOf]
  have hbounds := abs_le.mp h
  split_ifs with hneg
  · rw [int128_eq (by omega) (by omega), abs_of_neg hneg]
  · exact congrArg some (abs_of_nonneg (not_lt.mp hneg)).symm

/-- The fields of a time are those of less than a day. -/
structure TimeFields (d : DurationRecord) : Prop where
  hours : |d.hours| ≤ 23
  minutes : |d.minutes| ≤ 59
  seconds : |d.seconds| ≤ 59
  milliseconds : |d.milliseconds| ≤ 999
  microseconds : |d.microseconds| ≤ 999
  nanoseconds : |d.nanoseconds| ≤ 999

variable {d : DurationRecord}

theorem timeDurationFromComponents_eq (h : TimeFields d) :
    timeDurationFromComponents d.hours d.minutes d.seconds d.milliseconds d.microseconds
      d.nanoseconds = some (Temporal.timeDurationFromComponents d.hours d.minutes d.seconds
        d.milliseconds d.microseconds d.nanoseconds) := by
  have hh := abs_le.mp h.hours
  have hm := abs_le.mp h.minutes
  have hs := abs_le.mp h.seconds
  have hms := abs_le.mp h.milliseconds
  have hus := abs_le.mp h.microseconds
  have hns := abs_le.mp h.nanoseconds
  rw [timeDurationFromComponents, Temporal.timeDurationFromComponents]
  refine step (int128_eq (by omega) (by omega)) ?_
  refine step_int128 (by omega) (by omega) fun _ _ => ?_
  refine step (int128_eq (by omega) (by omega)) ?_
  refine step_int128 (by omega) (by omega) fun _ _ => ?_
  refine step_int128 (by omega) (by omega) fun _ _ => ?_
  refine step (int128_eq (by omega) (by omega)) ?_
  refine step_int128 (by omega) (by omega) fun _ _ => ?_
  refine step_int128 (by omega) (by omega) fun _ _ => ?_
  refine step (int128_eq (by omega) (by omega)) ?_
  refine step_int128 (by omega) (by omega) fun _ _ => ?_
  refine step_int128 (by omega) (by omega) fun _ _ => ?_
  refine step (int128_eq (by omega) (by omega)) ?_
  refine step_int128 (by omega) (by omega) fun _ _ => ?_
  refine step_int128 (by omega) (by omega) fun _ _ => ?_
  refine step (int128_eq (by omega) (by omega)) ?_
  rw [int128_eq (by omega) (by omega), Option.some.injEq]
  omega

theorem timeDurationFromComponents_bounds (h : TimeFields d) :
    |Temporal.timeDurationFromComponents d.hours d.minutes d.seconds d.milliseconds d.microseconds
      d.nanoseconds| < nsPerDay := by
  have hh := abs_le.mp h.hours
  have hm := abs_le.mp h.minutes
  have hs := abs_le.mp h.seconds
  have hms := abs_le.mp h.milliseconds
  have hus := abs_le.mp h.microseconds
  have hns := abs_le.mp h.nanoseconds
  rw [Temporal.timeDurationFromComponents, nsPerDay, abs_lt]
  omega

theorem isValidDuration_eq (h : TimeFields d) :
    isValidDuration d = some (Temporal.isValidDuration d) := by
  have hbounds := abs_lt.mp (timeDurationFromComponents_bounds h)
  rw [isValidDuration, Temporal.isValidDuration]
  split_ifs with hsigns hlarge hover
  · rfl
  · rfl
  · rfl
  · have hday : |d.days| ≤ 105000000000 := by
      simp only [DurationRecord.timeFields, timeFieldLimits, List.zip_cons_cons, List.any_cons,
        Bool.or_eq_true, decide_eq_true_eq, not_or, not_lt] at hover
      exact hover.1
    rw [abs_le] at hday
    rw [nsPerDay] at hbounds ⊢
    refine step (int128_eq (by omega) (by omega)) ?_
    refine step_int128 (by omega) (by omega) fun days hdays => ?_
    refine step (timeDurationFromComponents_eq h) ?_
    refine step_int128 (by omega) (by omega) fun total htotal => ?_
    refine step (absOf_int128 (abs_le.mpr (by omega))) ?_
    rw [htotal, hdays]
    rfl

/-- Numbers of one sign. -/
def OneSign (vs : List ℤ) : Prop := (∀ v ∈ vs, 0 ≤ v) ∨ ∀ v ∈ vs, v ≤ 0

theorem isValidDuration_of_moderate (htime : TimeFields d)
    (hdate : Moderate ⟨d.years, d.months, d.weeks, d.days⟩) (hsign : OneSign d.fields) :
    isValidDuration d = some true := by
  obtain ⟨hyears, hmonths, hweeks, hdays⟩ := hdate
  have htotal := timeDurationFromComponents_bounds htime
  rw [isValidDuration_eq htime, Option.some.injEq, isValidDuration_iff]
  refine ⟨hsign, ⟨hyears.trans_lt (by norm_num), hmonths.trans_lt (by norm_num),
    hweeks.trans_lt (by norm_num)⟩, ⟨hdays.trans (by norm_num), htime.hours.trans (by norm_num),
    htime.minutes.trans (by norm_num), htime.seconds.trans (by norm_num),
    htime.milliseconds.trans (by norm_num), htime.microseconds.trans (by norm_num),
    htime.nanoseconds.trans (by norm_num)⟩, ?_⟩
  rw [timeTotal, maxTimeDuration]
  rw [nsPerDay] at htotal ⊢
  rw [abs_lt] at htotal
  rw [abs_le] at hdays ⊢
  dsimp only at hdays
  omega

theorem createDateDuration_eq {d : DateDuration} (hd : Moderate d)
    (hsign : OneSign [d.years, d.months, d.weeks, d.days]) :
    createDateDuration d.years d.months d.weeks d.days = some (some d) := by
  have hfields : OneSign
      (DurationRecord.fields { years := d.years, months := d.months, weeks := d.weeks, days := d.days }) := by
    simp only [OneSign, DurationRecord.fields, List.forall_mem_cons, List.not_mem_nil,
      IsEmpty.forall_iff, implies_true, and_true] at hsign ⊢
    omega
  rw [createDateDuration]
  exact step (isValidDuration_of_moderate (by constructor <;> norm_num) hd hfields) rfl

/-! ## Internal durations -/

theorem carried_of_nonneg {n : ℤ} (hn : 0 ≤ n) (per : ℤ) : carried true n per = (n / per, n % per) := by
  rw [carried, if_pos rfl, Int.tdiv_eq_ediv_of_nonneg hn, Int.tmod_eq_emod_of_nonneg hn]

/-- Less than a day is no day, less than 24 hours, and so on. -/
theorem balancedFields_spec {largest : DurationUnit} {n : ℤ}
    (hlargest : largest.ctorIdx ≤ DurationUnit.hour.ctorIdx) (hn : 0 ≤ n) (hday : n < nsPerDay) :
    balancedFields largest n = {
      hours := n / 3600000000000, minutes := n / 60000000000 % 60, seconds := n / 1000000000 % 60,
      milliseconds := n / 1000000 % 1000, microseconds := n / 1000 % 1000,
      nanoseconds := n % 1000 } := by
  have hunit : ∀ u : DurationUnit, DurationUnit.hour.ctorIdx ≤ u.ctorIdx →
      decide (largest.ctorIdx ≤ u.ctorIdx) = true := fun u hu => decide_eq_true (hlargest.trans hu)
  rw [nsPerDay] at hday
  have hlast : carried (decide (largest.ctorIdx ≤ DurationUnit.day.ctorIdx))
      (n / 1000 / 1000 / 1000 / 60 / 60) 24 = (0, n / 1000 / 1000 / 1000 / 60 / 60) := by
    by_cases h : largest.ctorIdx ≤ DurationUnit.day.ctorIdx
    · rw [decide_eq_true h, carried_of_nonneg (by omega), Prod.mk.injEq]
      omega
    · rw [decide_eq_false h]
      rfl
  have hseconds : n / 1000 / 1000 = n / 1000000 := Int.ediv_ediv_of_nonneg (by norm_num)
  have hminutes : n / 1000000 / 1000 = n / 1000000000 := Int.ediv_ediv_of_nonneg (by norm_num)
  have hhours : n / 1000000000 / 60 = n / 60000000000 := Int.ediv_ediv_of_nonneg (by norm_num)
  have hdays : n / 60000000000 / 60 = n / 3600000000000 := Int.ediv_ediv_of_nonneg (by norm_num)
  rw [hseconds, hminutes, hhours, hdays] at hlast
  rw [balancedFields]
  dsimp only
  rw [hunit .microsecond (by decide), carried_of_nonneg hn]
  dsimp only
  rw [hunit .millisecond (by decide), carried_of_nonneg (Int.ediv_nonneg hn (by norm_num)), hseconds]
  dsimp only
  rw [hunit .second (by decide), carried_of_nonneg (Int.ediv_nonneg hn (by norm_num)), hminutes]
  dsimp only
  rw [hunit .minute (by decide), carried_of_nonneg (Int.ediv_nonneg hn (by norm_num)), hhours]
  dsimp only
  rw [hunit .hour (by decide), carried_of_nonneg (Int.ediv_nonneg hn (by norm_num)), hdays]
  dsimp only
  rw [hlast]

theorem signedField_eq {s v : ℤ} (hs : s = 1 ∨ s = 0 ∨ s = -1) (hv : 0 ≤ v) (hv' : v ≤ 999) :
    signedField s v = some (s * v) := by
  have hproduct : -999 ≤ s * v ∧ s * v ≤ 999 := by
    rcases hs with rfl | rfl | rfl <;> omega
  rw [signedField]
  exact step (int128_eq (by omega) (by omega)) (double_eq (by omega) (by omega))

theorem timeDurationSign_mul_abs (x : ℤ) : timeDurationSign x * |x| = x ∧
    (timeDurationSign x = 1 ∨ timeDurationSign x = 0 ∨ timeDurationSign x = -1) := by
  rw [timeDurationSign]
  split_ifs with hneg hpos
  · rw [abs_of_neg hneg]
    omega
  · rw [abs_of_pos hpos]
    omega
  · have hzero : x = 0 := by omega
    rw [hzero]
    decide

theorem timeDurationSign_nonneg {x : ℤ} (h : 0 ≤ x) : 0 ≤ timeDurationSign x := by
  rw [timeDurationSign, if_neg h.not_gt]
  split_ifs <;> decide

theorem timeDurationSign_nonpos {x : ℤ} (h : x ≤ 0) : timeDurationSign x ≤ 0 := by
  rw [timeDurationSign, if_neg h.not_gt]
  split_ifs <;> decide

theorem abs_signed_le {s v bound : ℤ} (hs : s = 1 ∨ s = 0 ∨ s = -1) (hv : 0 ≤ v) (hbound : v ≤ bound) :
    |s * v| ≤ bound := by
  rcases hs with rfl | rfl | rfl
  · rwa [one_mul, abs_of_nonneg hv]
  · rw [zero_mul, abs_zero]
    exact hv.trans hbound
  · rwa [neg_one_mul, abs_neg, abs_of_nonneg hv]

theorem OneSign.append_signed {time : ℤ} (vs parts : List ℤ) (h : OneSign (vs ++ [time]))
    (hparts : ∀ v ∈ parts, 0 ≤ v) : OneSign (vs ++ parts.map (timeDurationSign time * ·)) := by
  have hlast : time ∈ vs ++ [time] := List.mem_append_right _ (List.mem_singleton.mpr rfl)
  refine h.imp (fun h v hv => ?_) fun h v hv => ?_
  all_goals rcases List.mem_append.mp hv with hv | hv
  · exact h v (List.mem_append_left _ hv)
  · obtain ⟨part, hpart, rfl⟩ := List.mem_map.mp hv
    exact mul_nonneg (timeDurationSign_nonneg (h time hlast)) (hparts part hpart)
  · exact h v (List.mem_append_left _ hv)
  · obtain ⟨part, hpart, rfl⟩ := List.mem_map.mp hv
    exact mul_nonpos_of_nonpos_of_nonneg (timeDurationSign_nonpos (h time hlast)) (hparts part hpart)

/-- A time of less than a day comes back from the ten fields, if hours are allowed. -/
theorem temporalDurationFromInternal_spec {i : InternalDuration} {largest : DurationUnit}
    (hlargest : largest.ctorIdx ≤ DurationUnit.hour.ctorIdx) (hd : Moderate i.date)
    (htime : |i.time| < nsPerDay)
    (hsign : OneSign [i.date.years, i.date.months, i.date.weeks, i.date.days, i.time]) :
    ∃ d, temporalDurationFromInternal i largest = some (some d) ∧ TimeFields d ∧
      (⟨d.years, d.months, d.weeks, d.days⟩ : DateDuration) = i.date ∧
      Temporal.timeDurationFromComponents d.hours d.minutes d.seconds d.milliseconds d.microseconds
        d.nanoseconds = i.time := by
  obtain ⟨hproduct, hs⟩ := timeDurationSign_mul_abs i.time
  have hfields := balancedFields_spec hlargest (abs_nonneg i.time) htime
  have hn := abs_nonneg i.time
  have hdays := abs_le.mp hd.days
  rw [nsPerDay] at htime
  obtain ⟨n, hn'⟩ : ∃ n, n = |i.time| := ⟨_, rfl⟩
  rw [← hn'] at hfields hproduct htime hn
  have hone := OneSign.append_signed [i.date.years, i.date.months, i.date.weeks, i.date.days]
    [n / 3600000000000, n / 60000000000 % 60, n / 1000000000 % 60, n / 1000000 % 1000, n / 1000 % 1000,
      n % 1000] hsign (by
    simp only [List.forall_mem_cons, List.not_mem_nil, IsEmpty.forall_iff, implies_true, and_true]
    omega)
  clear hsign
  obtain ⟨s, hs'⟩ : ∃ s, s = timeDurationSign i.time := ⟨_, rfl⟩
  rw [← hs'] at hs hproduct hone
  obtain ⟨d, hd'⟩ : ∃ d : DurationRecord, d = {
      years := i.date.years, months := i.date.months, weeks := i.date.weeks, days := i.date.days,
      hours := s * (n / 3600000000000), minutes := s * (n / 60000000000 % 60),
      seconds := s * (n / 1000000000 % 60), milliseconds := s * (n / 1000000 % 1000),
      microseconds := s * (n / 1000 % 1000), nanoseconds := s * (n % 1000) } := ⟨_, rfl⟩
  have htimes : TimeFields d := by
    rw [hd']
    constructor <;> exact abs_signed_le hs (by omega) (by omega)
  have hvalid : isValidDuration d = some true := by
    rw [hd'] at htimes ⊢
    exact isValidDuration_of_moderate htimes hd hone
  have hparts : n / 3600000000000 * 3600000000000 + n / 60000000000 % 60 * 60000000000 +
      n / 1000000000 % 60 * 1000000000 + n / 1000000 % 1000 * 1000000 + n / 1000 % 1000 * 1000 + n % 1000 = n := by
    omega
  refine ⟨d, ?_, htimes, by rw [hd'], ?_⟩
  · clear hproduct hparts hone
    rw [temporalDurationFromInternal]
    dsimp only
    refine step (absOf_int128 (by omega)) ?_
    rw [← hn', ← hs', hfields]
    dsimp only
    refine step (int128_eq (by omega) (by omega)) ?_
    refine step (a := 0) ?_ ?_
    · rw [mul_zero]
      rfl
    refine step (int128_eq (by omega) (by omega)) ?_
    rw [add_zero]
    refine step (double_eq (by omega) (by omega)) ?_
    refine step (signedField_eq hs (by omega) (by omega)) ?_
    refine step (signedField_eq hs (by omega) (by omega)) ?_
    refine step (signedField_eq hs (by omega) (by omega)) ?_
    refine step (signedField_eq hs (by omega) (by omega)) ?_
    refine step (signedField_eq hs (by omega) (by omega)) ?_
    refine step (signedField_eq hs (by omega) (by omega)) ?_
    rw [← hd']
    exact step hvalid rfl
  · rw [hd', ← hproduct, Temporal.timeDurationFromComponents]
    linear_combination s * hparts

theorem toInternalDuration_eq (h : TimeFields d) : toInternalDuration d =
    some ⟨⟨d.years, d.months, d.weeks, d.days⟩, Temporal.timeDurationFromComponents d.hours d.minutes
      d.seconds d.milliseconds d.microseconds d.nanoseconds⟩ :=
  step (timeDurationFromComponents_eq h) rfl

theorem toInternalDuration24hDays_eq (h : TimeFields d) (hdays : |d.days| ≤ 230000000) :
    toInternalDuration24hDays d = some ⟨⟨d.years, d.months, d.weeks, 0⟩,
      Temporal.timeDurationFromComponents d.hours d.minutes d.seconds d.milliseconds d.microseconds
        d.nanoseconds + d.days * nsPerDay⟩ := by
  have hbounds := abs_lt.mp (timeDurationFromComponents_bounds h)
  rw [abs_le] at hdays
  rw [nsPerDay] at hbounds
  rw [toInternalDuration24hDays, nsPerDay]
  refine step (timeDurationFromComponents_eq h) ?_
  refine step (int128_eq (by omega) (by omega)) ?_
  refine step (int128_eq (by omega) (by omega)) ?_
  exact step (int128_eq (by omega) (by omega)) rfl

end Checked

end CtBrowser.Script.Temporal
