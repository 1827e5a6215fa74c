import CtBrowser.Script.Temporal.DateOrder
import CtBrowser.Script.Temporal.Durations

/-!
# Counting Units between Dates

What the difference of two dates is: of each unit the greatest count that does not pass the second
date. A count keeps the day where the month is too short for it, so the last day of such a month is
not a month away.

## Main definitions

- `IsoDate.counted`, `IsoDate.monthsLater` — the date so many years and months away.
- `IsDifference` — the greatest counts of the units that do not pass a date.

## Main results

- `greatest_years`, `greatest_months`, `greatest_weeks`, `greatest_days` — the greatest counts.
- `IsDifference.reaches`, `IsDifference.fields_sign` — the counts lead to the second date and have
  one sign.
-/

namespace CtBrowser.Script.Temporal

/-! ## Durations of dates -/

/-- What becomes of a day or a time that does not exist. -/
inductive Overflow
  | constrain
  | reject
deriving DecidableEq, Repr

/-- The fields are integral doubles. -/
structure DateDuration where
  years : ℤ := 0
  months : ℤ := 0
  weeks : ℤ := 0
  days : ℤ := 0
deriving DecidableEq, Repr

structure YearMonth where
  year : ℤ
  month : ℤ
deriving DecidableEq, Repr

/-! ## What a difference is -/

/-- The date so many years and months away, with its day whether the month has it or not. -/
def IsoDate.counted (date : IsoDate) (years months : ℤ) : IsoDate where
  year := date.year + years + (date.month + months - 1) / 12
  month := (date.month + months - 1) % 12 + 1
  day := date.day

/-- The date so many years and months away, on the last day of a month too short for its day. -/
def IsoDate.monthsLater (date : IsoDate) (years months : ℤ) : IsoDate :=
  let c := date.counted years months
  { c with day := min c.day (isoDaysInMonth c.year c.month) }

/-- Beyond a date in the direction of a sign. -/
def Passes (sign : ℤ) (date target : IsoDate) : Prop :=
  if 0 ≤ sign then target.Before date else date.Before target

instance (sign : ℤ) (date target : IsoDate) : Decidable (Passes sign date target) :=
  inferInstanceAs (Decidable (if 0 ≤ sign then target.Before date else date.Before target))

/-- The greatest count in the direction of a sign whose date does not pass another. -/
structure Greatest (sign : ℤ) (reached : ℤ → IsoDate) (target : IsoDate) (k : ℤ) : Prop where
  direction : 0 ≤ sign * k
  within : ¬ Passes sign (reached k) target
  greatest : ∀ j, sign * k < sign * j → Passes sign (reached j) target

/-- From the first date to the second. -/
def direction (one two : IsoDate) : ℤ := if two.Before one then -1 else 1

/-- Of each unit up to the largest, the greatest count that does not pass the second date; no weeks
unless they are the largest. -/
structure IsDifference (one two : IsoDate) (largest : DurationUnit) (d : DateDuration) : Prop where
  years : if largest = .year then Greatest (direction one two) (one.counted · 0) two d.years
    else d.years = 0
  months : if largest = .year ∨ largest = .month then
      Greatest (direction one two) (one.counted d.years ·) two d.months
    else d.months = 0
  weeks : if largest = .week then
      Greatest (direction one two)
        (fun k => addDaysToIsoDate (one.monthsLater d.years d.months) (7 * k)) two d.weeks
    else d.weeks = 0
  days : Greatest (direction one two)
    (fun k => addDaysToIsoDate (one.monthsLater d.years d.months) (7 * d.weeks + k)) two d.days

/-! ## Passing -/

variable {sign years months : ℤ} {date one two : IsoDate}

/-- The months of dates in one count. -/
def monthIndex (date : IsoDate) : ℤ := 12 * date.year + date.month

theorem passes_iff {a b : IsoDate} (hsign : sign = 1 ∨ sign = -1) (ha : 1 ≤ a.month ∧ a.month ≤ 12)
    (hb : 1 ≤ b.month ∧ b.month ≤ 12) : Passes sign a b ↔
      0 < sign * (monthIndex a - monthIndex b) ∨
        monthIndex a = monthIndex b ∧ 0 < sign * (a.day - b.day) := by
  simp only [Passes, IsoDate.Before, monthIndex]
  rcases hsign with rfl | rfl
  · rw [if_pos (by norm_num)]
    omega
  · rw [if_neg (by norm_num)]
    omega

theorem counted_month (date : IsoDate) (years months : ℤ) :
    1 ≤ (date.counted years months).month ∧ (date.counted years months).month ≤ 12 := by
  simp only [IsoDate.counted]
  omega

theorem monthIndex_counted (date : IsoDate) (years months : ℤ) :
    monthIndex (date.counted years months) = monthIndex date + 12 * years + months := by
  simp only [monthIndex, IsoDate.counted]
  omega

theorem sign_mul (hsign : sign = 1 ∨ sign = -1) (v : ℤ) : sign * v = v ∨ sign * v = -v := by
  rcases hsign with rfl | rfl <;> omega

/-! ## The greatest counts -/

/-- The count that lands in the year or the month of a date, less one if it overshoots, is the
greatest that does not pass the date. Dates are told apart by a distance in months, of which a
count is `c`, and then by their days. -/
theorem greatest_landing {reached : ℤ → IsoDate} (c distance later : ℤ) {k : ℤ}
    (hsign : sign = 1 ∨ sign = -1) (hc : c = 1 ∨ c = 12)
    (hreached : ∀ j, Passes sign (reached j) two ↔
      0 < sign * (c * j - distance) ∨ c * j = distance ∧ 0 < sign * later)
    (hk : -c < distance - c * k ∧ distance - c * k < c) (hzero : ¬ Passes sign (reached 0) two) :
    Greatest sign reached two (if k ≠ 0 ∧ Passes sign (reached k) two then k - sign else k) := by
  have hpassed := hreached k
  rw [hreached] at hzero
  split_ifs with h
  · rw [hpassed] at h
    have hless := hreached (k - sign)
    refine ⟨?_, ?_, fun j hj => (hreached j).mpr ?_⟩
    · rcases hsign with rfl | rfl <;> rcases hc with rfl | rfl <;> omega
    · rw [hless]
      rcases hsign with rfl | rfl <;> rcases hc with rfl | rfl <;> omega
    · rcases hsign with rfl | rfl <;> rcases hc with rfl | rfl <;> omega
  · rw [hpassed] at h
    refine ⟨?_, ?_, fun j hj => (hreached j).mpr ?_⟩
    · rcases hsign with rfl | rfl <;> rcases hc with rfl | rfl <;> omega
    · rw [hpassed]
      rcases hsign with rfl | rfl <;> rcases hc with rfl | rfl <;> omega
    · rcases hsign with rfl | rfl <;> rcases hc with rfl | rfl <;> omega

theorem greatest_years (hsign : sign = 1 ∨ sign = -1) (hone : one.Valid) (htwo : two.Valid)
    (hpasses : ¬ Passes sign (one.counted 0 0) two) :
    Greatest sign (one.counted · 0) two (if two.year - one.year ≠ 0 ∧
      Passes sign (one.counted (two.year - one.year) 0) two then two.year - one.year - sign
      else two.year - one.year) := by
  obtain ⟨hm₁, hm₂, -⟩ := IsoDate.valid_iff.mp hone
  obtain ⟨hm₁', hm₂', -⟩ := IsoDate.valid_iff.mp htwo
  refine greatest_landing 12 (monthIndex two - monthIndex one) (one.day - two.day) hsign (.inr rfl) (fun j => ?_) ?_ hpasses
  · rw [passes_iff hsign (counted_month one j 0) ⟨hm₁', hm₂'⟩, monthIndex_counted]
    have hday : (one.counted j 0).day = one.day := rfl
    rw [hday]
    rcases hsign with rfl | rfl <;> omega
  · rw [monthIndex, monthIndex]
    omega

theorem greatest_months (hsign : sign = 1 ∨ sign = -1) (htwo : two.Valid)
    (hpasses : ¬ Passes sign (one.counted years 0) two) :
    let k := monthIndex two - monthIndex one - 12 * years
    Greatest sign (one.counted years ·) two
      (if k ≠ 0 ∧ Passes sign (one.counted years k) two then k - sign else k) := by
  intro k
  obtain ⟨hm₁, hm₂, -⟩ := IsoDate.valid_iff.mp htwo
  refine greatest_landing 1 k (one.day - two.day) hsign (.inl rfl)
    (fun j => ?_) (by omega) hpasses
  rw [passes_iff hsign (counted_month one years j) ⟨hm₁, hm₂⟩, monthIndex_counted]
  have hday : (one.counted years j).day = one.day := rfl
  have hk : k = monthIndex two - monthIndex one - 12 * years := rfl
  rw [hday, hk]
  rcases hsign with rfl | rfl <;> omega

/-! ## Days -/

theorem valid_monthsLater (h : date.Valid) (years months : ℤ) : (date.monthsLater years months).Valid := by
  obtain ⟨-, -, hd, -⟩ := IsoDate.valid_iff.mp h
  obtain ⟨hm₁, hm₂⟩ := counted_month date years months
  have hlength := isoDaysInMonth_bounds (date.counted years months).year (date.counted years months).month
  refine IsoDate.valid_iff.mpr ⟨hm₁, hm₂, le_min hd ?_, min_le_right _ _⟩
  omega

theorem passes_days {a b : IsoDate} (hsign : sign = 1 ∨ sign = -1) (ha : a.Valid) (hb : b.Valid) :
    Passes sign a b ↔ 0 < sign * (epochDays a - epochDays b) := by
  rw [Passes]
  rcases hsign with rfl | rfl
  · rw [if_pos (by norm_num), ← epochDays_lt_iff hb ha]
    omega
  · rw [if_neg (by norm_num), ← epochDays_lt_iff ha hb]
    omega

/-- On the last day of a month that is too short, the date does not pass another either. -/
theorem not_passes_monthsLater (hsign : sign = 1 ∨ sign = -1) (htwo : two.Valid)
    (h : ¬ Passes sign (one.counted years months) two) :
    ¬ Passes sign (one.monthsLater years months) two := by
  obtain ⟨hm₁, hm₂, hd₁, hd₂⟩ := IsoDate.valid_iff.mp htwo
  have hcounted := counted_month one years months
  obtain ⟨c, hc⟩ : ∃ c, c = one.counted years months := ⟨_, rfl⟩
  have hlater : one.monthsLater years months = { c with day := min c.day (isoDaysInMonth c.year c.month) } := by
    rw [hc]
    rfl
  rw [← hc] at h hcounted
  rw [passes_iff hsign hcounted ⟨hm₁, hm₂⟩] at h
  rw [hlater, passes_iff (a := { c with day := min c.day (isoDaysInMonth c.year c.month) }) hsign
    hcounted ⟨hm₁, hm₂⟩]
  simp only [monthIndex] at h ⊢
  have hsame : 12 * c.year + c.month = 12 * two.year + two.month →
      isoDaysInMonth two.year two.month = isoDaysInMonth c.year c.month := by
    intro heq
    have hyear : c.year = two.year := by omega
    have hmonth : c.month = two.month := by omega
    rw [hyear, hmonth]
  rcases hsign with rfl | rfl <;> omega

/-- The days that are left reach the second date, and no more do. -/
theorem greatest_days (hsign : sign = 1 ∨ sign = -1) (htwo : two.Valid) {k : ℤ}
    (hreaches : epochDays date + k = epochDays two) (hdirection : 0 ≤ sign * k) :
    Greatest sign (fun j => addDaysToIsoDate date j) two k := by
  refine ⟨hdirection, ?_, fun j hj => ?_⟩
  · rw [passes_days hsign (valid_addDaysToIsoDate _ _) htwo, epochDays_addDaysToIsoDate]
    rcases hsign with rfl | rfl <;> omega
  · rw [passes_days hsign (valid_addDaysToIsoDate _ _) htwo, epochDays_addDaysToIsoDate]
    rcases hsign with rfl | rfl <;> omega

theorem greatest_weeks (hsign : sign = 1 ∨ sign = -1) (htwo : two.Valid) {k : ℤ}
    (hreaches : epochDays date + k = epochDays two) (hdirection : 0 ≤ sign * k) :
    Greatest sign (fun j => addDaysToIsoDate date (7 * j)) two (k.tdiv 7) ∧
      Greatest sign (fun j => addDaysToIsoDate date (7 * k.tdiv 7 + j)) two (k.tmod 7) := by
  have hsum := Int.mul_tdiv_add_tmod k 7
  have hrest : 0 ≤ sign * k.tmod 7 ∧ sign * k.tmod 7 < 7 := by
    rcases hsign with rfl | rfl
    · have hk : 0 ≤ k := by omega
      rw [Int.tmod_eq_emod_of_nonneg hk]
      omega
    · have hk : 0 ≤ -k := by omega
      have hneg : (-k).tmod 7 = -(k.tmod 7) := Int.neg_tmod k 7
      have hpos := Int.tmod_eq_emod_of_nonneg (b := 7) hk
      omega
  have hdays (j : ℤ) : Passes sign (addDaysToIsoDate date j) two ↔ 0 < sign * (j - k) := by
    rw [passes_days hsign (valid_addDaysToIsoDate _ _) htwo, epochDays_addDaysToIsoDate, ← hreaches]
    rcases hsign with rfl | rfl <;> omega
  refine ⟨⟨?_, ?_, fun j hj => ?_⟩, ⟨hrest.1, ?_, fun j hj => ?_⟩⟩
  · rcases hsign with rfl | rfl <;> omega
  · rw [hdays]
    rcases hsign with rfl | rfl <;> omega
  · rw [hdays]
    rcases hsign with rfl | rfl <;> omega
  · rw [hdays]
    rcases hsign with rfl | rfl <;> omega
  · rw [hdays]
    rcases hsign with rfl | rfl <;> omega

theorem direction_of_before (h : one.Before two) : direction one two = 1 := by
  rw [direction, if_neg]
  rw [IsoDate.Before] at h ⊢
  omega

theorem direction_or (one two : IsoDate) : direction one two = 1 ∨ direction one two = -1 := by
  rw [direction]
  split_ifs
  · exact .inr rfl
  · exact .inl rfl

theorem not_passes_direction (one two : IsoDate) : ¬ Passes (direction one two) one two := by
  rw [direction]
  split_ifs with h
  · rw [Passes, if_neg (by norm_num)]
    rw [IsoDate.Before] at h ⊢
    omega
  · rwa [Passes, if_pos (by norm_num)]

theorem counted_zero (h : date.Valid) : date.counted 0 0 = date := by
  obtain ⟨hm₁, hm₂, -⟩ := IsoDate.valid_iff.mp h
  obtain ⟨year, month, day⟩ := date
  simp only [IsoDate.counted, IsoDate.mk.injEq, and_true]
  dsimp only at hm₁ hm₂
  omega

theorem monthsLater_zero (h : date.Valid) : date.monthsLater 0 0 = date := by
  rw [IsoDate.monthsLater, counted_zero h, min_eq_left (IsoDate.valid_iff.mp h).2.2.2]

namespace IsDifference

variable {largest : DurationUnit} {d : DateDuration}

theorem reaches (h : IsDifference one two largest d) (htwo : two.Valid) :
    epochDays (one.monthsLater d.years d.months) + (7 * d.weeks + d.days) = epochDays two := by
  have hwithin := h.days.within
  have hgreatest := h.days.greatest (d.days + direction one two)
  have hsign := direction_or one two
  rw [passes_days hsign (valid_addDaysToIsoDate _ _) htwo, epochDays_addDaysToIsoDate] at hwithin hgreatest
  rcases hsign with heq | heq <;> rw [heq] at hwithin hgreatest <;> omega

theorem fields_sign (h : IsDifference one two largest d) :
    ∀ field ∈ [d.years, d.months, d.weeks, d.days], 0 ≤ direction one two * field := by
  have hyears := h.years
  have hmonths := h.months
  have hweeks := h.weeks
  simp only [List.forall_mem_cons, List.not_mem_nil, IsEmpty.forall_iff, implies_true, and_true]
  refine ⟨?_, ?_, ?_, h.days.direction⟩
  · split_ifs at hyears
    · exact hyears.direction
    · rw [hyears, mul_zero]
  · split_ifs at hmonths
    · exact hmonths.direction
    · rw [hmonths, mul_zero]
  · split_ifs at hweeks
    · exact hweeks.direction
    · rw [hweeks, mul_zero]

theorem self (h : date.Valid) (largest : DurationUnit) : IsDifference date date largest {} := by
  have hsign := direction_or date date
  have hpasses := not_passes_direction date date
  have hstart : ¬ Passes (direction date date) (date.counted 0 0) date := by rwa [counted_zero h]
  have hlater := valid_monthsLater h 0 0
  have hreaches : epochDays (date.monthsLater 0 0) + 0 = epochDays date := by
    rw [add_zero, monthsLater_zero h]
  obtain ⟨hweeks, hdays⟩ := greatest_weeks hsign h hreaches (mul_zero _).ge
  refine ⟨?_, ?_, ?_, hdays⟩
  · split_ifs
    · simpa only [sub_self, ne_eq, not_true_eq_false, false_and, if_false] using
        greatest_years hsign h h hstart
    · rfl
  · split_ifs
    · simpa only [sub_self, mul_zero, ne_eq, not_true_eq_false, false_and, if_false] using
        greatest_months hsign h hstart
    · rfl
  · split_ifs
    · exact hweeks
    · rfl

end IsDifference

end CtBrowser.Script.Temporal
