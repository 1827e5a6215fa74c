import CtBrowser.Script.Temporal.Calendar

/-!
# The Order of Dates

Dates of the calendar are ordered by year, month and day, as the days since the epoch are. So a date
of the calendar is the date of its days.

## Main definitions

- `IsoDate.Before` — the order by year, month and day.
- `monthsLater` — a date in another month, on its last day if the month has no such day.

## Main results

- `epochDays_lt_iff` — a date is before another when its days are fewer.
- `epochDaysToIsoDate_epochDays` — the date of the days of a date.
-/

namespace CtBrowser.Script.Temporal

/-! ## The order -/

/-- A date of the calendar. -/
def IsoDate.Valid (date : IsoDate) : Prop :=
  isValidIsoDate date.year date.month date.day = true

/-- By year, month and day; the day need not exist. -/
def IsoDate.Before (a b : IsoDate) : Prop :=
  a.year < b.year ∨ a.year = b.year ∧ (a.month < b.month ∨ a.month = b.month ∧ a.day < b.day)

instance (a b : IsoDate) : Decidable (a.Before b) := inferInstanceAs (Decidable (_ ∨ _))

theorem IsoDate.valid_iff {date : IsoDate} : date.Valid ↔ 1 ≤ date.month ∧ date.month ≤ 12 ∧
    1 ≤ date.day ∧ date.day ≤ isoDaysInMonth date.year date.month := by
  rw [IsoDate.Valid, isValidIsoDate, decide_eq_true_eq]

theorem isoDaysInMonth_bounds (y m : ℤ) : 28 ≤ isoDaysInMonth y m ∧ isoDaysInMonth y m ≤ 31 := by
  rw [isoDaysInMonth]
  split_ifs <;> omega

/-! ## Days of years -/

/-- The days before the first of March of a year. -/
def marchDays (y : ℤ) : ℤ := 365 * y + y / 4 - y / 100 + y / 400

/-- The days before a month of the year that begins in March. -/
def monthDays (mp : ℤ) : ℤ := (153 * mp + 2) / 5

theorem epochDays_eq_march {date : IsoDate} (hlow : 1 ≤ date.month) (hhigh : date.month ≤ 12) {y mp : ℤ}
    (hy : y = date.year - if date.month ≤ 2 then 1 else 0)
    (hmp : mp = if 2 < date.month then date.month - 3 else date.month + 9) :
    epochDays date = marchDays y + monthDays mp + date.day - 719469 := by
  rw [epochDays_eq hlow hhigh hy hmp, marchDays, monthDays]
  omega

theorem marchDays_mono {y y' : ℤ} (h : y ≤ y') : marchDays y ≤ marchDays y' := by
  have hfour := Int.ediv_le_ediv (by norm_num : (0 : ℤ) < 4) h
  have hcycle := Int.ediv_le_ediv (by norm_num : (0 : ℤ) < 400) h
  have hcentury : y' / 100 ≤ y / 100 + (y' - y) := by omega
  rw [marchDays, marchDays]
  omega

theorem marchDays_succ (y : ℤ) :
    marchDays (y + 1) = marchDays y + if isLeapYear (y + 1) then 366 else 365 := by
  have hfour : (y + 1) / 4 = y / 4 + if (y + 1) % 4 = 0 then 1 else 0 := by split_ifs <;> omega
  have hcentury : (y + 1) / 100 = y / 100 + if (y + 1) % 100 = 0 then 1 else 0 := by
    split_ifs <;> omega
  have hcycle : (y + 1) / 400 = y / 400 + if (y + 1) % 400 = 0 then 1 else 0 := by
    split_ifs <;> omega
  have hhundred : (y + 1) % 400 = 0 → (y + 1) % 100 = 0 := by omega
  have hquarter : (y + 1) % 100 = 0 → (y + 1) % 4 = 0 := by omega
  have hleap := isLeapYear_iff (y + 1)
  rw [marchDays, marchDays, hfour, hcentury, hcycle]
  simp only [hleap]
  split_ifs <;> omega

theorem marchDays_lt {y y' : ℤ} (h : y < y') :
    marchDays y + (if isLeapYear (y + 1) then 366 else 365) ≤ marchDays y' := by
  rw [← marchDays_succ]
  exact marchDays_mono (by omega)

theorem monthDays_succ {mp : ℤ} (hlow : 0 ≤ mp) (hhigh : mp ≤ 10) :
    monthDays (mp + 1) = monthDays mp + if mp = 1 ∨ mp = 3 ∨ mp = 6 ∨ mp = 8 then 30 else 31 := by
  interval_cases mp <;> rfl

theorem monthDays_mono {mp mp' : ℤ} (h : mp ≤ mp') : monthDays mp ≤ monthDays mp' := by
  rw [monthDays, monthDays]
  omega

theorem monthDays_add {date : IsoDate} (h : date.Valid) {y mp : ℤ}
    (hy : y = date.year - if date.month ≤ 2 then 1 else 0)
    (hmp : mp = if 2 < date.month then date.month - 3 else date.month + 9) :
    (∀ mp', mp < mp' → mp' ≤ 11 → monthDays mp + date.day ≤ monthDays mp') ∧
      monthDays mp + date.day ≤ if isLeapYear (y + 1) then 366 else 365 := by
  obtain ⟨hm₁, hm₂, hd₁, hd₂⟩ := IsoDate.valid_iff.mp h
  by_cases hfeb : date.month = 2
  · have hyear : date.year = y + 1 := by omega
    have hfeb' : isoDaysInMonth date.year 2 = if isLeapYear (y + 1) then 29 else 28 := by
      rw [hyear]
      rfl
    rw [hfeb, hfeb'] at hd₂
    have hmp' : mp = 11 := by omega
    have hbegun : monthDays mp = 337 := by rw [hmp']; rfl
    refine ⟨fun mp' hlt hle => by omega, ?_⟩
    split_ifs at hd₂ ⊢ <;> omega
  · have hlength : isoDaysInMonth date.year date.month ≤
        if date.month = 4 ∨ date.month = 6 ∨ date.month = 9 ∨ date.month = 11 then 30 else 31 := by
      rw [isoDaysInMonth]
      split_ifs <;> omega
    have hnext : monthDays mp + date.day ≤ monthDays (mp + 1) := by
      rw [monthDays_succ (by omega) (by omega)]
      split_ifs at hlength ⊢ <;> omega
    have hyear : monthDays 11 = 337 := rfl
    have hlast := monthDays_mono (by omega : mp + 1 ≤ 11)
    refine ⟨fun mp' hlt hle => hnext.trans (monthDays_mono (by omega)), ?_⟩
    split_ifs <;> omega

/-! ## The order of days -/

theorem epochDays_lt {a b : IsoDate} (ha : a.Valid) (hb : b.Valid) (h : a.Before b) :
    epochDays a < epochDays b := by
  obtain ⟨ha₁, ha₂, -, -⟩ := IsoDate.valid_iff.mp ha
  obtain ⟨hb₁, hb₂, hb₃, -⟩ := IsoDate.valid_iff.mp hb
  obtain ⟨y, hy⟩ : ∃ y, y = a.year - if a.month ≤ 2 then 1 else 0 := ⟨_, rfl⟩
  obtain ⟨mp, hmp⟩ : ∃ mp, mp = if 2 < a.month then a.month - 3 else a.month + 9 := ⟨_, rfl⟩
  obtain ⟨y', hy'⟩ : ∃ y, y = b.year - if b.month ≤ 2 then 1 else 0 := ⟨_, rfl⟩
  obtain ⟨mp', hmp'⟩ : ∃ mp, mp = if 2 < b.month then b.month - 3 else b.month + 9 := ⟨_, rfl⟩
  rw [epochDays_eq_march ha₁ ha₂ hy hmp, epochDays_eq_march hb₁ hb₂ hy' hmp']
  obtain ⟨hmonth, hyear⟩ := monthDays_add ha hy hmp
  have hzero : 0 ≤ monthDays mp' := by
    rw [monthDays]
    omega
  -- the months that begin in March are in the same order
  have hcases : y < y' ∨ y = y' ∧ mp < mp' ∨ y = y' ∧ mp = mp' ∧ a.day < b.day := by
    rcases h with h | ⟨h, h' | ⟨h', h''⟩⟩ <;> omega
  rcases hcases with hlt | ⟨rfl, hlt⟩ | ⟨rfl, rfl, hlt⟩
  · have hmarch := marchDays_lt hlt
    omega
  · have hbefore := hmonth mp' hlt (by omega)
    omega
  · omega

theorem IsoDate.before_trichotomy (a b : IsoDate) : a.Before b ∨ a = b ∨ b.Before a := by
  obtain ⟨y, m, d⟩ := a
  obtain ⟨y', m', d'⟩ := b
  simp only [IsoDate.Before, IsoDate.mk.injEq]
  omega

theorem epochDays_lt_iff {a b : IsoDate} (ha : a.Valid) (hb : b.Valid) :
    epochDays a < epochDays b ↔ a.Before b := by
  constructor
  · intro hlt
    rcases a.before_trichotomy b with h | rfl | h
    · exact h
    · exact absurd hlt (lt_irrefl _)
    · exact absurd hlt (not_lt.mpr (epochDays_lt hb ha h).le)
  · exact epochDays_lt ha hb

theorem epochDays_inj {a b : IsoDate} (ha : a.Valid) (hb : b.Valid)
    (h : epochDays a = epochDays b) : a = b := by
  rcases a.before_trichotomy b with hlt | heq | hlt
  · exact absurd h (epochDays_lt ha hb hlt).ne
  · exact heq
  · exact absurd h (epochDays_lt hb ha hlt).ne'

theorem valid_epochDaysToIsoDate (z : ℤ) : (epochDaysToIsoDate z).Valid :=
  isValidIsoDate_epochDaysToIsoDate z

/-- The date of the days of a date. -/
theorem epochDaysToIsoDate_epochDays {date : IsoDate} (h : date.Valid) :
    epochDaysToIsoDate (epochDays date) = date :=
  epochDays_inj (valid_epochDaysToIsoDate _) h (epochDays_epochDaysToIsoDate _)

theorem valid_addDaysToIsoDate (date : IsoDate) (days : ℤ) : (addDaysToIsoDate date days).Valid :=
  valid_epochDaysToIsoDate _

@[simp] theorem epochDays_addDaysToIsoDate (date : IsoDate) (days : ℤ) :
    epochDays (addDaysToIsoDate date days) = epochDays date + days :=
  epochDays_epochDaysToIsoDate _

theorem addDaysToIsoDate_eq_of_days {a b : IsoDate} {days : ℤ} (hb : b.Valid)
    (h : epochDays a + days = epochDays b) : addDaysToIsoDate a days = b := by
  rw [addDaysToIsoDate, h, epochDaysToIsoDate_epochDays hb]

end CtBrowser.Script.Temporal
