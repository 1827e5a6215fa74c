import CtBrowser.Script.Temporal.Checked
import CtBrowser.Script.Temporal.DateOrder

/-!
# Days and Dates in 64 Bits

The two maps between a date and its days since the epoch, as they are computed in integers of 64 bits.
A caller lets no year past `2 ^ 40` through, and no day past that year's; up to `2 ^ 53` years nothing
overflows, and the maps are each other's inverses and keep the order.

## Main results

- `civil_days` — both round trips and both orders.
-/

namespace CtBrowser.Script.Temporal

theorem daysFromCivil_eq_epochDays {date : IsoDate} (h : date.Valid) :
    daysFromCivil date.year date.month date.day = epochDays date := by
  obtain ⟨hmonth, hmonth', -, -⟩ := IsoDate.valid_iff.mp h
  have hyear : date.year + (date.month - 1) / 12 = date.year := by omega
  have hsame : (date.month - 1) % 12 + 1 = date.month := by omega
  rw [epochDays, isoDateToEpochDays, hyear, hsame, daysFromCivil, daysFromCivil]
  ring

theorem abs_epochDays_le {date : IsoDate} (h : date.Valid) (hyear : |date.year| ≤ 2 ^ 53) :
    |epochDays date| ≤ 2 ^ 62 := by
  obtain ⟨hmonth, hmonth', hday, hlast⟩ := IsoDate.valid_iff.mp h
  have hlength := isoDaysInMonth_bounds date.year date.month
  rw [abs_le] at hyear ⊢
  rw [epochDays_eq hmonth hmonth' rfl rfl]
  split_ifs <;> omega

theorem abs_year_le {n : ℤ} (hn : |n| ≤ 2 ^ 61) : |(civilFromDays n).year| ≤ 2 ^ 53 := by
  obtain ⟨era, yoe, doy, mp, hz, hyoe₀, hyoe₁, hdoy₀, hdoy₁, -, hcivil⟩ := exists_civilFromDays n
  have hdoy : doy ≤ 365 := by split_ifs at hdoy₁ <;> omega
  rw [abs_le] at hn ⊢
  rw [hcivil]
  dsimp only
  split_ifs <;> omega

namespace Checked

/-- The days of a date. -/
def daysOf (date : IsoDate) : Option ℤ := daysFromCivil date.year date.month date.day

theorem daysOf_eq {date : IsoDate} (h : date.Valid) (hyear : |date.year| ≤ 2 ^ 53) :
    daysOf date = some (Temporal.epochDays date) := by
  obtain ⟨hmonth, hmonth', hday, hlast⟩ := IsoDate.valid_iff.mp h
  have hlength := isoDaysInMonth_bounds date.year date.month
  rw [daysOf, daysFromCivil_eq (hyear.trans (by norm_num)) hmonth hmonth' (abs_le.mpr ⟨by omega, by omega⟩),
    daysFromCivil_eq_epochDays h]

theorem civilFromDays_eq_date {n : ℤ} (hn : |n| ≤ 2 ^ 62) :
    civilFromDays n = some (Temporal.epochDaysToIsoDate n) :=
  civilFromDays_eq (hn.trans (by norm_num))

end Checked

/-- The date of the days of a date is that date, and the days of the date of a number of days are that
number. A date is before another just if its days are fewer, both ways. -/
theorem civil_days {a b : IsoDate} {n n' : ℤ} (ha : a.Valid) (hb : b.Valid)
    (hyears : |a.year| ≤ 2 ^ 53 ∧ |b.year| ≤ 2 ^ 53) (hdays : |n| ≤ 2 ^ 61 ∧ |n'| ≤ 2 ^ 61) :
    (Checked.daysOf a).bind Checked.civilFromDays = some a ∧
      (Checked.civilFromDays n).bind Checked.daysOf = some n ∧
      (a.Before b ↔ ∃ d ∈ Checked.daysOf a, ∃ d' ∈ Checked.daysOf b, d < d') ∧
      (n < n' ↔ ∃ d ∈ Checked.civilFromDays n, ∃ d' ∈ Checked.civilFromDays n', d.Before d') := by
  have hwide : ∀ {m : ℤ}, |m| ≤ 2 ^ 61 → |m| ≤ 2 ^ 62 := fun h => h.trans (by norm_num)
  rw [Checked.daysOf_eq ha hyears.1, Checked.daysOf_eq hb hyears.2,
    Checked.civilFromDays_eq_date (hwide hdays.1), Checked.civilFromDays_eq_date (hwide hdays.2)]
  refine ⟨?_, ?_, ?_, ?_⟩
  · rw [Option.bind_some, Checked.civilFromDays_eq_date (abs_epochDays_le ha hyears.1),
      epochDaysToIsoDate_epochDays ha]
  · rw [Option.bind_some, Checked.daysOf_eq (valid_epochDaysToIsoDate n) (abs_year_le hdays.1),
      epochDays_epochDaysToIsoDate]
  · simp only [Option.mem_some_iff, exists_eq_left']
    exact (epochDays_lt_iff ha hb).symm
  · simp only [Option.mem_some_iff, exists_eq_left']
    rw [← epochDays_lt_iff (valid_epochDaysToIsoDate n) (valid_epochDaysToIsoDate n'),
      epochDays_epochDaysToIsoDate, epochDays_epochDaysToIsoDate]

/-- The last day of February of a leap year before the epoch of the calendar, and the day after it. -/
theorem civil_days_leap :
    (Checked.daysOf ⟨-4, 2, 29⟩).bind Checked.civilFromDays = some ⟨-4, 2, 29⟩ ∧
      (Checked.civilFromDays (-1)).bind Checked.daysOf = some (-1) ∧
      (IsoDate.Before ⟨-4, 2, 29⟩ ⟨-4, 3, 1⟩ ↔
        ∃ d ∈ Checked.daysOf ⟨-4, 2, 29⟩, ∃ d' ∈ Checked.daysOf ⟨-4, 3, 1⟩, d < d') ∧
      ((-1 : ℤ) < 0 ↔ ∃ d ∈ Checked.civilFromDays (-1), ∃ d' ∈ Checked.civilFromDays 0, d.Before d') :=
  civil_days (IsoDate.valid_iff.mpr (by decide)) (IsoDate.valid_iff.mpr (by decide)) (by norm_num) (by norm_num)

end CtBrowser.Script.Temporal
