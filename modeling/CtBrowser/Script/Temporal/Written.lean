import CtBrowser.Script.Temporal.Objects
import CtBrowser.Script.Temporal.Recognition

/-!
# Written Strings and the Grammar

What the formatters write is derived by the grammar, with the value that was written.

## Main results

- `derives_dateWritten` — the text of a date.
- `derives_timeWritten` — the text of a time with automatic precision.
- `derives_formatUtcOffsetNanoseconds` — the text of an offset.
-/

namespace CtBrowser.Script.Temporal

open Foundations.Reading Foundations.Reading.Grammar

/-! ## Numbers -/

theorem derives_zeroPadded {v : ℤ} {width : ℕ} (hv : 0 ≤ v) (hwidth : 0 < width)
    (hlt : v < 10 ^ width) :
    (Productions.decimalDigits width).derives (zeroPadded v width) v.natAbs := by
  obtain ⟨hlength, hdigits, hdecimal⟩ := zeroPadded_spec hv hwidth hlt
  exact ⟨⟨hlength, hdigits⟩, hdecimal.symm⟩

theorem derives_padIsoYear {year : ℤ} (hlow : -999999 ≤ year) (hhigh : year ≤ 999999) :
    Productions.dateYear.derives (padIsoYear year) year := by
  rw [padIsoYear]
  by_cases hplain : 0 ≤ year ∧ year ≤ 9999
  · rw [if_pos hplain]
    refine .inl ⟨_, [], _, (List.append_nil _).symm,
      derives_zeroPadded hplain.1 (by norm_num) (by norm_num; omega), rfl, ?_⟩
    omega
  · rw [if_neg hplain]
    -- an expanded year is the sign and the six digits of what is without it
    have hsigned : ∀ (b : UInt8) (s : ℤ), Productions.asciiSign.derives [b] s →
        ¬ (s = -1 ∧ year = 0) → 0 ≤ s * year → s * (s * year) = year → s * year ≤ 999999 →
        Productions.dateYear.derives (b :: zeroPadded (s * year) 6) year := by
      intro b s hs hzero hpos hsquare hmax
      refine .inr ⟨[b], _, s, rfl, hs, _, [], _, (List.append_nil _).symm,
        derives_zeroPadded hpos (by norm_num) (by norm_num; omega),
        derives_require_bind.mpr ⟨?_, rfl, ?_⟩⟩
      · rintro ⟨rfl, h⟩
        exact hzero ⟨rfl, by omega⟩
      · rw [Int.natAbs_of_nonneg hpos, hsquare]
    rcases lt_or_ge 0 year with hpos | hneg
    · have hword := hsigned (ch '+') 1 (.inl ⟨rfl, rfl⟩) (by omega) (by omega) (by ring) (by omega)
      rw [one_mul] at hword
      rwa [if_pos hpos, if_neg (not_lt.mpr hpos.le)]
    · have hword := hsigned (ch '-') (-1) (.inr ⟨rfl, rfl⟩) (by omega) (by omega) (by ring) (by omega)
      rw [neg_one_mul] at hword
      rwa [if_neg (not_lt.mpr hneg), if_pos (by omega)]

theorem derives_month {m : ℤ} (hlow : 1 ≤ m) (hhigh : m ≤ 12) :
    Productions.dateMonth.derives (zeroPadded m 2) m :=
  ⟨_, [], _, (List.append_nil _).symm, derives_zeroPadded (by omega) (by norm_num) (by norm_num; omega),
    derives_require_bind.mpr ⟨by omega, rfl, by omega⟩⟩

theorem derives_day {d : ℤ} (hlow : 1 ≤ d) (hhigh : d ≤ 31) :
    Productions.dateDay.derives (zeroPadded d 2) d :=
  ⟨_, [], _, (List.append_nil _).symm, derives_zeroPadded (by omega) (by norm_num) (by norm_num; omega),
    derives_require_bind.mpr ⟨by omega, rfl, by omega⟩⟩

theorem isoDaysInMonth_le (y m : ℤ) : isoDaysInMonth y m ≤ 31 := by
  rw [isoDaysInMonth]
  split_ifs <;> omega

theorem isValidIsoDate_iff {y m d : ℤ} : isValidIsoDate y m d = true ↔
    1 ≤ m ∧ m ≤ 12 ∧ 1 ≤ d ∧ d ≤ isoDaysInMonth y m := by
  rw [isValidIsoDate, decide_eq_true_eq]

/-- The text of a date. -/
def dateWritten (date : IsoDate) : Text :=
  padIsoYear date.year ++ ascii "-" ++ zeroPadded date.month 2 ++ ascii "-" ++ zeroPadded date.day 2

theorem derives_dateWritten {date : IsoDate}
    (hvalid : isValidIsoDate date.year date.month date.day = true) (hlow : -999999 ≤ date.year)
    (hhigh : date.year ≤ 999999) : Productions.date.derives (dateWritten date)
      { year := some date.year, month := date.month, day := date.day, hasDay := true } := by
  obtain ⟨hm₁, hm₂, hd₁, hd₂⟩ := isValidIsoDate_iff.mp hvalid
  have hmonth := derives_month hm₁ hm₂
  have hday := derives_day hd₁ (hd₂.trans (isoDaysInMonth_le _ _))
  refine .inl ⟨_, _, _, ?_, derives_padIsoYear hlow hhigh, ascii "-", _, (), rfl, rfl, _, _, _, rfl,
    hmonth, ascii "-", _, (), rfl, rfl, _, [], _, (List.append_nil _).symm, hday,
    derives_require_bind.mpr ⟨hd₂, rfl, rfl⟩⟩
  simp only [dateWritten, List.append_assoc]

/-! ## Times and offsets -/

theorem derives_hourWritten {h : ℤ} (hlow : 0 ≤ h) (hhigh : h ≤ 23) :
    Productions.hour.derives (zeroPadded h 2) h.natAbs :=
  ⟨_, [], _, (List.append_nil _).symm, derives_zeroPadded hlow (by norm_num) (by norm_num; omega),
    derives_require_bind.mpr ⟨by omega, rfl, rfl⟩⟩

theorem derives_minuteWritten {m : ℤ} (hlow : 0 ≤ m) (hhigh : m ≤ 59) {highest : ℕ}
    (hmax : 59 ≤ highest) : (Productions.minuteSecond highest).derives (zeroPadded m 2) m.natAbs :=
  ⟨_, [], _, (List.append_nil _).symm, derives_zeroPadded hlow (by norm_num) (by norm_num; omega),
    derives_require_bind.mpr ⟨by omega, rfl, rfl⟩⟩

theorem derives_minutePrecision {h m s sub : ℤ} (hh₀ : 0 ≤ h) (hh₁ : h ≤ 23) (hm₀ : 0 ≤ m)
    (hm₁ : m ≤ 59) (highest : ℕ) : (Productions.either (Productions.clockSpec true highest)).derives
      (formatTimeString h m s sub precisionMinute true) { hour := h.natAbs, minute := m.natAbs } := by
  refine .inl (derives_clockSpec.mpr (.inr (.inl ⟨_, _, _, _, ?_, derives_hourWritten hh₀ hh₁,
    derives_minuteWritten hm₀ hm₁ le_rfl, rfl⟩)))
  simp only [formatTimeString, if_pos, List.append_assoc]
  rfl

theorem derives_autoPrecision {h m s sub : ℤ} (hh₀ : 0 ≤ h) (hh₁ : h ≤ 23) (hm₀ : 0 ≤ m)
    (hm₁ : m ≤ 59) (hs₀ : 0 ≤ s) (hs₁ : s ≤ 59) (hsub₀ : 0 ≤ sub) (hsub₁ : sub < 1000000000)
    {highest : ℕ} (hmax : 59 ≤ highest) :
    ∃ f, Productions.nanoseconds f = sub ∧
      (Productions.either (Productions.clockSpec true highest)).derives
        (formatTimeString h m s sub precisionAuto true)
        { hour := h.natAbs, minute := m.natAbs, second := s.natAbs, fraction := f } := by
  obtain ⟨f, uf, hfraction, hf, hns⟩ : ∃ f uf, formatFractionalSeconds sub precisionAuto = uf ∧
      Productions.temporalDecimalFraction.opt.derives uf f ∧
      Productions.nanoseconds (f.getD []) = sub := by
    by_cases hzero : sub = 0
    · exact ⟨none, [], by rw [formatFractionalSeconds, if_pos rfl, if_pos hzero], .inl ⟨rfl, rfl⟩,
        hzero ▸ rfl⟩
    · obtain ⟨hns, hdigits, hlow, hhigh⟩ := fractionNanoseconds_trimmed (by omega) hsub₁
      refine ⟨some (trimZeros (zeroPadded sub 9)), _, rfl, .inr ⟨_, rfl, ?_⟩, ?_⟩
      · rw [formatFractionalSeconds, if_pos rfl, if_neg hzero]
        exact ⟨[ch '.'], _, (), rfl, .inl rfl, rfl, ⟨hlow, hhigh⟩, hdigits⟩
      · rw [Option.getD_some, ← fractionNanoseconds_eq hhigh, hns]
        omega
  refine ⟨f.getD [], hns, .inl (derives_clockSpec.mpr (.inr (.inr ⟨rfl, _, _, _, uf, _, _, _, f, ?_,
    derives_hourWritten hh₀ hh₁, derives_minuteWritten hm₀ hm₁ le_rfl,
    derives_minuteWritten hs₀ hs₁ hmax, hf, rfl⟩)))⟩
  have hminute : precisionAuto ≠ precisionMinute := by decide
  simp only [formatTimeString, if_neg hminute, hfraction, if_pos, List.append_assoc]
  rfl

theorem isValidTime_iff {t : TimeRecord} : isValidTime t = true ↔
    0 ≤ t.hour ∧ t.hour ≤ 23 ∧ 0 ≤ t.minute ∧ t.minute ≤ 59 ∧ 0 ≤ t.second ∧ t.second ≤ 59 ∧
      0 ≤ t.millisecond ∧ t.millisecond ≤ 999 ∧ 0 ≤ t.microsecond ∧ t.microsecond ≤ 999 ∧
      0 ≤ t.nanosecond ∧ t.nanosecond ≤ 999 := by
  rw [isValidTime, decide_eq_true_eq]

theorem derives_timeWritten {t : TimeRecord} (hvalid : isValidTime t = true) (hdays : t.days = 0) :
    Productions.time.derives (timeRecordToString t precisionAuto) t := by
  obtain ⟨hh₀, hh₁, hm₀, hm₁, hs₀, hs₁, hms₀, hms₁, hus₀, hus₁, hns₀, hns₁⟩ := isValidTime_iff.mp hvalid
  obtain ⟨f, hf, hclock⟩ := @derives_autoPrecision t.hour t.minute t.second
    (t.millisecond * 1000000 + t.microsecond * 1000 + t.nanosecond) hh₀ hh₁ hm₀ hm₁ hs₀ hs₁
    (by omega) (by omega) 60 (by norm_num)
  refine ⟨_, [], _, (List.append_nil _).symm, hclock, rfl, ?_⟩
  obtain ⟨days, hour, minute, second, millisecond, microsecond, nanosecond⟩ := t
  dsimp only at *
  rw [TimeRecord.mk.injEq, hf]
  omega

theorem derives_signedClock {ns : ℤ} {w : Text} {c : Clock}
    (hc : (Productions.either (Productions.clockSpec true 59)).derives w c)
    (hns : |ns| = (c.hour * 3600 + c.minute * 60 + c.second) * 1000000000 +
      Productions.nanoseconds c.fraction) :
    (Productions.utcOffset true).derives ((if 0 ≤ ns then ch '+' else ch '-') :: w) ns := by
  by_cases hpos : 0 ≤ ns
  · refine ⟨[ch '+'], w, 1, by rw [if_pos hpos]; rfl, .inl ⟨rfl, rfl⟩, w, [], c,
      (List.append_nil w).symm, hc, rfl, ?_⟩
    rw [← hns, one_mul, abs_of_nonneg hpos]
  · refine ⟨[ch '-'], w, -1, by rw [if_neg hpos]; rfl, .inr ⟨rfl, rfl⟩, w, [], c,
      (List.append_nil w).symm, hc, rfl, ?_⟩
    rw [← hns, abs_of_neg (not_le.mp hpos)]
    ring

theorem derives_formatUtcOffsetNanoseconds {ns : ℤ} (hns : |ns| < nsPerDay) :
    (Productions.utcOffset true).derives (formatUtcOffsetNanoseconds ns) ns := by
  have habs : 0 ≤ |ns| := abs_nonneg ns
  rw [nsPerDay] at hns
  rw [formatUtcOffsetNanoseconds]
  by_cases hwhole : |ns| / 1000000000 % 60 = 0 ∧ |ns| % 1000000000 = 0
  · rw [if_pos hwhole]
    refine derives_signedClock (derives_minutePrecision (by omega) (by omega) (by omega) (by omega) 59) ?_
    have hzero : Productions.nanoseconds [] = 0 := rfl
    dsimp only
    rw [hzero]
    omega
  · rw [if_neg hwhole]
    obtain ⟨f, hf, hclock⟩ := @derives_autoPrecision (|ns| / 3600000000000) (|ns| / 60000000000 % 60)
      (|ns| / 1000000000 % 60) (|ns| % 1000000000) (by omega) (by omega) (by omega) (by omega)
      (by omega) (by omega) (by omega) (by omega) 59 le_rfl
    refine derives_signedClock hclock ?_
    dsimp only
    rw [hf]
    omega

end CtBrowser.Script.Temporal
