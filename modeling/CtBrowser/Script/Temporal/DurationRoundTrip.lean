import CtBrowser.Script.Temporal.DurationReading

/-!
# Round Trips of Durations

A text is a duration if and only if the grammar derives it and its value is valid: the digits of a
valid duration are numbers that a double holds. What a valid duration is written as reads back with
the same fields down to the minutes, and with the same time below them.

## Main definitions

- `Productions.duration` — the grammar of durations, with their values.
- `Duration`, `SameDuration` — valid durations, and those that a string does not tell apart.

## Main results

- `nearestDouble_of_lt`, `nearestDouble_ge` — numbers that a double holds are read as they are, and
  greater ones as no smaller than those.
- `parseTemporalDurationString_eq_some` — the parser of durations recognises the valid ones.
- `exists_parse_temporalDurationToString` — the round trip.
-/

namespace CtBrowser.Script.Temporal

open Foundations.Reading Foundations.Reading.Grammar

namespace Productions

/-- The nanoseconds of the fraction of a duration, which is on one of its units. -/
def fractionNs (d : DurationText) : ℤ :=
  nanoseconds d.fHours * 3600 + nanoseconds d.fMinutes * 60 + nanoseconds d.fSeconds

/-- The duration that its digits write, the fraction carried down to the nanoseconds. -/
def durationValue (factor : ℤ) (d : DurationText) : DurationRecord :=
  scaleDuration factor ⟨decimal d.years, decimal d.months, decimal d.weeks, decimal d.days,
    decimal d.hours, decimal d.minutes + fractionNs d / 60000000000,
    decimal d.seconds + fractionNs d / 1000000000 % 60, fractionNs d / 1000000 % 1000,
    fractionNs d / 1000 % 1000, fractionNs d % 1000⟩

def duration : Grammar UInt8 DurationRecord := do
  let x ← durationFields
  pure (durationValue x.1 x.2)

end Productions

/-! ## Validity -/

theorem signsAgree_of_pos {sign : ℤ} (hsign : 0 < sign) {vs : List ℤ} :
    signsAgree sign vs = true ↔ ∀ v ∈ vs, 0 ≤ v := by
  induction vs generalizing sign with
  | nil => simp [signsAgree]
  | cons v vs ih =>
    rw [signsAgree, List.forall_mem_cons]
    split_ifs with hneg hpos
    · exact iff_of_false id fun h => absurd h.1 (not_le.mpr hneg)
    · omega
    · rw [ih one_pos]
      exact (and_iff_right (not_lt.mp hneg)).symm
    · rw [ih hsign]
      exact (and_iff_right (not_lt.mp hneg)).symm

theorem signsAgree_of_neg {sign : ℤ} (hsign : sign < 0) {vs : List ℤ} :
    signsAgree sign vs = true ↔ ∀ v ∈ vs, v ≤ 0 := by
  induction vs generalizing sign with
  | nil => simp [signsAgree]
  | cons v vs ih =>
    rw [signsAgree, List.forall_mem_cons]
    split_ifs with hneg hpos
    · omega
    · rw [ih (by omega)]
      exact (and_iff_right hneg.le).symm
    · exact iff_of_false id fun h => by omega
    · rw [ih hsign]
      exact (and_iff_right (by omega)).symm

theorem signsAgree_iff {vs : List ℤ} :
    signsAgree 0 vs = true ↔ (∀ v ∈ vs, 0 ≤ v) ∨ ∀ v ∈ vs, v ≤ 0 := by
  induction vs with
  | nil => simp [signsAgree]
  | cons v vs ih =>
    rw [signsAgree, List.forall_mem_cons, List.forall_mem_cons]
    rcases lt_trichotomy v 0 with hneg | rfl | hpos
    · rw [if_pos hneg, if_neg (lt_irrefl 0), signsAgree_of_neg (by norm_num)]
      exact ⟨fun h => .inr ⟨hneg.le, h⟩, fun h => h.elim (fun h => absurd h.1 (not_le.mpr hneg)) And.right⟩
    · simpa using ih
    · rw [if_neg hpos.not_gt, if_pos hpos, if_neg (lt_irrefl 0), signsAgree_of_pos one_pos]
      exact ⟨fun h => .inl ⟨hpos.le, h⟩, fun h => h.elim And.right fun h => absurd h.1 (not_le.mpr hpos)⟩

/-- The total of a duration from its days on. -/
def timeTotal (d : DurationRecord) : ℤ :=
  d.days * nsPerDay + timeDurationFromComponents d.hours d.minutes d.seconds d.milliseconds
    d.microseconds d.nanoseconds

theorem isValidDuration_iff {d : DurationRecord} : isValidDuration d = true ↔
    ((∀ v ∈ d.fields, 0 ≤ v) ∨ ∀ v ∈ d.fields, v ≤ 0) ∧
    (|d.years| < 2 ^ 32 ∧ |d.months| < 2 ^ 32 ∧ |d.weeks| < 2 ^ 32) ∧
    (|d.days| ≤ 105000000000 ∧ |d.hours| ≤ 2600000000000 ∧ |d.minutes| ≤ 160000000000000 ∧
      |d.seconds| ≤ 9100000000000000 ∧ |d.milliseconds| ≤ 9100000000000000000 ∧
      |d.microseconds| ≤ 9100000000000000000000 ∧ |d.nanoseconds| ≤ 9099999999999999471517696) ∧
    |timeTotal d| ≤ maxTimeDuration := by
  have hlimits : ((d.timeFields.zip timeFieldLimits).any fun x => x.2 < |x.1|) = true ↔
      ¬ (|d.days| ≤ 105000000000 ∧ |d.hours| ≤ 2600000000000 ∧ |d.minutes| ≤ 160000000000000 ∧
      |d.seconds| ≤ 9100000000000000 ∧ |d.milliseconds| ≤ 9100000000000000000 ∧
      |d.microseconds| ≤ 9100000000000000000000 ∧ |d.nanoseconds| ≤ 9099999999999999471517696) := by
    simp only [DurationRecord.timeFields, timeFieldLimits, List.zip_cons_cons, List.zip_nil_right,
      List.any_cons, List.any_nil, Bool.or_eq_true, decide_eq_true_eq, Bool.or_false, not_and_or, not_le]
  rw [isValidDuration, ← signsAgree_iff]
  by_cases hsigns : signsAgree 0 d.fields = false
  · rw [if_pos hsigns]
    exact iff_of_false Bool.false_ne_true fun h => Bool.false_ne_true (hsigns.symm.trans h.1)
  rw [if_neg hsigns]
  by_cases hlarge : 2 ^ 32 ≤ |d.years| ∨ 2 ^ 32 ≤ |d.months| ∨ 2 ^ 32 ≤ |d.weeks|
  · rw [if_pos hlarge]
    refine iff_of_false Bool.false_ne_true fun h => ?_
    obtain ⟨-, ⟨hy, hm, hw⟩, -⟩ := h
    omega
  rw [if_neg hlarge]
  by_cases hover : ((d.timeFields.zip timeFieldLimits).any fun x => x.2 < |x.1|) = true
  · rw [if_pos hover]
    exact iff_of_false Bool.false_ne_true fun h => hlimits.mp hover h.2.2.1
  rw [if_neg hover, decide_eq_true_eq]
  rw [not_or, not_or, not_le, not_le, not_le] at hlarge
  exact ⟨fun h => ⟨Bool.eq_true_of_not_eq_false hsigns, hlarge, not_not.mp (hlimits.not.mp hover), h⟩,
    fun h => h.2.2.2⟩

theorem valid_bounds {d : DurationRecord} (h : isValidDuration d = true) :
    |d.years| < 2 ^ 53 ∧ |d.months| < 2 ^ 53 ∧ |d.weeks| < 2 ^ 53 ∧ |d.days| < 2 ^ 53 ∧
      |d.hours| < 2 ^ 53 ∧ |d.minutes| < 2 ^ 53 ∧ |d.seconds| < 2 ^ 53 := by
  obtain ⟨hsigns, ⟨hy, hm, hw⟩, ⟨hd, hh, hmin, -⟩, htotal⟩ := isValidDuration_iff.mp h
  refine ⟨by omega, by omega, by omega, by omega, by omega, by omega, ?_⟩
  simp only [DurationRecord.fields, List.forall_mem_cons] at hsigns
  rw [timeTotal, timeDurationFromComponents, nsPerDay, maxTimeDuration, abs_le] at htotal
  rw [abs_lt]
  omega

/-! ## Values -/

theorem nearestDouble_of_lt {n : ℕ} (h : n < 2 ^ 53) : nearestDouble n = n := by
  rw [nearestDouble, if_pos h]

/-- A number that a double may not hold is read as one no smaller than any that it does. -/
theorem nearestDouble_ge {n : ℕ} (h : 2 ^ 53 ≤ n) : 2 ^ 53 ≤ nearestDouble n := by
  have hlog : 53 ≤ Nat.log 2 n := Nat.le_log_of_pow_le (by norm_num) h
  obtain ⟨e, he⟩ : ∃ e, Nat.log 2 n = e + 52 := ⟨Nat.log 2 n - 52, by omega⟩
  have hpow : 2 ^ (e + 52) ≤ n := he ▸ Nat.pow_log_le_self 2 (by omega)
  have hquotient : 2 ^ 52 ≤ n / 2 ^ e := by
    rw [Nat.le_div_iff_mul_le (by positivity), ← pow_add, add_comm]
    exact hpow
  have hscale : 2 ^ 53 ≤ n / 2 ^ e * 2 ^ e := by
    calc 2 ^ 53 = 2 ^ 52 * 2 ^ 1 := by norm_num
      _ ≤ n / 2 ^ e * 2 ^ e := Nat.mul_le_mul hquotient (Nat.pow_le_pow_right (by norm_num) (by omega))
  rw [nearestDouble, if_neg (by omega), he, Nat.add_sub_cancel]
  dsimp only
  split_ifs
  · exact hscale.trans (Nat.mul_le_mul_right _ (Nat.le_succ _))
  · exact hscale

theorem toNumber_of_lt {digits : Text} (h : decimal digits < 2 ^ 53) :
    toNumber digits = some (decimal digits : ℤ) := by
  have hfinite : 2 ^ 53 < 2 ^ 1024 := Nat.pow_lt_pow_right (by norm_num) (by norm_num)
  rw [toNumber, nearestDouble_of_lt h, if_pos (h.trans hfinite)]

theorem decimal_lt_of_toNumber {digits : Text} {v : ℤ} (h : toNumber digits = some v) (s : ℤ)
    (hs : s = 1 ∨ s = -1) (hv : |v * s| < 2 ^ 53) : decimal digits < 2 ^ 53 := by
  rw [toNumber] at h
  split_ifs at h
  cases h
  by_contra hge
  have hlarge := nearestDouble_ge (not_lt.mp hge)
  have habs : |(nearestDouble (decimal digits) : ℤ) * s| = nearestDouble (decimal digits) := by
    rcases hs with rfl | rfl <;> simp
  rw [habs] at hv
  omega

/-- The digits of a fraction, if any. -/
def IsFraction (f : Text) : Prop := f.length ≤ 9 ∧ ∀ b ∈ f, isAsciiDigit b = true

theorem isFraction_nil : IsFraction [] := ⟨Nat.zero_le 9, fun _ hb => absurd hb List.not_mem_nil⟩

/-- What the grammar says of the fields of a duration: a sign, one fraction at most, and nothing
below it. -/
structure WellFormed (factor : ℤ) (d : DurationText) : Prop where
  factor : factor = 1 ∨ factor = -1
  hours : IsFraction d.fHours
  minutes : IsFraction d.fMinutes
  seconds : IsFraction d.fSeconds
  hours_last : d.fHours ≠ [] → d.minutes = [] ∧ d.seconds = [] ∧ d.fMinutes = [] ∧ d.fSeconds = []
  minutes_last : d.fMinutes ≠ [] → d.seconds = [] ∧ d.fSeconds = []

theorem fractional_isFraction {d : UInt8} {u : Text} {x : Text × Text}
    (hu : (Productions.fractional d).derives u x) : IsFraction x.2 := by
  obtain ⟨_, _, n, rfl, -, _, _, f, rfl, ⟨_, _, _, rfl, -, rfl, ⟨-, hlength⟩, hdigits⟩, _, _, _, rfl, -,
    rfl, rfl⟩ := hu
  exact ⟨hlength, hdigits⟩

theorem component_fraction {d : UInt8} {u : Text} {x : Text × Text}
    (hu : (Productions.component d).derives u x) : x.2 = [] := by
  obtain ⟨_, _, n, rfl, -, _, _, _, rfl, -, rfl, rfl⟩ := hu
  rfl

theorem wellFormed_of_derives {t : Text} {factor : ℤ} {d : DurationText}
    (ht : Productions.durationFields.derives t (factor, d)) : WellFormed factor d := by
  obtain ⟨us, _, s, rfl, hs, up, _, _, rfl, -, ud, _, x, rfl, hx, ht⟩ := ht
  have hfactor : s.getD 1 = 1 ∨ s.getD 1 = -1 := by
    rcases hs with ⟨-, rfl⟩ | ⟨s, rfl, ⟨-, rfl⟩ | ⟨-, rfl⟩⟩
    · exact .inl rfl
    · exact .inl rfl
    · exact .inr rfl
  obtain ⟨_, _, y, rfl, -, _, _, m, rfl, -, _, _, w, rfl, -, _, _, dd, rfl, -, rfl, rfl⟩ := hx
  have hnil := isFraction_nil
  rcases ht with ht | ⟨_, _, _, rfl, -, ut, _, d', rfl, htime, rfl, heq⟩
  · obtain ⟨-, rfl, heq⟩ := derives_require_bind.mp ht
    obtain ⟨rfl, rfl⟩ := Prod.mk.inj heq
    exact ⟨hfactor, hnil, hnil, hnil, by simp, by simp⟩
  · obtain ⟨rfl, rfl⟩ := Prod.mk.inj heq
    rcases htime with ⟨_, _, h, rfl, hh, rfl, rfl⟩ | ⟨_, _, h, rfl, -, htime⟩
    · exact ⟨hfactor, fractional_isFraction hh, hnil, hnil, by simp, by simp⟩
    · rcases htime with ⟨_, _, m, rfl, hm, rfl, rfl⟩ | ⟨_, _, m, rfl, -, _, _, s', rfl, hs', hreq⟩
      · exact ⟨hfactor, hnil, fractional_isFraction hm, hnil, by simp, by simp⟩
      · obtain ⟨-, rfl, rfl⟩ := derives_require_bind.mp hreq
        refine ⟨hfactor, hnil, hnil, ?_, by simp, by simp⟩
        rcases hs' with ⟨-, rfl⟩ | ⟨x, rfl, hx | hx⟩
        · exact hnil
        · exact (component_fraction hx).symm ▸ hnil
        · exact fractional_isFraction hx

theorem decimal_lt {f : Text} (hf : ∀ b ∈ f, isAsciiDigit b = true) : decimal f < 10 ^ f.length := by
  induction f using List.reverseRecOn with
  | nil => norm_num
  | append_singleton f b ih =>
    have hb := (isAsciiDigit_iff b).mp (hf b (by simp))
    have hprefix := ih fun x hx => hf x (List.mem_append_left _ hx)
    rw [decimal_concat, List.length_append, List.length_singleton, pow_succ]
    omega

theorem decimal_append_zeros (f : Text) (n : ℕ) :
    decimal (f ++ List.replicate n (ch '0')) = decimal f * 10 ^ n := by
  have hzero : (ch '0').toNat = 48 := rfl
  induction n with
  | zero => rw [List.replicate_zero, List.append_nil, pow_zero, mul_one]
  | succ n ih =>
    rw [List.replicate_succ', ← List.append_assoc, decimal_concat, ih, hzero, pow_succ]
    ring

theorem nanoseconds_bounds {f : Text} (hf : IsFraction f) :
    0 ≤ Productions.nanoseconds f ∧ Productions.nanoseconds f < 1000000000 := by
  rw [Productions.nanoseconds, decimal_append_zeros]
  refine ⟨Int.natCast_nonneg _, ?_⟩
  have hlt : decimal f * 10 ^ (9 - f.length) < 10 ^ f.length * 10 ^ (9 - f.length) :=
    Nat.mul_lt_mul_of_pos_right (decimal_lt hf.2) (by positivity)
  rw [← pow_add, Nat.add_sub_cancel' hf.1] at hlt
  exact_mod_cast hlt

theorem fractionOfUnit_eq {f : Text} (hf : IsFraction f) (k : ℕ) :
    fractionOfUnit f (k * 1000000000) = Productions.nanoseconds f * k := by
  have hsplit : (1000000000 : ℕ) = 10 ^ (9 - f.length) * 10 ^ f.length := by
    rw [← pow_add, Nat.sub_add_cancel hf.1]
    norm_num
  rw [fractionOfUnit, Productions.nanoseconds, decimal_append_zeros, hsplit]
  have hassoc : decimal f * (k * (10 ^ (9 - f.length) * 10 ^ f.length)) =
      decimal f * 10 ^ (9 - f.length) * k * 10 ^ f.length := by ring
  rw [hassoc, Nat.mul_div_cancel _ (by positivity)]
  push_cast
  ring

theorem fractionNs_nonneg {factor : ℤ} {d : DurationText} (hd : WellFormed factor d) :
    0 ≤ Productions.fractionNs d := by
  have hhours := (nanoseconds_bounds hd.hours).1
  have hminutes := (nanoseconds_bounds hd.minutes).1
  have hseconds := (nanoseconds_bounds hd.seconds).1
  rw [Productions.fractionNs]
  omega

/-- The fields below the hours, where doubles hold the numbers. -/
theorem spreadFields_eq {factor : ℤ} {d : DurationText} (hd : WellFormed factor d)
    (hminutes : decimal d.minutes < 2 ^ 53) (hseconds : decimal d.seconds < 2 ^ 53) :
    spreadFields d = some
      { minutes := decimal d.minutes + Productions.fractionNs d / 60000000000,
        seconds := decimal d.seconds + Productions.fractionNs d / 1000000000 % 60,
        milliseconds := Productions.fractionNs d / 1000000 % 1000,
        microseconds := Productions.fractionNs d / 1000 % 1000,
        nanoseconds := Productions.fractionNs d % 1000 } := by
  have hzero : Productions.nanoseconds [] = 0 := rfl
  have hhour := fractionOfUnit_eq hd.hours 3600
  have hminute := fractionOfUnit_eq hd.minutes 60
  have hsecond := fractionOfUnit_eq hd.seconds 1
  norm_num at hhour hminute hsecond
  rw [spreadFields, toNumber_of_lt hminutes, toNumber_of_lt hseconds]
  by_cases hfh : d.fHours = []
  · rw [if_neg (not_not.mpr hfh)]
    by_cases hfm : d.fMinutes = []
    · -- a fraction of a second, or none
      have hns : (if d.fSeconds ≠ [] then fractionOfUnit d.fSeconds 1000000000 else 0) =
          Productions.fractionNs d := by
        rw [Productions.fractionNs, hfh, hfm, hzero, zero_mul, zero_mul, zero_add, zero_add]
        split_ifs with hfs
        · exact hsecond
        · rw [not_not.mp hfs, hzero]
      have hlt : Productions.fractionNs d < 1000000000 := by
        rw [Productions.fractionNs, hfh, hfm, hzero]
        have := (nanoseconds_bounds hd.seconds).2
        omega
      have hnonneg := fractionNs_nonneg hd
      have hup : Productions.fractionNs d / 60000000000 = 0 ∧
          Productions.fractionNs d / 1000000000 % 60 = 0 := by omega
      simp only [Option.bind_eq_bind, Option.bind_some, if_neg (not_not.mpr hfm), hns, hup.1, hup.2,
        add_zero]
    · obtain ⟨hs, hfs⟩ := hd.minutes_last hfm
      have hns : fractionOfUnit d.fMinutes 60000000000 = Productions.fractionNs d := by
        rw [hminute, Productions.fractionNs, hfh, hfs, hzero]
        ring
      have hlt : Productions.fractionNs d < 60000000000 := by
        rw [Productions.fractionNs, hfh, hfs, hzero]
        have := (nanoseconds_bounds hd.minutes).2
        omega
      have hup : Productions.fractionNs d / 60000000000 = 0 := by
        have := fractionNs_nonneg hd
        omega
      simp only [Option.bind_eq_bind, Option.bind_some, if_pos hfm, hns, hup, hs, decimal_nil, add_zero,
        Nat.cast_zero, zero_add]
  · obtain ⟨hm, hs, hfm, hfs⟩ := hd.hours_last hfh
    have hns : fractionOfUnit d.fHours 3600000000000 = Productions.fractionNs d := by
      rw [hhour, Productions.fractionNs, hfm, hfs, hzero]
      ring
    simp only [if_pos hfh, hns, hm, hs, decimal_nil, Nat.cast_zero, zero_add]

/-- The numbers of a duration that a double holds. -/
def Exact (d : DurationText) : Prop :=
  ∀ digits ∈ [d.years, d.months, d.weeks, d.days, d.hours, d.minutes, d.seconds], decimal digits < 2 ^ 53

theorem durationOf_eq {factor : ℤ} {d : DurationText} (hd : WellFormed factor d) (hexact : Exact d) :
    durationOf factor d = some (Productions.durationValue factor d) := by
  simp only [Exact, List.forall_mem_cons] at hexact
  obtain ⟨hy, hmo, hw, hdd, hh, hm, hs, -⟩ := hexact
  rw [durationOf, spreadFields_eq hd hm hs, toNumber_of_lt hy, toNumber_of_lt hmo, toNumber_of_lt hw,
    toNumber_of_lt hdd, toNumber_of_lt hh]
  rfl

theorem exact_of_spreadFields {factor : ℤ} {d : DurationText} {r : DurationRecord}
    (hd : WellFormed factor d) (hr : spreadFields d = some r) (hm : |r.minutes * factor| < 2 ^ 53)
    (hs : |r.seconds * factor| < 2 ^ 53) : decimal d.minutes < 2 ^ 53 ∧ decimal d.seconds < 2 ^ 53 := by
  have hnil : decimal [] < 2 ^ 53 := by norm_num
  rw [spreadFields] at hr
  by_cases hfh : d.fHours = []
  · rw [if_neg (not_not.mpr hfh)] at hr
    obtain ⟨m, hminutes, hr⟩ := Option.bind_eq_some_iff.mp hr
    by_cases hfm : d.fMinutes = []
    · rw [if_neg (not_not.mpr hfm)] at hr
      obtain ⟨s, hseconds, hr⟩ := Option.bind_eq_some_iff.mp hr
      cases hr
      exact ⟨decimal_lt_of_toNumber hminutes factor hd.factor hm,
        decimal_lt_of_toNumber hseconds factor hd.factor hs⟩
    · rw [if_pos hfm] at hr
      cases hr
      rw [(hd.minutes_last hfm).1]
      exact ⟨decimal_lt_of_toNumber hminutes factor hd.factor hm, hnil⟩
  · obtain ⟨hm', hs', -⟩ := hd.hours_last hfh
    rw [hm', hs']
    exact ⟨hnil, hnil⟩

theorem exact_of_durationOf {factor : ℤ} {d : DurationText} {r : DurationRecord}
    (hd : WellFormed factor d) (hr : durationOf factor d = some r) (hvalid : isValidDuration r = true) :
    Exact d := by
  simp only [durationOf, Option.bind_eq_bind, Option.bind_eq_some_iff] at hr
  obtain ⟨y, hy, mo, hmo, w, hw, days, hdays, h, hh, below, hbelow, hr⟩ := hr
  cases hr
  obtain ⟨hy', hmo', hw', hdays', hh', hm', hs'⟩ := valid_bounds hvalid
  obtain ⟨hm, hs⟩ := exact_of_spreadFields hd hbelow hm' hs'
  have hread : ∀ {digits v}, toNumber digits = some v → |v * factor| < 2 ^ 53 → decimal digits < 2 ^ 53 :=
    fun hv hlt => decimal_lt_of_toNumber hv factor hd.factor hlt
  simp only [Exact, List.forall_mem_cons]
  exact ⟨hread hy hy', hread hmo hmo', hread hw hw', hread hdays hdays', hread hh hh', hm, hs,
    fun _ h => absurd h List.not_mem_nil⟩

theorem exact_of_durationValue {factor : ℤ} {d : DurationText} (hd : WellFormed factor d)
    (hvalid : isValidDuration (Productions.durationValue factor d) = true) : Exact d := by
  obtain ⟨hy, hmo, hw, hdays, hh, hm, hs⟩ := valid_bounds hvalid
  have hnonneg := fractionNs_nonneg hd
  have habs : ∀ n : ℤ, |n * factor| = |n| := fun n => by rcases hd.factor with h | h <;> simp [h]
  rw [Productions.durationValue, scaleDuration] at hy hmo hw hdays hh hm hs
  dsimp only at hy hmo hw hdays hh hm hs
  rw [habs, abs_lt] at hy hmo hw hdays hh hm hs
  simp only [Exact, List.forall_mem_cons]
  exact ⟨by omega, by omega, by omega, by omega, by omega, by omega, by omega,
    fun _ h => absurd h List.not_mem_nil⟩

/-- A text is a duration if and only if the grammar derives it and its value is valid. -/
theorem parseTemporalDurationString_eq_some {t : Text} {r : DurationRecord} :
    parseTemporalDurationString t = some r ↔
      Productions.duration.derives t r ∧ isValidDuration r = true := by
  rw [parseTemporalDurationString]
  constructor
  · intro h
    split at h
    · next factor d hfields =>
      split at h
      · next result hresult =>
        obtain ⟨hvalid, rfl⟩ : isValidDuration result = true ∧ result = r := by simpa using h
        have hderives := durationFields_eq_some.mp hfields
        have hd := wellFormed_of_derives hderives
        rw [durationOf_eq hd (exact_of_durationOf hd hresult hvalid)] at hresult
        cases hresult
        exact ⟨⟨t, [], _, (List.append_nil t).symm, hderives, rfl, rfl⟩, hvalid⟩
      · cases h
    · cases h
  · rintro ⟨⟨_, _, ⟨factor, d⟩, rfl, hderives, rfl, rfl⟩, hvalid⟩
    have hd := wellFormed_of_derives hderives
    rw [List.append_nil, durationFields_eq_some.mpr hderives]
    dsimp only
    rw [durationOf_eq hd (exact_of_durationValue hd hvalid)]
    dsimp only
    rw [if_pos hvalid]

/-! ## Round trip -/

theorem signOf_nonneg {vs : List ℤ} (h : ∀ v ∈ vs, 0 ≤ v) : ¬ signOf vs < 0 := by
  induction vs with
  | nil => exact lt_irrefl 0
  | cons v vs ih =>
    obtain ⟨hv, hvs⟩ := List.forall_mem_cons.mp h
    rw [signOf, if_neg (not_lt.mpr hv)]
    split_ifs
    · norm_num
    · exact ih hvs

theorem nonneg_of_signOf {vs : List ℤ} (h : ∀ v ∈ vs, v ≤ 0) (hsign : ¬ signOf vs < 0) :
    ∀ v ∈ vs, 0 ≤ v := by
  induction vs with
  | nil => exact fun _ hv => absurd hv List.not_mem_nil
  | cons v vs ih =>
    obtain ⟨hv, hvs⟩ := List.forall_mem_cons.mp h
    rw [signOf] at hsign
    by_cases hneg : v < 0
    · rw [if_pos hneg] at hsign
      exact absurd (by norm_num) hsign
    · rw [if_neg hneg, if_neg (not_lt.mpr hv)] at hsign
      exact List.forall_mem_cons.mpr ⟨not_lt.mp hneg, ih hvs hsign⟩

/-- The factor of the sign that a duration is written with. -/
def writtenFactor (d : DurationRecord) : ℤ := if durationSign d < 0 then -1 else 1

theorem abs_mul_writtenFactor {d : DurationRecord} (hvalid : isValidDuration d = true) :
    ∀ v ∈ d.fields, |v| * writtenFactor d = v := by
  intro v hv
  rw [writtenFactor, durationSign]
  rcases (isValidDuration_iff.mp hvalid).1 with hpos | hneg
  · rw [if_neg (signOf_nonneg hpos), mul_one, abs_of_nonneg (hpos v hv)]
  · by_cases hsign : signOf d.fields < 0
    · rw [if_pos hsign, abs_of_nonpos (hneg v hv)]
      ring
    · rw [if_neg hsign, mul_one, abs_of_nonneg (nonneg_of_signOf hneg hsign v hv)]

theorem writtenFactor_cases (d : DurationRecord) : writtenFactor d = 1 ∨ writtenFactor d = -1 := by
  rw [writtenFactor]
  split_ifs
  · exact .inr rfl
  · exact .inl rfl

theorem mul_writtenFactor {d : DurationRecord} (hvalid : isValidDuration d = true) :
    ∀ v ∈ d.fields, v * writtenFactor d = |v| := by
  intro v hv
  have habs := abs_mul_writtenFactor hvalid v hv
  rcases writtenFactor_cases d with h | h <;> rw [h] at habs ⊢ <;> omega

/-- The seconds of a duration and what is below them, in nanoseconds. -/
def secondsTotal (d : DurationRecord) : ℤ :=
  timeDurationFromComponents 0 0 d.seconds d.milliseconds d.microseconds d.nanoseconds

/-- The digits of a field that is written. -/
def partOf (v : ℤ) : Option (Text × Text) := if v = 0 then none else some (i128ToString |v|, [])

theorem derives_durationPart (v : ℤ) (designator : UInt8) :
    (Productions.component designator).opt.derives (durationPart v designator) (partOf v) := by
  obtain ⟨hdigits, -, hne⟩ := i128ToString_spec (abs_nonneg v)
  rw [durationPart, partOf]
  by_cases hv : v = 0
  · rw [if_pos hv, if_pos hv]
    exact .inl ⟨rfl, rfl⟩
  · rw [if_neg hv, if_neg hv]
    exact .inr ⟨_, rfl, _, _, _, rfl, ⟨rfl, hne, hdigits⟩, _, [], (), rfl, .inl rfl, rfl, rfl⟩

theorem decimal_digitsOf_partOf (v : ℤ) : (decimal (digitsOf (partOf v)) : ℤ) = |v| := by
  rw [partOf]
  split_ifs with hv
  · rw [hv]
    rfl
  · obtain ⟨-, hdecimal, -⟩ := i128ToString_spec (abs_nonneg v)
    have hread : digitsOf (some (i128ToString |v|, ([] : Text))) = i128ToString |v| := rfl
    rw [hread, hdecimal, Int.natCast_natAbs, abs_abs]

theorem durationPart_eq_nil {v : ℤ} {designator : UInt8} (h : durationPart v designator = []) : v = 0 := by
  rw [durationPart] at h
  split_ifs at h with hv
  · exact hv
  · exact absurd h (List.append_ne_nil_of_right_ne_nil _ (List.cons_ne_nil _ _))

theorem exists_writtenSeconds (total : ℤ) : ∃ f : Text, Productions.nanoseconds f = |Int.tmod total 1000000000| ∧
    (Productions.smallest (ch 'S')).derives
      (i128ToString |Int.tdiv total 1000000000| ++
        formatFractionalSeconds |Int.tmod total 1000000000| precisionAuto ++ [ch 'S'])
      (i128ToString |Int.tdiv total 1000000000|, f) := by
  obtain ⟨hdigits, -, hne⟩ := i128ToString_spec (abs_nonneg (Int.tdiv total 1000000000))
  have hlt : |Int.tmod total 1000000000| < 1000000000 := by
    rw [abs_lt]
    exact ⟨Int.lt_tmod_of_pos total (by norm_num), Int.tmod_lt_of_pos total (by norm_num)⟩
  rw [formatFractionalSeconds, if_pos rfl]
  by_cases hzero : |Int.tmod total 1000000000| = 0
  · rw [if_pos hzero, hzero, List.append_nil]
    exact ⟨[], rfl, .inl ⟨_, _, _, rfl, ⟨rfl, hne, hdigits⟩, _, [], (), rfl, .inl rfl, rfl, rfl⟩⟩
  · have hpos := abs_nonneg (Int.tmod total 1000000000)
    obtain ⟨hns, hfraction, hlow, hhigh⟩ := fractionNanoseconds_trimmed (by omega) hlt
    rw [if_neg hzero, List.append_assoc]
    refine ⟨trimZeros (zeroPadded |Int.tmod total 1000000000| 9), ?_, .inr ⟨_, _, _, rfl,
      ⟨rfl, hne, hdigits⟩, _, _, _, rfl, ⟨[ch '.'], _, (), rfl, .inl rfl, rfl, ⟨hlow, hhigh⟩, hfraction⟩,
      _, [], (), rfl, .inl rfl, rfl, rfl⟩⟩
    rw [← fractionNanoseconds_eq hhigh, hns]
    omega

/-- Whether the seconds of a duration are written. -/
def WritesSeconds (d : DurationRecord) : Prop :=
  secondsTotal d ≠ 0 ∨ DurationUnit.second.ctorIdx ≤ (defaultLargestUnit d).ctorIdx

theorem writes_date {d : DurationRecord} (hs : ¬ WritesSeconds d) (hh : d.hours = 0) (hm : d.minutes = 0) :
    d.years ≠ 0 ∨ d.months ≠ 0 ∨ d.weeks ≠ 0 ∨ d.days ≠ 0 := by
  by_contra hzero
  simp only [not_or, not_not] at hzero
  obtain ⟨hy, hmo, hw, hd⟩ := hzero
  refine hs (.inr ?_)
  rw [defaultLargestUnit]
  simp only [hy, hmo, hw, hd, hh, hm, ne_eq, not_true_eq_false, if_false]
  split_ifs <;> decide

/-- The digits of a duration as it is written, with those of its seconds. -/
def textOf (d : DurationRecord) (s : Option (Text × Text)) : DurationText :=
  { years := digitsOf (partOf d.years), months := digitsOf (partOf d.months),
    weeks := digitsOf (partOf d.weeks), days := digitsOf (partOf d.days),
    hours := digitsOf (partOf d.hours), minutes := digitsOf (partOf d.minutes),
    seconds := digitsOf s, fSeconds := fractionOf s }

/-- The text of the seconds of a duration. -/
def secondsText (d : DurationRecord) : Text :=
  if secondsTotal d ≠ 0 ∨ decide (DurationUnit.second.ctorIdx ≤ (defaultLargestUnit d).ctorIdx) = true ∨
      precisionAuto ≠ precisionAuto then
    i128ToString |Int.tdiv (secondsTotal d) 1000000000| ++
      formatFractionalSeconds |Int.tmod (secondsTotal d) 1000000000| precisionAuto ++ [ch 'S']
  else []

theorem exists_secondsText (d : DurationRecord) : ∃ s : Option (Text × Text),
    (decimal (digitsOf s) : ℤ) = |Int.tdiv (secondsTotal d) 1000000000| ∧
    Productions.nanoseconds (fractionOf s) = |Int.tmod (secondsTotal d) 1000000000| ∧
    (Productions.smallest (ch 'S')).opt.derives (secondsText d) s ∧
    (secondsText d = [] → s = none ∧ ¬ WritesSeconds d) := by
  rw [secondsText]
  by_cases hwrites : WritesSeconds d
  · obtain ⟨f, hf, hs⟩ := exists_writtenSeconds (secondsTotal d)
    obtain ⟨-, hdecimal, -⟩ := i128ToString_spec (abs_nonneg (Int.tdiv (secondsTotal d) 1000000000))
    rw [if_pos (hwrites.imp id fun h => .inl (decide_eq_true h))]
    refine ⟨some (_, f), ?_, hf, .inr ⟨_, rfl, hs⟩, fun h => ?_⟩
    · have hread : digitsOf (some (i128ToString |Int.tdiv (secondsTotal d) 1000000000|, f)) =
          i128ToString |Int.tdiv (secondsTotal d) 1000000000| := rfl
      rw [hread, hdecimal, Int.natCast_natAbs, abs_abs]
    · exact absurd h (List.append_ne_nil_of_right_ne_nil _ (List.cons_ne_nil _ _))
  · have htotal : secondsTotal d = 0 := not_not.mp fun h => hwrites (.inl h)
    rw [if_neg fun h => h.elim (absurd htotal) fun h => h.elim
      (fun h => hwrites (.inr (of_decide_eq_true h))) fun h => h rfl, htotal]
    exact ⟨none, rfl, rfl, .inl ⟨rfl, rfl⟩, fun _ => ⟨rfl, hwrites⟩⟩

theorem derives_temporalDurationToString (d : DurationRecord) : ∃ s : Option (Text × Text),
    (decimal (digitsOf s) : ℤ) = |Int.tdiv (secondsTotal d) 1000000000| ∧
    Productions.nanoseconds (fractionOf s) = |Int.tmod (secondsTotal d) 1000000000| ∧
    Productions.durationFields.derives (temporalDurationToString d precisionAuto)
      (writtenFactor d, textOf d s) := by
  obtain ⟨s, hvalue, hns, hs, hnone⟩ := exists_secondsText d
  obtain ⟨us, hus⟩ : ∃ us, us = secondsText d := ⟨_, rfl⟩
  rw [← hus] at hs hnone
  refine ⟨s, hvalue, hns, ?_⟩
  have hsign : Productions.asciiSign.opt.derives (if durationSign d < 0 then ascii "-" else [])
      (if durationSign d < 0 then some (-1) else none) := by
    split_ifs
    · exact .inr ⟨_, rfl, .inr ⟨rfl, rfl⟩⟩
    · exact .inl ⟨rfl, rfl⟩
  have hfactor : (if durationSign d < 0 then some (-1 : ℤ) else none).getD 1 = writtenFactor d := by
    rw [writtenFactor]
    split_ifs <;> rfl
  have hdate : Productions.durationDate.derives
      (durationPart d.years (ch 'Y') ++ (durationPart d.months (ch 'M') ++
        (durationPart d.weeks (ch 'W') ++ (durationPart d.days (ch 'D') ++ []))))
      ({ years := digitsOf (partOf d.years), months := digitsOf (partOf d.months),
         weeks := digitsOf (partOf d.weeks), days := digitsOf (partOf d.days) },
       (partOf d.years).isSome || (partOf d.months).isSome || (partOf d.weeks).isSome ||
         (partOf d.days).isSome) :=
    ⟨_, _, _, rfl, derives_durationPart d.years _, _, _, _, rfl, derives_durationPart d.months _, _, _, _,
      rfl, derives_durationPart d.weeks _, _, _, _, rfl, derives_durationPart d.days _, rfl, rfl⟩
  -- the text, bracketed as the grammar takes it apart
  have htext : temporalDurationToString d precisionAuto =
      (if durationSign d < 0 then ascii "-" else []) ++ ([ch 'P'] ++
        ((durationPart d.years (ch 'Y') ++ (durationPart d.months (ch 'M') ++
          (durationPart d.weeks (ch 'W') ++ (durationPart d.days (ch 'D') ++ [])))) ++
        if durationPart d.hours (ch 'H') ++ (durationPart d.minutes (ch 'M') ++ (us ++ [])) = [] then []
        else [ch 'T'] ++ (durationPart d.hours (ch 'H') ++ (durationPart d.minutes (ch 'M') ++ (us ++ []))))) := by
    rw [hus, secondsText]
    simp only [List.append_assoc, List.append_nil]
    simp only [temporalDurationToString, List.append_assoc]
    rfl
  rw [htext]
  by_cases htimed : durationPart d.hours (ch 'H') ++ (durationPart d.minutes (ch 'M') ++ (us ++ [])) = []
  · -- nothing of a time, so something of a date
    obtain ⟨hhours, hrest⟩ := List.append_eq_nil_iff.mp htimed
    obtain ⟨hminutes, hseconds⟩ := List.append_eq_nil_iff.mp hrest
    rw [List.append_nil] at hseconds
    obtain ⟨rfl, hnever⟩ := hnone hseconds
    have hh := durationPart_eq_nil hhours
    have hm := durationPart_eq_nil hminutes
    have hany := writes_date hnever hh hm
    rw [if_pos htimed]
    refine ⟨_, _, _, rfl, hsign, _, _, (), rfl, .inl rfl, _, _, _, rfl, hdate,
      .inl (derives_require_bind.mpr ⟨?_, rfl, ?_⟩)⟩
    · have hsome : ∀ {v : ℤ}, v ≠ 0 → (partOf v).isSome = true := fun hv => by
        rw [partOf, if_neg hv]
        rfl
      simp only [Bool.or_eq_true]
      exact hany.elim (fun h => .inl (.inl (.inl (hsome h)))) fun h => h.elim
        (fun h => .inl (.inl (.inr (hsome h)))) fun h => h.elim (fun h => .inl (.inr (hsome h)))
        fun h => .inr (hsome h)
    · rw [hfactor, textOf, hh, hm]
      rfl
  · rw [if_neg htimed]
    refine ⟨_, _, _, rfl, hsign, _, _, (), rfl, .inl rfl, _, _, _, rfl, hdate,
      .inr ⟨_, _, (), rfl, .inl rfl, _, [], textOf d s, (List.append_nil _).symm, .inr ⟨_, _, _, rfl,
        derives_durationPart d.hours _, .inr ⟨_, _, _, rfl, derives_durationPart d.minutes _, _, _, _, rfl,
          hs, derives_require_bind.mpr ⟨?_, rfl, rfl⟩⟩⟩, rfl, by rw [hfactor]⟩⟩
    by_contra hall
    simp only [not_or, not_not] at hall
    obtain ⟨hh, hm, rfl⟩ := hall
    have hzero : ∀ {v : ℤ} {c : UInt8}, partOf v = none → durationPart v c = [] := fun {v c} hv => by
      rw [partOf] at hv
      split_ifs at hv with h
      rw [durationPart, if_pos h]
    have hempty : us = [] := by
      rcases hs with ⟨h, -⟩ | ⟨_, h, -⟩
      · exact h
      · cases h
    exact htimed (by rw [hzero hh, hzero hm, hempty]; rfl)

theorem abs_tdiv_tmod (n : ℤ) {k : ℤ} (hk : 0 < k) :
    |Int.tdiv n k| = |n| / k ∧ |Int.tmod n k| = |n| % k := by
  rcases le_or_gt 0 n with hn | hn
  · rw [Int.tdiv_eq_ediv_of_nonneg hn, Int.tmod_eq_emod_of_nonneg hn, abs_of_nonneg hn,
      abs_of_nonneg (Int.ediv_nonneg hn hk.le), abs_of_nonneg (Int.emod_nonneg n hk.ne')]
    exact ⟨rfl, rfl⟩
  · obtain ⟨m, rfl⟩ : ∃ m, n = -m := ⟨-n, (neg_neg n).symm⟩
    have hm : 0 ≤ m := by omega
    rw [Int.neg_tdiv, Int.neg_tmod, abs_neg, abs_neg, abs_neg, Int.tdiv_eq_ediv_of_nonneg hm,
      Int.tmod_eq_emod_of_nonneg hm, abs_of_nonneg hm, abs_of_nonneg (Int.ediv_nonneg hm hk.le),
      abs_of_nonneg (Int.emod_nonneg m hk.ne')]
    exact ⟨rfl, rfl⟩

/-- Durations that agree down to the minutes, and in the time below them. -/
def SameDuration (r d : DurationRecord) : Prop :=
  r.years = d.years ∧ r.months = d.months ∧ r.weeks = d.weeks ∧ r.days = d.days ∧ r.hours = d.hours ∧
    r.minutes = d.minutes ∧ secondsTotal r = secondsTotal d

theorem balanced_valid {r d : DurationRecord} (hvalid : isValidDuration d = true) (hsame : SameDuration r d)
    (hsign : ∀ v ∈ [r.seconds, r.milliseconds, r.microseconds, r.nanoseconds], 0 ≤ v * writtenFactor d)
    (hsmall : |r.milliseconds| < 1000 ∧ |r.microseconds| < 1000 ∧ |r.nanoseconds| < 1000) :
    isValidDuration r = true := by
  obtain ⟨hy, hmo, hw, hdays, hh, hm, htotal⟩ := hsame
  obtain ⟨-, hlarge, hlimits, hmax⟩ := isValidDuration_iff.mp hvalid
  have hfields : ∀ v ∈ d.fields, 0 ≤ v * writtenFactor d := fun v hv =>
    (abs_nonneg v).trans_eq (mul_writtenFactor hvalid v hv).symm
  simp only [DurationRecord.fields, List.forall_mem_cons] at hfields hsign
  obtain ⟨py, pmo, pw, pdays, ph, pm, ps, pms, pus, pns, -⟩ := hfields
  obtain ⟨ss, sms, sus, sns, -⟩ := hsign
  have htime : timeTotal r = timeTotal d := by
    rw [secondsTotal, secondsTotal, timeDurationFromComponents, timeDurationFromComponents] at htotal
    rw [timeTotal, timeTotal, timeDurationFromComponents, timeDurationFromComponents, hdays, hh, hm]
    linear_combination htotal
  rw [isValidDuration_iff, hy, hmo, hw, htime, hdays, hh, hm]
  have hfactor := writtenFactor_cases d
  generalize writtenFactor d = factor at *
  refine ⟨?_, hlarge, ⟨hlimits.1, hlimits.2.1, hlimits.2.2.1, ?_, by omega, by omega, by omega⟩, hmax⟩
  · simp only [DurationRecord.fields, List.forall_mem_cons, hy, hmo, hw, hdays, hh, hm]
    rcases hfactor with rfl | rfl
    · exact .inl ⟨by omega, by omega, by omega, by omega, by omega, by omega, by omega, by omega,
        by omega, by omega, fun _ h => absurd h List.not_mem_nil⟩
    · exact .inr ⟨by omega, by omega, by omega, by omega, by omega, by omega, by omega, by omega,
        by omega, by omega, fun _ h => absurd h List.not_mem_nil⟩
  · rw [secondsTotal, secondsTotal, timeDurationFromComponents, timeDurationFromComponents] at htotal
    rw [timeTotal, timeDurationFromComponents, nsPerDay, maxTimeDuration, abs_le] at hmax
    rw [abs_le]
    rcases hfactor with rfl | rfl <;> omega

/-- A valid duration. -/
structure Duration where
  record : DurationRecord
  valid : isValidDuration record = true

/-- What a valid duration is written as is read as a duration that agrees with it. -/
theorem exists_parse_temporalDurationToString (duration : Duration) :
    ∃ r, parseTemporalDurationString (temporalDurationToString duration.record precisionAuto) = some r ∧
      SameDuration r duration.record := by
  obtain ⟨d, hvalid⟩ := duration
  obtain ⟨s, hseconds, hns, hderives⟩ := derives_temporalDurationToString d
  have hd := wellFormed_of_derives hderives
  have habs := abs_mul_writtenFactor hvalid
  simp only [DurationRecord.fields, List.forall_mem_cons] at habs
  obtain ⟨ay, amo, aw, adays, ah, am, as, ams, aus, ans, -⟩ := habs
  obtain ⟨hdiv, hmod⟩ := abs_tdiv_tmod (secondsTotal d) (by norm_num : (0 : ℤ) < 1000000000)
  have hfraction : Productions.fractionNs (textOf d s) = |secondsTotal d| % 1000000000 := by
    have hzero : Productions.nanoseconds [] = 0 := rfl
    rw [Productions.fractionNs, textOf, ← hmod, ← hns]
    dsimp only
    rw [hzero]
    ring
  have hnonneg : 0 ≤ secondsTotal d * writtenFactor d := by
    have hfields : ∀ v ∈ d.fields, 0 ≤ v * writtenFactor d := fun v hv =>
      (abs_nonneg v).trans_eq (mul_writtenFactor hvalid v hv).symm
    simp only [DurationRecord.fields, List.forall_mem_cons] at hfields
    obtain ⟨-, -, -, -, -, -, ps, pms, pus, pns, -⟩ := hfields
    rw [secondsTotal, timeDurationFromComponents]
    linarith
  have hfactor := writtenFactor_cases d
  have hsame : SameDuration (Productions.durationValue (writtenFactor d) (textOf d s)) d := by
    rw [Productions.durationValue, hfraction]
    refine ⟨?_, ?_, ?_, ?_, ?_, ?_, ?_⟩
    · exact (congrArg (· * writtenFactor d) (decimal_digitsOf_partOf d.years)).trans ay
    · exact (congrArg (· * writtenFactor d) (decimal_digitsOf_partOf d.months)).trans amo
    · exact (congrArg (· * writtenFactor d) (decimal_digitsOf_partOf d.weeks)).trans aw
    · exact (congrArg (· * writtenFactor d) (decimal_digitsOf_partOf d.days)).trans adays
    · exact (congrArg (· * writtenFactor d) (decimal_digitsOf_partOf d.hours)).trans ah
    · have hwhole : |secondsTotal d| % 1000000000 / 60000000000 = 0 := by omega
      rw [hwhole, add_zero]
      exact (congrArg (· * writtenFactor d) (decimal_digitsOf_partOf d.minutes)).trans am
    · have hread : (decimal (textOf d s).seconds : ℤ) = |secondsTotal d| / 1000000000 := hseconds.trans hdiv
      have htotal : |secondsTotal d| * writtenFactor d = secondsTotal d := by
        rcases hfactor with h | h <;> rw [h] at hnonneg ⊢
        · rw [mul_one] at hnonneg ⊢
          exact abs_of_nonneg hnonneg
        · rw [mul_neg_one] at hnonneg ⊢
          rw [abs_of_nonpos (neg_nonneg.mp hnonneg), neg_neg]
      rw [hread]
      refine Eq.trans ?_ htotal
      rw [secondsTotal, timeDurationFromComponents, scaleDuration]
      clear ay amo aw adays ah am as ams aus ans hdiv hmod hns hseconds hread htotal hfraction hnonneg
      generalize |secondsTotal d| = n
      dsimp only
      rcases hfactor with h | h <;> rw [h] <;> omega
  refine ⟨_, parseTemporalDurationString_eq_some.mpr ⟨⟨_, [], _, (List.append_nil _).symm, hderives, rfl,
    rfl⟩, balanced_valid hvalid hsame ?_ ?_⟩, hsame⟩
  · clear ay amo aw adays ah am as ams aus ans hdiv hmod hns hseconds
    have hread : (0 : ℤ) ≤ decimal (textOf d s).seconds := Int.natCast_nonneg _
    rw [Productions.durationValue, scaleDuration, hfraction]
    simp only [List.forall_mem_cons]
    have hpos := abs_nonneg (secondsTotal d)
    rcases hfactor with h | h <;> rw [h]
    · exact ⟨by omega, by omega, by omega, by omega, fun _ h => absurd h List.not_mem_nil⟩
    · exact ⟨by omega, by omega, by omega, by omega, fun _ h => absurd h List.not_mem_nil⟩
  · clear ay amo aw adays ah am as ams aus ans hdiv hmod hns hseconds
    rw [Productions.durationValue, scaleDuration, hfraction]
    simp only [abs_lt]
    have hpos := abs_nonneg (secondsTotal d)
    rcases hfactor with h | h <;> rw [h] <;> omega

end CtBrowser.Script.Temporal
