import CtBrowser.Script.Temporal.DateReading

/-!
# Reading Times and Offsets

The parts of a time are read as long as they are there. What is left then is no time any more,
as long as neither a digit nor a separator of a time follows.

## Main definitions

- `isClockByte` — the bytes that may not follow a time.

## Main results

- `reads_timeSpec`, `reads_utcOffset` — times and offsets.
-/

namespace CtBrowser.Script.Temporal

open Foundations.Reading Foundations.Reading.Grammar

/-- The bytes that a time could go on with. -/
def isClockByte (b : UInt8) : Bool :=
  isAsciiDigit b || b == ch ':' || b == ch '.' || b == ch ','

/-! ## Fractions -/

theorem Stops.takeWhile {p : UInt8 → Bool} {u rest : Text} (h : Stops p rest)
    (hu : ∀ b ∈ u, p b = true) : (u ++ rest).takeWhile p = u := by
  rw [List.takeWhile_append_of_pos hu]
  cases rest with
  | nil => exact List.append_nil u
  | cons b rest => rw [List.takeWhile_cons_of_neg (by simp [stops_cons.mp h]), List.append_nil]

theorem Stops.dropWhile {p : UInt8 → Bool} {u rest : Text} (h : Stops p rest)
    (hu : ∀ b ∈ u, p b = true) : (u ++ rest).dropWhile p = rest := by
  rw [List.dropWhile_append_of_pos hu]
  cases rest with
  | nil => rfl
  | cons b rest => rw [List.dropWhile_cons_of_neg (by simp [stops_cons.mp h])]

/-- The point or the comma of a fraction. -/
def isFractionPoint (b : UInt8) : Bool := b == ch '.' || b == ch ','

theorem reads_fraction : Reads fraction Productions.temporalDecimalFraction
    fun _ rest => Stops isAsciiDigit rest := by
  intro f t rest hrest
  rw [fraction]
  constructor
  · intro h
    split_ifs at h with hpoint
    dsimp only at h
    split_ifs at h with hlength
    cases h
    cases t with
    | nil => exact absurd ⟨by decide, by decide⟩ hpoint
    | cons b t =>
      refine ⟨b :: t.takeWhile isAsciiDigit, ?_, [b], _, (), rfl, ?_, rfl, ?_, ?_⟩
      · rw [List.cons_append, List.tail_cons, List.takeWhile_append_dropWhile]
      · by_cases hb : b = ch '.'
        · exact .inl (congrArg (fun b => [b]) hb)
        · refine .inr (congrArg (fun b => [b]) ?_)
          by_contra hcomma
          exact hpoint ⟨hb, hcomma⟩
      · rw [List.tail_cons] at hlength
        omega
      · exact fun x hx => List.all_eq_true.mp List.all_takeWhile x hx
  · rintro ⟨_, rfl, point, u, _, rfl, hpoint, rfl, ⟨hlow, hhigh⟩, hdigits⟩
    have hread : ∀ b : UInt8, ([b] ++ f ++ rest).tail.takeWhile isAsciiDigit = f ∧
        ([b] ++ f ++ rest).tail.dropWhile isAsciiDigit = rest := fun b =>
      ⟨hrest.takeWhile hdigits, hrest.dropWhile hdigits⟩
    rcases hpoint with rfl | rfl
    · rw [if_neg (fun h => h.1 rfl), (hread _).1, (hread _).2, if_neg (by omega)]
    · rw [if_neg (fun h => h.2 rfl), (hread _).1, (hread _).2, if_neg (by omega)]

theorem fraction_eq_none {rest : Text} (h : Stops isFractionPoint rest) : fraction rest = none := by
  rw [fraction, if_pos ⟨h.headD_ne rfl (by decide), h.headD_ne rfl (by decide)⟩]

/-! ## Minutes and seconds -/

theorem minuteSecond_eq {highest m : ℕ} {c rest : Text} : minuteSecond highest c = (m, some rest) ↔
    ∃ u, c = u ++ rest ∧ (Productions.minuteSecond highest).derives u m := by
  have hread : Reads _ (Productions.minuteSecond highest) fun _ _ => True :=
    reads_checked 2 (· ≤ highest) id
  rw [← hread m c rest trivial, Reader.bind_apply, minuteSecond]
  cases hdigits : digits 2 c with
  | none => simp
  | some r =>
    obtain ⟨n, rest'⟩ := r
    by_cases hn : n ≤ highest
    · simp [Reader.bind_apply, Reader.guard_apply, Reader.pure_apply, hn]
    · simp [Reader.bind_apply, Reader.guard_apply, hn]

theorem minuteSecond_of_stops {highest : ℕ} {rest : Text} (h : Stops isAsciiDigit rest) :
    minuteSecond highest rest = (0, none) := by
  have hdigits : digits 2 rest = none := by
    cases rest with
    | nil => rfl
    | cons b rest =>
      rw [digits, digitsFrom, if_neg]
      rw [stops_cons.mp h]
      exact Bool.false_ne_true
  rw [minuteSecond, hdigits]

theorem stops_minuteSecond {highest m : ℕ} {u rest : Text} {p : UInt8 → Bool}
    (hu : (Productions.minuteSecond highest).derives u m)
    (hp : ∀ b, isAsciiDigit b = true → p b = false) : Stops p (u ++ rest) := by
  obtain ⟨v, w, n, rfl, hn, -⟩ := hu
  rw [List.append_assoc]
  exact stops_of_digits hn hp

/-! ## Clocks -/

/-- The separator of a format. -/
def colon (extended : Bool) : Text := if extended then [ch ':'] else []

/-- The words of a clock, part by part. -/
theorem derives_clockSpec {subMinute extended : Bool} {highest : ℕ} {u : Text} {c : Clock} :
    (Productions.clockSpec subMinute highest extended).derives u c ↔
      (∃ h, Productions.hour.derives u h ∧ c = { hour := h }) ∨
      (∃ uh um h m, u = uh ++ (colon extended ++ um) ∧ Productions.hour.derives uh h ∧
        (Productions.minuteSecond 59).derives um m ∧ c = { hour := h, minute := m }) ∨
      (subMinute = true ∧ ∃ uh um us uf h m s f,
        u = uh ++ (colon extended ++ (um ++ (colon extended ++ (us ++ uf)))) ∧
        Productions.hour.derives uh h ∧ (Productions.minuteSecond 59).derives um m ∧
        (Productions.minuteSecond highest).derives us s ∧
        Productions.temporalDecimalFraction.opt.derives uf f ∧
        c = { hour := h, minute := m, second := s, fraction := f.getD [] }) := by
  refine or_congr ?_ (or_congr ?_ ?_)
  · constructor
    · rintro ⟨uh, _, h, rfl, hh, rfl, rfl⟩
      exact ⟨h, (List.append_nil uh).symm ▸ hh, rfl⟩
    · rintro ⟨h, hh, rfl⟩
      exact ⟨u, [], h, (List.append_nil u).symm, hh, rfl, rfl⟩
  · constructor
    · rintro ⟨uh, _, h, rfl, hh, _, _, _, rfl, rfl, um, _, m, rfl, hm, rfl, rfl⟩
      exact ⟨uh, um, h, m, by rw [List.append_nil]; rfl, hh, hm, rfl⟩
    · rintro ⟨uh, um, h, m, rfl, hh, hm, rfl⟩
      exact ⟨uh, _, h, rfl, hh, _, _, (), rfl, rfl, um, [], m, (List.append_nil um).symm, hm, rfl, rfl⟩
  · rw [derives_require_bind]
    refine and_congr_right fun _ => ?_
    constructor
    · rintro ⟨uh, _, h, rfl, hh, _, _, _, rfl, rfl, um, _, m, rfl, hm, _, _, _, rfl, rfl,
        us, _, s, rfl, hs, uf, _, f, rfl, hf, rfl, rfl⟩
      exact ⟨uh, um, us, uf, h, m, s, f, by rw [List.append_nil]; rfl, hh, hm, hs, hf, rfl⟩
    · rintro ⟨uh, um, us, uf, h, m, s, f, rfl, hh, hm, hs, hf, rfl⟩
      exact ⟨uh, _, h, rfl, hh, _, _, (), rfl, rfl, um, _, m, rfl, hm, _, _, (), rfl, rfl,
        us, _, s, rfl, hs, uf, [], f, (List.append_nil uf).symm, hf, rfl, rfl⟩

theorem isAsciiDigit_colon : isAsciiDigit (ch ':') = false := by decide

theorem headD_colon (extended : Bool) (rest : Text) {highest m : ℕ} {u : Text}
    (hu : (Productions.minuteSecond highest).derives u m) :
    (colon extended ++ (u ++ rest)).headD 0 = ch ':' ↔ extended = true := by
  cases extended with
  | true => exact iff_of_true rfl rfl
  | false =>
    have hstops : Stops (· == ch ':') (u ++ rest) :=
      stops_minuteSecond hu fun _ => eq_false_of_digit isAsciiDigit_colon
    exact iff_of_false (hstops.headD_ne (beq_self_eq_true _) (by decide)) Bool.false_ne_true

theorem tail_colon (extended : Bool) (c : Text) :
    (if extended = true then (colon extended ++ c).tail else colon extended ++ c) = c := by
  cases extended <;> rfl

theorem colon_tail {c : Text} {extended : Bool} (h : extended = true → c.headD 0 = ch ':') :
    c = colon extended ++ if extended = true then c.tail else c := by
  cases extended with
  | true =>
    cases c with
    | nil => exact absurd (h rfl) (by decide)
    | cons b c => exact congrArg (· :: c) (h rfl)
  | false => rfl

/-- What comes after the hour of a clock. -/
def afterHour (subMinute : Bool) (highest h : ℕ) (c : Text) : Option (Clock × Text) :=
  match minuteSecond 59 (if c.headD 0 = ch ':' then c.tail else c) with
  | (m, none) => some ({ hour := h, minute := m }, c)
  | (m, some afterMinute) =>
    if (!subMinute) = true ∨ (c.headD 0 = ch ':' ∧ afterMinute.headD 0 ≠ ch ':') then
      some ({ hour := h, minute := m }, afterMinute)
    else
      match minuteSecond highest (if c.headD 0 = ch ':' then afterMinute.tail else afterMinute) with
      | (_, none) => some ({ hour := h, minute := m }, afterMinute)
      | (s, some afterSecond) =>
        match fraction afterSecond with
        | none => some ({ hour := h, minute := m, second := s }, afterSecond)
        | some (digits, rest) =>
          some ({ hour := h, minute := m, second := s, fraction := digits }, rest)

theorem clock_eq (subMinute : Bool) (highest : ℕ) (c : Text) :
    clock subMinute highest c = (hour c).bind fun r => afterHour subMinute highest r.1 r.2 := rfl

theorem afterHour_of_stops {subMinute : Bool} {highest h : ℕ} {rest : Text}
    (hrest : Stops isClockByte rest) :
    afterHour subMinute highest h rest = some ({ hour := h }, rest) := by
  have hdigit : Stops isAsciiDigit rest := hrest.weaken fun b hb => by simp [isClockByte, hb]
  have hcolon : rest.headD 0 ≠ ch ':' := hrest.headD_ne rfl (by decide)
  rw [afterHour, if_neg hcolon, minuteSecond_of_stops hdigit]

theorem afterHour_minute {subMinute extended : Bool} {highest h m : ℕ} {um rest : Text}
    (hm : (Productions.minuteSecond 59).derives um m) (hrest : Stops isClockByte rest) :
    afterHour subMinute highest h (colon extended ++ (um ++ rest)) =
      some ({ hour := h, minute := m }, rest) := by
  have hdigit : Stops isAsciiDigit rest := hrest.weaken fun b hb => by simp [isClockByte, hb]
  have hcolon : rest.headD 0 ≠ ch ':' := hrest.headD_ne rfl (by decide)
  have hnext := headD_colon extended rest hm
  rw [afterHour]
  simp only [hnext, tail_colon, minuteSecond_eq.mpr ⟨um, rfl, hm⟩]
  split_ifs with hstop hextended
  · rfl
  · exact absurd ⟨hextended, hcolon⟩ fun h => hstop (.inr h)
  · rw [minuteSecond_of_stops hdigit]

theorem afterHour_second {extended : Bool} {highest h m s : ℕ} {um us rest : Text}
    (hm : (Productions.minuteSecond 59).derives um m)
    (hs : (Productions.minuteSecond highest).derives us s) :
    afterHour true highest h (colon extended ++ (um ++ (colon extended ++ (us ++ rest)))) =
      some ((fraction rest).elim ({ hour := h, minute := m, second := s }, rest) fun x =>
        ({ hour := h, minute := m, second := s, fraction := x.1 }, x.2)) := by
  have hnext := headD_colon extended (colon extended ++ (us ++ rest)) hm
  have hnext' := headD_colon extended rest hs
  rw [afterHour]
  simp only [hnext, tail_colon, minuteSecond_eq.mpr ⟨um, rfl, hm⟩, ne_eq, hnext', Bool.not_true,
    Bool.false_eq_true, false_or, and_not_self_iff, if_false, minuteSecond_eq.mpr ⟨us, rfl, hs⟩]
  cases fraction rest with
  | none => rfl
  | some x => rfl

/-- What was read after an hour. -/
theorem afterHour_eq_some {subMinute : Bool} {highest h : ℕ} {c rest : Text} {b : Clock}
    (hread : afterHour subMinute highest h c = some (b, rest)) (hrest : Stops isClockByte rest) :
    (c = rest ∧ b = { hour := h }) ∨ ∃ e um m, (Productions.minuteSecond 59).derives um m ∧
      ((c = colon e ++ (um ++ rest) ∧ b = { hour := h, minute := m }) ∨
      (subMinute = true ∧ ∃ us s uf f, (Productions.minuteSecond highest).derives us s ∧
        Productions.temporalDecimalFraction.opt.derives uf f ∧
        c = colon e ++ (um ++ (colon e ++ (us ++ (uf ++ rest)))) ∧
        b = { hour := h, minute := m, second := s, fraction := f.getD [] })) := by
  have hdigit : Stops isAsciiDigit rest := hrest.weaken fun b hb => by simp [isClockByte, hb]
  obtain ⟨e, he⟩ : ∃ e : Bool, c.headD 0 = ch ':' ↔ e = true :=
    ⟨decide (c.headD 0 = ch ':'), decide_eq_true_iff.symm⟩
  have hc := colon_tail he.mpr
  rw [afterHour] at hread
  simp only [he] at hread
  split at hread
  · next m hminute =>
    -- a text that stops here has no minute to leave in the result
    cases hread
    have hfalse : ¬ e = true := fun h => hrest.headD_ne rfl (by decide) (he.mpr h)
    rw [if_neg hfalse, minuteSecond_of_stops hdigit] at hminute
    cases hminute
    exact .inl ⟨rfl, rfl⟩
  · next m afterMinute hminute =>
    obtain ⟨um, hum, hm⟩ := minuteSecond_eq.mp hminute
    rw [hum] at hc
    refine .inr ⟨e, um, m, hm, ?_⟩
    by_cases hstop : (!subMinute) = true ∨ e = true ∧ afterMinute.headD 0 ≠ ch ':'
    · rw [if_pos hstop] at hread
      cases hread
      exact .inl ⟨hc, rfl⟩
    · rw [if_neg hstop] at hread
      rw [not_or, not_and, not_not, Bool.not_eq_true', Bool.not_eq_false] at hstop
      obtain ⟨hsub, hcolon⟩ := hstop
      have hafter := colon_tail hcolon
      split at hread
      · cases hread
        exact .inl ⟨hc, rfl⟩
      · next s afterSecond hsecond =>
        obtain ⟨us, hus, hs⟩ := minuteSecond_eq.mp hsecond
        rw [hus] at hafter
        rw [hafter] at hc
        refine .inr ⟨hsub, us, s, ?_⟩
        split at hread
        · cases hread
          exact ⟨[], none, hs, .inl ⟨rfl, rfl⟩, hc, rfl⟩
        · next f rest' hfraction =>
          cases hread
          obtain ⟨uf, rfl, hf⟩ := (reads_fraction f _ rest hdigit).mp hfraction
          exact ⟨uf, some f, hs, .inr ⟨f, rfl, hf⟩, hc, rfl⟩

theorem reads_clock (subMinute : Bool) (highest : ℕ) :
    Reads (clock subMinute highest) (Productions.either (Productions.clockSpec subMinute highest))
      fun _ rest => Stops isClockByte rest := by
  intro b t rest hrest
  have hsome : (Productions.either (Productions.clockSpec subMinute highest)).derives =
      fun u c => ∃ e, (Productions.clockSpec subMinute highest e).derives u c := by
    ext u c
    exact ⟨fun h => h.elim (⟨true, ·⟩) (⟨false, ·⟩), fun ⟨e, h⟩ => by cases e; exacts [.inr h, .inl h]⟩
  rw [clock_eq, hsome]
  constructor
  · intro hread
    obtain ⟨⟨h, c⟩, hhour, hafter⟩ := Option.bind_eq_some_iff.mp hread
    obtain ⟨uh, rfl, hh⟩ := (reads_hour h t c trivial).mp hhour
    rcases afterHour_eq_some hafter hrest with
      ⟨rfl, rfl⟩ | ⟨e, um, m, hm, ⟨rfl, rfl⟩ | ⟨hsub, us, s, uf, f, hs, hf, rfl, rfl⟩⟩
    · exact ⟨uh, rfl, true, derives_clockSpec.mpr (.inl ⟨h, hh, rfl⟩)⟩
    · refine ⟨uh ++ (colon e ++ um), by simp, e, derives_clockSpec.mpr (.inr (.inl ?_))⟩
      exact ⟨uh, um, h, m, rfl, hh, hm, rfl⟩
    · refine ⟨uh ++ (colon e ++ (um ++ (colon e ++ (us ++ uf)))), by simp, e,
        derives_clockSpec.mpr (.inr (.inr ⟨hsub, ?_⟩))⟩
      exact ⟨uh, um, us, uf, h, m, s, f, rfl, hh, hm, hs, hf, rfl⟩
  · rintro ⟨u, rfl, e, hu⟩
    rcases derives_clockSpec.mp hu with ⟨h, hh, rfl⟩ | ⟨uh, um, h, m, rfl, hh, hm, rfl⟩ |
      ⟨rfl, uh, um, us, uf, h, m, s, f, rfl, hh, hm, hs, hf, rfl⟩
    · rw [reads_hour.apply hh trivial, Option.bind_some, afterHour_of_stops hrest]
    · rw [List.append_assoc, reads_hour.apply hh trivial, Option.bind_some, List.append_assoc,
        afterHour_minute hm hrest]
    · simp only [List.append_assoc]
      rw [reads_hour.apply hh trivial, Option.bind_some, afterHour_second hm hs]
      rcases hf with ⟨rfl, rfl⟩ | ⟨f, rfl, hf⟩
      · rw [List.nil_append, fraction_eq_none]
        · rfl
        · exact hrest.weaken fun b hb => by
            rw [isFractionPoint, Bool.or_eq_true] at hb
            rcases hb with hb | hb <;> simp [isClockByte, hb]
      · rw [reads_fraction.apply hf (hrest.weaken fun b hb => by simp [isClockByte, hb])]
        rfl

/-! ## Times and offsets -/

theorem derives_hour {u : Text} {h : ℕ} (hu : Productions.hour.derives u h) :
    h ≤ 23 ∧ (Productions.decimalDigits 2).derives u h := by
  obtain ⟨v, _, n, rfl, hn, hw⟩ := hu
  obtain ⟨hhigh, rfl, rfl⟩ := derives_require_bind.mp hw
  exact ⟨hhigh, (List.append_nil v).symm ▸ hn⟩

theorem derives_minuteSecond {highest m : ℕ} {u : Text}
    (hu : (Productions.minuteSecond highest).derives u m) :
    m ≤ highest ∧ (Productions.decimalDigits 2).derives u m := by
  obtain ⟨v, _, n, rfl, hn, hw⟩ := hu
  obtain ⟨hhigh, rfl, rfl⟩ := derives_require_bind.mp hw
  exact ⟨hhigh, (List.append_nil v).symm ▸ hn⟩

theorem clock_bounds {subMinute : Bool} {highest : ℕ} {u : Text} {c : Clock}
    (hu : (Productions.either (Productions.clockSpec subMinute highest)).derives u c) :
    c.hour ≤ 23 ∧ c.minute ≤ 59 ∧ c.second ≤ highest ∧ c.fraction.length ≤ 9 := by
  obtain ⟨e, hu⟩ : ∃ e, (Productions.clockSpec subMinute highest e).derives u c :=
    hu.elim (⟨true, ·⟩) (⟨false, ·⟩)
  rcases derives_clockSpec.mp hu with ⟨h, hh, rfl⟩ | ⟨uh, um, h, m, -, hh, hm, rfl⟩ |
    ⟨-, uh, um, us, uf, h, m, s, f, -, hh, hm, hs, hf, rfl⟩
  · exact ⟨(derives_hour hh).1, by simp, by simp, by simp⟩
  · exact ⟨(derives_hour hh).1, (derives_minuteSecond hm).1, by simp, by simp⟩
  · refine ⟨(derives_hour hh).1, (derives_minuteSecond hm).1, (derives_minuteSecond hs).1, ?_⟩
    rcases hf with ⟨-, rfl⟩ | ⟨f, rfl, _, _, _, -, -, rfl, ⟨-, hlength⟩, -⟩
    · exact Nat.zero_le 9
    · exact hlength

theorem fractionNanoseconds_eq {f : Text} (h : f.length ≤ 9) :
    (fractionNanoseconds f : ℤ) = Productions.nanoseconds f := by
  have hzeros : ascii "000000000" = List.replicate (9 - f.length) (ch '0') ++
      List.replicate f.length (ch '0') := by
    rw [← List.replicate_add, Nat.sub_add_cancel h]
    rfl
  have hlength : (f ++ List.replicate (9 - f.length) (ch '0')).length = 9 := by
    rw [List.length_append, List.length_replicate, Nat.add_sub_cancel' h]
  rw [fractionNanoseconds, hzeros, ← List.append_assoc, List.take_left' hlength,
    Productions.nanoseconds]

theorem reads_timeSpec : Reads timeSpec Productions.time fun _ rest => Stops isClockByte rest := by
  refine Reads.congr ((reads_clock true 60).map fun _ _ h => h) fun u b => ?_
  refine Grammar.bind_congr fun v c hc w => ?_
  obtain ⟨-, -, hsecond, hfraction⟩ := clock_bounds hc
  have hleap : (((if c.second = 60 then 59 else c.second : ℕ) : ℤ)) = min (c.second : ℤ) 59 := by
    split_ifs <;> omega
  rw [fractionNanoseconds_eq hfraction]
  push_cast at hleap
  rw [hleap]

theorem utcOffset_eq (subMinute : Bool) : utcOffset subMinute =
    signByte >>= fun s => clock subMinute 59 >>= fun t =>
      pure (s * ((((t.hour * 60 + t.minute) * 60 + t.second : ℤ) * 1000000000) +
        fractionNanoseconds t.fraction)) := by
  funext c
  rw [utcOffset, Reader.bind_apply, Reader.bind_apply]
  simp only [peek, Option.bind_some]
  cases c with
  | nil => rfl
  | cons b c =>
    rw [List.headD_cons]
    by_cases hsign : isSign b = true
    · rcases (isSign_iff b).mp hsign with rfl | rfl
      · rfl
      · rfl
    · have hnone : signByte (b :: c) = none := by
        rw [isSign_iff, not_or] at hsign
        rw [signByte, List.headD_cons, if_neg hsign.1, if_neg hsign.2]
      rw [Reader.bind_apply, Reader.guard_apply, if_neg hsign, hnone]
      rfl

theorem reads_utcOffset (subMinute : Bool) :
    Reads (utcOffset subMinute) (Productions.utcOffset subMinute)
      fun _ rest => Stops isClockByte rest := by
  rw [utcOffset_eq]
  refine Reads.congr (reads_signByte.bind_of_true fun s =>
    (reads_clock subMinute 59).map fun _ _ h => h) fun u b => ?_
  refine Grammar.bind_congr fun v s hs w => Grammar.bind_congr fun v' c hc w' => ?_
  rw [fractionNanoseconds_eq (clock_bounds hc).2.2.2]
  have hseconds : ((c.hour * 60 + c.minute) * 60 + c.second : ℤ) =
      c.hour * 3600 + c.minute * 60 + c.second := by ring
  rw [hseconds]

end CtBrowser.Script.Temporal
