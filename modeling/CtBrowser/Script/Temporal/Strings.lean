import CtBrowser.Script.Temporal.ObjectRoundTrip
import CtBrowser.Script.Temporal.DurationRoundTrip

/-!
# Temporal Strings

What a text is accepted as, whichever goals it is parsed for, and the round trips of all kinds of
Temporal values in one place. Of the annotations that the grammar allows, some are not acceptable.

## Main definitions

- `Productions.Acceptable` — what the annotations of a text have to be.

## Main results

- `parseIsoDatetime_eq_some` — the texts that are accepted, and their records.
- `temporal_strings` — round trips and recognition.
-/

namespace CtBrowser.Script.Temporal

open Foundations.Reading Foundations.Reading.Grammar

namespace Productions

/-- The calendars among annotations. -/
def calendars (items : List Annotation) : List Annotation := items.filter fun a => a.key = ascii "u-ca"

/-- A bare month or day: one without the rest of a date. -/
def Bare (g : Goal) (p : Parsed) : Prop :=
  (g = .yearMonth ∧ p.date.hasDay = false) ∨ (g = .monthDay ∧ p.date.year = none)

/-- No annotation that is not known is critical, no calendar that is not the only one is, and a bare
month or day has the ISO calendar. -/
structure Acceptable (g : Goal) (p : Parsed) : Prop where
  unknown : ∀ a ∈ p.notes.annotations, a.key ≠ ascii "u-ca" → a.critical = false
  several : 2 ≤ (calendars p.notes.annotations).length →
    ∀ a ∈ calendars p.notes.annotations, a.critical = false
  bare : Bare g p → ∀ a ∈ (calendars p.notes.annotations).head?, asciiIequals a.value (ascii "iso8601") = true

/-- The record of a text, whose calendar is its first one. -/
def record (p : Parsed) : ParseRecord :=
  { year := p.date.year, month := p.date.month, day := p.date.day, time := p.time, z := p.offset.z,
    offset := p.offset.text, annotation := p.notes.timeZone,
    calendar := ((calendars p.notes.annotations).head?.map Annotation.value).getD [] }

end Productions

open Productions

/-! ## Annotations -/

theorem calendars_cons (a : Annotation) (items : List Annotation) : calendars (a :: items) =
    if a.key = ascii "u-ca" then a :: calendars items else calendars items := by
  rw [calendars, List.filter_cons]
  simp only [decide_eq_true_eq]
  rfl

/-- After a first calendar, neither it nor another one may be critical if there is another. -/
theorem scanAnnotations_of_have {items : List Annotation} {seen r : SeenCalendar} (hseen : seen.have_ = true) :
    scanAnnotations items seen = some r ↔
      (∀ a ∈ items, a.key ≠ ascii "u-ca" → a.critical = false) ∧
      (∀ a ∈ calendars items, a.critical = false ∧ seen.critical = false) ∧ r = seen := by
  induction items with
  | nil =>
    rw [scanAnnotations, Option.some_inj]
    exact ⟨fun h => ⟨by simp, by simp [calendars], h.symm⟩, fun h => h.2.2.symm⟩
  | cons a items ih =>
    rw [scanAnnotations, calendars_cons, List.forall_mem_cons]
    by_cases hkey : a.key = ascii "u-ca"
    · rw [if_pos hkey, if_pos hkey, hseen, if_neg (by decide), List.forall_mem_cons]
      by_cases hcritical : (a.critical || seen.critical) = true
      · rw [if_pos hcritical]
        refine iff_of_false (by simp) fun h => ?_
        rw [h.2.1.1.1, h.2.1.1.2] at hcritical
        exact Bool.false_ne_true hcritical
      · rw [if_neg hcritical, ih]
        rw [Bool.not_eq_true, Bool.or_eq_false_iff] at hcritical
        exact ⟨fun h => ⟨⟨fun hne => absurd hkey hne, h.1⟩, ⟨hcritical, h.2.1⟩, h.2.2⟩,
          fun h => ⟨h.1.2, h.2.1.2, h.2.2⟩⟩
    · rw [if_neg hkey, if_neg hkey]
      by_cases hcritical : a.critical = true
      · rw [if_pos hcritical]
        refine iff_of_false (by simp) fun h => ?_
        rw [h.1.1 hkey] at hcritical
        exact Bool.false_ne_true hcritical
      · rw [if_neg hcritical, ih]
        exact ⟨fun h => ⟨⟨fun _ => Bool.eq_false_of_not_eq_true hcritical, h.1⟩, h.2⟩,
          fun h => ⟨h.1.2, h.2⟩⟩

/-- What is seen of a first calendar, if there is one. -/
def seenOf (c : Option Annotation) : SeenCalendar :=
  (c.map fun a => ⟨a.value, a.critical, true⟩).getD {}

/-- The calendar that is seen is the first one. -/
theorem scanAnnotations_eq_some {items : List Annotation} {r : SeenCalendar} :
    scanAnnotations items {} = some r ↔
      (∀ a ∈ items, a.key ≠ ascii "u-ca" → a.critical = false) ∧
      (2 ≤ (calendars items).length → ∀ a ∈ calendars items, a.critical = false) ∧
      r = seenOf (calendars items).head? := by
  induction items with
  | nil =>
    rw [scanAnnotations, Option.some_inj]
    exact ⟨fun h => ⟨by simp, by simp [calendars], h.symm⟩, fun h => h.2.2.symm⟩
  | cons a items ih =>
    rw [scanAnnotations, calendars_cons, List.forall_mem_cons]
    by_cases hkey : a.key = ascii "u-ca"
    · rw [if_pos hkey, if_pos hkey, Bool.not_false, if_pos rfl, scanAnnotations_of_have rfl,
        List.forall_mem_cons, List.head?_cons, List.length_cons]
      constructor
      · rintro ⟨hunknown, hothers, rfl⟩
        refine ⟨⟨fun hne => absurd hkey hne, hunknown⟩, fun htwo => ?_, rfl⟩
        obtain ⟨b, hb⟩ := List.exists_mem_of_length_pos (show 0 < (calendars items).length by omega)
        exact ⟨(hothers b hb).2, fun c hc => (hothers c hc).1⟩
      · rintro ⟨⟨-, hunknown⟩, hseveral, rfl⟩
        refine ⟨hunknown, fun c hc => ?_, rfl⟩
        obtain ⟨ha, hrest⟩ := hseveral (Nat.succ_le_succ (List.length_pos_of_mem hc))
        exact ⟨hrest c hc, ha⟩
    · rw [if_neg hkey, if_neg hkey]
      by_cases hcritical : a.critical = true
      · rw [if_pos hcritical]
        refine iff_of_false (by simp) fun h => ?_
        rw [h.1.1 hkey] at hcritical
        exact Bool.false_ne_true hcritical
      · rw [if_neg hcritical, ih]
        exact ⟨fun h => ⟨⟨fun _ => Bool.eq_false_of_not_eq_true hcritical, h.1⟩, h.2⟩,
          fun h => ⟨h.1.2, h.2⟩⟩

theorem option_guard_bind {β : Type} {P : Prop} [Decidable P] {k : Unit → Option β} {r : β} :
    (guard P >>= k) = some r ↔ P ∧ k () = some r := by
  by_cases hP : P
  · rw [guard, if_pos hP]
    exact (and_iff_right hP).symm
  · rw [guard, if_neg hP]
    exact iff_of_false (fun h => by cases h) fun h => hP h.1

/-- The record of what a goal found. -/
theorem recordOf_eq_some {g : Goal} {p : Parsed} {r : ParseRecord} :
    recordOf g p = some r ↔ Acceptable g p ∧ r = record p := by
  have hiso : ∀ c : Option Annotation,
      (!(seenOf c).have_ || asciiIequals (seenOf c).calendar (ascii "iso8601")) = false ↔
        ¬ ∀ a ∈ c, asciiIequals a.value (ascii "iso8601") = true := by
    rintro (- | a)
    · exact iff_of_false (by decide) fun h => h fun _ h => absurd h (by simp)
    · simp [seenOf]
  have hcalendar : ∀ c : Option Annotation, (seenOf c).calendar = (c.map Annotation.value).getD [] := by
    rintro (- | a) <;> rfl
  rw [recordOf, Option.bind_eq_bind, Option.bind_eq_some_iff]
  constructor
  · rintro ⟨seen, hscan, h⟩
    obtain ⟨hunknown, hseveral, rfl⟩ := scanAnnotations_eq_some.mp hscan
    obtain ⟨hmonth, h⟩ := option_guard_bind.mp h
    obtain ⟨hday, h⟩ := option_guard_bind.mp h
    rw [hiso] at hmonth hday
    rw [hcalendar] at h
    refine ⟨⟨hunknown, hseveral, ?_⟩, (Option.some_inj.mp h).symm⟩
    rintro (⟨hg, hbare⟩ | ⟨hg, hbare⟩)
    · exact not_not.mp fun hcal => hmonth ⟨hg, hbare, hcal⟩
    · exact not_not.mp fun hcal => hday ⟨hg, hbare, hcal⟩
  · rintro ⟨⟨hunknown, hseveral, hbare⟩, rfl⟩
    refine ⟨_, scanAnnotations_eq_some.mpr ⟨hunknown, hseveral, rfl⟩, option_guard_bind.mpr ⟨?_,
      option_guard_bind.mpr ⟨?_, ?_⟩⟩⟩
    · rw [hiso]
      exact fun h => h.2.2 (hbare (.inl ⟨h.1, h.2.1⟩))
    · rw [hiso]
      exact fun h => h.2.2 (hbare (.inr ⟨h.1, h.2.1⟩))
    · rw [hcalendar]
      rfl

/-! ## Recognition -/

/-- The first goal that a text is of decides. -/
theorem parseIsoDatetime_eq_some {t : Text} {goals : List Goal} {r : ParseRecord} :
    parseIsoDatetime t goals = some r ↔ ∃ before g after p, goals = before ++ g :: after ∧
      (∀ h ∈ before, ¬ Derivable (goal h) t) ∧ (goal g).derives t p ∧ Acceptable g p ∧ r = record p := by
  induction goals with
  | nil =>
    refine iff_of_false (by simp [parseIsoDatetime]) ?_
    rintro ⟨before, g, after, p, h, -⟩
    exact absurd h.symm (List.append_ne_nil_of_right_ne_nil _ (List.cons_ne_nil _ _))
  | cons g goals ih =>
    rw [parseIsoDatetime]
    cases hparse : parseGoal t g with
    | none =>
      have hnot : ¬ Derivable (goal g) t := by
        rintro ⟨p, hp⟩
        rw [parseGoal_eq_some.mpr hp] at hparse
        cases hparse
      refine ih.trans ⟨?_, ?_⟩
      · rintro ⟨before, g', after, p, rfl, hbefore, h⟩
        exact ⟨g :: before, g', after, p, rfl, List.forall_mem_cons.mpr ⟨hnot, hbefore⟩, h⟩
      · rintro ⟨before, g', after, p, hgoals, hbefore, h⟩
        cases before with
        | nil =>
          cases hgoals
          exact absurd ⟨p, h.1⟩ hnot
        | cons b before =>
          cases hgoals
          exact ⟨before, g', after, p, rfl, (List.forall_mem_cons.mp hbefore).2, h⟩
    | some p =>
      have hp := parseGoal_eq_some.mp hparse
      refine recordOf_eq_some.trans ⟨?_, ?_⟩
      · rintro ⟨hok, rfl⟩
        exact ⟨[], g, goals, p, rfl, fun _ h => absurd h List.not_mem_nil, hp, hok, rfl⟩
      · rintro ⟨before, g', after, p', hgoals, hbefore, hp', hok, rfl⟩
        cases before with
        | nil =>
          cases hgoals
          have heq := hparse.symm.trans (parseGoal_eq_some.mpr hp')
          cases heq
          exact ⟨hok, rfl⟩
        | cons b before =>
          cases hgoals
          exact absurd ⟨p, hp⟩ ((List.forall_mem_cons.mp hbefore).1)

/-! ## Round trips and recognition -/

/-- What is written of a Temporal value is read back as it, except for what the string has no place
for: the day of a year-month, the year of a month-day, and the units that the time of a duration
below its minutes was in. What is read is in the grammar, and the other way around. -/
theorem temporal_strings :
    (∀ d : PlainDate,
      toTemporalDate (temporalDateToString d.date isoCalendar .auto) = some (d.date, isoCalendar)) ∧
    (∀ t : PlainTime, toTemporalTime (timeRecordToString t.time precisionAuto) = some t.time) ∧
    (∀ d : PlainDateTime, toTemporalDateTime (isoDatetimeToString d.dt isoCalendar precisionAuto .auto) =
      some (d.dt, isoCalendar)) ∧
    (∀ d : PlainYearMonth, toTemporalYearMonth (yearMonthToString d.date isoCalendar .auto) =
      some ({ d.date with day := 1 }, isoCalendar)) ∧
    (∀ d : PlainMonthDay, toTemporalMonthDay (monthDayToString d.date isoCalendar .auto) =
      some ({ d.date with year := 1972 }, isoCalendar)) ∧
    (∀ (i : Instant) (zone : Text),
      toTemporalInstant (instantToString i.epochNs zone precisionAuto) = some i.epochNs) ∧
    (∀ o : UtcOffset, parseUtcOffset (formatUtcOffsetNanoseconds o.ns) true = some o.ns) ∧
    (∀ d : Duration, ∃ r,
      parseTemporalDurationString (temporalDurationToString d.record precisionAuto) = some r ∧
        SameDuration r d.record) ∧
    (∀ t goals r, parseIsoDatetime t goals = some r ↔ ∃ before g after p,
      goals = before ++ g :: after ∧ (∀ h ∈ before, ¬ Derivable (goal h) t) ∧
        (goal g).derives t p ∧ Acceptable g p ∧ r = record p) ∧
    (∀ t subMinute ns, parseUtcOffset t subMinute = some ns ↔ (Productions.utcOffset subMinute).derives t ns) ∧
    (∀ t r, parseTemporalDurationString t = some r ↔
      Productions.duration.derives t r ∧ isValidDuration r = true) :=
  ⟨toTemporalDate_toString, toTemporalTime_toString, toTemporalDateTime_toString,
    toTemporalYearMonth_toString, toTemporalMonthDay_toString, toTemporalInstant_toString,
    parseUtcOffset_format, exists_parse_temporalDurationToString, fun _ _ _ => parseIsoDatetime_eq_some,
    fun _ _ _ => parseUtcOffset_eq_some, fun _ _ => parseTemporalDurationString_eq_some⟩

/-- A year-month loses its day of reference, and a text that the grammar has may not be accepted. -/
theorem temporal_strings_not_exact :
    (∃ d : PlainYearMonth, toTemporalYearMonth (yearMonthToString d.date isoCalendar .auto) ≠
      some (d.date, isoCalendar)) ∧
    Derivable (goal .dateTime) (ascii "2020-01-01[!foo=bar]") ∧
      parseIsoDatetime (ascii "2020-01-01[!foo=bar]") [.dateTime] = none := by
  refine ⟨⟨⟨⟨2020, 1, 15⟩, by decide, by decide⟩, by decide⟩, ?_, by decide⟩
  obtain ⟨p, hp⟩ : ∃ p, parseGoal (ascii "2020-01-01[!foo=bar]") .dateTime = some p :=
    Option.isSome_iff_exists.mp (by decide)
  exact ⟨p, parseGoal_eq_some.mp hp⟩

end CtBrowser.Script.Temporal
