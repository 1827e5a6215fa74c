import CtBrowser.Script.Temporal.Parse

/-!
# The Grammar of Temporal Strings

The productions of ISO 8601 and RFC 9557 strings that Temporal accepts, with the values of their
words. A parameter of a production is an argument, and a choice of one that a production leaves
open is a union. Early errors are requirements.

## Main definitions

- `Productions.date`, `Productions.time`, `Productions.utcOffset` — the parts.
- `Productions.annotatedDateTime`, `Productions.annotatedTime` — texts with annotations.
- `Productions.goal` — the production of a goal.
-/

namespace CtBrowser.Script.Temporal.Productions

open Foundations.Reading Foundations.Reading.Grammar

/-! ## Terminals -/

/-- A grammar for either value of a parameter. -/
def either {β : Type} (N : Bool → Grammar UInt8 β) : Grammar UInt8 β := alt (N true) (N false)

/-- A byte that may be missing, and whether it is there. -/
def flag (b : UInt8) : Grammar UInt8 Bool :=
  ⟨fun u v => (u = [b] ∧ v = true) ∨ (u = [] ∧ v = false)⟩

/-- A designator in either case. -/
def letter (upper : UInt8) : Grammar UInt8 Unit := alt (literal [upper]) (literal [upper + 0x20])

/-- A separator of the extended format. -/
def separator (extended : Bool) (b : UInt8) : Grammar UInt8 Unit :=
  literal (if extended then [b] else [])

def asciiSign : Grammar UInt8 ℤ :=
  ⟨fun u s => (u = [ch '+'] ∧ s = 1) ∨ (u = [ch '-'] ∧ s = -1)⟩

/-- So many digits, and the number they write. -/
def decimalDigits (count : ℕ) : Grammar UInt8 ℕ :=
  ⟨fun u v => (u.length = count ∧ ∀ b ∈ u, isAsciiDigit b = true) ∧ v = decimal u⟩

/-- Words of a kind, joined by a byte. -/
def Joined (b : UInt8) (P : Text → Prop) (u : Text) : Prop :=
  ∃ (first : Text) (rest : List Text), P first ∧ (∀ c ∈ rest, P c) ∧ u = first ++ rest.flatMap (b :: ·)

/-- A word that starts with a byte of one kind and goes on with bytes of another. -/
def LeadThen (lead rest : UInt8 → Bool) (u : Text) : Prop :=
  ∃ b c, u = b :: c ∧ lead b = true ∧ ∀ x ∈ c, rest x = true

/-! ## Dates -/

def dateYear : Grammar UInt8 ℤ :=
  alt
    (do
      let y ← decimalDigits 4
      pure (y : ℤ))
    (do
      let s ← asciiSign
      let y ← decimalDigits 6
      require ¬ (s = -1 ∧ y = 0)
      pure (s * y))

def dateMonth : Grammar UInt8 ℤ := do
  let m ← decimalDigits 2
  require (1 ≤ m ∧ m ≤ 12)
  pure (m : ℤ)

def dateDay : Grammar UInt8 ℤ := do
  let d ← decimalDigits 2
  require (1 ≤ d ∧ d ≤ 31)
  pure (d : ℤ)

/-- The day has to be one of the month. -/
def dateSpec (extended : Bool) : Grammar UInt8 DateFields := do
  let y ← dateYear
  separator extended (ch '-')
  let m ← dateMonth
  separator extended (ch '-')
  let d ← dateDay
  require (d ≤ isoDaysInMonth y m)
  pure { year := some y, month := m, day := d, hasDay := true }

def date : Grammar UInt8 DateFields := either dateSpec

def dateSpecYearMonth : Grammar UInt8 DateFields :=
  either fun extended => do
    let y ← dateYear
    separator extended (ch '-')
    let m ← dateMonth
    pure { year := some y, month := m, day := 1, hasDay := false }

/-- The day has to be one of the month in a leap year. -/
def dateSpecMonthDay : Grammar UInt8 DateFields :=
  either fun extended => do
    alt (literal (ascii "--")) (literal [])
    let m ← dateMonth
    separator extended (ch '-')
    let d ← dateDay
    require (d ≤ isoDaysInMonth 1972 m)
    pure { year := none, month := m, day := d, hasDay := true }

/-! ## Times and offsets -/

def hour : Grammar UInt8 ℕ := do
  let h ← decimalDigits 2
  require (h ≤ 23)
  pure h

/-- A minute or a second up to the highest. -/
def minuteSecond (highest : ℕ) : Grammar UInt8 ℕ := do
  let m ← decimalDigits 2
  require (m ≤ highest)
  pure m

/-- The digits after a point or a comma. -/
def temporalDecimalFraction : Grammar UInt8 Text := do
  alt (literal [ch '.']) (literal [ch ','])
  matching fun u => (1 ≤ u.length ∧ u.length ≤ 9) ∧ ∀ b ∈ u, isAsciiDigit b = true

/-- An hour, an hour and a minute, or these and a second. -/
def clockSpec (subMinute : Bool) (highest : ℕ) (extended : Bool) : Grammar UInt8 Clock :=
  alt
    (do
      let h ← hour
      pure { hour := h })
    (alt
      (do
        let h ← hour
        separator extended (ch ':')
        let m ← minuteSecond 59
        pure { hour := h, minute := m })
      (do
        require (subMinute = true)
        let h ← hour
        separator extended (ch ':')
        let m ← minuteSecond 59
        separator extended (ch ':')
        let s ← minuteSecond highest
        let f ← opt temporalDecimalFraction
        pure { hour := h, minute := m, second := s, fraction := f.getD [] }))

/-- The nanoseconds of a fraction of a second. -/
def nanoseconds (fraction : Text) : ℤ := decimal (fraction ++ List.replicate (9 - fraction.length) (ch '0'))

/-- A second may be a leap second, which counts as the one before. -/
def time : Grammar UInt8 TimeRecord := do
  let t ← either (clockSpec true 60)
  pure { hour := t.hour, minute := t.minute, second := min t.second 59,
         millisecond := nanoseconds t.fraction / 1000000,
         microsecond := nanoseconds t.fraction / 1000 % 1000,
         nanosecond := nanoseconds t.fraction % 1000 }

def utcOffset (subMinute : Bool) : Grammar UInt8 ℤ := do
  let s ← asciiSign
  let t ← either (clockSpec subMinute 59)
  pure (s * ((t.hour * 3600 + t.minute * 60 + t.second) * 1000000000 + nanoseconds t.fraction))

/-! ## Annotations -/

def timeZoneIanaName : Grammar UInt8 Text :=
  matching (Joined (ch '/') (LeadThen isTzLeadingChar isTzChar))

def timeZoneIdentifier : Grammar UInt8 Unit :=
  alt
    (do
      let _ ← utcOffset false
      pure ())
    (do
      let _ ← timeZoneIanaName
      pure ())

def timeZoneAnnotation : Grammar UInt8 Text := do
  literal (ascii "[")
  let _ ← flag (ch '!')
  let id ← captured timeZoneIdentifier
  literal (ascii "]")
  pure id.1

def annotationKey : Grammar UInt8 Text := matching (LeadThen isKeyLead isKeyChar)

def annotationValue : Grammar UInt8 Text :=
  matching (Joined (ch '-') fun u => u ≠ [] ∧ ∀ b ∈ u, (isAsciiAlpha b || isAsciiDigit b) = true)

def annotation : Grammar UInt8 Annotation := do
  literal (ascii "[")
  let critical ← flag (ch '!')
  let key ← annotationKey
  literal (ascii "=")
  let value ← annotationValue
  literal (ascii "]")
  pure { critical, key, value }

/-- The time zone, which has to be there or not, and the other annotations. -/
def annotated (zoned : Bool) : Grammar UInt8 Annotated := do
  let zone ← opt timeZoneAnnotation
  require (zoned = true → zone ≠ none)
  let items ← many annotation
  pure { timeZone := zone.getD [], hasTimeZone := zone.isSome, annotations := items }

/-! ## Goals -/

def dateTimeUtcOffset (z : Bool) : Grammar UInt8 OffsetPart :=
  alt
    (do
      require (z = true)
      letter (ch 'Z')
      pure { z := true })
    (do
      let offset ← captured (utcOffset true)
      pure { text := offset.1 })

def dateTimeSeparator : Grammar UInt8 Unit := alt (literal [ch ' ']) (letter (ch 'T'))

/-- A time and what there is of an offset. -/
def timeAndOffset (z : Bool) : Grammar UInt8 (TimeRecord × OffsetPart) := do
  let t ← time
  let offset ← opt (dateTimeUtcOffset z)
  pure (t, offset.getD {})

/-- A date, with a time unless only the date is there and no time is required. -/
def dateTime (z timeRequired : Bool) : Grammar UInt8 Parsed :=
  alt
    (do
      require (timeRequired = false)
      let d ← date
      pure { date := d })
    (do
      let d ← date
      dateTimeSeparator
      let t ← timeAndOffset z
      pure { date := d, time := some t.1, offset := t.2 })

/-- Annotations after something. -/
def withAnnotations (zoned : Bool) (N : Grammar UInt8 Parsed) : Grammar UInt8 Parsed := do
  let p ← N
  let notes ← annotated zoned
  pure { p with notes }

def annotatedDateTime (zoned timeRequired : Bool) : Grammar UInt8 Parsed :=
  withAnnotations zoned (dateTime zoned timeRequired)

def temporalInstantString : Grammar UInt8 Parsed :=
  withAnnotations false do
    let d ← date
    dateTimeSeparator
    let t ← time
    let offset ← dateTimeUtcOffset true
    pure { date := d, time := some t, offset }

/-- A word that a production has some value for. -/
def Derivable {β : Type} (N : Grammar UInt8 β) (u : Text) : Prop := ∃ b, N.derives u b

/-- Without the designator, the time must not be a month-day or a year-month as well. -/
def annotatedTime : Grammar UInt8 Parsed :=
  withAnnotations false <| alt
    (do
      letter (ch 'T')
      let t ← timeAndOffset false
      pure { time := some t.1, offset := t.2 })
    (do
      let t ← captured (timeAndOffset false)
      require (¬ Derivable dateSpecMonthDay t.1 ∧ ¬ Derivable dateSpecYearMonth t.1)
      pure { time := some t.2.1, offset := t.2.2 })

/-- A bare date of some kind. -/
def annotatedDate (bare : Grammar UInt8 DateFields) : Grammar UInt8 Parsed :=
  withAnnotations false do
    let d ← bare
    pure { date := d }

def goal : Goal → Grammar UInt8 Parsed
  | .dateTimeZoned => annotatedDateTime true false
  | .dateTime => annotatedDateTime false false
  | .instant => temporalInstantString
  | .time => alt annotatedTime (annotatedDateTime false true)
  | .monthDay => alt (annotatedDate dateSpecMonthDay) (annotatedDateTime false false)
  | .yearMonth => alt (annotatedDate dateSpecYearMonth) (annotatedDateTime false false)

end CtBrowser.Script.Temporal.Productions
