import CtBrowser.Script.Temporal.Format

/-!
# Durations

Durations, their validity, and their strings both ways. A field is an integral Number, so an
integer; one that is read of a string is the double nearest to its digits.

## Main definitions

- `DurationRecord`, `isValidDuration` — durations.
- `temporalDurationToString` — a duration as a string.
- `parseTemporalDurationString` — the valid duration of a string.
-/

namespace CtBrowser.Script.Temporal

open Foundations.Reading

/-! ## Records -/

structure DurationRecord where
  years : ℤ := 0
  months : ℤ := 0
  weeks : ℤ := 0
  days : ℤ := 0
  hours : ℤ := 0
  minutes : ℤ := 0
  seconds : ℤ := 0
  milliseconds : ℤ := 0
  microseconds : ℤ := 0
  nanoseconds : ℤ := 0
deriving DecidableEq, Repr

namespace DurationRecord

/-- The fields from the largest unit to the smallest. -/
def fields (d : DurationRecord) : List ℤ :=
  [d.years, d.months, d.weeks, d.days, d.hours, d.minutes, d.seconds, d.milliseconds,
    d.microseconds, d.nanoseconds]

/-- The fields from days on. -/
def timeFields (d : DurationRecord) : List ℤ :=
  [d.days, d.hours, d.minutes, d.seconds, d.milliseconds, d.microseconds, d.nanoseconds]

end DurationRecord

/-- The largest magnitude of each of the fields from days on; the last is the double nearest to
9.1e24. -/
def timeFieldLimits : List ℤ :=
  [105000000000, 2600000000000, 160000000000000, 9100000000000000, 9100000000000000000,
    9100000000000000000000, 9099999999999999471517696]

def timeDurationFromComponents (hours minutes seconds milliseconds microseconds nanoseconds : ℤ) : ℤ :=
  hours * 3600000000000 + minutes * 60000000000 + seconds * 1000000000 + milliseconds * 1000000 +
    microseconds * 1000 + nanoseconds

/-- Whether no field has the sign opposite to one before it. -/
def signsAgree : ℤ → List ℤ → Bool
  | _, [] => true
  | sign, v :: vs =>
    if v < 0 then if 0 < sign then false else signsAgree (-1) vs
    else if 0 < v then if sign < 0 then false else signsAgree 1 vs
    else signsAgree sign vs

def isValidDuration (d : DurationRecord) : Bool :=
  if signsAgree 0 d.fields = false then false
  else if 2 ^ 32 ≤ |d.years| ∨ 2 ^ 32 ≤ |d.months| ∨ 2 ^ 32 ≤ |d.weeks| then false
  else if (d.timeFields.zip timeFieldLimits).any fun x => x.2 < |x.1| then false
  else
    let total := d.days * nsPerDay + timeDurationFromComponents d.hours d.minutes d.seconds
      d.milliseconds d.microseconds d.nanoseconds
    |total| ≤ maxTimeDuration

/-- The sign of the first field that is not zero. -/
def signOf : List ℤ → ℤ
  | [] => 0
  | v :: vs => if v < 0 then -1 else if 0 < v then 1 else signOf vs

def durationSign (d : DurationRecord) : ℤ := signOf d.fields

/-- The units, from the largest on. -/
inductive DurationUnit
  | year
  | month
  | week
  | day
  | hour
  | minute
  | second
  | millisecond
  | microsecond
  | nanosecond
deriving DecidableEq, Repr

def defaultLargestUnit (d : DurationRecord) : DurationUnit :=
  if d.years ≠ 0 then .year
  else if d.months ≠ 0 then .month
  else if d.weeks ≠ 0 then .week
  else if d.days ≠ 0 then .day
  else if d.hours ≠ 0 then .hour
  else if d.minutes ≠ 0 then .minute
  else if d.seconds ≠ 0 then .second
  else if d.milliseconds ≠ 0 then .millisecond
  else if d.microseconds ≠ 0 then .microsecond
  else .nanosecond

/-! ## Writing -/

/-- A field that is not zero, with its designator. -/
def durationPart (v : ℤ) (designator : UInt8) : Text :=
  if v = 0 then [] else i128ToString |v| ++ [designator]

def temporalDurationToString (d : DurationRecord) (precision : ℤ) : Text :=
  let datePart := durationPart d.years (ch 'Y') ++ durationPart d.months (ch 'M') ++
    durationPart d.weeks (ch 'W') ++ durationPart d.days (ch 'D')
  let zeroMinutesAndHigher : Bool := DurationUnit.second.ctorIdx ≤ (defaultLargestUnit d).ctorIdx
  let seconds := timeDurationFromComponents 0 0 d.seconds d.milliseconds d.microseconds d.nanoseconds
  let timePart := durationPart d.hours (ch 'H') ++ durationPart d.minutes (ch 'M') ++
    if seconds ≠ 0 ∨ zeroMinutesAndHigher = true ∨ precision ≠ precisionAuto then
      i128ToString |Int.tdiv seconds 1000000000| ++
        formatFractionalSeconds |Int.tmod seconds 1000000000| precision ++ [ch 'S']
    else []
  (if durationSign d < 0 then ascii "-" else []) ++ ascii "P" ++ datePart ++
    if timePart = [] then [] else ascii "T" ++ timePart

/-! ## Reading -/

/-- Digits, and a fraction if one is allowed and there. -/
def number (fractional : Bool) : Reader UInt8 (Text × Text) := fun c =>
  if c.takeWhile isAsciiDigit = [] then none
  else
    match if fractional then fraction (c.dropWhile isAsciiDigit) else none with
    | some (digits, rest) => some ((c.takeWhile isAsciiDigit, digits), rest)
    | none => some ((c.takeWhile isAsciiDigit, []), c.dropWhile isAsciiDigit)

/-- A number and its designator. -/
def designated (designator : UInt8) (fractional : Bool) : Reader UInt8 (Text × Text) := do
  let n ← number fractional
  let eaten ← eatLetter designator
  guard eaten
  pure n

/-- The digits of a duration, field by field; none for a field that is missing. -/
structure DurationText where
  years : Text := []
  months : Text := []
  weeks : Text := []
  days : Text := []
  hours : Text := []
  minutes : Text := []
  seconds : Text := []
  fHours : Text := []
  fMinutes : Text := []
  fSeconds : Text := []
deriving DecidableEq, Repr

/-- The digits that were read, or none. -/
def digitsOf (part : Option (Text × Text)) : Text := (part.map Prod.fst).getD []

/-- The digits of a fraction that were read, or none. -/
def fractionOf (part : Option (Text × Text)) : Text := (part.map Prod.snd).getD []

/-- The parts of a date, which may all be missing. -/
def durationDate : Reader UInt8 (DurationText × Bool) := do
  let y ← attempt (designated (ch 'Y') false)
  let m ← attempt (designated (ch 'M') false)
  let w ← attempt (designated (ch 'W') false)
  let d ← attempt (designated (ch 'D') false)
  pure ({ years := digitsOf y, months := digitsOf m, weeks := digitsOf w, days := digitsOf d },
    y.isSome || m.isSome || w.isSome || d.isSome)

/-- The parts of a time up to one with a fraction; one has to be there. -/
def durationTime (date : DurationText) : Reader UInt8 DurationText := do
  let h ← attempt (designated (ch 'H') true)
  if fractionOf h ≠ [] then pure { date with hours := digitsOf h, fHours := fractionOf h }
  else
    let m ← attempt (designated (ch 'M') true)
    if fractionOf m ≠ [] then
      pure { date with hours := digitsOf h, minutes := digitsOf m, fMinutes := fractionOf m }
    else
      let s ← attempt (designated (ch 'S') true)
      guard (h ≠ none ∨ m ≠ none ∨ s ≠ none)
      pure { date with hours := digitsOf h, minutes := digitsOf m, seconds := digitsOf s,
                       fSeconds := fractionOf s }

/-- The sign of a duration and its fields. -/
def durationFields : Reader UInt8 (ℤ × DurationText) := do
  let lead ← peek
  let factor : ℤ := if lead = ch '-' then -1 else 1
  if isSign lead then advance else pure ()
  let designator ← eatLetter (ch 'P')
  guard designator
  let (date, anyDate) ← durationDate
  let timed ← eatLetter (ch 'T')
  if timed then
    let d ← durationTime date
    pure (factor, d)
  else
    guard anyDate
    pure (factor, date)

/-- The double nearest to a number, ties to even. -/
def nearestDouble (n : ℕ) : ℕ :=
  if n < 2 ^ 53 then n
  else
    let e := Nat.log 2 n - 52
    let q := n / 2 ^ e
    let r := n % 2 ^ e
    (if 2 ^ (e - 1) < r ∨ (r = 2 ^ (e - 1) ∧ q % 2 = 1) then q + 1 else q) * 2 ^ e

/-- Digits as a Number, if it is finite. -/
def toNumber (digits : Text) : Option ℤ :=
  if nearestDouble (decimal digits) < 2 ^ 1024 then some (nearestDouble (decimal digits)) else none

/-- The nanoseconds of a fraction of a unit. -/
def fractionOfUnit (f : Text) (unitNs : ℕ) : ℤ := (decimal f * unitNs / 10 ^ f.length : ℕ)

/-- The fields below the hours, of their digits or of the fraction on the unit above. -/
def spreadFields (d : DurationText) : Option DurationRecord :=
  let below (ns : ℤ) (minutes seconds : ℤ) : DurationRecord :=
    { minutes, seconds, milliseconds := ns / 1000000 % 1000, microseconds := ns / 1000 % 1000,
      nanoseconds := ns % 1000 }
  if d.fHours ≠ [] then
    let ns := fractionOfUnit d.fHours 3600000000000
    some (below ns (ns / 60000000000) (ns / 1000000000 % 60))
  else do
    let m ← toNumber d.minutes
    if d.fMinutes ≠ [] then
      let ns := fractionOfUnit d.fMinutes 60000000000
      some (below ns m (ns / 1000000000 % 60))
    else
      let s ← toNumber d.seconds
      some (below (if d.fSeconds ≠ [] then fractionOfUnit d.fSeconds 1000000000 else 0) m s)

/-- Every field times a factor. -/
def scaleDuration (factor : ℤ) (d : DurationRecord) : DurationRecord :=
  ⟨d.years * factor, d.months * factor, d.weeks * factor, d.days * factor, d.hours * factor,
    d.minutes * factor, d.seconds * factor, d.milliseconds * factor, d.microseconds * factor,
    d.nanoseconds * factor⟩

/-- The duration of digits, if its fields are finite. -/
def durationOf (factor : ℤ) (d : DurationText) : Option DurationRecord := do
  let years ← toNumber d.years
  let months ← toNumber d.months
  let weeks ← toNumber d.weeks
  let days ← toNumber d.days
  let hours ← toNumber d.hours
  let below ← spreadFields d
  some (scaleDuration factor { below with years, months, weeks, days, hours })

def parseTemporalDurationString (text : Text) : Option DurationRecord :=
  match durationFields text with
  | some ((factor, d), []) =>
    match durationOf factor d with
    | some result => if isValidDuration result then some result else none
    | none => none
  | _ => none

end CtBrowser.Script.Temporal
