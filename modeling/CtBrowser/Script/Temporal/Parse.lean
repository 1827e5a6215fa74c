import CtBrowser.Core.Text
import CtBrowser.Foundations.Reading
import CtBrowser.Script.Temporal.Calendar

/-!
# Parsing Temporal Strings

The recursive descent over the strings of the Temporal grammar: date-times with annotations,
UTC offsets and time zone identifiers. A cursor is the rest of the text, and a function that
advances it only on success is a reader of bytes.

## Main definitions

- `date`, `timeSpec`, `utcOffset`, `annotations` — the nonterminals.
- `parseGoal` — a whole text as a production of the grammar.
- `parseIsoDatetime` — what a text says, if its annotations are ones to accept.
-/

namespace CtBrowser.Script.Temporal

open Foundations.Reading

/-- The byte of an ASCII character. -/
def ch (c : Char) : UInt8 := c.toNat.toUInt8

def isAsciiDigit (c : UInt8) : Bool := ch '0' ≤ c ∧ c ≤ ch '9'

theorem isAsciiDigit_iff (b : UInt8) : isAsciiDigit b = true ↔ 48 ≤ b.toNat ∧ b.toNat ≤ 57 := by
  have hchars : (ch '0').toNat = 48 ∧ (ch '9').toNat = 57 := by decide
  rw [isAsciiDigit, decide_eq_true_eq, UInt8.le_iff_toNat_le, UInt8.le_iff_toNat_le, hchars.1,
    hchars.2]

def isAsciiAlpha (c : UInt8) : Bool := ch 'a' ≤ c ∧ c ≤ ch 'z' ∨ ch 'A' ≤ c ∧ c ≤ ch 'Z'

def isSign (c : UInt8) : Bool := c = ch '+' ∨ c = ch '-'

/-! ## The cursor -/

/-- The next byte, or NUL at the end. -/
def peek : Reader UInt8 UInt8 := fun c => some (c.headD 0, c)

/-- Steps over a byte. -/
def advance : Reader UInt8 Unit := fun c => some ((), c.tail)

/-- Takes a byte if it is next. -/
def eat (b : UInt8) : Reader UInt8 Bool := fun c =>
  if c.headD 0 = b then some (true, c.tail) else some (false, c)

/-- Takes a designator letter in either case. -/
def eatLetter (upper : UInt8) : Reader UInt8 Bool := fun c =>
  if c.headD 0 = upper ∨ c.headD 0 = upper + 0x20 then some (true, c.tail) else some (false, c)

/-- Fails unless a byte is next. -/
def expect (b : UInt8) : Reader UInt8 Unit := do
  let eaten ← eat b
  guard eaten

/-- A reader with the text that it read. -/
def withText {β : Type} (p : Reader UInt8 β) : Reader UInt8 (Text × β) := fun c =>
  (p c).map fun (b, rest) => ((c.take (c.length - rest.length), b), rest)

/-! ## Numbers -/

/-- Digits that go on from a value. -/
def digitsFrom : ℕ → ℕ → Text → Option (ℕ × Text)
  | 0, value, c => some (value, c)
  | _ + 1, _, [] => none
  | count + 1, value, b :: c =>
    if isAsciiDigit b then digitsFrom count (value * 10 + (b.toNat - '0'.toNat)) c else none

/-- Exactly so many digits, as a number. -/
def digits (count : ℕ) : Reader UInt8 ℕ := digitsFrom count 0

def hour : Reader UInt8 ℕ := do
  let out ← digits 2
  guard (out ≤ 23)
  pure out

/-- Two digits up to the highest: what is left in the result, and the rest on success. A result
that is too high stays where it was written. -/
def minuteSecond (highest : ℕ) (c : Text) : ℕ × Option Text :=
  match digits 2 c with
  | none => (0, none)
  | some (out, rest) => (out, if out ≤ highest then some rest else none)

/-- One to nine digits after a point or a comma. -/
def fraction : Reader UInt8 Text := fun c =>
  if c.headD 0 ≠ ch '.' ∧ c.headD 0 ≠ ch ',' then none
  else
    let n := (c.tail.takeWhile isAsciiDigit).length
    if n < 1 ∨ 9 < n then none
    else some (c.tail.takeWhile isAsciiDigit, c.tail.dropWhile isAsciiDigit)

/-- The number that digits write. -/
def decimal (digits : Text) : ℕ := digits.foldl (fun value b => value * 10 + (b.toNat - '0'.toNat)) 0

/-- The digits of a fraction as nanoseconds, padded on the right to nine. -/
def fractionNanoseconds (digits : Text) : ℕ := decimal ((digits ++ ascii "000000000").take 9)

/-! ## Dates -/

/-- Four digits, or a sign and six, but not `-000000`. -/
def dateYear : Reader UInt8 ℤ := do
  let lead ← peek
  if isSign lead then
    advance
    let value ← digits 6
    guard ¬ (lead = ch '-' ∧ value = 0)
    pure (if lead = ch '-' then -value else value)
  else
    let value ← digits 4
    pure value

def dateMonth : Reader UInt8 ℤ := do
  let out ← digits 2
  guard (1 ≤ out ∧ out ≤ 12)
  pure out

def dateDay : Reader UInt8 ℤ := do
  let out ← digits 2
  guard (1 ≤ out ∧ out ≤ 31)
  pure out

/-- Rejects day 31 of a month of 30, and February 30. -/
def validMonthDay (month day : ℤ) : Bool :=
  !(day = 31 ∧ (month = 2 ∨ month = 4 ∨ month = 6 ∨ month = 9 ∨ month = 11)) &&
    !(month = 2 ∧ day = 30)

/-- The date part of a text; the year of a bare month-day is missing. -/
structure DateFields where
  year : Option ℤ := none
  month : ℤ := 1
  day : ℤ := 1
  hasDay : Bool := false
deriving DecidableEq, Repr

def date : Reader UInt8 DateFields := do
  let year ← dateYear
  let extended ← eat (ch '-')
  let month ← dateMonth
  if extended then expect (ch '-') else pure ()
  let day ← dateDay
  guard (validMonthDay month day = true)
  guard ¬ (month = 2 ∧ day = 29 ∧ isLeapYear year = false)
  pure { year := some year, month, day, hasDay := true }

def dateSpecYearMonth : Reader UInt8 DateFields := do
  let year ← dateYear
  let _ ← eat (ch '-')
  let month ← dateMonth
  pure { year := some year, month, day := 1, hasDay := false }

/-- Steps over `--`, if it is there. -/
def skipDashes : Reader UInt8 Unit := fun c =>
  if c.headD 0 = ch '-' ∧ c.tail.headD 0 = ch '-' then some ((), c.tail.tail) else some ((), c)

def dateSpecMonthDay : Reader UInt8 DateFields := do
  skipDashes
  let month ← dateMonth
  let _ ← eat (ch '-')
  let day ← dateDay
  guard (validMonthDay month day = true)
  pure { year := none, month, day, hasDay := true }

/-! ## Times and offsets -/

/-- What a clock shows: the hour, and what is there of the minute, the second and the digits of
its fraction. -/
structure Clock where
  hour : ℕ
  minute : ℕ := 0
  second : ℕ := 0
  fraction : Text := []
deriving DecidableEq, Repr

/-- The clock that a time and an offset both have: parts either all separated by colons or none
of them, the longest match. -/
def clock (subMinute : Bool) (highest : ℕ) : Reader UInt8 Clock := fun c => do
  let (h, afterHour) ← hour c
  let extended := afterHour.headD 0 = ch ':'
  match minuteSecond 59 (if extended then afterHour.tail else afterHour) with
  -- `12:` is no time, `12` is
  | (m, none) => some ({ hour := h, minute := m }, afterHour)
  | (m, some afterMinute) =>
    if !subMinute ∨ (extended ∧ afterMinute.headD 0 ≠ ch ':') then
      some ({ hour := h, minute := m }, afterMinute)
    else
      match minuteSecond highest (if extended then afterMinute.tail else afterMinute) with
      | (_, none) => some ({ hour := h, minute := m }, afterMinute)
      | (s, some afterSecond) =>
        match fraction afterSecond with
        | none => some ({ hour := h, minute := m, second := s }, afterSecond)
        | some (digits, rest) =>
          some ({ hour := h, minute := m, second := s, fraction := digits }, rest)

/-- A time. A leap second is read as the second before it. -/
def timeSpec : Reader UInt8 TimeRecord := do
  let t ← clock true 60
  let ns : ℤ := fractionNanoseconds t.fraction
  pure { hour := t.hour, minute := t.minute, second := if t.second = 60 then 59 else t.second,
         millisecond := ns / 1000000, microsecond := ns / 1000 % 1000, nanosecond := ns % 1000 }

/-- A UTC offset in nanoseconds, with seconds and a fraction if they are allowed. -/
def utcOffset (subMinute : Bool) : Reader UInt8 ℤ := do
  let lead ← peek
  guard (isSign lead = true)
  advance
  let t ← clock subMinute 59
  let ns : ℤ := (((t.hour * 60 + t.minute) * 60 + t.second : ℤ) * 1000000000) +
    fractionNanoseconds t.fraction
  pure ((if lead = ch '-' then -1 else 1) * ns)

/-! ## Time zones and annotations -/

def isTzLeadingChar (c : UInt8) : Bool := isAsciiAlpha c || c = ch '.' || c = ch '_'

def isTzChar (c : UInt8) : Bool :=
  isAsciiAlpha c || isAsciiDigit c || c = ch '.' || c = ch '_' || c = ch '-' || c = ch '+'

/-- The rest of a time zone name, after the first letter of a component. -/
def ianaNameFrom : Text → Option (Unit × Text)
  | [] => some ((), [])
  | [b] => if isTzChar b then some ((), []) else if b = ch '/' then none else some ((), [b])
  | b :: lead :: c =>
    if isTzChar b then ianaNameFrom (lead :: c)
    else if b = ch '/' then
      if isTzLeadingChar lead then ianaNameFrom c else none
    else some ((), b :: lead :: c)

/-- Components of letters, joined by slashes. -/
def ianaName : Reader UInt8 Unit := fun
  | [] => none
  | lead :: c => if isTzLeadingChar lead then ianaNameFrom c else none

def timeZoneIdentifier : Reader UInt8 Unit := fun c =>
  match utcOffset false c with
  | some (_, rest) => some ((), rest)
  | none => ianaName c

/-- One bracketed annotation. -/
structure Annotation where
  critical : Bool := false
  key : Text
  value : Text
deriving DecidableEq, Repr

/-- The annotations after a date-time. -/
structure Annotated where
  timeZone : Text := []
  hasTimeZone : Bool := false
  annotations : List Annotation := []
deriving DecidableEq, Repr

def isKeyLead (c : UInt8) : Bool := ch 'a' ≤ c ∧ c ≤ ch 'z' ∨ c = ch '_'

def isKeyChar (c : UInt8) : Bool := isKeyLead c || isAsciiDigit c || c = ch '-'

def annotationKey : Reader UInt8 Text := fun c =>
  if isKeyLead (c.headD 0) then some (c.takeWhile isKeyChar, c.dropWhile isKeyChar) else none

/-- The rest of an annotation's value, at the beginning of a component or inside of one. -/
def annotationValueFrom : Bool → Text → Option (Unit × Text)
  | fresh, [] => if fresh then none else some ((), [])
  | fresh, b :: c =>
    if isAsciiAlpha b || isAsciiDigit b then annotationValueFrom false c
    else if fresh then none
    else if b = ch '-' then annotationValueFrom true c
    else some ((), b :: c)

def annotationItem : Reader UInt8 Annotation := do
  expect (ch '[')
  let critical ← eat (ch '!')
  let key ← annotationKey
  expect (ch '=')
  let (value, _) ← withText (annotationValueFrom true)
  expect (ch ']')
  pure { critical, key, value }

/-- The time zone among annotations, which is the first one. -/
def timeZoneAnnotation : Reader UInt8 Text := do
  expect (ch '[')
  let _ ← eat (ch '!')
  let (text, _) ← withText timeZoneIdentifier
  expect (ch ']')
  pure text

/-- Annotations as long as a bracket opens. One takes a byte at least, so that the length of the
text is fuel enough. -/
def annotationItems : ℕ → Text → Option (List Annotation × Text)
  | 0, c => some ([], c)
  | n + 1, c =>
    if c.headD 0 ≠ ch '[' then some ([], c)
    else do
      let (item, c) ← annotationItem c
      let (items, c) ← annotationItems n c
      some (item :: items, c)

def annotations (zoneRequired : Bool) : Reader UInt8 Annotated := do
  let zone ← attempt timeZoneAnnotation
  guard ¬ (zoneRequired = true ∧ zone = none)
  let items ← fun c => annotationItems c.length c
  pure { timeZone := zone.getD [], hasTimeZone := zone.isSome, annotations := items }

/-! ## Date-times -/

/-- The offset of a date-time. -/
structure OffsetPart where
  z : Bool := false
  text : Text := []
deriving DecidableEq, Repr

def dateTimeUtcOffset (allowZ : Bool) : Reader UInt8 OffsetPart := fun c =>
  if allowZ = true ∧ (c.headD 0 = ch 'Z' ∨ c.headD 0 = ch 'z') then some ({ z := true }, c.tail)
  else do
    let ((text, _), c) ← withText (utcOffset true) c
    some ({ text }, c)

/-- Everything that one production found. -/
structure Parsed where
  date : DateFields := {}
  time : Option TimeRecord := none
  offset : OffsetPart := {}
  notes : Annotated := {}
deriving DecidableEq, Repr

/-- A time and what there is of an offset. -/
def timeAndOffset (allowZ : Bool) : Reader UInt8 (TimeRecord × OffsetPart) := do
  let t ← timeSpec
  let offset ← attempt (dateTimeUtcOffset allowZ)
  pure (t, offset.getD {})

/-- The time of a date-time after its separator. -/
def separatedTime (allowZ : Bool) : Reader UInt8 (TimeRecord × OffsetPart) := do
  let separator ← peek
  guard (separator = ch 'T' ∨ separator = ch 't' ∨ separator = ch ' ')
  advance
  timeAndOffset allowZ

def annotatedDateTime (zoned timeRequired instant : Bool) : Reader UInt8 Parsed := do
  let date ← date
  let timed ← attempt (separatedTime (zoned || instant))
  let offset := (timed.map Prod.snd).getD {}
  guard ¬ (timeRequired = true ∧ timed = none)
  guard ¬ (instant = true ∧ offset.z = false ∧ offset.text = [])
  let notes ← annotations zoned
  pure { date, time := timed.map Prod.fst, offset, notes }

/-- Whether a whole text is a month-day or a year-month, which keeps it from being a time. -/
def isMonthDayOrYearMonth (text : Text) : Bool :=
  (dateSpecMonthDay text).any (fun r => r.2.isEmpty) ||
    (dateSpecYearMonth text).any fun r => r.2.isEmpty

def annotatedTime : Reader UInt8 Parsed := do
  let designated ← eatLetter (ch 'T')
  let (text, t, offset) ← withText (timeAndOffset false)
  guard ¬ (designated = false ∧ isMonthDayOrYearMonth text = true)
  let notes ← annotations false
  pure { time := some t, offset, notes }

/-- The goals of the grammar. -/
inductive Goal
  | dateTimeZoned
  | dateTime
  | instant
  | time
  | monthDay
  | yearMonth
deriving DecidableEq, Repr

/-- A production that the whole text has to be. -/
def whole (production : Reader UInt8 Parsed) (text : Text) : Option Parsed :=
  match production text with
  | some (out, []) => some out
  | _ => none

/-- A bare date of some kind with annotations. -/
def annotatedDate (bare : Reader UInt8 DateFields) : Reader UInt8 Parsed := do
  let date ← bare
  let notes ← annotations false
  pure { date, notes }

def parseGoal (text : Text) : Goal → Option Parsed
  | .dateTimeZoned => whole (annotatedDateTime true false false) text
  | .dateTime => whole (annotatedDateTime false false false) text
  | .instant => whole (annotatedDateTime false true true) text
  | .time => (whole annotatedTime text).or (whole (annotatedDateTime false true false) text)
  | .monthDay =>
    (whole (annotatedDate dateSpecMonthDay) text).or
      (whole (annotatedDateTime false false false) text)
  | .yearMonth =>
    (whole (annotatedDate dateSpecYearMonth) text).or
      (whole (annotatedDateTime false false false) text)

/-- What a text says. -/
structure ParseRecord where
  year : Option ℤ
  month : ℤ
  day : ℤ
  time : Option TimeRecord
  z : Bool
  offset : Text
  annotation : Text
  calendar : Text
deriving DecidableEq, Repr

/-- The calendar seen among annotations. -/
structure SeenCalendar where
  calendar : Text := []
  critical : Bool := false
  have_ : Bool := false

/-- The first calendar counts. A second one is an error if either is critical, and so is an
unknown annotation that is. -/
def scanAnnotations : List Annotation → SeenCalendar → Option SeenCalendar
  | [], seen => some seen
  | item :: items, seen =>
    if item.key = ascii "u-ca" then
      if !seen.have_ then scanAnnotations items ⟨item.value, item.critical, true⟩
      else if item.critical || seen.critical then none
      else scanAnnotations items seen
    else if item.critical then none
    else scanAnnotations items seen

/-- The record of what a goal found, if its annotations are ones to accept. -/
def recordOf (g : Goal) (result : Parsed) : Option ParseRecord := do
  let seen ← scanAnnotations result.notes.annotations {}
  let isoCalendar := !seen.have_ || asciiIequals seen.calendar (ascii "iso8601")
  guard ¬ (g = .yearMonth ∧ result.date.hasDay = false ∧ isoCalendar = false)
  guard ¬ (g = .monthDay ∧ result.date.year = none ∧ isoCalendar = false)
  pure { year := result.date.year, month := result.date.month, day := result.date.day,
         time := result.time, z := result.offset.z, offset := result.offset.text,
         annotation := result.notes.timeZone, calendar := seen.calendar }

def parseIsoDatetime (text : Text) : List Goal → Option ParseRecord
  | [] => none
  | g :: goals =>
    match parseGoal text g with
    | none => parseIsoDatetime text goals
    | some result => recordOf g result

def parseUtcOffset (text : Text) (subMinute : Bool) : Option ℤ :=
  match utcOffset subMinute text with
  | some (ns, []) => some ns
  | _ => none

end CtBrowser.Script.Temporal
