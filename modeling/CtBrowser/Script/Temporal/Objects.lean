import CtBrowser.Script.Temporal.Format

/-!
# Temporal Objects from Strings

What the Temporal types make of a string: the goal it is parsed as, its calendar, and the limits
of the type. The types themselves are their values with what their constructors check.

## Main definitions

- `PlainDate`, `PlainTime`, `PlainDateTime`, `PlainYearMonth`, `PlainMonthDay`, `Instant`.
- `toTemporalDate`, `toTemporalTime`, `toTemporalInstant` and the others — values of strings.
-/

namespace CtBrowser.Script.Temporal

/-! ## Values -/

/-- A date of the calendar within the limits. -/
structure PlainDate where
  date : IsoDate
  valid : isValidIsoDate date.year date.month date.day = true
  within : isoDateWithinLimits date = true

/-- A time of day. -/
structure PlainTime where
  time : TimeRecord
  valid : isValidTime time = true
  no_days : time.days = 0

structure PlainDateTime where
  dt : IsoDatetime
  valid_date : isValidIsoDate dt.date.year dt.date.month dt.date.day = true
  valid_time : isValidTime dt.time = true
  no_days : dt.time.days = 0
  within : isoDatetimeWithinLimits dt = true

/-- A year and a month, with a day of reference. -/
structure PlainYearMonth where
  date : IsoDate
  valid : isValidIsoDate date.year date.month date.day = true
  within : isoYearMonthWithinLimits date = true

/-- A month and a day, with a year of reference. -/
structure PlainMonthDay where
  date : IsoDate
  valid : isValidIsoDate date.year date.month date.day = true
  within : isoDateWithinLimits date = true

/-- An exact time within the limits. -/
structure Instant where
  epochNs : ℤ
  within : isValidEpochNanoseconds epochNs = true

/-- A numeric offset, of less than a day. -/
structure UtcOffset where
  ns : ℤ
  within : |ns| < nsPerDay

/-! ## Strings -/

def canonicalizeCalendar (id : Text) : Option Text :=
  if asciiIequals id isoCalendar then some isoCalendar else none

def parseCalendar (r : ParseRecord) : Option Text :=
  canonicalizeCalendar (if r.calendar = [] then isoCalendar else r.calendar)

/-- The date of a string, with its calendar. -/
def toTemporalDate (text : Text) : Option (IsoDate × Text) := do
  let r ← parseIsoDatetime text [.dateTime]
  let calendar ← parseCalendar r
  let year ← r.year
  let date : IsoDate := { year, month := r.month, day := r.day }
  if isoDateWithinLimits date then some (date, calendar) else none

def toTemporalTime (text : Text) : Option TimeRecord := do
  let r ← parseIsoDatetime text [.time]
  r.time

/-- A string without a time has midnight. -/
def toTemporalDateTime (text : Text) : Option (IsoDatetime × Text) := do
  let r ← parseIsoDatetime text [.dateTime]
  let calendar ← parseCalendar r
  let year ← r.year
  let dt : IsoDatetime := { date := { year, month := r.month, day := r.day }, time := r.time.getD {} }
  if isoDatetimeWithinLimits dt then some (dt, calendar) else none

/-- The first of the month is the day of reference, whatever day the string has. -/
def toTemporalYearMonth (text : Text) : Option (IsoDate × Text) := do
  let r ← parseIsoDatetime text [.yearMonth]
  let calendar ← parseCalendar r
  let year ← r.year
  let date : IsoDate := { year, month := r.month, day := r.day }
  if isoYearMonthWithinLimits date then some ({ year, month := r.month, day := 1 }, calendar) else none

/-- 1972 is the year of reference, whatever year the string has. -/
def toTemporalMonthDay (text : Text) : Option (IsoDate × Text) := do
  let r ← parseIsoDatetime text [.monthDay]
  let calendar ← parseCalendar r
  some ({ year := 1972, month := r.month, day := r.day }, calendar)

/-- The offset that a string gives an exact time. -/
def instantOffset (r : ParseRecord) : Option ℤ :=
  if r.z then some 0 else parseUtcOffset r.offset true

def toTemporalInstant (text : Text) : Option ℤ := do
  let r ← parseIsoDatetime text [.instant]
  let t ← r.time
  let year ← r.year
  let offset ← instantOffset r
  let balanced := balanceIsoDatetime year r.month r.day t.hour t.minute t.second t.millisecond
    t.microsecond (t.nanosecond - offset)
  if checkIsoDaysRange balanced.date then
    let ns := getUtcEpochNanoseconds balanced
    if isValidEpochNanoseconds ns then some ns else none
  else none

end CtBrowser.Script.Temporal
