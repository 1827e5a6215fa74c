import CtBrowser.Script.Temporal.Parse

/-!
# Writing Temporal Strings

The texts of dates, times and offsets as the engine writes them: years of four digits or of a
sign and six, fields padded with zeros, and fractions without their trailing zeros.

## Main definitions

- `zeroPadded`, `padIsoYear`, `formatFractionalSeconds` — the numbers.
- `temporalDateToString`, `timeRecordToString`, `isoDatetimeToString` — dates and times.
- `instantToString`, `formatUtcOffsetNanoseconds` — exact times and offsets.

## Main results

- `zeroPadded_spec` — a padded number has as many digits as it is padded to.
- `fractionNanoseconds_trimmed` — a fraction without its trailing zeros is the same fraction.
-/

namespace CtBrowser.Script.Temporal

open Foundations.Reading

/-! ## Rounding -/

inductive RoundingMode
  | ceil
  | floor
  | expand
  | trunc
  | halfCeil
  | halfFloor
  | halfExpand
  | halfTrunc
  | halfEven
deriving DecidableEq, Repr

inductive UnsignedMode
  | zero
  | infinity
  | halfZero
  | halfInfinity
  | halfEven
deriving DecidableEq, Repr

def getUnsignedRoundingMode (mode : RoundingMode) (negative : Bool) : UnsignedMode :=
  match mode with
  | .ceil => if negative then .zero else .infinity
  | .floor => if negative then .infinity else .zero
  | .expand => .infinity
  | .trunc => .zero
  | .halfCeil => if negative then .halfZero else .halfInfinity
  | .halfFloor => if negative then .halfInfinity else .halfZero
  | .halfExpand => .halfInfinity
  | .halfTrunc => .halfZero
  | .halfEven => .halfEven

/-- Whether a number goes to the multiple above it, by its distances to the two multiples. -/
def roundsUp (mode : UnsignedMode) (d₁ d₂ r₁ : ℤ) : Bool :=
  if d₁ = 0 then false
  else if mode = .zero then false
  else if mode = .infinity then true
  else if d₁ < d₂ then false
  else if d₂ < d₁ then true
  else if mode = .halfZero then false
  else if mode = .halfInfinity then true
  else r₁ % 2 ≠ 0

def roundNumberToIncrement (x increment : ℤ) (mode : RoundingMode) : ℤ :=
  let r := Int.tmod x increment
  if r = 0 then x
  else
    let negative : Bool := x < 0
    let r₁ := |Int.tdiv x increment|
    let d₁ := |r|
    let rounded :=
      if roundsUp (getUnsignedRoundingMode mode negative) d₁ (increment - d₁) r₁ then r₁ + 1 else r₁
    (if negative then -rounded else rounded) * increment

/-! ## Numbers -/

/-- The byte of a decimal digit. -/
def digitByte (d : ℕ) : UInt8 := byte ('0'.toNat + d)

/-- The digits of a number without leading zeros: none for zero. -/
def numeral (n : ℕ) : Text := ((Nat.digits 10 n).map digitByte).reverse

/-- An integer in decimal, as `std::to_string` writes it too. -/
def i128ToString (v : ℤ) : Text :=
  if v = 0 then ascii "0" else if v < 0 then ch '-' :: numeral v.natAbs else numeral v.natAbs

/-- Zeros in front, up to a width. -/
def zeroPadded (v : ℤ) (width : ℕ) : Text :=
  List.replicate (width - (i128ToString v).length) (ch '0') ++ i128ToString v

def padIsoYear (year : ℤ) : Text :=
  if 0 ≤ year ∧ year ≤ 9999 then zeroPadded year 4
  else (if 0 < year then ch '+' else ch '-') :: zeroPadded (if year < 0 then -year else year) 6

/-! ## Times -/

/-- The precision that writes what is not zero of a fraction. -/
def precisionAuto : ℤ := -1

/-- The precision that writes no seconds. -/
def precisionMinute : ℤ := -2

/-- Without the zeros at the end. -/
def trimZeros (fraction : Text) : Text := (fraction.reverse.dropWhile (· == ch '0')).reverse

def formatFractionalSeconds (subSecondNs precision : ℤ) : Text :=
  if precision = precisionAuto then
    if subSecondNs = 0 then [] else ch '.' :: trimZeros (zeroPadded subSecondNs 9)
  else if precision ≤ 0 then []
  else ch '.' :: (zeroPadded subSecondNs 9).take precision.toNat

def formatTimeString (hour minute second subSecondNs precision : ℤ) (separated : Bool) : Text :=
  let separator := if separated then ascii ":" else []
  let result := zeroPadded hour 2 ++ separator ++ zeroPadded minute 2
  if precision = precisionMinute then result
  else result ++ separator ++ zeroPadded second 2 ++ formatFractionalSeconds subSecondNs precision

def timeRecordToString (t : TimeRecord) (precision : ℤ) : Text :=
  let sub := t.millisecond * 1000000 + t.microsecond * 1000 + t.nanosecond
  formatTimeString t.hour t.minute t.second sub precision true

/-! ## Dates -/

/-- When a calendar is written. -/
inductive ShowCalendar
  | auto
  | always
  | never
  | critical
deriving DecidableEq, Repr

def isoCalendar : Text := ascii "iso8601"

def formatCalendarAnnotation (id : Text) (showing : ShowCalendar) : Text :=
  if showing = .never then []
  else if showing = .auto ∧ id = isoCalendar then []
  else ascii "[" ++ (if showing = .critical then ascii "!" else []) ++ ascii "u-ca=" ++ id ++ ascii "]"

def temporalDateToString (date : IsoDate) (calendar : Text) (showing : ShowCalendar) : Text :=
  padIsoYear date.year ++ ascii "-" ++ zeroPadded date.month 2 ++ ascii "-" ++
    zeroPadded date.day 2 ++ formatCalendarAnnotation calendar showing

def isoDatetimeToString (dt : IsoDatetime) (calendar : Text) (precision : ℤ)
    (showing : ShowCalendar) : Text :=
  padIsoYear dt.date.year ++ ascii "-" ++ zeroPadded dt.date.month 2 ++ ascii "-" ++
    zeroPadded dt.date.day 2 ++ ascii "T" ++ timeRecordToString dt.time precision ++
    formatCalendarAnnotation calendar showing

/-- The day is written unless the calendar goes without saying. -/
def yearMonthToString (date : IsoDate) (calendar : Text) (showing : ShowCalendar) : Text :=
  padIsoYear date.year ++ ascii "-" ++ zeroPadded date.month 2 ++
    (if showing = .always ∨ showing = .critical ∨ calendar ≠ isoCalendar then
      ascii "-" ++ zeroPadded date.day 2 else []) ++
    formatCalendarAnnotation calendar showing

/-- The year is written unless the calendar goes without saying. -/
def monthDayToString (date : IsoDate) (calendar : Text) (showing : ShowCalendar) : Text :=
  (if showing = .always ∨ showing = .critical ∨ calendar ≠ isoCalendar then
      padIsoYear date.year ++ ascii "-" else []) ++
    (zeroPadded date.month 2 ++ ascii "-" ++ zeroPadded date.day 2) ++
    formatCalendarAnnotation calendar showing

/-! ## Offsets and exact times -/

def formatOffsetTimeZoneIdentifier (offsetMinutes : ℤ) (separated : Bool) : Text :=
  let absolute := if offsetMinutes < 0 then -offsetMinutes else offsetMinutes
  (if 0 ≤ offsetMinutes then ch '+' else ch '-') ::
    formatTimeString (absolute / 60) (absolute % 60) 0 0 precisionMinute separated

def formatUtcOffsetNanoseconds (offsetNs : ℤ) : Text :=
  let absolute := |offsetNs|
  let second := absolute / 1000000000 % 60
  let sub := absolute % 1000000000
  let precision := if second = 0 ∧ sub = 0 then precisionMinute else precisionAuto
  (if 0 ≤ offsetNs then ch '+' else ch '-') ::
    formatTimeString (absolute / 3600000000000) (absolute / 60000000000 % 60) second sub precision true

def formatDatetimeUtcOffsetRounded (offsetNs : ℤ) : Text :=
  let rounded := roundNumberToIncrement offsetNs 60000000000 .halfExpand
  formatOffsetTimeZoneIdentifier (Int.tdiv rounded 60000000000) true

/-- What a time zone identifier says: a name, or an offset in minutes. -/
structure TimeZoneParse where
  name : Text
  offsetMinutes : Option ℤ
deriving DecidableEq, Repr

def parseTimeZoneIdentifier (id : Text) : Option TimeZoneParse :=
  match parseUtcOffset id false with
  | some ns => some { name := [], offsetMinutes := some (Int.tdiv ns 60000000000) }
  | none =>
    match ianaName id with
    | some (_, []) => some { name := id, offsetMinutes := none }
    | _ => none

/-- The fixed offset of a zone in minutes; zero for a named one, which is UTC. -/
def offsetMinutesOf (zone : Text) : ℤ :=
  ((parseTimeZoneIdentifier zone).bind TimeZoneParse.offsetMinutes).getD 0

def getOffsetNanosecondsFor (zone : Text) : ℤ := offsetMinutesOf zone * 60000000000

def getIsoDatetimeFor (zone : Text) (epochNs : ℤ) : IsoDatetime :=
  let parts := isoPartsFromEpoch epochNs
  let t := parts.time
  balanceIsoDatetime parts.date.year parts.date.month parts.date.day t.hour t.minute t.second
    t.millisecond t.microsecond (t.nanosecond + getOffsetNanosecondsFor zone)

def instantToString (epochNs : ℤ) (zone : Text) (precision : ℤ) : Text :=
  let output := if zone = [] then ascii "UTC" else zone
  let result := isoDatetimeToString (getIsoDatetimeFor output epochNs) isoCalendar precision .never
  if zone = [] then result ++ ascii "Z"
  else result ++ formatDatetimeUtcOffsetRounded (getOffsetNanosecondsFor output)

/-! ## What the numbers read as -/

theorem toNat_digitByte {d : ℕ} (h : d < 10) : (digitByte d).toNat = 48 + d := by
  have hzero : '0'.toNat = 48 := rfl
  rw [digitByte, hzero, toNat_byte (by omega)]

theorem isAsciiDigit_digitByte {d : ℕ} (h : d < 10) : isAsciiDigit (digitByte d) = true := by
  rw [isAsciiDigit_iff, toNat_digitByte h]
  omega

@[simp] theorem decimal_nil : decimal [] = 0 := rfl

theorem decimal_concat (u : Text) (b : UInt8) :
    decimal (u ++ [b]) = decimal u * 10 + (b.toNat - 48) := by
  rw [decimal, List.foldl_append]
  rfl

theorem numeral_eq {n : ℕ} (hn : 0 < n) : numeral n = numeral (n / 10) ++ [digitByte (n % 10)] := by
  rw [numeral, Nat.digits_def' (by norm_num) hn, List.map_cons, List.reverse_cons, numeral]

theorem numeral_digits (n : ℕ) : ∀ b ∈ numeral n, isAsciiDigit b = true := by
  intro b hb
  rw [numeral, List.mem_reverse, List.mem_map] at hb
  obtain ⟨d, hd, rfl⟩ := hb
  exact isAsciiDigit_digitByte (Nat.digits_lt_base (by norm_num) hd)

theorem decimal_numeral (n : ℕ) : decimal (numeral n) = n := by
  induction n using Nat.strong_induction_on with
  | _ n ih =>
    rcases Nat.eq_zero_or_pos n with rfl | hn
    · rfl
    · rw [numeral_eq hn, decimal_concat, ih _ (Nat.div_lt_self hn (by norm_num)),
        toNat_digitByte (Nat.mod_lt n (by norm_num))]
      omega

theorem decimal_zeros (k : ℕ) (u : Text) : decimal (List.replicate k (ch '0') ++ u) = decimal u := by
  have hzero : decimal (List.replicate k (ch '0')) = 0 := by
    induction k with
    | zero => rfl
    | succ k ih =>
      rw [List.replicate_succ', decimal_concat, ih]
      rfl
  rw [decimal, List.foldl_append]
  exact congrArg (List.foldl _ · u) hzero

theorem i128ToString_spec {v : ℤ} (hv : 0 ≤ v) : (∀ b ∈ i128ToString v, isAsciiDigit b = true) ∧
    decimal (i128ToString v) = v.natAbs ∧ i128ToString v ≠ [] := by
  rw [i128ToString]
  split_ifs with hzero hneg
  · subst hzero
    have hdigit : (ascii "0").all isAsciiDigit = true := by decide
    exact ⟨List.all_eq_true.mp hdigit, by decide, by decide⟩
  · omega
  · refine ⟨numeral_digits _, decimal_numeral _, ?_⟩
    rw [numeral_eq (by omega)]
    exact List.append_ne_nil_of_right_ne_nil _ (List.cons_ne_nil _ _)

/-- A padded number has as many digits as it is padded to. -/
theorem zeroPadded_spec {v : ℤ} {width : ℕ} (hv : 0 ≤ v) (hwidth : 0 < width)
    (hlt : v < 10 ^ width) : (zeroPadded v width).length = width ∧
      (∀ b ∈ zeroPadded v width, isAsciiDigit b = true) ∧
      decimal (zeroPadded v width) = v.natAbs := by
  obtain ⟨hdigits, hdecimal, -⟩ := i128ToString_spec hv
  have hlength : (i128ToString v).length ≤ width := by
    rw [i128ToString]
    split_ifs with hzero hneg
    · exact hwidth
    · omega
    · rw [numeral, List.length_reverse, List.length_map, Nat.digits_length_le_iff (by norm_num)]
      zify
      rwa [abs_of_nonneg hv]
  refine ⟨?_, ?_, ?_⟩
  · rw [zeroPadded, List.length_append, List.length_replicate]
    omega
  · intro b hb
    rw [zeroPadded, List.mem_append] at hb
    rcases hb with hb | hb
    · rw [List.eq_of_mem_replicate hb]
      decide
    · exact hdigits b hb
  · rw [zeroPadded, decimal_zeros, hdecimal]

theorem exists_trimZeros (u : Text) : ∃ k, u = trimZeros u ++ List.replicate k (ch '0') := by
  refine ⟨(u.reverse.takeWhile (· == ch '0')).length, ?_⟩
  have hzeros : u.reverse.takeWhile (· == ch '0') =
      List.replicate (u.reverse.takeWhile (· == ch '0')).length (ch '0') :=
    List.eq_replicate_length.mpr fun b hb => by simpa using List.all_eq_true.mp List.all_takeWhile b hb
  rw [trimZeros, ← List.reverse_replicate, ← List.reverse_append, ← hzeros,
    List.takeWhile_append_dropWhile, List.reverse_reverse]

/-- A fraction without its trailing zeros is the same fraction, of one to nine digits. -/
theorem fractionNanoseconds_trimmed {sub : ℤ} (hpos : 0 < sub) (hlt : sub < 1000000000) :
    fractionNanoseconds (trimZeros (zeroPadded sub 9)) = sub.natAbs ∧
      (∀ b ∈ trimZeros (zeroPadded sub 9), isAsciiDigit b = true) ∧
      1 ≤ (trimZeros (zeroPadded sub 9)).length ∧ (trimZeros (zeroPadded sub 9)).length ≤ 9 := by
  obtain ⟨hlength, hdigits, hdecimal⟩ := @zeroPadded_spec sub 9 hpos.le (by norm_num) hlt
  obtain ⟨k, hk⟩ := exists_trimZeros (zeroPadded sub 9)
  have hsum := congrArg List.length hk
  rw [List.length_append, List.length_replicate, hlength] at hsum
  have hzeros : ascii "000000000" = List.replicate k (ch '0') ++ List.replicate (9 - k) (ch '0') := by
    rw [← List.replicate_add, Nat.add_sub_cancel' (by omega)]
    rfl
  refine ⟨?_, fun b hb => hdigits b ?_, ?_, by omega⟩
  · rw [fractionNanoseconds, hzeros, ← List.append_assoc, ← hk, List.take_left' hlength, hdecimal]
  · rw [hk]
    exact List.mem_append_left _ hb
  · by_contra hnil
    have hempty : trimZeros (zeroPadded sub 9) = [] := List.length_eq_zero_iff.mp (by omega)
    rw [hk, hempty, List.nil_append, ← List.append_nil (List.replicate _ _), decimal_zeros,
      decimal_nil] at hdecimal
    omega

end CtBrowser.Script.Temporal
