import CtBrowser.Core.DecimalLiteral

/-!
# Strings as Numbers

The grammar of ECMA-262 for a string that is read as a Number, and the engine's own reading. The
engine scans signs, prefixes and points by hand and leaves the digits to `std::from_chars`, which
has a grammar of its own: it takes a minus sign, `inf` and `nan`, reads a prefix, and does not say
whether a literal that is out of range was too large or too small.

`std::from_chars` rounds correctly and gives no value when it is out of range. Integers of the
source are 32 and 64 bits wide.

## Main definitions

- `StringToNumber`, `ParseFloat` — the Number of a string, and of the literal it starts with.
- `trimJsSpace`, `fromChars`, `estimatedOrder` — what the engine's reading is made of.
- `stringToNumber`, `stringToNumberPrefix` — the engine's reading.
-/

namespace CtBrowser.NumberFormat

open DecimalLiteral (zeroDigit)

/-! ## The grammar -/

/-- White space and line terminators. -/
def whiteSpace : List ℕ :=
  [0x09, 0x0A, 0x0B, 0x0C, 0x0D, 0x20, 0xA0, 0x1680, 0x2000, 0x2001, 0x2002, 0x2003, 0x2004, 0x2005, 0x2006, 0x2007,
    0x2008, 0x2009, 0x200A, 0x2028, 0x2029, 0x202F, 0x205F, 0x3000, 0xFEFF]

/-- The same as they are encoded. -/
def encodedSpaces : List Text := whiteSpace.map appendUtf8

/-- A text of white space. -/
def IsSpace (s : Text) : Prop := ∃ parts : List Text, (∀ x ∈ parts, x ∈ encodedSpaces) ∧ s = parts.flatten

/-- A decimal literal with the Number it stands for. -/
def StrDecimalLiteral (s : Text) (v : Double) : Prop :=
  ∃ minus body, s = signText minus ++ body ∧
    (body = ascii "Infinity" ∧ v = .infinity (minus = some true) ∨
      ∃ lit : DecimalLiteral, body = lit.text ∧ v = .nearest (minus = some true) lit.value)

/-- The radix of a prefix's letter. -/
def radixOf (c : UInt8) : Option ℕ :=
  if asciiLower c = 0x78 then some 16
  else if asciiLower c = 0x6F then some 8
  else if asciiLower c = 0x62 then some 2
  else none

def isRadixDigit (radix : ℕ) (c : UInt8) : Bool := (hexValue c.toNat).any (· < radix)

/-- The number that digits spell in a radix. -/
def radixValue (radix : ℕ) (ds : Text) : ℕ := ds.foldl (fun n c => radix * n + (hexValue c.toNat).getD 0) 0

/-- A literal with a radix prefix, and its digits. -/
structure IsNonDecimal (s : Text) (radix : ℕ) (ds : Text) : Prop where
  prefixed : ∃ c, s = zeroDigit :: c :: ds ∧ radixOf c = some radix
  someDigit : ds ≠ []
  allDigits : ∀ c ∈ ds, isRadixDigit radix c

/-- A numeric literal with the Number it stands for. -/
def StrNumericLiteral (s : Text) (v : Double) : Prop :=
  StrDecimalLiteral s v ∨ ∃ radix ds, IsNonDecimal s radix ds ∧ v = .nearest false (radixValue radix ds)

/-- White space, a literal or nothing, and white space. -/
def StringNumericLiteral (text : Text) (v : Double) : Prop :=
  ∃ before body after, text = before ++ body ++ after ∧ IsSpace before ∧ IsSpace after ∧
    (body = [] ∧ v = .finite false 0 ∨ StrNumericLiteral body v)

/-- The Number of a string: NaN exactly when it is no literal. -/
def StringToNumber (text : Text) (v : Double) : Prop :=
  StringNumericLiteral text v ∨ (¬ ∃ v', StringNumericLiteral text v') ∧ v = .nan

/-- The Number of the longest prefix that is a decimal literal, NaN when there is none. -/
def LongestLiteral (trimmed : Text) (v : Double) : Prop :=
  (∃ taken rest, trimmed = taken ++ rest ∧ StrDecimalLiteral taken v ∧
    ∀ taken' rest' v', trimmed = taken' ++ rest' → StrDecimalLiteral taken' v' → taken'.length ≤ taken.length) ∨
  (∀ taken rest v', trimmed = taken ++ rest → ¬ StrDecimalLiteral taken v') ∧ v = .nan

/-- The Number of a string's start, after all the white space there. -/
def ParseFloat (text : Text) (v : Double) : Prop :=
  ∃ before trimmed, text = before ++ trimmed ∧ IsSpace before ∧ (∀ x ∈ encodedSpaces, ¬ x <+: trimmed) ∧
    LongestLiteral trimmed v

/-! ## White space in bytes -/

def jsWhitespace : Text := ascii " \t\n\r\x0C\x0B"

/-- The bytes of the white space at the start of a text, none if there is none. -/
def jsSpaceWidth (s : Text) : ℕ :=
  let b (i : ℕ) : UInt8 := s.getD i 0
  if jsWhitespace.contains (b 0) then 1
  else if b 0 = 0xC2 ∧ b 1 = 0xA0 then 2
  else if b 0 = 0xE1 ∧ b 1 = 0x9A ∧ b 2 = 0x80 then 3
  else if b 0 = 0xE2 ∧ b 1 = 0x80 ∧ (0x80 ≤ b 2 ∧ b 2 ≤ 0x8A ∨ b 2 = 0xA8 ∨ b 2 = 0xA9 ∨ b 2 = 0xAF) then 3
  else if b 0 = 0xE2 ∧ b 1 = 0x81 ∧ b 2 = 0x9F then 3
  else if b 0 = 0xE3 ∧ b 1 = 0x80 ∧ b 2 = 0x80 then 3
  else if b 0 = 0xEF ∧ b 1 = 0xBB ∧ b 2 = 0xBF then 3
  else 0

/-- The text after the white space at its start. -/
def skipSpace : ℕ → Text → Text
  | 0, s => s
  | fuel + 1, s => if s = [] ∨ jsSpaceWidth s = 0 then s else skipSpace fuel (s.drop (jsSpaceWidth s))

/-- The bytes of the white space that ends at an offset. -/
def endWidth (s : Text) (upTo : ℕ) : ℕ :=
  [1, 2, 3].foldl
    (fun w width => if width ≤ upTo ∧ jsSpaceWidth (s.drop (upTo - width)) = width then width else w) 0

/-- Where the white space before an offset starts. -/
def skipBack (s : Text) : ℕ → ℕ → ℕ
  | 0, upTo => upTo
  | fuel + 1, upTo => if upTo = 0 ∨ endWidth s upTo = 0 then upTo else skipBack s fuel (upTo - endWidth s upTo)

/-- A text without the white space on both sides. -/
def trimJsSpace (text : Text) : Text :=
  let from' := skipSpace text.length text
  from'.take (skipBack from' from'.length from'.length)

/-! ## The library's reading of digits -/

/-- What `std::from_chars` answers. -/
inductive FromChars
  | invalid
  | outOfRange
  | parsed (value : Double) (rest : Text)

def isLetter (c : UInt8) : Bool := 0x61 ≤ asciiLower c && asciiLower c ≤ 0x7A

/-- What follows `nan`: more characters may stand in brackets. -/
def afterNan (s : Text) : Text :=
  let inside := s.tail.dropWhile fun c => isDecimalDigit c || c == 0x5F || isLetter c
  if s.head? = some 0x28 ∧ inside.head? = some 0x29 then inside.tail else s

/-- The value at the start of a text, as `std::from_chars` reads it. -/
def fromChars (s : Text) : FromChars :=
  let negative : Bool := s.head? = some 0x2D
  let body := if negative then s.tail else s
  if asciiIequals (body.take 8) (ascii "infinity") then .parsed (.infinity negative) (body.drop 8)
  else if asciiIequals (body.take 3) (ascii "inf") then .parsed (.infinity negative) (body.drop 3)
  else if asciiIequals (body.take 3) (ascii "nan") then .parsed .nan (afterNan (body.drop 3))
  else
    match DecimalLiteral.scan body with
    | none => .invalid
    | some (lit, rest) =>
      if OutOfRange lit.value then .outOfRange else .parsed (.nearest negative lit.value) rest

/-- A number as an `int`. -/
def int32 (n : ℤ) : ℤ := Int.bmod n (2 ^ 32)

/-- The `int` at the start of a text, zero when it is none or does not fit. -/
def intFromChars (s : Text) : ℤ :=
  let negative : Bool := s.head? = some 0x2D
  let magnitude : ℤ := digitsValue (DecimalLiteral.leadingDigits (if negative then s.tail else s))
  let n := if negative then -magnitude else magnitude
  if -2 ^ 31 ≤ n ∧ n < 2 ^ 31 then n else 0

/-! ## The engine's reading -/

/-- The order of magnitude of a literal that is out of range. -/
def estimatedOrder (text : Text) : ℤ :=
  let text := text.dropWhile (· = zeroDigit)
  let digits := (DecimalLiteral.leadingDigits text).length
  let text := DecimalLiteral.afterDigits text
  let order :=
    if 0 < digits then int32 (digits - 1)
    else if text.head? = some point then int32 (-(text.tail.takeWhile (· = zeroDigit)).length - 1)
    else 0
  match text.dropWhile fun c => c == point || isDecimalDigit c with
  | [] => order
  | c :: rest =>
    if isExponentLetter c then
      int32 (order + intFromChars (if rest.head? = some 0x2B then rest.tail else rest))
    else order

/-- The magnitude of a literal that is out of range. -/
def outOfRangeValue (text : Text) : Double := if 0 < estimatedOrder text then .infinity false else .finite false 0

/-- A text after a radix prefix, as a 64-bit integer. -/
def wholeToNumber (radix : ℕ) (s : Text) : Double :=
  let ds := s.takeWhile (isRadixDigit radix ·)
  if ds = [] ∨ 2 ^ 64 ≤ radixValue radix ds ∨ ds ≠ s then .nan else .nearest false (radixValue radix ds)

/-- A text without its first point, if that ends it or comes before an exponent. -/
def dropPoint (s : Text) : Text :=
  match s.dropWhile (· ≠ point) with
  | [] => s
  | _ :: after => if after.head?.all (isExponentLetter ·) then s.takeWhile (· ≠ point) ++ after else s

def startsWithLetter (s : Text) : Bool := s.head?.any (isLetter ·)

/-- The sign that a text starts with, and what is left of it. -/
def isNegative (s : Text) : Bool := s.head? = some 0x2D
def afterSign (s : Text) : Text := if s.head? = some 0x2B ∨ s.head? = some 0x2D then s.tail else s

/-- A text without a sign as a Number. -/
def unsignedToNumber (rest : Text) : Double :=
  if rest = [] then .nan
  else if rest = ascii "Infinity" then .infinity false
  else if startsWithLetter rest then .nan
  else
    match fromChars (dropPoint rest) with
    | .invalid => .nan
    | .outOfRange => outOfRangeValue (dropPoint rest)
    | .parsed v rest => if rest = [] then v else .nan

/-- The letter of a radix prefix, if the text has one and something after it. -/
def radixPrefix (body : Text) : Option ℕ :=
  if 2 < body.length ∧ body.head? = some zeroDigit then radixOf (body.getD 1 0) else none

/-- A string as a Number. -/
def stringToNumber (text : Text) : Double :=
  let body := trimJsSpace text
  if body = [] then .finite false 0
  else
    match radixPrefix body with
    | some radix => wholeToNumber radix (body.drop 2)
    | none => (unsignedToNumber (afterSign body)).signed (isNegative body)

/-- The start of a text without a sign as a Number. -/
def unsignedPrefix (rest : Text) : Double :=
  if rest = [] then .nan
  else if ascii "Infinity" <+: rest then .infinity false
  else if startsWithLetter rest then .nan
  else
    match fromChars rest with
    | .invalid => .nan
    | .outOfRange => outOfRangeValue rest
    | .parsed v _ => v

/-- The start of a string as a Number. -/
def stringToNumberPrefix (text : Text) : Double :=
  let rest := skipSpace text.length text
  if rest = [] then .nan else (unsignedPrefix (afterSign rest)).signed (isNegative rest)

end CtBrowser.NumberFormat
