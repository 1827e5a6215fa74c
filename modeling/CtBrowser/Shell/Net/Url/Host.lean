import CtBrowser.Shell.Net.Url.Domain

/-!
# Hosts

The host parser of the URL standard: IPv4 numbers in their three radices, IPv6 addresses and
their serialisation, opaque hosts, and domains.

## Main definitions

- `ipv4Number`, `endsInANumber`, `parseIpv4` — IPv4.
- `ipv6Pieces`, `parseIpv6`, `serializeIpv6` — IPv6.
- `parseHost` — the host parser.
-/

namespace CtBrowser.Shell.Url

/-- A forbidden host code point. -/
def forbiddenHost (c : ℕ) : Bool :=
  c = 0 || c ∈ points "\t\n\r #/:<>?@[\\]^|"

/-- A forbidden domain code point. -/
def forbiddenDomain (c : ℕ) : Bool :=
  forbiddenHost c || c < 0x20 || c = '%'.toNat || c = 0x7F

/-- A number in decimal. -/
def decimalText (n : ℕ) : Text := (Nat.toDigits 10 n).map fun c => byte c.toNat

/-! ## IPv4 -/

/-- The digits of an IPv4 number after those of `value`, saturated at 2^40. -/
def ipv4Digits (radix : ℕ) : ℕ → List ℕ → Option ℕ
  | value, [] => some value
  | value, c :: rest =>
    match hexValue c with
    | none => none
    | some digit =>
      if radix ≤ digit then none
      else ipv4Digits radix (min (value * radix + digit) (2 ^ 40)) rest

/-- One dotted part of an IPv4 address. -/
def ipv4Number (input : List ℕ) : Option ℕ :=
  if input = [] then none
  else if 2 ≤ input.length ∧ input.head? = some '0'.toNat then
    if (input.getD 1 0 |> lower) = 'x'.toNat then ipv4Digits 16 0 (input.drop 2)
    else ipv4Digits 8 0 (input.drop 1)
  else ipv4Digits 10 0 input

/-- The dotted parts, without an empty last one. -/
def ipv4Parts (input : List ℕ) : List (List ℕ) :=
  let parts := splitDots input
  if parts.getLast? = some [] ∧ 1 < parts.length then parts.dropLast else parts

/-- Whether the host is to be parsed as IPv4: its last label is a number. -/
def endsInANumber (input : List ℕ) : Bool :=
  if splitDots input = [[]] then false
  else match (ipv4Parts input).getLast? with
    | none => false
    | some last => (last ≠ [] && last.all (isDigit ·)) || (ipv4Number last).isSome

/-- The four bytes of an IPv4 address with dots between them. -/
def serializeIpv4 (ipv4 : ℕ) : Text :=
  decimalText (ipv4 >>> 24 &&& 0xFF) ++ ascii "." ++ decimalText (ipv4 >>> 16 &&& 0xFF) ++
    ascii "." ++ decimalText (ipv4 >>> 8 &&& 0xFF) ++ ascii "." ++ decimalText (ipv4 &&& 0xFF)

/-- The number of leading parts, the first one weighing 2^24. -/
def ipv4Sum : ℕ → List ℕ → ℕ
  | _, [] => 0
  | i, n :: rest => n <<< (8 * (3 - i)) + ipv4Sum (i + 1) rest

/-- The address of up to four dotted parts, serialised. -/
def parseIpv4Parts (parts : List (List ℕ)) : Option Text :=
  if 4 < parts.length then none
  else do
    let numbers ← parts.mapM ipv4Number
    let last ← numbers.getLast?
    if numbers.dropLast.any (255 < ·) then none
    else if 2 ^ (8 * (5 - numbers.length)) ≤ last then none
    else some (serializeIpv4 (last + ipv4Sum 0 numbers.dropLast))

/-- The IPv4 parser, which serialises what it read. -/
def parseIpv4 (input : List ℕ) : Option Text := parseIpv4Parts (ipv4Parts input)

/-! ## IPv6 -/

/-- The variables of the IPv6 parser. -/
structure Ipv6 where
  address : List ℕ := List.replicate 8 0
  piece : ℕ := 0
  compress : Option ℕ := none
deriving DecidableEq, Repr

namespace Ipv6

/-- Store a piece and go to the next. -/
def store (s : Ipv6) (value : ℕ) : Ipv6 :=
  { s with address := s.address.set s.piece value, piece := s.piece + 1 }

/-- Leave a run of zeros out here. -/
def compressHere (s : Ipv6) : Ipv6 :=
  { s with piece := s.piece + 1, compress := some (s.piece + 1) }

/-- Append a byte to the current piece. -/
def appendByte (s : Ipv6) (v : ℕ) : Ipv6 :=
  { s with address := s.address.set s.piece (((s.address.getD s.piece 0) * 0x100 + v) % 2 ^ 16) }

/-- Go to the next piece. -/
def next (s : Ipv6) : Ipv6 := { s with piece := s.piece + 1 }

/-- One more byte of an embedded address, `left` of which are to come: every second one ends a
piece. -/
def byteRead (s : Ipv6) (left v : ℕ) : Ipv6 :=
  if left = 2 ∨ left = 0 then (s.appendByte v).next else s.appendByte v

end Ipv6

/-- The decimal digits of a byte of an embedded IPv4 address. -/
def ipv4Piece : Option ℕ → List ℕ → Option (Option ℕ × List ℕ)
  | seen, [] => some (seen, [])
  | seen, c :: rest =>
    if isDigit c then
      let number := c - '0'.toNat
      match seen with
      | none => ipv4Piece (some number) rest
      | some value =>
        if value = 0 then none
        else if 255 < value * 10 + number then none
        else ipv4Piece (some (value * 10 + number)) rest
    else some (seen, c :: rest)

/-- The dot before every byte of an embedded address but the first, when `left` more follow. -/
def skipDot (left : ℕ) : List ℕ → Option (List ℕ)
  | [] => none
  | c :: rest =>
    if left = 3 then some (c :: rest) else if c = '.'.toNat then some rest else none

/-- The embedded IPv4 address, `left` bytes of which are to come. -/
def embeddedIpv4 : ℕ → Ipv6 → List ℕ → Option Ipv6
  | 0, s, [] => some s
  | 0, _, _ :: _ => none
  | left + 1, s, text => do
    let text ← skipDot left text
    match ipv4Piece none text with
    | some (some v, text) => embeddedIpv4 left (s.byteRead left v) text
    | _ => none

/-- Up to four hex digits at the start of a text. -/
def hexDigits (text : List ℕ) : List ℕ :=
  (text.take 4).takeWhile fun c => (hexValue c).isSome

/-- The value of hex digits. -/
def hexNumber (digits : List ℕ) : ℕ :=
  digits.foldl (fun value c => value * 16 + (hexValue c).getD 0) 0

/-- The loop over the pieces, at most `limit` of them. -/
def ipv6Pieces : ℕ → Ipv6 → List ℕ → Option Ipv6
  | _, s, [] => some s
  | 0, _, _ :: _ => none
  | limit + 1, s, c :: rest =>
    if s.piece = 8 then none
    else if c = ':'.toNat then
      if s.compress.isSome then none else ipv6Pieces limit s.compressHere rest
    else
      let digits := hexDigits (c :: rest)
      let value := hexNumber digits
      match (c :: rest).drop digits.length with
      | [] => ipv6Pieces limit (s.store value) []
      | d :: after =>
        if d = '.'.toNat then
          if digits = [] then none
          else if 6 < s.piece then none
          else embeddedIpv4 4 s (c :: rest)
        else if d = ':'.toNat then
          if after = [] then none else ipv6Pieces limit (s.store value) after
        else none

/-- Move the pieces after the run of zeros to the end. -/
def swapTail (compress : ℕ) : ℕ → ℕ → List ℕ → List ℕ
  | 0, _, address | _, 0, address => address
  | swaps + 1, piece + 1, address =>
    let low := compress + swaps
    swapTail compress swaps piece
      ((address.set (piece + 1) (address.getD low 0)).set low (address.getD (piece + 1) 0))

/-- The pieces of an IPv6 address; a colon at its start must be a double one. -/
def ipv6Read (input : List ℕ) : Option Ipv6 :=
  match input with
  | [] => some {}
  | c :: rest =>
    if c = ':'.toNat then
      if rest.head? = some ':'.toNat then
        ipv6Pieces rest.length ({} : Ipv6).compressHere (rest.drop 1)
      else none
    else ipv6Pieces input.length {} input

/-- The eight pieces, once all of the input was read. -/
def ipv6Finish (s : Ipv6) : Option (List ℕ) :=
  match s.compress with
  | some compress => some (swapTail compress (s.piece - compress) 7 s.address)
  | none => if s.piece = 8 then some s.address else none

/-- The eight pieces of an IPv6 address. -/
def ipv6Address (input : List ℕ) : Option (List ℕ) := (ipv6Read input).bind ipv6Finish

/-- A piece in hex, without leading zeros. -/
def hexText (v : ℕ) : Text :=
  let digit := if v % 16 < 10 then byte ('0'.toNat + v % 16) else byte ('a'.toNat + (v % 16 - 10))
  if v < 16 then [digit] else hexText (v / 16) ++ [digit]
termination_by v
decreasing_by omega

/-- The start of the first longest run of two or more zero pieces, and its length. -/
def longestRun (address : List ℕ) : ℕ → ℕ → ℕ × ℕ → ℕ × ℕ
  | 0, _, best => best
  | limit + 1, i, best =>
    match address[i]? with
    | none => best
    | some v =>
      if v ≠ 0 then longestRun address limit (i + 1) best
      else
        let length := ((address.drop i).takeWhile (· = 0)).length
        longestRun address limit (i + length) (if best.2 < length then (i, length) else best)

/-- The pieces from piece `i` on, the run that starts at `best` left out. -/
def ipv6Tail (best : ℕ) : ℕ → Bool → List ℕ → Text
  | _, _, [] => []
  | i, ignoreZero, v :: rest =>
    if ignoreZero ∧ v = 0 then ipv6Tail best (i + 1) true rest
    else if best = i then
      (if i = 0 then ascii "::" else ascii ":") ++ ipv6Tail best (i + 1) true rest
    else hexText v ++ (if i ≠ 7 then ascii ":" else []) ++ ipv6Tail best (i + 1) false rest

/-- The IPv6 serialiser, without the brackets. -/
def ipv6Text (address : List ℕ) : Text :=
  ipv6Tail (longestRun address 8 0 (8, 1)).1 0 false address

/-- The IPv6 parser, which serialises what it read, in brackets. -/
def parseIpv6 (input : List ℕ) : Option Text :=
  (ipv6Address input).map fun address => ascii "[" ++ ipv6Text address ++ ascii "]"

/-! ## Hosts -/

/-- The domain an input stands for, in ASCII. -/
def hostAscii (tables : UnicodeTables) (input : List ℕ) : Option Text :=
  tables.domainToAscii (decodeReplacing (percentDecode (utf8Of input)))

/-- The host parser. -/
def parseHost (tables : UnicodeTables) (input : List ℕ) (isOpaque : Bool) :
    Option Text :=
  if input.head? = some '['.toNat then
    if input.getLast? = some ']'.toNat then parseIpv6 (input.drop 1).dropLast else none
  else if isOpaque then
    if input.any forbiddenHost then none else some (percentEncode input .c0)
  else do
    let domain ← hostAscii tables input
    let points := codePoints domain
    if points.any forbiddenDomain then none
    else if endsInANumber points then parseIpv4 points
    else some domain

end CtBrowser.Shell.Url
