import CtBrowser.Core.Text

/-!
# Strict JSON

The recursive-descent reader behind `JSON.parse`, and the quoting of a string. The reader is given
what it makes of a number's digits. Beside the value it builds, which drops all but the last of a
repeated key, the model keeps what the text says: every token with its value, and every member.

## Main definitions

- `JsonValue` — a value tree.
- `Source` — a text as it is written: tokens, elements and members.
- `parseJson` — the reader.
- `quoteJson` — a string as a JSON token.
-/

namespace CtBrowser.Json

/-! ## Values -/

/-- A JSON value, with numbers of a type. -/
inductive JsonValue (D : Type) where
  | null
  | boolean (b : Bool)
  | number (v : D)
  | string (s : Text)
  | array (items : List (JsonValue D))
  | object (members : List (Text × JsonValue D))

/-- A text that was read: the tokens of the primitive values with what they stand for, the elements
of arrays, and all members of objects in order, with their keys. -/
inductive Source (D : Type) where
  | token (spelled : Text) (value : JsonValue D)
  | array (elements : List (Source D))
  | object (members : List (Text × Source D))

/-- A member is added, or takes the place of the member that has its key. -/
def putMember {α : Type} (members : List (Text × α)) (key : Text) (each : α) : List (Text × α) :=
  if (members.map Prod.fst).contains key then
    members.map fun m => if m.1 = key then (m.1, each) else m
  else members ++ [(key, each)]

/-! ## Characters -/

/-- The byte is the character. -/
def Is (b : UInt8) (c : Char) : Prop := b.toNat = c.toNat

instance (b : UInt8) (c : Char) : Decidable (Is b c) := inferInstanceAs (Decidable (_ = _))

/-- JSON white space. -/
def isSpace (b : UInt8) : Prop := Is b ' ' ∨ Is b '\t' ∨ Is b '\n' ∨ Is b '\r'

instance (b : UInt8) : Decidable (isSpace b) := inferInstanceAs (Decidable (_ ∨ _))

/-- An ASCII digit. -/
def isDigit (b : UInt8) : Prop := '0'.toNat ≤ b.toNat ∧ b.toNat ≤ '9'.toNat

instance (b : UInt8) : Decidable (isDigit b) := inferInstanceAs (Decidable (_ ∧ _))

/-- White space is skipped. -/
def skip (s : Text) : Text := s.dropWhile (isSpace ·)

/-! ## Strings -/

/-- The four hex digits of a `\u` escape. -/
def readHex4 : Text → Option (ℕ × Text)
  | a :: b :: c :: d :: rest => do
    let a ← hexValue a.toNat
    let b ← hexValue b.toNat
    let c ← hexValue c.toNat
    let d ← hexValue d.toNat
    return (((a * 16 + b) * 16 + c) * 16 + d, rest)
  | _ => none

/-- A code point in the range of high surrogates. -/
def isHigh (code : ℕ) : Prop := 0xD800 ≤ code ∧ code ≤ 0xDBFF

instance (code : ℕ) : Decidable (isHigh code) := inferInstanceAs (Decidable (_ ∧ _))

/-- A code point in the range of low surrogates. -/
def isLow (code : ℕ) : Prop := 0xDC00 ≤ code ∧ code ≤ 0xDFFF

instance (code : ℕ) : Decidable (isLow code) := inferInstanceAs (Decidable (_ ∧ _))

/-- The low surrogate of a second `\u` escape. -/
def lowEscape : Text → Option (ℕ × Text)
  | slash :: u :: rest =>
    if Is slash '\\' ∧ Is u 'u' then
      match readHex4 rest with
      | some (low, rest) => if isLow low then some (low, rest) else none
      | none => none
    else none
  | _ => none

/-- A `\u` escape, after the `u`. A high surrogate is joined with a low one that is escaped too. -/
def unicodeEscape (s : Text) : Option (ℕ × Text) := do
  let (code, rest) ← readHex4 s
  if isHigh code then
    match lowEscape rest with
    | some (low, rest) => return (0x10000 + ((code - 0xD800) <<< 10) + (low - 0xDC00), rest)
    | none => return (code, rest)
  else return (code, rest)

/-- The characters of the one-letter escapes. -/
def simpleEscape (b : UInt8) : Option UInt8 :=
  if Is b '"' then some 0x22
  else if Is b '\\' then some 0x5C
  else if Is b '/' then some 0x2F
  else if Is b 'b' then some 0x08
  else if Is b 'f' then some 0x0C
  else if Is b 'n' then some 0x0A
  else if Is b 'r' then some 0x0D
  else if Is b 't' then some 0x09
  else none

/-- One character of a string that is not the closing quote: what it adds, and what follows it. -/
def stringPiece (b : UInt8) (rest : Text) : Option (Text × Text) :=
  if b.toNat < 0x20 then none
  else if ¬ Is b '\\' then some ([b], rest)
  else
    match rest with
    | [] => none
    | escape :: rest =>
      if Is escape 'u' then (unicodeEscape rest).map fun (code, rest) => (appendUtf8 code, rest)
      else (simpleEscape escape).map fun c => ([c], rest)

/-- The rest of a string, after its opening quote. -/
def stringBody : ℕ → Text → Option (Text × Text)
  | 0, _ | _, [] => none
  | fuel + 1, b :: rest =>
    if Is b '"' then some ([], rest)
    else do
      let (piece, rest) ← stringPiece b rest
      let (more, rest) ← stringBody fuel rest
      return (piece ++ more, rest)

/-- A quoted string, as WTF-8. -/
def parseString : Text → Option (Text × Text)
  | [] => none
  | b :: rest => if Is b '"' then stringBody rest.length rest else none

/-! ## Numbers -/

/-- One digit or more. -/
def digits (s : Text) : Option (Text × Text) :=
  match s.takeWhile (isDigit ·) with
  | [] => none
  | ds => some (ds, s.dropWhile (isDigit ·))

/-- The integer part: a lone zero, or digits. -/
def wholePart : Text → Option (Text × Text)
  | [] => none
  | b :: rest => if Is b '0' then some ([b], rest) else digits (b :: rest)

/-- A point and digits, or nothing. -/
def fractionPart : Text → Option (Text × Text)
  | [] => some ([], [])
  | b :: rest =>
    if Is b '.' then (digits rest).map fun (ds, rest) => (b :: ds, rest) else some ([], b :: rest)

/-- The digits of an exponent, with their sign. -/
def signedDigits : Text → Option (Text × Text)
  | [] => none
  | b :: rest =>
    if Is b '+' ∨ Is b '-' then (digits rest).map fun (ds, rest) => (b :: ds, rest)
    else digits (b :: rest)

/-- An exponent, or nothing. -/
def exponentPart : Text → Option (Text × Text)
  | [] => some ([], [])
  | b :: rest =>
    if Is b 'e' ∨ Is b 'E' then (signedDigits rest).map fun (ds, rest) => (b :: ds, rest)
    else some ([], b :: rest)

/-- The minus sign, if there is one. -/
def minusPart : Text → Text × Text
  | [] => ([], [])
  | b :: rest => if Is b '-' then ([b], rest) else ([], b :: rest)

/-- The characters of a number. -/
def parseNumber (s : Text) : Option (Text × Text) := do
  let (minus, s) := minusPart s
  let (whole, s) ← wholePart s
  let (fraction, s) ← fractionPart s
  let (exponent, s) ← exponentPart s
  return (minus ++ whole ++ fraction ++ exponent, s)

/-! ## Values of any type -/

/-- The nesting the reader takes. -/
def maxDepth : ℕ := 1000

section Reader

variable {D : Type} (fromChars : Text → D)

/-- A primitive value, and its token. -/
def parsePrimitive (s : Text) : Option (JsonValue D × Text × Text) :=
  if ∃ b ∈ s.head?, Is b '"' then
    (parseString s).map fun (value, rest) => (.string value, s.take (s.length - rest.length), rest)
  else if ascii "true" <+: s then some (.boolean true, ascii "true", s.drop 4)
  else if ascii "false" <+: s then some (.boolean false, ascii "false", s.drop 5)
  else if ascii "null" <+: s then some (.null, ascii "null", s.drop 4)
  else (parseNumber s).map fun (spelled, rest) => (.number (fromChars spelled), spelled, rest)

mutual

/-- One value of any type, after white space. -/
def parse : ℕ → ℕ → Text → Option (JsonValue D × Source D × Text)
  | 0, _, _ => none
  | fuel + 1, depth, s =>
    match skip s with
    | [] => none
    | b :: rest =>
      if Is b '\x7b' then if maxDepth ≤ depth then none else parseObject fuel (depth + 1) rest
      else if Is b '[' then if maxDepth ≤ depth then none else parseArray fuel (depth + 1) rest
      else (parsePrimitive fromChars (b :: rest)).map fun (value, spelled, rest) =>
        (value, .token spelled value, rest)
  termination_by structural fuel => fuel

/-- An array, after its `[`. -/
def parseArray : ℕ → ℕ → Text → Option (JsonValue D × Source D × Text)
  | 0, _, _ => none
  | fuel + 1, depth, s =>
    match skip s with
    | [] => none
    | b :: rest =>
      if Is b ']' then some (.array [], .array [], rest)
      else (parseElements fuel depth (b :: rest)).map fun (items, elements, rest) =>
        (.array items, .array elements, rest)
  termination_by structural fuel => fuel

/-- The elements of an array, up to its `]`. -/
def parseElements : ℕ → ℕ → Text → Option (List (JsonValue D) × List (Source D) × Text)
  | 0, _, _ => none
  | fuel + 1, depth, s => do
    let (value, source, s) ← parse fuel depth s
    match skip s with
    | [] => none
    | b :: rest =>
      if Is b ',' then
        let (items, elements, rest) ← parseElements fuel depth rest
        return (value :: items, source :: elements, rest)
      else if Is b ']' then return ([value], [source], rest)
      else none
  termination_by structural fuel => fuel

/-- An object, after its brace. -/
def parseObject : ℕ → ℕ → Text → Option (JsonValue D × Source D × Text)
  | 0, _, _ => none
  | fuel + 1, depth, s =>
    match skip s with
    | [] => none
    | b :: rest =>
      if Is b '\x7d' then some (.object [], .object [], rest)
      else (parseMembers fuel depth [] (b :: rest)).map fun (obj, members, rest) =>
        (.object obj, .object members, rest)
  termination_by structural fuel => fuel

/-- The members of an object, up to its brace. A repeated key keeps its first position and takes the
last value. -/
def parseMembers : ℕ → ℕ → List (Text × JsonValue D) → Text →
    Option (List (Text × JsonValue D) × List (Text × Source D) × Text)
  | 0, _, _, _ => none
  | fuel + 1, depth, obj, s => do
    let (key, s) ← parseString (skip s)
    match skip s with
    | [] => none
    | colon :: s =>
      if ¬ Is colon ':' then none
      else
        let (value, source, s) ← parse fuel depth s
        match skip s with
        | [] => none
        | b :: rest =>
          if Is b ',' then
            let (obj, members, rest) ← parseMembers fuel depth (putMember obj key value) rest
            return (obj, (key, source) :: members, rest)
          else if Is b '\x7d' then return (putMember obj key value, [(key, source)], rest)
          else none
  termination_by structural fuel => fuel

end

/-- A whole document: one value with white space on either side. -/
def parseJson (fuel : ℕ) (text : Text) : Option (JsonValue D × Source D) := do
  let (value, source, rest) ← parse fromChars fuel 0 text
  if skip rest = [] then return (value, source) else none

end Reader

/-! ## Quoting -/

/-- A digit of a hex escape. -/
def hexDigit (v : ℕ) : UInt8 := (ascii "0123456789abcdef").getD v 0

/-- What one of the characters that are escaped by a letter becomes. -/
def quotedLetter (b : UInt8) : Option Char :=
  if Is b '"' then some '"'
  else if Is b '\\' then some '\\'
  else if b.toNat = 0x08 then some 'b'
  else if b.toNat = 0x0C then some 'f'
  else if b.toNat = 0x0A then some 'n'
  else if b.toNat = 0x0D then some 'r'
  else if b.toNat = 0x09 then some 't'
  else none

/-- One byte that starts no surrogate. -/
def quotedByte (b : UInt8) : Text :=
  match quotedLetter b with
  | some letter => [0x5C, byte letter.toNat]
  | none =>
    if b.toNat < 0x20 then ascii "\\u00" ++ [hexDigit (b.toNat >>> 4 &&& 0xF), hexDigit (b.toNat &&& 0xF)]
    else [b]

/-- The characters of a quoted string. A lone surrogate, `ED A0..BF xx`, is escaped. -/
def quotedBody : Text → Text
  | [] => []
  | b :: c :: d :: rest =>
    if b.toNat = 0xED ∧ 0xA0 ≤ c.toNat then
      let cp := (b.toNat &&& 0x0F) <<< 12 ||| (c.toNat &&& 0x3F) <<< 6 ||| d.toNat &&& 0x3F
      ascii "\\u" ++ [hexDigit (cp >>> 12 &&& 0xF), hexDigit (cp >>> 8 &&& 0xF),
        hexDigit (cp >>> 4 &&& 0xF), hexDigit (cp &&& 0xF)] ++ quotedBody rest
    else quotedByte b ++ quotedBody (c :: d :: rest)
  | b :: rest => quotedByte b ++ quotedBody rest

/-- A string as a JSON token. -/
def quoteJson (text : Text) : Text := 0x22 :: (quotedBody text ++ [0x22])

end CtBrowser.Json
