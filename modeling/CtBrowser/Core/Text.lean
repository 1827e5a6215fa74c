import Mathlib.Tactic

/-!
# Text

Byte strings and the code points they encode. The engine's strings are WTF-8: UTF-8 in which
lone surrogates may stand, and in which a malformed sequence decodes to its own lead byte. A
code point is a number.

## Main definitions

- `Text` — a `std::string`.
- `appendUtf8`, `decodeUtf8`, `codePoints` — UTF-8 both ways.
- `hexValue`, `asciiLower`, `asciiIequals` — ASCII helpers.
-/

namespace CtBrowser

/-- The text of a `std::string`: a sequence of bytes. -/
abbrev Text := List UInt8

instance : LawfulBEq Text := inferInstance

/-- The bytes of an ASCII literal. -/
def ascii (s : String) : Text := s.toList.map fun c => c.toNat.toUInt8

/-- The code points of a literal. -/
def points (s : String) : List ℕ := s.toList.map Char.toNat

/-- A byte that is one code point. -/
def byte (c : ℕ) : UInt8 := c.toUInt8

/-- Bytes as the code points of the same values. -/
def codes (text : Text) : List ℕ := text.map UInt8.toNat

@[simp] theorem codes_nil : codes [] = [] := rfl

@[simp] theorem codes_append (a b : Text) : codes (a ++ b) = codes a ++ codes b :=
  List.map_append

@[simp] theorem length_codes (a : Text) : (codes a).length = a.length := List.length_map _

theorem toNat_byte {c : ℕ} (h : c < 256) : (byte c).toNat = c :=
  Nat.mod_eq_of_lt h

/-- The value of a hex digit. -/
def hexValue (c : ℕ) : Option ℕ :=
  if '0'.toNat ≤ c ∧ c ≤ '9'.toNat then some (c - '0'.toNat)
  else if 'a'.toNat ≤ c ∧ c ≤ 'f'.toNat then some (c - 'a'.toNat + 10)
  else if 'A'.toNat ≤ c ∧ c ≤ 'F'.toNat then some (c - 'A'.toNat + 10)
  else none

/-- An ASCII capital lowered. -/
def asciiLower (c : UInt8) : UInt8 :=
  if 'A'.toNat ≤ c.toNat ∧ c.toNat ≤ 'Z'.toNat then c + 0x20 else c

/-- Equality up to ASCII case. -/
def asciiIequals (a b : Text) : Bool := a.map asciiLower == b.map asciiLower

/-! ## UTF-8 -/

/-- The UTF-8 bytes of a code point. -/
def appendUtf8 (v : ℕ) : Text :=
  if v < 0x80 then [byte v]
  else if v < 0x800 then [byte (0xC0 ||| v >>> 6), byte (0x80 ||| v &&& 0x3F)]
  else if v < 0x10000 then
    [byte (0xE0 ||| v >>> 12), byte (0x80 ||| v >>> 6 &&& 0x3F), byte (0x80 ||| v &&& 0x3F)]
  else
    [byte (0xF0 ||| v >>> 18), byte (0x80 ||| v >>> 12 &&& 0x3F),
      byte (0x80 ||| v >>> 6 &&& 0x3F), byte (0x80 ||| v &&& 0x3F)]

/-- The bits of `count` continuation bytes after those of `built`; nothing when one of the
bytes is missing or is no continuation byte. -/
def continued (built : ℕ) : ℕ → Text → Option ℕ
  | 0, _ => some built
  | _ + 1, [] => none
  | count + 1, b :: rest =>
    if b.toNat &&& 0xC0 = 0x80 then continued (built <<< 6 ||| b.toNat &&& 0x3F) count rest
    else none

/-- The code point at the start of a text and the number of bytes it takes: a truncated or
malformed sequence is its lead byte. -/
def decodeUtf8 (lead : UInt8) (rest : Text) : ℕ × ℕ :=
  let sequence (built extra : ℕ) : ℕ × ℕ :=
    match continued built extra rest with
    | some c => (c, extra + 1)
    | none => (lead.toNat, 1)
  if lead.toNat < 0x80 then (lead.toNat, 1)
  else if lead.toNat &&& 0xE0 = 0xC0 then sequence (lead.toNat &&& 0x1F) 1
  else if lead.toNat &&& 0xF0 = 0xE0 then sequence (lead.toNat &&& 0x0F) 2
  else if lead.toNat &&& 0xF8 = 0xF0 then sequence (lead.toNat &&& 0x07) 3
  else (lead.toNat, 1)

/-- The first `limit` code points of a text, each with the number of bytes it took. -/
def decodeAll : ℕ → Text → List (ℕ × ℕ)
  | 0, _ | _, [] => []
  | limit + 1, lead :: rest =>
    let one := decodeUtf8 lead rest
    one :: decodeAll limit (rest.drop (one.2 - 1))

/-- A text as code points. -/
def codePoints (text : Text) : List ℕ := (decodeAll text.length text).map Prod.fst

end CtBrowser
