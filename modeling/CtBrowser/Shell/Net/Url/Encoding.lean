import CtBrowser.Core.Text

/-!
# URL Text Encoding

The text helpers the URL parser shares: scalar values out, lossy UTF-8 in, percent-encoding with
the sets of the URL standard, and the special schemes with their default ports.

## Main definitions

- `utf8Of`, `decodeReplacing` — code points to UTF-8, and bytes to code points with U+FFFD for
  what is malformed.
- `EncodeSet`, `percentEncode`, `percentDecode` — percent-encoding both ways.
- `defaultPort`, `specialScheme` — the special schemes.
-/

namespace CtBrowser.Shell.Url

/-- A code point read from the input, or `none` past its end. -/
abbrev Reading := Option ℕ

/-- The code point read is the character `x`. -/
abbrev Reading.Is (c : Reading) (x : Char) : Prop := c = some x.toNat

/-- An ASCII letter. -/
def isAlpha (c : ℕ) : Prop :=
  'a'.toNat ≤ c ∧ c ≤ 'z'.toNat ∨ 'A'.toNat ≤ c ∧ c ≤ 'Z'.toNat

instance (c : ℕ) : Decidable (isAlpha c) := inferInstanceAs (Decidable (_ ∨ _))

/-- An ASCII digit. -/
def isDigit (c : ℕ) : Prop := '0'.toNat ≤ c ∧ c ≤ '9'.toNat

instance (c : ℕ) : Decidable (isDigit c) := inferInstanceAs (Decidable (_ ∧ _))

/-- An ASCII capital lowered. -/
def lower (c : ℕ) : ℕ :=
  if 'A'.toNat ≤ c ∧ c ≤ 'Z'.toNat then c + 0x20 else c

/-- A surrogate. -/
def isSurrogate (c : ℕ) : Prop := 0xD800 ≤ c ∧ c ≤ 0xDFFF

instance (c : ℕ) : Decidable (isSurrogate c) := inferInstanceAs (Decidable (_ ∧ _))

/-- A code point as UTF-8, U+FFFD for a surrogate or an out-of-range value. -/
def appendScalar (c : ℕ) : Text :=
  appendUtf8 (if isSurrogate c ∨ 0x10FFFF < c then 0xFFFD else c)

/-- Code points as UTF-8, with surrogates replaced. -/
def utf8Of (text : List ℕ) : Text := text.flatMap appendScalar

/-- Bytes to code points, every malformed sequence replaced by U+FFFD. The decoder hands back
the lead byte and moves by one for those. -/
def decodeReplacing (bytes : Text) : List ℕ :=
  (decodeAll bytes.length bytes).map fun (c, taken) =>
    if 0x80 ≤ c ∧ taken = 1 ∨ isSurrogate c ∨ 0x10FFFF < c then 0xFFFD else c

/-! ## Percent-encoding -/

/-- The percent-encode sets. -/
inductive EncodeSet
  | c0 | fragment | query | specialQuery | path | userinfo | component | form
deriving DecidableEq, Repr

/-- The characters a set adds to the controls and to everything above `~`. -/
def EncodeSet.extra : EncodeSet → String
  | c0 => ""
  | fragment => " \"<>\u0060"
  | query => " \"#<>"
  | specialQuery => " \"#<>'"
  | path => " \"#<>?^\u0060\x7b\x7d"
  | userinfo => " \"#<>?^\u0060\x7b\x7d/:;=@[\\]|"
  | component => " \"#<>?^\u0060\x7b\x7d/:;=@[\\]|$%&+,"
  | form => " \"#<>?^\u0060\x7b\x7d/:;=@[\\]|$%&+,!'()~"

/-- Whether a code point must be percent-encoded. -/
def inSet (c : ℕ) (set : EncodeSet) : Prop :=
  c < 0x20 ∨ 0x7E < c ∨ c ∈ points set.extra

instance (c : ℕ) (set : EncodeSet) : Decidable (inSet c set) :=
  inferInstanceAs (Decidable (_ ∨ _))

/-- A hex digit, in capitals. -/
def hexDigit (n : ℕ) : UInt8 := if n < 10 then byte ('0'.toNat + n) else byte ('A'.toNat + n - 10)

/-- A byte as `%XX`. -/
def escaped (b : UInt8) : Text :=
  [byte '%'.toNat, hexDigit (b.toNat >>> 4), hexDigit (b.toNat &&& 0x0F)]

/-- A code point, escaped when it is in the set. -/
def percentEncodeOne (c : ℕ) (set : EncodeSet) : Text :=
  if inSet c set then (appendScalar c).flatMap escaped else [byte c]

/-- Code points, each escaped when it is in the set. -/
def percentEncode (text : List ℕ) (set : EncodeSet) : Text :=
  text.flatMap fun c => percentEncodeOne c set

/-- The bytes that escapes stand for; a `%` without two hex digits stays as it is. -/
def percentDecode : Text → Text
  | a :: b :: c :: rest =>
    match hexValue b.toNat, hexValue c.toNat with
    | some high, some low =>
      if a = byte '%'.toNat then byte (high * 16 + low) :: percentDecode rest
      else a :: percentDecode (b :: c :: rest)
    | _, _ => a :: percentDecode (b :: c :: rest)
  | text => text

/-! ## Special schemes -/

/-- The default port of a special scheme. -/
def defaultPort (scheme : Text) : Option UInt16 :=
  if scheme = ascii "http" ∨ scheme = ascii "ws" then some 80
  else if scheme = ascii "https" ∨ scheme = ascii "wss" then some 443
  else if scheme = ascii "ftp" then some 21
  else none

/-- Whether a scheme is special. -/
def specialScheme (scheme : Text) : Bool :=
  scheme = ascii "file" || (defaultPort scheme).isSome

example : percentDecode (ascii "a%4%42%3") = ascii "a%4B%3" := by decide
example : percentEncode (points "a b|é") .userinfo = ascii "a%20b%7C%C3%A9" := by decide

end CtBrowser.Shell.Url
