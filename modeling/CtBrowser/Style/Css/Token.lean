import CtBrowser.Core.Text

/-!
# CSS Tokens

The tokens of a stylesheet. A token's text is a slice of one pool of text, which holds the
preprocessed input and, behind it, decoded escapes. A 32-bit offset or size is a natural
number here, and a double its bit pattern.

## Main definitions

- `TokenType`, `CssToken` — one token.
- `TokenStream` — a pool and the tokens that index it.
-/

namespace CtBrowser.Style.Css

/-- The bit pattern of a double. -/
abbrev DoubleBits := UInt64

/-- The token types of CSS Syntax 3 §4. -/
inductive TokenType where
  | eof | whitespace | ident | function | atKeyword | hash | string | badString | url | badUrl
  | number | percentage | dimension | delim | cdo | cdc | colon | semicolon | comma
  | openSquare | closeSquare | openParen | closeParen | openCurly | closeCurly
  deriving DecidableEq, Repr

/-- The flag of a hash whose body would start an ident sequence. -/
def flagIdHash : UInt8 := (1 : UInt8) <<< 0

/-- The flag of a number with no `.` and no exponent. -/
def flagInteger : UInt8 := (1 : UInt8) <<< 1

/-- One token, whose text is `[text, text + length)` of the pool. -/
structure CssToken where
  type : TokenType
  flags : UInt8
  -- a dimension's unit is the last `unitLength` bytes of its text
  unitLength : UInt16
  text : ℕ
  length : ℕ
  -- number, percentage and dimension only
  number : DoubleBits
  deriving DecidableEq, Repr

/-- The output of the tokenizer. -/
structure TokenStream where
  pool : Text
  tokens : List CssToken
  -- where the source half of the pool ends and decoded escape text begins
  sourceLength : ℕ
  deriving DecidableEq, Repr

end CtBrowser.Style.Css
