import CtBrowser.Core.Text

/-!
# HTML tokens

What the tokenizer hands to the tree builder: tags, runs of characters, comments, processing
instructions and doctypes, each with the span of the input it was read from.

## Main definitions

- `Token` — a token and its source span.
- `ContentModel` — what the tree builder tells the tokenizer about the open element.
-/

namespace CtBrowser.Dom

/-- What a token is. -/
inductive TokenKind
  | doctype
  | startTag
  | endTag
  | comment
  | processingInstruction
  -- a run of text
  | character
  | endOfFile
  -- a truncated view ended inside a token
  | incomplete
deriving DecidableEq, Repr

/-- An attribute of a tag, its name already lowercased. -/
structure TokenAttribute where
  name : Text
  value : Text
deriving DecidableEq, Repr

/-- A token. -/
structure Token where
  kind : TokenKind := .character
  -- the name of a tag, a doctype or a processing instruction's target
  name : Text := []
  -- the characters of a run, or the text of a comment
  data : Text := []
  attributes : List TokenAttribute := []
  publicId : Text := []
  systemId : Text := []
  systemIdPresent : Bool := false
  selfClosing : Bool := false
  forceQuirks : Bool := false
  -- the span of the input the token was read from
  sourceBegin : ℕ := 0
  sourceEnd : ℕ := 0
deriving DecidableEq, Repr

/-- How the tokenizer reads the content of the open element. -/
inductive ContentModel
  | data
  | rcdata
  | rawtext
  | script
  | plaintext
deriving DecidableEq, Repr

/-- White space of HTML. -/
def htmlWhitespace : Text := ascii " \t\n\r\x0C"

/-- Whether a byte is white space. -/
def isWhitespace (c : UInt8) : Bool := htmlWhitespace.contains c

/-- Whether a text is nothing but white space. -/
def allWhitespace (text : Text) : Bool := text.all isWhitespace

/-- Whether a text is one of the literals. -/
def oneOf (text : Text) (names : List String) : Bool := names.any fun name => ascii name == text

namespace Token

/-- Whether the token's name is the literal. -/
def named (t : Token) (name : String) : Bool := t.name == ascii name

/-- Whether the token's name is one of the literals. -/
def namedOneOf (t : Token) (names : List String) : Bool := oneOf t.name names

/-- The value of the first attribute with the name. -/
def attribute? (t : Token) (name : String) : Option Text :=
  (t.attributes.find? fun a => a.name == ascii name).map TokenAttribute.value

/-- A start tag without attributes. -/
def opening (name : String) : Token := { kind := .startTag, name := ascii name }

/-- An end tag. -/
def closing (name : String) : Token := { kind := .endTag, name := ascii name }

/-- A run of characters. -/
def characters (data : Text) : Token := { data }

end Token

end CtBrowser.Dom
