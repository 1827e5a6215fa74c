import CtBrowser.Dom.Document
import CtBrowser.Dom.Xml.Source

/-!
# The XML parser

The productions of the engine's XML parser, as programs over their source. An error is recorded and does
not stop the parser by itself: each production looks whether there was one where the engine does. A
distance in the text ahead stands for a position.

The bound on the steps of a loop is a parameter. The tree is the list of the nodes in the order in which
they are put in place, each with its parent.

## Main definitions

- `Parser`, `Parse` — what is built, and a production.
- `reference` — a reference in content or in an attribute value.
- `document` — a whole document.
-/

namespace CtBrowser.Dom.Xml

/-! ## Characters -/

def isNameStart (c : UInt8) : Bool :=
  ('a'.toNat ≤ c.toNat && c.toNat ≤ 'z'.toNat) || ('A'.toNat ≤ c.toNat && c.toNat ≤ 'Z'.toNat) ||
    c.toNat = '_'.toNat || c.toNat = ':'.toNat || 0x80 ≤ c.toNat

def isNameChar (c : UInt8) : Bool :=
  isNameStart c || ('0'.toNat ≤ c.toNat && c.toNat ≤ '9'.toNat) || c.toNat = '-'.toNat || c.toNat = '.'.toNat

def xmlWhitespace : Text := [0x20, 0x09, 0x0D, 0x0A]

def isSpace (c : UInt8) : Bool := xmlWhitespace.contains c

/-- Each lone surrogate as U+FFFD. -/
def withoutSurrogates : Text → Text
  | a :: b :: c :: rest =>
    if a = 0xED ∧ 0xA0 ≤ b.toNat ∧ b.toNat ≤ 0xBF then [0xEF, 0xBF, 0xBD] ++ withoutSurrogates rest
    else a :: withoutSurrogates (b :: c :: rest)
  | text => text

def colon : UInt8 := byte ':'.toNat

/-- A name with at most one colon and nothing empty beside it. -/
def isQname (name : Text) : Bool :=
  let first := name.idxOf colon
  !name.contains colon ||
    (first ≠ 0 && first + 1 < name.length && !(name.drop (first + 1)).contains colon)

/-- The part of a name before its colon, or nothing. -/
def prefixOf (qualified : Text) : Text := if qualified.contains colon then qualified.takeWhile (· ≠ colon) else []

/-! ## Text ahead -/

/-- Where a text is first found in another. -/
def find (needle : Text) : Text → Option ℕ
  | [] => if needle = [] then some 0 else none
  | c :: rest => if needle.isPrefixOf (c :: rest) then some 0 else (find needle rest).map (· + 1)

/-- The character that many places ahead, or 0. -/
def peek (text : Text) (ahead : ℕ) : UInt8 := text.getD ahead 0

def lookingAt (text : Text) (want : String) : Bool := (ascii want).isPrefixOf text

/-- The length of a declaration up to its `>`, past quoted literals. -/
def declarationLength : Option UInt8 → Text → ℕ
  | _, [] => 0
  | some quote, c :: rest => declarationLength (if c = quote then none else some quote) rest + 1
  | none, c :: rest =>
    if c = byte '"'.toNat ∨ c = byte '\''.toNat then declarationLength (some c) rest + 1
    else if c = byte '>'.toNat then 1
    else declarationLength none rest + 1

/-! ## The parser -/

structure Binding where
  pre : Text
  uri : Text
deriving DecidableEq, Repr

/-- An element that is open, with how many bindings it made. -/
structure OpenElement where
  id : ℕ
  qualified : Text
  bindings : ℕ
deriving DecidableEq, Repr

inductive Content
  | comment (text : Text)
  | processingInstruction (target data : Text)
  | documentType (name publicId systemId : Text)
  | element (name : Text) (ns : NodeNs) (uri : Text) (prefixed : Bool) (attributes : List (Text × Text × Text))
  | text (value : Text)
  | cdata (value : Text)
deriving DecidableEq, Repr

/-- A node and its parent, if that is no document. -/
structure Built where
  parent : Option ℕ
  content : Content
deriving DecidableEq, Repr

/-- What a parser keeps beside its source. The innermost bindings and elements come first. -/
structure Parser where
  error : Option Text
  entities : List (Text × Text)
  root : Option ℕ
  opened : List OpenElement
  bindings : List Binding
  nodes : List Built
deriving DecidableEq, Repr

/-- The first error is kept. -/
def Parser.fail (p : Parser) (message : Text) : Parser := { p with error := p.error.or (some message) }

abbrev Parse (α : Type) : Type := StateT Parser Reading α

/-- A view of the text ahead, which is good until the next inclusion. -/
structure View where
  expansions : ℕ
  text : Text

section Actions

def look : Parse Text := StateT.lift (.look .done)

def advance (n : ℕ) : Parse Unit := StateT.lift (.advance n (.done ()))

def inclusions : Parse ℕ := StateT.lift (.spent fun spent => .done spent.expansions)

def fault {α : Type} (f : Fault) : Parse α := StateT.lift (.fault f)

/-- A view from the cursor on. -/
def view (offset length : ℕ) : Parse View := do
  let text ← look
  let expansions ← inclusions
  pure ⟨expansions, (text.drop offset).take length⟩

def readView (v : View) : Parse Text := do
  let expansions ← inclusions
  if v.expansions = expansions then pure v.text else fault .dangling

def fail (message : Text) : Parse Unit := modify (·.fail message)

def failWith (message : String) : Parse Unit := fail (ascii message)

def failed : Parse Bool := return (← get).error.isSome

def maxDomDepth : ℕ := 512

def tooDeep : Parse Bool := do
  if (← get).opened.length + 1 < maxDomDepth then pure false
  else
    failWith "elements nested too deeply"
    pure true

/-- A node at the end of the open element, or of the document. -/
def append (content : Content) : Parse Unit :=
  modify fun p => { p with nodes := p.nodes ++ [⟨p.opened.head?.map (·.id), content⟩] }

def emit (content : Content) : Parse Unit := do
  if ← tooDeep then pure () else append content

def skipSpace : Parse Unit := do advance ((← look).takeWhile isSpace).length

/-- A name at the cursor, or nothing. -/
def name : Parse Text := do
  let text ← look
  if text = [] ∨ !isNameStart (peek text 0) then pure []
  else
    let taken := text.takeWhile isNameChar
    advance taken.length
    pure taken

end Actions

/-! ## Comments and processing instructions -/

def comment : Parse Unit := do
  advance 4
  let rest ← look
  match find (ascii "-->") rest with
  | none =>
    failWith "unterminated comment"
    advance rest.length
  | some stop =>
    let text ← view 0 stop
    advance (stop + 3)
    emit (.comment (← readView text))

def processingInstruction : Parse Unit := do
  advance 2
  let target ← name
  if target = [] then failWith "a processing instruction has no target"
  else
    let rest ← look
    match find (ascii "?>") rest with
    | none =>
      failWith "unterminated processing instruction"
      advance rest.length
    | some stop =>
      skipSpace
      -- what white space took from the data
      let skipped := rest.length - (← look).length
      let data ← view 0 (stop - skipped)
      advance (stop + 2 - skipped)
      if target.map asciiLower = ascii "xml" then pure ()
      else emit (.processingInstruction target (← readView data))

/-! ## References -/

/-- The value of a character reference's digits, too large ones as U+FFFD. -/
def codeOf (hex : Bool) : ℕ → Text → Option ℕ
  | code, [] => some code
  | code, c :: rest =>
    let digit := if hex then hexValue c.toNat
      else if '0'.toNat ≤ c.toNat ∧ c.toNat ≤ '9'.toNat then some (c.toNat - '0'.toNat) else none
    match digit with
    | none => none
    | some digit =>
      let code := code * (if hex then 16 else 10) + digit
      codeOf hex (if 0x10FFFF < code then 0xFFFD else code) rest

def predefined : List (Text × UInt8) :=
  [(ascii "lt", byte '<'.toNat), (ascii "gt", byte '>'.toNat), (ascii "amp", byte '&'.toNat),
    (ascii "quot", byte '"'.toNat), (ascii "apos", byte '\''.toNat)]

/-- The entity's replacement in place of the reference. -/
def includeEntity (replacement : Text) (length : ℕ) : Parse Bool := do
  match ← StateT.lift (.includeEntity replacement length .done) with
  | none => pure true
  | some message =>
    fail message
    pure false

/-- One `&...;` at the cursor: what it stands for, which is nothing when an entity was included; missing
when there was an error. -/
def reference : Parse (Option Text) := do
  let rest ← look
  match find (ascii ";") rest with
  | none =>
    failWith "unterminated entity reference"
    pure none
  | some semicolon =>
    let body ← view 1 (semicolon - 1)
    let text ← readView body
    if text = [] then
      failWith "empty entity reference"
      pure none
    else if text.head? = some (byte '#'.toNat) then
      let hex := peek text 1 = byte 'x'.toNat ∨ peek text 1 = byte 'X'.toNat
      let digits := text.drop (if hex then 2 else 1)
      if digits = [] then
        failWith "empty character reference"
        pure none
      else
        match codeOf hex 0 digits with
        | none =>
          fail (ascii "malformed character reference &" ++ (← readView body) ++ ascii ";")
          pure none
        | some code =>
          advance (semicolon + 1)
          pure (some (appendUtf8 (if code = 0 ∨ (0xD800 ≤ code ∧ code ≤ 0xDFFF) then 0xFFFD else code)))
    else
      match predefined.lookup text with
      | some c =>
        advance (semicolon + 1)
        pure (some [c])
      | none =>
        match (← get).entities.lookup (← readView body) with
        | some replacement => return if ← includeEntity replacement (semicolon + 1) then some [] else none
        | none =>
          fail (ascii "undeclared entity &" ++ (← readView body) ++ ascii ";")
          pure none

/-! ## The document type -/

def isQuote (c : UInt8) : Bool := c = byte '"'.toNat || c = byte '\''.toNat

/-- A literal with no references in it. -/
def quotedLiteral : Parse (Option Text) := do
  let text ← look
  let quote := peek text 0
  if !isQuote quote then pure none
  else
    advance 1
    let literal := (← look).takeWhile (· ≠ quote)
    advance literal.length
    if (← look) = [] then
      failWith "unterminated literal"
      pure none
    else
      advance 1
      pure (some literal)

section Loops

variable (limit : ℕ)

/-- The value of an entity up to its quote, with character references resolved. -/
def entityValue (quote : UInt8) : ℕ → Text → Parse (Option Text)
  | 0, _ => fault .endless
  | fuel + 1, literal => do
    let rest ← look
    if rest = [] ∨ peek rest 0 = quote then pure (some literal)
    else if peek rest 0 = byte '&'.toNat ∧ peek rest 1 = byte '#'.toNat then
      match ← reference with
      | none => pure none
      | some more => entityValue quote fuel (literal ++ more)
    else
      advance 1
      entityValue quote fuel (literal ++ [peek rest 0])

/-- The value of a declaration when it is a literal; missing after an error. -/
def entityLiteral : Parse (Option (Option Text)) := do
  let quote := peek (← look) 0
  if !isQuote quote then pure (some none)
  else
    advance 1
    match ← entityValue quote limit [] with
    | none => pure none
    | some literal =>
      if (← look) = [] then
        failWith "unterminated entity value"
        pure none
      else
        advance 1
        pure (some (some literal))

/-- The mark of a parameter entity, if there is one. -/
def parameterMark : Parse Bool := do
  if peek (← look) 0 = byte '%'.toNat then
    advance 1
    skipSpace
    pure true
  else pure false

/-- A declaration after its name. -/
def entityDefinition (parameter : Bool) (entityName : Text) : Parse Unit := do
  match ← entityLiteral limit with
  | none => pure ()
  | some literal =>
    -- past an external identifier
    advance (declarationLength none (← look))
    match literal with
    | none => pure ()
    | some literal =>
      -- the first declaration wins
      if parameter ∨ ((← get).entities.lookup entityName).isSome then pure ()
      else modify fun p => { p with entities := p.entities ++ [(entityName, literal)] }

def entityDeclaration : Parse Unit := do
  advance 8
  skipSpace
  let parameter ← parameterMark
  let entityName ← name
  if entityName = [] then failWith "an entity declaration has no name"
  else
    skipSpace
    entityDefinition limit parameter entityName

def commentSkipped : Parse Unit := do
  let rest ← look
  match find (ascii "-->") (rest.drop 4) with
  | none => advance rest.length
  | some stop => advance (4 + stop + 3)

/-- The bracketed part of a document type. -/
def internalSubset : ℕ → Parse Unit
  | 0 => fault .endless
  | fuel + 1 => do
    if (← look) = [] then failWith "unterminated internal subset"
    else
      skipSpace
      let rest ← look
      if peek rest 0 = byte ']'.toNat then advance 1
      else if lookingAt rest "<!--" then
        commentSkipped
        internalSubset fuel
      else if lookingAt rest "<?" then
        match find (ascii "?>") rest with
        | none => failWith "unterminated internal subset"
        | some stop =>
          advance (stop + 2)
          internalSubset fuel
      else if lookingAt rest "<!ENTITY" then
        entityDeclaration limit
        if ← failed then pure () else internalSubset fuel
      else if lookingAt rest "<!" then
        advance (declarationLength none rest)
        internalSubset fuel
      else if peek rest 0 = byte '%'.toNat then
        match find (ascii ";") rest with
        | none => failWith "unterminated internal subset"
        | some stop =>
          advance (stop + 1)
          internalSubset fuel
      else failWith "unexpected text in the internal subset"

/-- The identifiers of a document type; missing after an error. -/
def externalId : Parse (Option (Text × Text)) := do
  let rest ← look
  if lookingAt rest "PUBLIC" then
    advance 6
    skipSpace
    match ← quotedLiteral with
    | none =>
      failWith "PUBLIC without a public identifier"
      pure none
    | some publicId =>
      skipSpace
      match ← quotedLiteral with
      | none =>
        failWith "PUBLIC without a system identifier"
        pure none
      | some systemId => pure (some (publicId, systemId))
  else if lookingAt rest "SYSTEM" then
    advance 6
    skipSpace
    match ← quotedLiteral with
    | none =>
      failWith "SYSTEM without a system identifier"
      pure none
    | some systemId => pure (some ([], systemId))
  else pure (some ([], []))

/-- The bracketed part, if there is one. The answer is whether to go on. -/
def bracketed : Parse Bool := do
  if peek (← look) 0 = byte '['.toNat then
    advance 1
    internalSubset limit limit
    return !(← failed)
  else pure true

def doctype : Parse Unit := do
  advance 9
  skipSpace
  let doctypeName ← name
  skipSpace
  match ← externalId with
  | none => pure ()
  | some (publicId, systemId) =>
    skipSpace
    if !(← bracketed limit) then pure ()
    else
      skipSpace
      if peek (← look) 0 ≠ byte '>'.toNat then failWith "unterminated doctype"
      else
        advance 1
        emit (.documentType doctypeName publicId systemId)

/-! ## Elements -/

/-- An attribute value after its quote. -/
def quotedValue (quote : UInt8) : ℕ → Text → Parse (Option Text)
  | 0, _ => fault .endless
  | fuel + 1, value => do
    let rest ← look
    if rest = [] then
      failWith "unterminated attribute value"
      pure none
    else if peek rest 0 = quote then
      advance 1
      pure (some value)
    else if peek rest 0 = byte '<'.toNat then
      failWith "< in an attribute value"
      pure none
    else if peek rest 0 = byte '&'.toNat then
      match ← reference with
      | none => pure none
      | some more => quotedValue quote fuel (value ++ more)
    else
      advance 1
      quotedValue quote fuel (value ++ [if isSpace (peek rest 0) then 0x20 else peek rest 0])

/-- An attribute value in either quote. -/
def quoted : Parse (Option Text) := do
  let quote := peek (← look) 0
  if !isQuote quote then pure none
  else
    advance 1
    quotedValue quote limit []

/-- The attributes of a start tag, and whether it is an empty element's. -/
def attributes (qualified : Text) : ℕ → List (Text × Text) → Parse (Option (List (Text × Text) × Bool))
  | 0, _ => fault .endless
  | fuel + 1, attrs => do
    let hadSpace := isSpace (peek (← look) 0)
    skipSpace
    let rest ← look
    if rest = [] then
      fail (ascii "unterminated start tag <" ++ qualified ++ ascii ">")
      pure none
    else if lookingAt rest "/>" then
      advance 2
      pure (some (attrs, true))
    else if peek rest 0 = byte '>'.toNat then
      advance 1
      pure (some (attrs, false))
    else if !hadSpace then
      fail (ascii "attributes must be separated by white space in <" ++ qualified ++ ascii ">")
      pure none
    else
      let attrName ← name
      if attrName = [] then
        fail (ascii "an attribute name is empty in <" ++ qualified ++ ascii ">")
        pure none
      else if !isQname attrName then
        fail (ascii "attribute " ++ attrName ++ ascii " is not a qualified name in <" ++ qualified ++ ascii ">")
        pure none
      else
        skipSpace
        if peek (← look) 0 ≠ byte '='.toNat then
          fail (ascii "attribute " ++ attrName ++ ascii " has no value in <" ++ qualified ++ ascii ">")
          pure none
        else
          advance 1
          skipSpace
          match ← quoted limit with
          | none =>
            fail (ascii "attribute " ++ attrName ++ ascii " is not quoted in <" ++ qualified ++ ascii ">")
            pure none
          | some value =>
            if attrs.any (·.1 = attrName) then
              fail (ascii "attribute " ++ attrName ++ ascii " appears twice in <" ++ qualified ++ ascii ">")
              pure none
            else attributes qualified fuel (attrs ++ [(attrName, value)])

def xhtmlNamespace : Text := ascii "http://www.w3.org/1999/xhtml"

def svgNamespace : Text := ascii "http://www.w3.org/2000/svg"

def xmlNamespace : Text := ascii "http://www.w3.org/XML/1998/namespace"

def xmlnsNamespace : Text := ascii "http://www.w3.org/2000/xmlns/"

def nsOf (uri : Text) : NodeNs :=
  if uri = svgNamespace then .svg else if uri = xhtmlNamespace then .html else .other

/-- What a prefix is bound to, or nothing. -/
def resolve (bindings : List Binding) (pre : Text) (elementName : Bool) : Text :=
  if pre = [] ∧ !elementName then []
  else ((bindings.find? (·.pre = pre)).map (·.uri)).getD []

/-- The bindings that attributes make, the last one innermost. -/
def declared (attrs : List (Text × Text)) : List Binding :=
  (attrs.filterMap fun a =>
    if a.1 = ascii "xmlns" then some ⟨[], a.2⟩
    else if (ascii "xmlns:").isPrefixOf a.1 then some ⟨a.1.drop 6, a.2⟩
    else none).reverse

/-- The namespace of an attribute's name. -/
def attributeUri (bindings : List Binding) (attrName : Text) : Text :=
  if attrName = ascii "xmlns" then xmlnsNamespace
  else if prefixOf attrName = [] then []
  else resolve bindings (prefixOf attrName) false

def undeclared (bindings : List Binding) (attrName : Text) : Bool :=
  prefixOf attrName ≠ [] && attributeUri bindings attrName = []

/-- The element in its place, with the attributes before one whose prefix is undeclared. -/
def createElement (qualified : Text) (attrs : List (Text × Text)) : Parse ℕ := do
  let p ← get
  let uri := resolve p.bindings (prefixOf qualified) true
  let held := (attrs.takeWhile fun a => !undeclared p.bindings a.1).map fun a =>
    (a.1, attributeUri p.bindings a.1, a.2)
  let id := p.nodes.length
  append (.element qualified (nsOf uri) uri (prefixOf qualified ≠ []) held)
  if p.opened = [] then modify fun p => { p with root := some id }
  pure id

def startTag : Parse Unit := do
  advance 1
  let qualified ← name
  if qualified = [] then failWith "an element name is empty"
  else if !isQname qualified then fail (ascii "<" ++ qualified ++ ascii "> is not a qualified name")
  else
    match ← attributes limit qualified limit [] with
    | none => pure ()
    | some (attrs, emptyElement) =>
      let pushed := declared attrs
      modify fun p => { p with bindings := pushed ++ p.bindings }
      if ← tooDeep then pure ()
      else
        let id ← createElement qualified attrs
        let bindings := (← get).bindings
        match attrs.find? fun a => undeclared bindings a.1 with
        | some a => fail (ascii "undeclared namespace prefix " ++ prefixOf a.1 ++ ascii " on " ++ a.1)
        | none =>
          if emptyElement then modify fun p => { p with bindings := p.bindings.drop pushed.length }
          else modify fun p => { p with opened := ⟨id, qualified, pushed.length⟩ :: p.opened }

def endTag : Parse Unit := do
  advance 2
  let qualified ← name
  skipSpace
  if peek (← look) 0 ≠ byte '>'.toNat then fail (ascii "unterminated end tag </" ++ qualified ++ ascii ">")
  else
    advance 1
    match (← get).opened with
    | [] => fail (ascii "end tag </" ++ qualified ++ ascii "> with no open element")
    | last :: rest =>
      if last.qualified ≠ qualified then
        fail (ascii "end tag </" ++ qualified ++ ascii "> closes <" ++ last.qualified ++ ascii ">")
      else modify fun p => { p with bindings := p.bindings.drop last.bindings, opened := rest }

def cdata : Parse Unit := do
  advance 9
  let rest ← look
  match find (ascii "]]>") rest with
  | none =>
    failWith "unterminated CDATA section"
    advance rest.length
  | some stop =>
    let text ← view 0 stop
    advance (stop + 3)
    if (← get).opened = [] then failWith "CDATA section outside the document element"
    else if ← tooDeep then pure ()
    else append (.cdata (withoutSurrogates (← readView text)))

/-- Text up to the next tag. -/
def characters : ℕ → Text → Parse (Option Text)
  | 0, _ => fault .endless
  | fuel + 1, text => do
    let rest ← look
    if rest = [] ∨ peek rest 0 = byte '<'.toNat then pure (some text)
    else if peek rest 0 = byte '&'.toNat then
      match ← reference with
      | none => pure none
      | some more => characters fuel (text ++ more)
    else if lookingAt rest "]]>" then
      failWith "]]> in character data"
      pure none
    else
      advance 1
      characters fuel (text ++ [peek rest 0])

def characterData : Parse Unit := do
  match ← characters limit [] with
  | none => pure ()
  | some text =>
    if text = [] ∨ (← get).opened = [] then pure ()
    else if ← tooDeep then pure ()
    else append (.text (withoutSurrogates text))

/-- An element and everything under it. -/
def content : ℕ → Parse Unit
  | 0 => fault .endless
  | fuel + 1 => do
    let rest ← look
    if ← failed then pure ()
    else if rest = [] then
      match (← get).opened with
      | [] => pure ()
      | last :: _ => fail (ascii "unclosed element <" ++ last.qualified ++ ascii ">")
    else if lookingAt rest "</" then
      endTag
      if (← get).opened = [] then pure () else content fuel
    else if lookingAt rest "<!--" then
      comment
      content fuel
    else if lookingAt rest "<![CDATA[" then
      cdata
      content fuel
    else if lookingAt rest "<?" then
      processingInstruction
      content fuel
    else if lookingAt rest "<!" then failWith "unexpected declaration inside an element"
    else if lookingAt rest "<" then
      startTag limit
      content fuel
    else
      characterData limit
      content fuel

def element : Parse Unit := do
  let rest ← look
  if !lookingAt rest "<" ∨ !isNameStart (peek rest 1) then failWith "expected an element"
  else content limit limit

/-! ## Documents -/

/-- What comes before the root element. -/
def prolog : ℕ → Parse Unit
  | 0 => fault .endless
  | fuel + 1 => do
    skipSpace
    let rest ← look
    if rest = [] then pure ()
    else if lookingAt rest "<?" then
      processingInstruction
      prolog fuel
    else if lookingAt rest "<!--" then
      comment
      prolog fuel
    else if lookingAt rest "<!DOCTYPE" ∨ lookingAt rest "<!doctype" then
      doctype limit
      prolog fuel
    else pure ()

/-- What comes after the root element. -/
def epilogue : ℕ → Parse Unit
  | 0 => fault .endless
  | fuel + 1 => do
    skipSpace
    let rest ← look
    if rest = [] then pure ()
    else if lookingAt rest "<?" then
      processingInstruction
      epilogue fuel
    else if lookingAt rest "<!--" then
      comment
      epilogue fuel
    else failWith "content after the root element"

def unlessFailed (next : Parse Unit) : Parse Unit := do
  if ← failed then pure () else next

def document : Parse Unit := do
  prolog limit limit
  unlessFailed (element limit)
  unlessFailed (epilogue limit)
  unlessFailed do
    if (← get).root = none then failWith "no root element" else pure ()

end Loops

/-- A parser before a document. -/
def Parser.init : Parser :=
  { error := none, entities := [], root := none, opened := [],
    bindings := [⟨ascii "xmlns", xmlnsNamespace⟩, ⟨ascii "xml", xmlNamespace⟩], nodes := [] }

/-- The parse of a document from a source, with loops of at most so many steps. -/
def parse {σ : Type} [Source σ] (limit : ℕ) (source : σ) : Except Fault ((Unit × Parser) × σ) :=
  (((document limit).run Parser.init).run source)

end CtBrowser.Dom.Xml
