import CtBrowser.Dom.TreeBuilder.Builder

/-!
# The Insertion Modes Around the Body

The insertion modes outside "in body" and the tables: "initial" to "after head", the frameset
modes and the modes after the body, and the doctype's quirks decision. A mode that hands a token
on to another mode's rules is given those rules as `process`. What a mode only writes into the
document leaves the builder's state alone.

## Main definitions

- `Process` — the rules of an insertion mode for a token.
- `modeInitial`, …, `modeAfterAfterFrameset` — one definition for each mode.
-/

namespace CtBrowser.Dom

/-- A token processed by the rules of an insertion mode. -/
abbrev Process := Token → Mode → Builder → Builder

/-! ## The doctype's quirks decision -/

/-- The public identifiers of quirks documents. -/
def quirksPublicIds : List String :=
  ["-//w3o//dtd w3 html strict 3.0//en//", "-/w3c/dtd html 4.0 transitional/en", "html"]

/-- The beginnings of the public identifiers of quirks documents. -/
def quirksPublicPrefixes : List String :=
  ["+//silmaril//dtd html pro v0r11 19970101//",
    "-//as//dtd html 3.0 aswedit + extensions//",
    "-//advasoft ltd//dtd html 3.0 aswedit + extensions//",
    "-//ietf//dtd html 2.0 level 1//",
    "-//ietf//dtd html 2.0 level 2//",
    "-//ietf//dtd html 2.0 strict level 1//",
    "-//ietf//dtd html 2.0 strict level 2//",
    "-//ietf//dtd html 2.0 strict//",
    "-//ietf//dtd html 2.0//",
    "-//ietf//dtd html 2.1e//",
    "-//ietf//dtd html 3.0//",
    "-//ietf//dtd html 3.2 final//",
    "-//ietf//dtd html 3.2//",
    "-//ietf//dtd html 3//",
    "-//ietf//dtd html level 0//",
    "-//ietf//dtd html level 1//",
    "-//ietf//dtd html level 2//",
    "-//ietf//dtd html level 3//",
    "-//ietf//dtd html strict level 0//",
    "-//ietf//dtd html strict level 1//",
    "-//ietf//dtd html strict level 2//",
    "-//ietf//dtd html strict level 3//",
    "-//ietf//dtd html strict//",
    "-//ietf//dtd html//",
    "-//metrius//dtd metrius presentational//",
    "-//microsoft//dtd internet explorer 2.0 html strict//",
    "-//microsoft//dtd internet explorer 2.0 html//",
    "-//microsoft//dtd internet explorer 2.0 tables//",
    "-//microsoft//dtd internet explorer 3.0 html strict//",
    "-//microsoft//dtd internet explorer 3.0 html//",
    "-//microsoft//dtd internet explorer 3.0 tables//",
    "-//netscape comm. corp.//dtd html//",
    "-//netscape comm. corp.//dtd strict html//",
    "-//o'reilly and associates//dtd html 2.0//",
    "-//o'reilly and associates//dtd html extended 1.0//",
    "-//o'reilly and associates//dtd html extended relaxed 1.0//",
    "-//sq//dtd html 2.0 hotmetal + extensions//",
    "-//softquad software//dtd hotmetal pro 6.0::19990601::extensions to html 4.0//",
    "-//softquad//dtd hotmetal pro 4.0::19971010::extensions to html 4.0//",
    "-//spyglass//dtd html 2.0 extended//",
    "-//sun microsystems corp.//dtd hotjava html//",
    "-//sun microsystems corp.//dtd hotjava strict html//",
    "-//w3c//dtd html 3 1995-03-24//",
    "-//w3c//dtd html 3.2 draft//",
    "-//w3c//dtd html 3.2 final//",
    "-//w3c//dtd html 3.2//",
    "-//w3c//dtd html 3.2s draft//",
    "-//w3c//dtd html 4.0 frameset//",
    "-//w3c//dtd html 4.0 transitional//",
    "-//w3c//dtd html experimental 19960712//",
    "-//w3c//dtd html experimental 970421//",
    "-//w3c//dtd w3 html//",
    "-//w3o//dtd w3 html 3.0//",
    "-//webtechs//dtd mozilla html 2.0//",
    "-//webtechs//dtd mozilla html//"]

/-- The beginnings that only make quirks without a system identifier. -/
def limitedPublicPrefixes : List String :=
  ["-//w3c//dtd html 4.01 frameset//", "-//w3c//dtd html 4.01 transitional//"]

def quirksFor (doctype : Token) : Bool :=
  let publicId := doctype.publicId.map asciiLower
  let systemId := doctype.systemId.map asciiLower
  let starts (names : List String) := names.any fun name => (ascii name).isPrefixOf publicId
  doctype.forceQuirks || !asciiIequals doctype.name (ascii "html") ||
    oneOf publicId quirksPublicIds ||
    systemId == ascii "http://www.ibm.com/data/dtd/v11/ibmxhtml1-transitional.dtd" ||
    starts quirksPublicPrefixes || systemId.isEmpty && starts limitedPublicPrefixes

namespace Builder

/-- A token processed again, by the rules of the mode the builder is in now. -/
def again (process : Process) (t : Token) (b : Builder) : Builder := process t b.parse.mode b

/-- Whether a run begins with white space. -/
def startsWithSpace (data : Text) : Bool :=
  match data with
  | c :: _ => isWhitespace c
  | [] => false

/-- A run cut after its leading white space: that part is handled here, and the rest by the
mode's rules. -/
def characters (process : Process) (data : Text) (m : Mode) (b : Builder) : Builder :=
  let space := data.takeWhile isWhitespace
  let rest := data.dropWhile isWhitespace
  let b :=
    if space.isEmpty then b
    else
      match m with
      | .afterBody | .afterAfterBody => process (.characters space) .inBody b
      | _ => b
  if rest.isEmpty then b else process (.characters rest) m b

/-- Characters in a mode that keeps white space: all of it, or the part before the rest is
processed by the mode's "anything else". -/
def spacedCharacters (process : Process) (t : Token) (m : Mode) (anythingElse : Builder → Builder)
    (b : Builder) : Builder :=
  if allWhitespace t.data then b
  else if startsWithSpace t.data then characters process t.data m b
  else anythingElse b

/-! ## Before the head -/

def modeInitial (process : Process) (t : Token) (b : Builder) : Builder :=
  let quirky (value : Bool) (b : Builder) :=
    b.update fun p => { p with quirks := if p.context.isEmpty then value else p.quirks }
  let anythingElse (b : Builder) := again process t ((quirky true b).enter .beforeHtml)
  match t.kind with
  | .character => spacedCharacters process t .initial anythingElse b
  | .comment | .processingInstruction => b
  | .doctype => (quirky (quirksFor t) b).enter .beforeHtml
  | _ => anythingElse b

def modeBeforeHtml (process : Process) (t : Token) (b : Builder) : Builder :=
  let anythingElse (b : Builder) := again process t (b.createRoot.enter .beforeHead)
  match t.kind with
  | .doctype | .comment | .processingInstruction => b
  | .character => spacedCharacters process t .beforeHtml anythingElse b
  | .startTag => if t.named "html" then b.createRoot.enter .beforeHead else anythingElse b
  | .endTag => if !t.namedOneOf ["head", "body", "html", "br"] then b else anythingElse b
  | _ => anythingElse b

def modeBeforeHead (process : Process) (t : Token) (b : Builder) : Builder :=
  let anythingElse (b : Builder) := again process t ((b.insertHead []).enter .inHead)
  match t.kind with
  | .character => spacedCharacters process t .beforeHead anythingElse b
  | .comment | .processingInstruction | .doctype => b
  | .startTag =>
    if t.named "html" then process t .inBody b
    else if t.named "head" then (b.insertHead t.attributes).enter .inHead
    else anythingElse b
  | .endTag => if !t.namedOneOf ["head", "body", "html", "br"] then b else anythingElse b
  | _ => anythingElse b

/-! ## The head -/

/-- A `template` start tag: the element is pushed whether or not it becomes a shadow root. -/
def openTemplate (t : Token) (b : Builder) : Builder :=
  (b.pushMarker.update fun p =>
    { p with
      framesetOk := false
      mode := .inTemplate
      templateModes := p.templateModes ++ [.inTemplate] }).insertFor t

/-- A `template` end tag, and what the end of the file does in its place. -/
def closeTemplate (b : Builder) : Builder :=
  ((b.popUntil (ascii "template")).clearFormattingToMarker.update fun p =>
    { p with templateModes := p.templateModes.dropLast }).resetInsertionMode

def inHeadStart (t : Token) (process : Process) (anythingElse : Builder → Builder) (b : Builder) :
    Builder :=
  if t.named "html" then process t .inBody b
  else if t.namedOneOf ["base", "basefont", "bgsound", "link", "meta"] then (b.insertFor t).pop
  else if t.named "title" then b.insertTextElement t .rcdata
  else if t.named "noscript" && b.parse.scripting then b.insertTextElement t .rawtext
  else if t.namedOneOf ["noframes", "style"] then b.insertTextElement t .rawtext
  else if t.named "noscript" then (b.insertFor t).enter .inHeadNoscript
  else if t.named "script" then b.insertTextElement t .script
  else if t.named "template" then openTemplate t b
  else if t.named "head" then b
  else anythingElse b

def modeInHead (process : Process) (t : Token) (b : Builder) : Builder :=
  let anythingElse (b : Builder) := again process t (b.pop.enter .afterHead)
  match t.kind with
  | .character => spacedCharacters process t .inHead anythingElse b
  | .comment | .processingInstruction | .doctype => b
  | .startTag => inHeadStart t process anythingElse b
  | .endTag =>
    if t.named "head" then b.pop.enter .afterHead
    else if t.named "template" then
      if !b.templateOnStack then b else b.generateImpliedEndTagsThoroughly.closeTemplate
    else if !t.namedOneOf ["body", "html", "br"] then b
    else anythingElse b
  | _ => anythingElse b

def modeInHeadNoscript (process : Process) (t : Token) (b : Builder) : Builder :=
  let anythingElse (b : Builder) := again process t (b.pop.enter .inHead)
  match t.kind with
  | .doctype => b
  | .startTag =>
    if t.named "html" then process t .inBody b
    else if t.namedOneOf ["basefont", "bgsound", "link", "meta", "noframes", "style"] then
      process t .inHead b
    else if t.namedOneOf ["head", "noscript"] then b
    else anythingElse b
  | .endTag =>
    if t.named "noscript" then b.pop.enter .inHead
    else if !t.named "br" then b
    else anythingElse b
  | .character =>
    if allWhitespace t.data then process t .inHead b
    else if startsWithSpace t.data then characters process t.data .inHeadNoscript b
    else anythingElse b
  | .comment | .processingInstruction => process t .inHead b
  | _ => anythingElse b

def modeAfterHead (process : Process) (t : Token) (b : Builder) : Builder :=
  let anythingElse (b : Builder) :=
    again process t ((b.insertElement (ascii "body") []).enter .inBody)
  match t.kind with
  | .character => spacedCharacters process t .afterHead anythingElse b
  | .comment | .processingInstruction | .doctype => b
  | .startTag =>
    if t.named "html" then process t .inBody b
    else if t.named "body" then
      (b.insertFor t).update fun p => { p with framesetOk := false, mode := .inBody }
    else if t.named "frameset" then (b.insertFor t).enter .inFrameset
    else if t.namedOneOf ["base", "basefont", "bgsound", "link", "meta", "noframes", "script",
        "style", "template", "title"] then
      -- the head's rules, with the head open again while they run
      let b := process t .inHead b.reopenHead
      b.removeFromStack (b.head.getD 0)
    else if t.named "head" then b
    else anythingElse b
  | .endTag =>
    if t.named "template" then process t .inHead b
    else if !t.namedOneOf ["body", "html", "br"] then b
    else anythingElse b
  | _ => anythingElse b

/-! ## After the body -/

def modeAfterBody (process : Process) (t : Token) (b : Builder) : Builder :=
  let anythingElse (b : Builder) := again process t (b.enter .inBody)
  match t.kind with
  | .character =>
    if allWhitespace t.data then process t .inBody b
    else if startsWithSpace t.data then characters process t.data .afterBody b
    else anythingElse b
  | .comment | .processingInstruction | .doctype => b
  | .startTag => if t.named "html" then process t .inBody b else anythingElse b
  | .endTag =>
    if t.named "html" then
      if !b.parse.context.isEmpty then b else b.enter .afterAfterBody
    else anythingElse b
  | .endOfFile | .incomplete => b

def modeAfterAfterBody (process : Process) (t : Token) (b : Builder) : Builder :=
  let anythingElse (b : Builder) := again process t (b.enter .inBody)
  match t.kind with
  | .comment | .processingInstruction => b
  | .doctype => process t .inBody b
  | .character =>
    if allWhitespace t.data then process t .inBody b
    else if startsWithSpace t.data then characters process t.data .afterAfterBody b
    else anythingElse b
  | .startTag => if t.named "html" then process t .inBody b else anythingElse b
  | .endOfFile => b
  | _ => anythingElse b

/-! ## Framesets -/

/-- The white space of a run; the last mode hands it to the body's rules. -/
def insertWhitespaceOnly (process : Process) (data : Text) (b : Builder) : Builder :=
  let kept := data.filter isWhitespace
  if kept.isEmpty then b
  else if b.parse.mode = .afterAfterFrameset then process (.characters kept) .inBody b
  else b

def modeInFrameset (process : Process) (t : Token) (b : Builder) : Builder :=
  match t.kind with
  | .character => insertWhitespaceOnly process t.data b
  | .startTag =>
    if t.named "html" then process t .inBody b
    else if t.named "frameset" then b.insertFor t
    else if t.named "frame" then (b.insertFor t).pop
    else if t.named "noframes" then process t .inHead b
    else b
  | .endTag =>
    if t.named "frameset" then
      if b.currentIs "html" then b
      else
        let b := b.pop
        if b.parse.context.isEmpty && !b.currentIs "frameset" then b.enter .afterFrameset else b
    else b
  | _ => b

def modeAfterFrameset (process : Process) (t : Token) (b : Builder) : Builder :=
  match t.kind with
  | .character => insertWhitespaceOnly process t.data b
  | .startTag =>
    if t.named "html" then process t .inBody b
    else if t.named "noframes" then process t .inHead b
    else b
  | .endTag => if t.named "html" then b.enter .afterAfterFrameset else b
  | _ => b

def modeAfterAfterFrameset (process : Process) (t : Token) (b : Builder) : Builder :=
  match t.kind with
  | .doctype => process t .inBody b
  | .character => insertWhitespaceOnly process t.data b
  | .startTag =>
    if t.named "html" then process t .inBody b
    else if t.named "noframes" then process t .inHead b
    else b
  | _ => b

end Builder

end CtBrowser.Dom
