import CtBrowser.Dom.TreeBuilder.Body

/-!
# Foreign Content and the Dispatcher

The rules for foreign content, the choice between them and the insertion mode, and the run over
a sequence of tokens. A mode that hands a token on may do so through several modes; `fuel` bounds
how many.

## Main definitions

- `processForeign` — the rules for foreign content.
- `handle` — one token.
- `start`, `run`, `finish` — a parse.
-/

namespace CtBrowser.Dom.Builder

/-! ## Foreign content -/

/-- The adjusted current node. -/
def adjustedCurrent (b : Builder) : Option Entry :=
  if b.openElements.length = 1 && !b.parse.context.isEmpty then some b.parse.contextEntry
  else b.openElements.getLast?

def useForeignRules (b : Builder) (t : Token) : Bool :=
  match b.adjustedCurrent with
  | none => false
  | some node =>
    let start := t.kind = .startTag
    let text := t.kind = .character
    if node.ns = .html then false
    else if t.kind = .endOfFile then false
    else if isMathml node.ns && isMathmlTextIntegrationPoint node.tag && start &&
        !t.namedOneOf ["mglyph", "malignmark"] then false
    else if isMathml node.ns && isMathmlTextIntegrationPoint node.tag && text then false
    else if isMathml node.ns && node.tag == ascii "annotation-xml" && start && t.named "svg" then
      false
    else if node.htmlIntegrationPoint && (start || text) then false
    else true

/-- An entry whose children are HTML. -/
def isHtmlContext (e : Entry) : Bool :=
  e.ns = .html || e.htmlIntegrationPoint || isMathml e.ns && isMathmlTextIntegrationPoint e.tag

/-- Up to `n` foreign elements popped until one whose children are HTML is current. -/
def popToHtmlContextUpTo (sourceEnd : ℕ) : ℕ → Builder → Builder
  | 0, b => b
  | n + 1, b =>
    match b.openElements.getLast? with
    | none => b
    | some top =>
      if isHtmlContext top then b
      else
        popToHtmlContextUpTo sourceEnd n
          (if top.isSvg then b.closeForeign sourceEnd else b).pop

def popToHtmlContext (b : Builder) (sourceEnd : ℕ) : Builder :=
  popToHtmlContextUpTo sourceEnd b.openElements.length b

/-- Whether a start tag breaks out of foreign content. -/
def breaksOut (t : Token) : Bool :=
  breaksOutOfForeignContent t.name ||
    t.named "font" && t.attributes.any fun a => oneOf a.name ["color", "face", "size"]

/-- A start tag that stays in foreign content. -/
def insertForeign (t : Token) (b : Builder) : Builder :=
  let ns := (b.adjustedCurrent.map Entry.ns).getD .html
  let svg := ns = .svg && t.named "svg"
  let b := b.insertFor t ns
  let b := if svg then b.openForeign t else b
  if t.selfClosing then (if svg then b.closeForeign t.sourceEnd else b).pop else b

/-- The walk of an end tag down the stack, the top first: to the foreign element of its name, or
to the first HTML element, where the insertion mode takes the tag. -/
def closeForeignElement (process : Process) (t : Token) (b : Builder) : List Entry → Builder
  | [] => b
  | e :: below =>
    if below.isEmpty && !b.parse.context.isEmpty then b
    else if e.ns = .html then again process t b
    else if asciiIequals e.tag t.name then
      (if e.isSvg then b.closeForeign t.sourceEnd else b).popTo below.length
    else closeForeignElement process t b below

def processForeign (process : Process) (t : Token) (b : Builder) : Builder :=
  match t.kind with
  | .character =>
    if t.data.any fun c => c ≠ 0 && !isWhitespace c then
      b.update fun p => { p with framesetOk := false }
    else b
  | .startTag =>
    if breaksOut t then again process t (b.popToHtmlContext t.sourceBegin) else insertForeign t b
  | .endTag =>
    if t.namedOneOf ["br", "p"] then again process t (b.popToHtmlContext t.sourceBegin)
    else closeForeignElement process t b b.openElements.reverse
  | _ => b

/-! ## The dispatcher -/

/-- The rules of an insertion mode. -/
def rules (process : Process) (t : Token) : Mode → Builder → Builder
  | .initial => modeInitial process t
  | .beforeHtml => modeBeforeHtml process t
  | .beforeHead => modeBeforeHead process t
  | .inHead => modeInHead process t
  | .inHeadNoscript => modeInHeadNoscript process t
  | .afterHead => modeAfterHead process t
  | .inBody => modeInBody process t
  | .text => modeText process t
  | .inTable => modeInTable process t
  | .inTableText => modeInTableText process t
  | .inCaption => modeInCaption process t
  | .inColumnGroup => modeInColumnGroup process t
  | .inTableBody => modeInTableBody process t
  | .inRow => modeInRow process t
  | .inCell => modeInCell process t
  | .inTemplate => modeInTemplate process t
  | .afterBody => modeAfterBody process t
  | .inFrameset => modeInFrameset process t
  | .afterFrameset => modeAfterFrameset process t
  | .afterAfterBody => modeAfterAfterBody process t
  | .afterAfterFrameset => modeAfterAfterFrameset process t

/-- A token processed by a mode's rules, handed on at most `fuel` times. -/
def process : ℕ → Process
  | 0, _, _, b => b
  | fuel + 1, t, m, b => rules (process fuel) t m b

/-- The tokenizer's CDATA flag follows the adjusted current node. -/
def syncForeign (b : Builder) : Builder :=
  b.update fun p =>
    { p with cdataAllowed := (b.adjustedCurrent.map fun e => !decide (e.ns = .html)).getD false }

/-- A token with the newline at its start left out. -/
def skipNewline (t : Token) : Option Token :=
  match t.data with
  | c :: rest =>
    if t.kind = .character && c = byte '\n'.toNat then
      if rest.isEmpty then none else some { t with data := rest }
    else some t
  | [] => some t

/-- One token by the rules for foreign content or those of the mode. -/
def dispatch (fuel : ℕ) (t : Token) (b : Builder) : Builder :=
  syncForeign
    (if b.useForeignRules t then processForeign (process fuel) t b
    else process fuel t b.parse.mode b)

/-- One token. -/
def handle (fuel : ℕ) (t : Token) (b : Builder) : Builder :=
  if b.parse.skipNewline then
    let b := b.update fun p => { p with skipNewline := false }
    match skipNewline t with
    | some t => dispatch fuel t b
    | none => b
  else dispatch fuel t b

/-! ## A parse -/

/-- What the caller of a parse chooses. -/
structure Setting where
  input : Text := []
  -- the context element of a fragment, an empty tag for a document
  context : Text := []
  contextNs : NodeNs := .html
  scripting : Bool := true
  quirks : Bool := false
  -- the `html` element of a document is made ahead of its tokens
  eagerRoot : Bool := false
  -- the first handle the document has not given out
  firstNode : ℕ := 1

/-- The state before the first token. -/
def start (s : Setting) : Builder :=
  let b : Builder :=
    { nextNode := s.firstNode + 1
      input := s.input
      parse :=
        { scripting := s.scripting
          quirks := s.quirks
          context := s.context } }
  if s.context.isEmpty then
    if s.eagerRoot then { b.createElement with root := some b.nextNode } else b
  else
    let model := if s.contextNs = .html then contentModelFor s.context else .data
    let b := b.createRoot.update fun p =>
      { p with
        contextEntry := makeEntry 0 s.context s.contextNs []
        contentModel := model
        templateModes :=
          if s.contextNs = .html && s.context == ascii "template" then [.inTemplate] else [] }
    syncForeign b.resetInsertionMode

/-- The tokens of a sequence, one after the other. -/
def run (fuel : ℕ) (tokens : List Token) (b : Builder) : Builder :=
  tokens.foldl (fun b t => handle fuel t b) b

/-- The end of a parse: what is still captured ends with the input, and the stack is emptied. -/
def finish (b : Builder) : Builder := (b.closeForeign b.input.length).popTo 0

end CtBrowser.Dom.Builder
