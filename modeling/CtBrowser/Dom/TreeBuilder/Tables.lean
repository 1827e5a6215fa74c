import CtBrowser.Dom.TreeBuilder.Modes

/-!
# The Table Modes

The insertion modes from "in table" to "in cell", and "in template".

## Main definitions

- `modeInTable`, …, `modeInCell`, `modeInTemplate` — one definition for each mode.
-/

namespace CtBrowser.Dom.Builder

/-- A token processed in the body with foster parenting. -/
def fostered (process : Process) (t : Token) (b : Builder) : Builder :=
  (process t .inBody (b.update fun p => { p with fosterParenting := true })).update fun p =>
    { p with fosterParenting := false }

/-- An `input` is hidden. -/
def hiddenInput (t : Token) : Bool :=
  match t.attribute? "type" with
  | some value => asciiIequals value (ascii "hidden")
  | none => false

def inTableStart (process : Process) (t : Token) (b : Builder) : Builder :=
  if t.named "caption" then
    (b.clearStackBackToTableContext.pushMarker.insertFor t).enter .inCaption
  else if t.named "colgroup" then
    (b.clearStackBackToTableContext.insertFor t).enter .inColumnGroup
  else if t.named "col" then
    again process t
      ((b.clearStackBackToTableContext.insertElement (ascii "colgroup") []).enter .inColumnGroup)
  else if isTableSection t.name then
    (b.clearStackBackToTableContext.insertFor t).enter .inTableBody
  else if t.namedOneOf ["td", "th", "tr"] then
    again process t
      ((b.clearStackBackToTableContext.insertElement (ascii "tbody") []).enter .inTableBody)
  else if t.named "table" then
    if !b.hasInScope (ascii "table") .table then b
    else again process t (b.popUntil (ascii "table")).resetInsertionMode
  else if t.namedOneOf ["style", "script", "template"] then process t .inHead b
  else if t.named "input" then
    if hiddenInput t then (b.insertFor t).pop else fostered process t b
  else if t.named "form" then
    if b.templateOnStack || b.parse.form.isSome then b
    else ((b.insertFor t).update fun p => { p with form := some b.nextNode }).pop
  else fostered process t b

def modeInTable (process : Process) (t : Token) (b : Builder) : Builder :=
  match t.kind with
  | .character =>
    if b.currentIsOneOf ["table", "tbody", "template", "tfoot", "thead", "tr"] then
      again process t (b.update fun p =>
        { p with
          pendingTableText := []
          pendingTableTextNonspace := false
          originalMode := p.mode
          mode := .inTableText })
    else fostered process t b
  | .comment | .processingInstruction | .doctype => b
  | .startTag => inTableStart process t b
  | .endTag =>
    if t.named "table" then
      if !b.hasInScope (ascii "table") .table then b
      else (b.popUntil (ascii "table")).resetInsertionMode
    else if t.namedOneOf ["body", "caption", "col", "colgroup", "html", "tbody", "td", "tfoot",
        "th", "thead", "tr"] then b
    else if t.named "template" then process t .inHead b
    else fostered process t b
  | .endOfFile => process t .inBody b
  | .incomplete => b

def modeInTableText (process : Process) (t : Token) (b : Builder) : Builder :=
  match t.kind with
  | .character =>
    let added := t.data.filter (· ≠ 0)
    b.update fun p =>
      { p with
        pendingTableText := p.pendingTableText ++ added
        pendingTableTextNonspace := p.pendingTableTextNonspace || !allWhitespace added }
  | _ =>
    let text := b.parse.pendingTableText
    let nonspace := b.parse.pendingTableTextNonspace
    let b := b.update fun p =>
      { p with
        pendingTableText := []
        pendingTableTextNonspace := false
        mode := p.originalMode }
    let b :=
      if !text.isEmpty && nonspace then
        ((b.update fun p => { p with fosterParenting := true }).reconstructFormatting).update
          fun p => { p with framesetOk := false, fosterParenting := false }
      else b
    again process t b

/-- The caption closed; nothing when none is in scope. -/
def closeCaption (b : Builder) : Option Builder :=
  if !b.hasInScope (ascii "caption") .table then none
  else
    some ((b.generateImpliedEndTags.popUntil (ascii "caption")).clearFormattingToMarker.enter
      .inTable)

def modeInCaption (process : Process) (t : Token) (b : Builder) : Builder :=
  if t.kind = .startTag && t.namedOneOf ["caption", "col", "colgroup", "tbody", "td", "tfoot",
      "th", "thead", "tr"] then
    match b.closeCaption with
    | some b => again process t b
    | none => b
  else if t.kind = .endTag && t.named "caption" then b.closeCaption.getD b
  else if t.kind = .endTag && t.named "table" then
    match b.closeCaption with
    | some b => again process t b
    | none => b
  else if t.kind = .endTag && t.namedOneOf ["body", "col", "colgroup", "html", "tbody", "td",
      "tfoot", "th", "thead", "tr"] then b
  else process t .inBody b

def modeInColumnGroup (process : Process) (t : Token) (b : Builder) : Builder :=
  let anythingElse (b : Builder) :=
    if !b.currentIs "colgroup" then b else again process t (b.pop.enter .inTable)
  match t.kind with
  | .character => spacedCharacters process t .inColumnGroup anythingElse b
  | .comment | .processingInstruction | .doctype => b
  | .startTag =>
    if t.named "html" then process t .inBody b
    else if t.named "col" then (b.insertFor t).pop
    else if t.named "template" then process t .inHead b
    else anythingElse b
  | .endTag =>
    if t.named "colgroup" then
      if !b.currentIs "colgroup" then b else b.pop.enter .inTable
    else if t.named "col" then b
    else if t.named "template" then process t .inHead b
    else anythingElse b
  | .endOfFile => process t .inBody b
  | .incomplete => b

/-- Whether a table section is in table scope. -/
def sectionInScope (b : Builder) : Bool :=
  b.hasInScope (ascii "tbody") .table || b.hasInScope (ascii "thead") .table ||
    b.hasInScope (ascii "tfoot") .table

/-- The current table section closed. -/
def closeSection (b : Builder) : Builder := b.clearStackBackToTableBodyContext.pop.enter .inTable

def modeInTableBody (process : Process) (t : Token) (b : Builder) : Builder :=
  if t.kind = .startTag && t.named "tr" then
    (b.clearStackBackToTableBodyContext.insertFor t).enter .inRow
  else if t.kind = .startTag && t.namedOneOf ["th", "td"] then
    again process t
      ((b.clearStackBackToTableBodyContext.insertElement (ascii "tr") []).enter .inRow)
  else if t.kind = .startTag &&
      t.namedOneOf ["caption", "col", "colgroup", "tbody", "tfoot", "thead"] then
    if !b.sectionInScope then b else again process t b.closeSection
  else if t.kind = .endTag && isTableSection t.name then
    if !b.hasInScope t.name .table then b else b.closeSection
  else if t.kind = .endTag && t.named "table" then
    if !b.sectionInScope then b else again process t b.closeSection
  else if t.kind = .endTag &&
      t.namedOneOf ["body", "caption", "col", "colgroup", "html", "td", "th", "tr"] then b
  else process t .inTable b

/-- The current row closed. -/
def closeRow (b : Builder) : Builder := b.clearStackBackToTableRowContext.pop.enter .inTableBody

def modeInRow (process : Process) (t : Token) (b : Builder) : Builder :=
  if t.kind = .startTag && t.namedOneOf ["th", "td"] then
    ((b.clearStackBackToTableRowContext.insertFor t).enter .inCell).pushMarker
  else if t.kind = .startTag &&
      t.namedOneOf ["caption", "col", "colgroup", "tbody", "tfoot", "thead", "tr"] then
    if !b.hasInScope (ascii "tr") .table then b else again process t b.closeRow
  else if t.kind = .endTag && t.named "tr" then
    if !b.hasInScope (ascii "tr") .table then b else b.closeRow
  else if t.kind = .endTag && t.named "table" then
    if !b.hasInScope (ascii "tr") .table then b else again process t b.closeRow
  else if t.kind = .endTag && isTableSection t.name then
    if !b.hasInScope t.name .table || !b.hasInScope (ascii "tr") .table then b
    else again process t b.closeRow
  else if t.kind = .endTag &&
      t.namedOneOf ["body", "caption", "col", "colgroup", "html", "td", "th"] then b
  else process t .inTable b

def closeTheCell (b : Builder) : Builder :=
  (b.generateImpliedEndTags.popUntilAny ["td", "th"]).clearFormattingToMarker.enter .inRow

def modeInCell (process : Process) (t : Token) (b : Builder) : Builder :=
  if t.kind = .endTag && t.namedOneOf ["td", "th"] then
    if !b.hasInScope t.name .table then b
    else (b.generateImpliedEndTags.popUntil t.name).clearFormattingToMarker.enter .inRow
  else if t.kind = .endTag && t.namedOneOf ["body", "caption", "col", "colgroup", "html"] then b
  else if t.kind = .endTag && t.namedOneOf ["table", "tbody", "tfoot", "thead", "tr"] then
    if !b.hasInScope t.name .table then b else again process t b.closeTheCell
  else if t.kind = .startTag && t.namedOneOf ["caption", "col", "colgroup", "tbody", "td", "tfoot",
      "th", "thead", "tr"] then
    if !b.hasInScope (ascii "td") .table && !b.hasInScope (ascii "th") .table then b
    else again process t b.closeTheCell
  else process t .inBody b

/-- The template's mode changed, and the token processed in it. -/
def switchTemplate (process : Process) (t : Token) (next : Mode) (b : Builder) : Builder :=
  again process t (b.update fun p =>
    { p with templateModes := p.templateModes.dropLast ++ [next], mode := next })

def modeInTemplate (process : Process) (t : Token) (b : Builder) : Builder :=
  match t.kind with
  | .character | .comment | .processingInstruction | .doctype => process t .inBody b
  | .startTag =>
    if t.namedOneOf ["base", "basefont", "bgsound", "link", "meta", "noframes", "script", "style",
        "template", "title"] then process t .inHead b
    else if t.namedOneOf ["caption", "colgroup", "tbody", "tfoot", "thead"] then
      switchTemplate process t .inTable b
    else if t.named "col" then switchTemplate process t .inColumnGroup b
    else if t.named "tr" then switchTemplate process t .inTableBody b
    else if t.namedOneOf ["td", "th"] then switchTemplate process t .inRow b
    else switchTemplate process t .inBody b
  | .endTag => if t.named "template" then process t .inHead b else b
  | .endOfFile =>
    if !b.templateOnStack then b else again process t b.closeTemplate
  | .incomplete => b

end CtBrowser.Dom.Builder
