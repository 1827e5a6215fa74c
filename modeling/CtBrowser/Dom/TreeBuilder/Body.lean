import CtBrowser.Dom.TreeBuilder.Tables

/-!
# The Body and Text Modes

The "in body" insertion mode, its start and end tags, and the "text" mode inside raw text.

## Main definitions

- `modeInBody`, `inBodyStart`, `inBodyEnd` — "in body".
- `modeText` — "text".
-/

namespace CtBrowser.Dom.Builder

/-- A `p` in button scope closed. -/
def closePInButtonScope (b : Builder) : Builder :=
  if b.hasInScope (ascii "p") .button then b.closePElement else b

/-- "Any other end tag": the nearest open HTML element of the tag is closed, unless a special
element is in the way. The entries are those below a height, the top first. -/
def anyOtherEndTagFrom (tag : Text) (b : Builder) : List Entry → Builder
  | [] => b
  | e :: below =>
    if e.ns = .html && e.tag == tag then (b.generateImpliedEndTags tag).popTo below.length
    else if e.isSpecial then b
    else anyOtherEndTagFrom tag b below

def inBodyAnyOtherEndTag (b : Builder) (tag : Text) : Builder :=
  anyOtherEndTagFrom tag b b.openElements.reverse

/-- The adoption agency for a tag, or what any other end tag does. -/
def closeFormatting (b : Builder) (tag : Text) : Builder :=
  match b.adoptionAgency tag with
  | (true, b) => b
  | (false, b) => b.inBodyAnyOtherEndTag tag

/-- The walk that closes an open list item: to the nearest of the tags, unless a special element
other than the three is in the way. -/
def closeListItem (names : List String) (b : Builder) : List Entry → Builder
  | [] => b
  | e :: below =>
    if e.isHtmlOneOf names then (b.generateImpliedEndTags e.tag).popUntil e.tag
    else if e.isSpecial && !oneOf e.tag ["address", "div", "p"] then b
    else closeListItem names b below

/-- An `a` element that is still active closed before another one opens. -/
def closeActiveAnchor (b : Builder) : Builder :=
  match b.formattingElement (ascii "a") with
  | none => b
  | some i =>
    match b.active[i]? with
    | none => b
    | some f =>
      ((b.closeFormatting (ascii "a")).removeFormatting f.id).removeFromStack f.id

/-- The `frameset` start tag: the body leaves the document and the stack goes down to the
`html` element. -/
def openFrameset (t : Token) (b : Builder) : Builder :=
  match b.openElements[1]? with
  | none => b
  | some second =>
    if second.tag ≠ ascii "body" || !b.parse.framesetOk then b
    else ((b.popTo 1).insertFor t).enter .inFrameset

/-- `svg` in HTML content: the element, and the capture of its source. -/
def openSvg (t : Token) (b : Builder) : Builder :=
  let b := (b.insertFor t .svg).openForeign t
  if t.selfClosing then (b.closeForeign t.sourceEnd).pop else b

/-- A start tag whose element is pushed and popped at once. -/
def insertVoid (t : Token) (b : Builder) : Builder := (b.insertFor t).pop

/-- The start tags that open a block, a list item or a form. -/
def inBodyStartBlock (t : Token) (b : Builder) : Option Builder :=
  if t.namedOneOf ["address", "article", "aside", "blockquote", "center", "details", "dialog",
      "dir", "div", "dl", "fieldset", "figcaption", "figure", "footer", "header", "hgroup", "main",
      "menu", "nav", "ol", "p", "search", "section", "summary", "ul"] then
    some (b.closePInButtonScope.insertFor t)
  else if isHeading t.name then
    let b := b.closePInButtonScope
    some ((if b.currentIsOneOf ["h1", "h2", "h3", "h4", "h5", "h6"] then b.pop else b).insertFor t)
  else if t.namedOneOf ["pre", "listing"] then
    some ((b.closePInButtonScope.insertFor t).update fun p =>
      { p with skipNewline := true, framesetOk := false })
  else if t.named "form" then
    if b.parse.form.isSome && !b.templateOnStack then some b
    else
      let b := b.closePInButtonScope
      let element := b.nextNode
      let b := b.insertFor t
      some (if !b.templateOnStack then b.update fun p => { p with form := some element } else b)
  else if t.named "li" then
    let b := b.update fun p => { p with framesetOk := false }
    some ((closeListItem ["li"] b b.openElements.reverse).closePInButtonScope.insertFor t)
  else if t.namedOneOf ["dd", "dt"] then
    let b := b.update fun p => { p with framesetOk := false }
    some ((closeListItem ["dd", "dt"] b b.openElements.reverse).closePInButtonScope.insertFor t)
  else if t.named "plaintext" then
    some ((b.closePInButtonScope.insertFor t).update fun p =>
      { p with contentModel := .plaintext, closeTag := t.name })
  else none

/-- The start tags of formatting and of what reconstructs it. -/
def inBodyStartFormatting (t : Token) (b : Builder) : Option Builder :=
  if t.named "button" then
    let b :=
      if b.hasInScope (ascii "button") .default then
        b.generateImpliedEndTags.popUntil (ascii "button")
      else b
    some ((b.reconstructFormatting.insertFor t).update fun p => { p with framesetOk := false })
  else if t.named "a" then some (b.closeActiveAnchor.reconstructFormatting.insertFormatting t)
  else if t.namedOneOf ["b", "big", "code", "em", "font", "i", "s", "small", "strike", "strong",
      "tt", "u"] then some (b.reconstructFormatting.insertFormatting t)
  else if t.named "nobr" then
    let b := b.reconstructFormatting
    let b :=
      if b.hasInScope (ascii "nobr") .default then
        (b.closeFormatting (ascii "nobr")).reconstructFormatting
      else b
    some (b.insertFormatting t)
  else if t.namedOneOf ["applet", "marquee", "object"] then
    some ((b.reconstructFormatting.insertFor t).pushMarker.update fun p =>
      { p with framesetOk := false })
  else if t.named "table" then
    let b := if b.parse.quirks then b else b.closePInButtonScope
    some ((b.insertFor t).update fun p => { p with framesetOk := false, mode := .inTable })
  else none

/-- The start tags of void elements and of raw text. -/
def inBodyStartVoid (t : Token) (b : Builder) : Option Builder :=
  if t.namedOneOf ["area", "br", "embed", "img", "keygen", "wbr"] then
    some ((insertVoid t b.reconstructFormatting).update fun p => { p with framesetOk := false })
  else if t.named "input" then
    if b.parse.context = ascii "select" then some b
    else
      let b :=
        if b.hasInScope (ascii "select") .default then b.popUntil (ascii "select") else b
      let b := insertVoid t b.reconstructFormatting
      some (if hiddenInput t then b else b.update fun p => { p with framesetOk := false })
  else if t.namedOneOf ["param", "source", "track"] then some (insertVoid t b)
  else if t.named "hr" then
    let b := b.closePInButtonScope
    let b := if b.hasInScope (ascii "select") .default then b.generateImpliedEndTags else b
    some ((insertVoid t b).update fun p => { p with framesetOk := false })
  else if t.named "textarea" then
    some ((b.insertFor t).update fun p =>
      { p with
        skipNewline := true
        contentModel := .rcdata
        closeTag := t.name
        originalMode := p.mode
        framesetOk := false
        mode := .text })
  else if t.named "xmp" then
    let b := b.closePInButtonScope.reconstructFormatting
    some ((b.update fun p => { p with framesetOk := false }).insertTextElement t .rawtext)
  else if t.named "iframe" then
    some ((b.update fun p => { p with framesetOk := false }).insertTextElement t .rawtext)
  else if t.named "noembed" || t.named "noscript" && b.parse.scripting then
    some (b.insertTextElement t .rawtext)
  else none

/-- The start tags of selects and of ruby. -/
def inBodyStartSelect (t : Token) (b : Builder) : Option Builder :=
  if t.named "select" then
    if b.parse.context = ascii "select" then some b
    else if b.hasInScope (ascii "select") .default then some (b.popUntil (ascii "select"))
    else
      some ((b.reconstructFormatting.insertFor t).update fun p => { p with framesetOk := false })
  else if t.named "option" then
    let b :=
      if b.hasInScope (ascii "select") .default then b.generateImpliedEndTags (ascii "optgroup")
      else if b.currentIs "option" then b.pop
      else b
    some (b.reconstructFormatting.insertFor t)
  else if t.named "optgroup" then
    let b :=
      if b.hasInScope (ascii "select") .default then b.generateImpliedEndTags
      else if b.currentIs "option" then b.pop
      else b
    some (b.reconstructFormatting.insertFor t)
  else if t.namedOneOf ["rb", "rtc"] then
    let b := if b.hasInScope (ascii "ruby") .default then b.generateImpliedEndTags else b
    some (b.insertFor t)
  else if t.namedOneOf ["rp", "rt"] then
    let b :=
      if b.hasInScope (ascii "ruby") .default then b.generateImpliedEndTags (ascii "rtc") else b
    some (b.insertFor t)
  else none

/-- The start tags that touch the document's own elements. -/
def inBodyStartDocument (process : Process) (t : Token) (b : Builder) : Option Builder :=
  if t.named "html" then some b
  else if t.namedOneOf ["base", "basefont", "bgsound", "link", "meta", "noframes", "script",
      "style", "template", "title"] then some (process t .inHead b)
  else if t.named "body" then
    match b.openElements[1]? with
    | none => some b
    | some second =>
      if second.tag ≠ ascii "body" || b.templateOnStack then some b
      else some (b.update fun p => { p with framesetOk := false })
  else if t.named "frameset" then some (openFrameset t b)
  else none

/-- "In body" for a start tag. -/
def inBodyStart (process : Process) (t : Token) (b : Builder) : Builder :=
  -- an `image` is an `img`
  let t := if t.named "image" then { t with name := ascii "img" } else t
  match inBodyStartDocument process t b with
  | some b => b
  | none =>
  match inBodyStartBlock t b with
  | some b => b
  | none =>
  match inBodyStartFormatting t b with
  | some b => b
  | none =>
  match inBodyStartVoid t b with
  | some b => b
  | none =>
  match inBodyStartSelect t b with
  | some b => b
  | none =>
  if t.named "math" then
    let b := b.reconstructFormatting.insertFor t .other
    if t.selfClosing then b.pop else b
  else if t.named "svg" then openSvg t b.reconstructFormatting
  else if t.namedOneOf ["caption", "col", "colgroup", "frame", "head", "tbody", "td", "tfoot",
      "th", "thead", "tr"] then b
  else b.reconstructFormatting.insertFor t

/-- The `form` end tag outside templates: the form element leaves the stack wherever it is. -/
def closeForm (b : Builder) : Builder :=
  let form := b.parse.form
  let b := b.update fun p => { p with form := none }
  match form with
  | none => b
  | some node =>
    if !b.hasNodeInScope node then b else b.generateImpliedEndTags.removeFromStack node

/-- "In body" for an end tag. -/
def inBodyEnd (process : Process) (t : Token) (b : Builder) : Builder :=
  if t.named "template" then process t .inHead b
  else if t.named "body" then
    if !b.hasInScope (ascii "body") .default then b else b.enter .afterBody
  else if t.named "html" then
    if !b.hasInScope (ascii "body") .default then b else again process t (b.enter .afterBody)
  else if t.namedOneOf ["address", "article", "aside", "blockquote", "button", "center", "details",
      "dialog", "dir", "div", "dl", "fieldset", "figcaption", "figure", "footer", "header",
      "hgroup", "listing", "main", "menu", "nav", "ol", "pre", "search", "section", "select",
      "summary", "ul"] then
    if !b.hasInScope t.name .default then b else b.generateImpliedEndTags.popUntil t.name
  else if t.named "form" then
    if !b.templateOnStack then b.closeForm
    else if !b.hasInScope (ascii "form") .default then b
    else b.generateImpliedEndTags.popUntil (ascii "form")
  else if t.named "p" then
    (if !b.hasInScope (ascii "p") .button then b.insertElement (ascii "p") [] else b).closePElement
  else if t.named "li" then
    if !b.hasInScope (ascii "li") .listItem then b
    else (b.generateImpliedEndTags (ascii "li")).popUntil (ascii "li")
  else if t.namedOneOf ["dd", "dt"] then
    if !b.hasInScope t.name .default then b
    else (b.generateImpliedEndTags t.name).popUntil t.name
  else if isHeading t.name then
    let headings := ["h1", "h2", "h3", "h4", "h5", "h6"]
    if headings.all fun h => !b.hasInScope (ascii h) .default then b
    else b.generateImpliedEndTags.popUntilAny headings
  else if isFormattingElement t.name then b.closeFormatting t.name
  else if t.namedOneOf ["applet", "marquee", "object"] then
    if !b.hasInScope t.name .default then b
    else (b.generateImpliedEndTags.popUntil t.name).clearFormattingToMarker
  else if t.named "br" then
    inBodyStart process { t with kind := .startTag, attributes := [] } b
  else b.inBodyAnyOtherEndTag t.name

/-- "In body". -/
def modeInBody (process : Process) (t : Token) (b : Builder) : Builder :=
  match t.kind with
  | .character =>
    let data := t.data.filter (· ≠ 0)
    if data.isEmpty then b
    else
      let b := b.reconstructFormatting
      if allWhitespace data then b else b.update fun p => { p with framesetOk := false }
  | .comment | .processingInstruction | .doctype => b
  | .startTag => inBodyStart process t b
  | .endTag => inBodyEnd process t b
  | .endOfFile => if !b.parse.templateModes.isEmpty then process t .inTemplate b else b
  | .incomplete => b

/-- "Text". -/
def modeText (process : Process) (t : Token) (b : Builder) : Builder :=
  let leave (b : Builder) := b.pop.update fun p => { p with mode := p.originalMode }
  match t.kind with
  | .endOfFile => again process t (leave b)
  | .endTag => leave b
  | _ => b

end CtBrowser.Dom.Builder
