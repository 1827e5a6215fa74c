import CtBrowser.Dom.TreeBuilder.Elements

/-!
# The Tree Builder's State

The stack of open elements with its scope index, the list of active formatting elements, the
insertion mode and the flags beside it, and the operations on them that the insertion modes
are written with. Both lists grow at their end, as the vectors of the source do.

The nodes the builder puts into the document are not part of this state: they decide nothing
about the stack, the list or the mode. Making an element hands out the next node handle.

## Main definitions

- `Builder` — the state.
- `push`, `pop`, `reindex`, `hasInScope` — the stack and its index.
- `pushFormatting`, `reconstructFormatting` — the list of active formatting elements.
- `adoptionAgency` — the adoption agency algorithm.
-/

namespace CtBrowser.Dom

/-- The insertion modes. -/
inductive Mode
  | initial
  | beforeHtml
  | beforeHead
  | inHead
  | inHeadNoscript
  | afterHead
  | inBody
  | text
  | inTable
  | inTableText
  | inCaption
  | inColumnGroup
  | inTableBody
  | inRow
  | inCell
  | inTemplate
  | afterBody
  | inFrameset
  | afterFrameset
  | afterAfterBody
  | afterAfterFrameset
deriving DecidableEq, Repr

/-- What the modes keep beside the stack and the list. -/
structure ParseState where
  mode : Mode := .initial
  originalMode : Mode := .initial
  templateModes : List Mode := []
  form : Option NodeId := none
  framesetOk : Bool := true
  fosterParenting : Bool := false
  skipNewline : Bool := false
  scripting : Bool := true
  -- the document's quirks flag
  quirks : Bool := false
  -- the context element's tag in the fragment case, empty for a document
  context : Text := []
  -- the context element as an entry that is never on the stack
  contextEntry : Entry := ⟨0, [], .html, false⟩
  pendingTableText : Text := []
  pendingTableTextNonspace : Bool := false
  -- what the tokenizer is told
  contentModel : ContentModel := .data
  closeTag : Text := []
  cdataAllowed : Bool := false
deriving DecidableEq, Repr

/-- The capture of the source of `svg` elements. -/
structure Capture where
  sources : List (NodeId × Text) := []
  node : Option NodeId := none
  start : ℕ := 0
  depth : ℕ := 0
deriving DecidableEq, Repr

/-- The tree builder. -/
structure Builder where
  -- the bottom of the stack comes first
  openElements : List Entry := []
  -- the positions on the stack of each HTML tag and of each scope's boundaries, ascending
  tagAt : Text → List ℕ := fun _ => []
  boundAt : Scope → List ℕ := fun _ => []
  active : List Formatting := []
  -- the handle of the next node
  nextNode : NodeId := 0
  root : Option NodeId := none
  head : Option NodeId := none
  parse : ParseState := {}
  -- the whole input stream
  input : Text := []
  foreign : Capture := {}

/-- The position of the last element of a list that satisfies a test. -/
def lastIndex? {α : Type} (p : α → Bool) : List α → Option ℕ
  | [] => none
  | x :: xs =>
    match lastIndex? p xs with
    | some i => some (i + 1)
    | none => if p x then some 0 else none

namespace Builder

/-- A change of what is kept beside the stack. -/
def update (b : Builder) (f : ParseState → ParseState) : Builder := { b with parse := f b.parse }

/-- A change of the insertion mode. -/
def enter (b : Builder) (m : Mode) : Builder := b.update fun p => { p with mode := m }

/-! ## The stack of open elements -/

def currentIs (b : Builder) (name : String) : Bool :=
  match b.openElements.getLast? with
  | some top => top.isHtml name
  | none => false

def currentIsOneOf (b : Builder) (names : List String) : Bool := names.any b.currentIs

def push (b : Builder) (e : Entry) : Builder :=
  let position := b.openElements.length
  { b with
    boundAt := fun which =>
      if isScopeBoundary e which then b.boundAt which ++ [position] else b.boundAt which
    tagAt :=
      if e.ns = .html then Function.update b.tagAt e.tag (b.tagAt e.tag ++ [position])
      else b.tagAt
    openElements := b.openElements ++ [e] }

def pop (b : Builder) : Builder :=
  match b.openElements.getLast? with
  | none => b
  | some top =>
    let position := b.openElements.length - 1
    { b with
      boundAt := fun which =>
        if (b.boundAt which).getLast? = some position then (b.boundAt which).dropLast
        else b.boundAt which
      tagAt :=
        if top.ns = .html then Function.update b.tagAt top.tag (b.tagAt top.tag).dropLast
        else b.tagAt
      openElements := b.openElements.dropLast }

/-- The index built anew from the stack. -/
def reindex (b : Builder) : Builder :=
  b.openElements.foldl push
    { b with openElements := [], tagAt := fun _ => [], boundAt := fun _ => [] }

/-- The stack popped down to a height. -/
def popTo (b : Builder) (height : ℕ) : Builder := pop^[b.openElements.length - height] b

/-- Up to `n` entries popped while the top satisfies a test. -/
def popWhileUpTo (go : Entry → Bool) : ℕ → Builder → Builder
  | 0, b => b
  | n + 1, b =>
    match b.openElements.getLast? with
    | some top => if go top then popWhileUpTo go n b.pop else b
    | none => b

/-- The entries popped that satisfy a test, from the top. -/
def popWhile (b : Builder) (go : Entry → Bool) : Builder :=
  popWhileUpTo go b.openElements.length b

/-- The stack popped until an entry that satisfies a test has been popped. -/
def popThrough (b : Builder) (hit : Entry → Bool) : Builder :=
  (b.popWhile fun e => !hit e).pop

def popUntil (b : Builder) (tag : Text) : Builder :=
  b.popThrough fun e => e.ns = .html && e.tag == tag

def popUntilAny (b : Builder) (names : List String) : Builder :=
  b.popThrough fun e => e.isHtmlOneOf names

def templateOnStack (b : Builder) : Bool := !(b.tagAt (ascii "template")).isEmpty

def onStack (b : Builder) (id : NodeId) : Bool := b.openElements.any fun e => e.id == id

def stackIndexOf (b : Builder) (id : NodeId) : Option ℕ :=
  lastIndex? (fun e => e.id == id) b.openElements

def removeFromStack (b : Builder) (id : NodeId) : Builder :=
  reindex { b with openElements := b.openElements.filter fun e => e.id != id }

/-- The topmost position of the tag compared with that of the boundaries. -/
def hasInScope (b : Builder) (tag : Text) (which : Scope) : Bool :=
  match (b.tagAt tag).getLast? with
  | none => false
  | some position =>
    match (b.boundAt which).getLast? with
    | none => true
    | some bound => bound ≤ position

/-- The walk down from the top that looks for one element. -/
def nodeInScope (id : NodeId) : List Entry → Bool
  | [] => false
  | e :: below =>
    if e.id = id then true
    else if isScopeBoundary e .default then false
    else nodeInScope id below

def hasNodeInScope (b : Builder) (id : NodeId) : Bool := nodeInScope id b.openElements.reverse

def generateImpliedEndTags (b : Builder) (except : Text := []) : Builder :=
  b.popWhile fun e =>
    e.isHtmlOneOf ["dd", "dt", "li", "optgroup", "option", "p", "rb", "rp", "rt", "rtc"] &&
      e.tag != except

def generateImpliedEndTagsThoroughly (b : Builder) : Builder :=
  b.popWhile fun e =>
    e.isHtmlOneOf ["caption", "colgroup", "dd", "dt", "li", "optgroup", "option", "p", "rb", "rp",
      "rt", "rtc", "tbody", "td", "tfoot", "th", "thead", "tr"]

def clearStackBackToTableContext (b : Builder) : Builder :=
  b.popWhile fun e => !e.isHtmlOneOf ["table", "template", "html"]

def clearStackBackToTableBodyContext (b : Builder) : Builder :=
  b.popWhile fun e => !e.isHtmlOneOf ["tbody", "tfoot", "thead", "template", "html"]

def clearStackBackToTableRowContext (b : Builder) : Builder :=
  b.popWhile fun e => !e.isHtmlOneOf ["tr", "template", "html"]

def closePElement (b : Builder) : Builder :=
  (b.generateImpliedEndTags (ascii "p")).popUntil (ascii "p")

/-- The mode for an HTML entry of the stack or for the context element that stands in for the
bottom one; nothing when the walk goes on. -/
def modeForTag (b : Builder) (tag : Text) (last : Bool) : Option Mode :=
  if oneOf tag ["td", "th"] && !last then some .inCell
  else if tag = ascii "tr" then some .inRow
  else if isTableSection tag then some .inTableBody
  else if tag = ascii "caption" then some .inCaption
  else if tag = ascii "colgroup" then some .inColumnGroup
  else if tag = ascii "table" then some .inTable
  else if tag = ascii "template" then some (b.parse.templateModes.getLast?.getD .inBody)
  else if tag = ascii "head" && !last then some .inHead
  else if tag = ascii "body" then some .inBody
  else if tag = ascii "frameset" then some .inFrameset
  else if tag = ascii "html" then some (if b.head.isSome then .afterHead else .beforeHead)
  else none

/-- The walk down the stack that chooses the insertion mode. -/
def modeFromStack (b : Builder) : List Entry → Mode
  | [] => .inBody
  | e :: below =>
    let last := below.isEmpty
    let fragment := last && !b.parse.context.isEmpty
    if e.ns ≠ .html && !fragment then modeFromStack b below
    else
      match b.modeForTag (if fragment then b.parse.context else e.tag) last with
      | some m => m
      | none => modeFromStack b below

def resetInsertionMode (b : Builder) : Builder :=
  b.enter (b.modeFromStack b.openElements.reverse)

/-! ## Making elements -/

/-- A handle taken for a new node. -/
def createElement (b : Builder) : Builder := { b with nextNode := b.nextNode + 1 }

/-- An element made for a tag and pushed; its handle is the next node's. -/
def insertElement (b : Builder) (tag : Text) (attributes : List TokenAttribute)
    (ns : NodeNs := .html) : Builder :=
  b.createElement.push
    (makeEntry b.nextNode (if ns = .svg then adjustSvgTag tag else tag) ns attributes)

/-- An element made for a token. -/
def insertFor (b : Builder) (t : Token) (ns : NodeNs := .html) : Builder :=
  b.insertElement t.name t.attributes ns

def insertTextElement (b : Builder) (t : Token) (model : ContentModel) : Builder :=
  (b.insertFor t).update fun p =>
    { p with contentModel := model, closeTag := t.name, originalMode := p.mode, mode := .text }

/-- The `html` element, made unless there is one and pushed unless it is on the stack. -/
def createRoot (b : Builder) : Builder :=
  let id := b.root.getD b.nextNode
  let b := if b.root.isSome then b else { b.createElement with root := some id }
  if b.onStack id then b else b.push ⟨id, ascii "html", .html, false⟩

/-- The `head` element, made and remembered. -/
def insertHead (b : Builder) (attributes : List TokenAttribute) : Builder :=
  { b.insertElement (ascii "head") attributes with head := some b.nextNode }

/-- The remembered `head` element pushed again. -/
def reopenHead (b : Builder) : Builder := b.push ⟨b.head.getD 0, ascii "head", .html, false⟩

/-! ## The list of active formatting elements -/

/-- Whether an entry is of the token's tag with the same attributes. -/
def sameFormatting (f : Formatting) (t : Token) : Bool :=
  f.tag == t.name && f.attributes.length == t.attributes.length &&
    t.attributes.all fun a =>
      match f.attributes.find? fun other => other.name == a.name with
      | some other => other.value == a.value
      | none => false

/-- The scan down the list to the last marker: how many of the entries below position `i` are
the token's, and the earliest of them. -/
def scanSame (active : List Formatting) (t : Token) : ℕ → ℕ → ℕ → ℕ × ℕ
  | 0, same, earliest => (same, earliest)
  | i + 1, same, earliest =>
    match active[i]? with
    | none => (same, earliest)
    | some f =>
      if f.marker then (same, earliest)
      else if sameFormatting f t then scanSame active t i (same + 1) i
      else scanSame active t i same earliest

/-- An entry for a new element, after at most two of the same since the last marker. -/
def pushFormatting (b : Builder) (id : NodeId) (t : Token) : Builder :=
  let found := scanSame b.active t b.active.length 0 b.active.length
  let active := if 3 ≤ found.1 then b.active.eraseIdx found.2 else b.active
  { b with active := active ++ [⟨id, t.name, t.attributes, false⟩] }

/-- A formatting element made for a token, on the stack and in the list. -/
def insertFormatting (b : Builder) (t : Token) : Builder :=
  (b.insertFor t).pushFormatting b.nextNode t

def pushMarker (b : Builder) : Builder := { b with active := b.active ++ [{ marker := true }] }

def clearFormattingToMarker (b : Builder) : Builder :=
  { b with active := b.active.take ((lastIndex? Formatting.marker b.active).getD 0) }

def formattingIndexOf (b : Builder) (id : NodeId) : Option ℕ :=
  lastIndex? (fun f => !f.marker && f.id == id) b.active

def removeFormatting (b : Builder) (id : NodeId) : Builder :=
  match b.formattingIndexOf id with
  | some i => { b with active := b.active.eraseIdx i }
  | none => b

/-- The entry at a position opened again. -/
def reopen (b : Builder) (i : ℕ) : Builder :=
  match b.active[i]? with
  | none => b
  | some f =>
    { b.insertElement f.tag f.attributes with active := b.active.set i { f with id := b.nextNode } }

/-- The entries after the last one that is a marker or open are opened again. -/
def reconstructFormatting (b : Builder) : Builder :=
  let first :=
    match lastIndex? (fun f => f.marker || b.onStack f.id) b.active with
    | some i => i + 1
    | none => 0
  (List.range' first (b.active.length - first)).foldl reopen b

/-! ## The adoption agency algorithm -/

/-- What the inner loop of the adoption agency keeps. -/
structure Agency where
  builder : Builder
  bookmark : ℕ
  lastNode : NodeId

/-- The entry of a node, at a position of the list and one of the stack, made anew in both. -/
def Agency.renew (s : Agency) (furthestBlock : NodeId) (nodeStack at' : ℕ) : Agency :=
  match s.builder.active[at']? with
  | none => s
  | some held =>
    let b := s.builder
    let fresh := b.nextNode
    { builder :=
        { b.createElement with
          active := b.active.set at' { held with id := fresh }
          openElements := b.openElements.set nodeStack ⟨fresh, held.tag, .html, false⟩ }
      bookmark := if s.lastNode = furthestBlock then at' + 1 else s.bookmark
      lastNode := fresh }

/-- One node of the inner loop: from the fourth on it leaves the list, a node outside the list
leaves the stack, and any other is made anew. -/
def Agency.visit (s : Agency) (furthestBlock : NodeId) (inner nodeStack : ℕ) (node : NodeId) :
    Agency :=
  let b := s.builder
  match b.formattingIndexOf node with
  | some i =>
    if 3 < inner then
      { s with
        builder := reindex { b with
          active := b.active.eraseIdx i
          openElements := b.openElements.eraseIdx nodeStack }
        bookmark := if i < s.bookmark then s.bookmark - 1 else s.bookmark }
    else s.renew furthestBlock nodeStack i
  | none =>
    { s with builder := reindex { b with openElements := b.openElements.eraseIdx nodeStack } }

/-- The inner loop, down from the furthest block to the formatting element. -/
def agencyInner (formattingElement furthestBlock : NodeId) : ℕ → ℕ → Agency → Agency
  | _, 0, s => s
  | inner, nodeStack + 1, s =>
    match s.builder.openElements[nodeStack]? with
    | none => s
    | some node =>
      if node.id = formattingElement then s
      else
        agencyInner formattingElement furthestBlock (inner + 1) nodeStack
          (s.visit furthestBlock inner nodeStack node.id)

/-- The formatting element of a tag: its position in the list, after the last marker. -/
def formattingElement (b : Builder) (subject : Text) : Option ℕ :=
  match lastIndex? (fun f => f.marker || f.tag == subject) b.active with
  | none => none
  | some i =>
    match b.active[i]? with
    | none => none
    | some f => if f.marker then none else some i

/-- The furthest block: the lowest special entry above a position. -/
def furthestBlock (b : Builder) (feStack : ℕ) : Option ℕ :=
  ((b.openElements.drop (feStack + 1)).findIdx? Entry.isSpecial).map (feStack + 1 + ·)

/-- The end of an iteration: the formatting element's entry is made anew at the bookmark, and
goes on the stack just above the furthest block. -/
def Agency.finish (s : Agency) (feIndex : ℕ) (formattingElement furthestBlock : NodeId) :
    Builder :=
  match s.builder.active[feIndex]? with
  | none => s.builder.reindex
  | some entry =>
    let b := s.builder
    let fresh := b.nextNode
    let active := b.active.eraseIdx feIndex
    let bookmark := if feIndex < s.bookmark then s.bookmark - 1 else s.bookmark
    let b := removeFromStack
      { b.createElement with
        active := active.insertIdx (min bookmark active.length) { entry with id := fresh } }
      formattingElement
    let blockNow := (b.stackIndexOf furthestBlock).getD b.openElements.length
    reindex
      { b with
        openElements := b.openElements.insertIdx (blockNow + 1) ⟨fresh, entry.tag, .html, false⟩ }

/-- One iteration of the outer loop: what it answers, or nothing when the next one follows. -/
def agencyOuter (b : Builder) (subject : Text) : Option Bool × Builder :=
  match b.formattingElement subject with
  | none => (some false, b)
  | some feIndex =>
    match b.active[feIndex]? with
    | none => (some false, b)
    | some fe =>
      match b.stackIndexOf fe.id with
      | none => (some true, { b with active := b.active.eraseIdx feIndex })
      | some feStack =>
        if !b.hasNodeInScope fe.id then (some true, b)
        else
          match b.furthestBlock feStack with
          | none =>
            let b := b.popTo feStack
            (some true, { b with active := b.active.eraseIdx feIndex })
          | some fbStack =>
            match b.openElements[fbStack]? with
            | none => (some true, b)
            | some block =>
              let s := agencyInner fe.id block.id 1 fbStack ⟨b, feIndex, block.id⟩
              (none, s.finish feIndex fe.id block.id)

/-- Up to `n` iterations of the outer loop. -/
def agencyLoop (subject : Text) : ℕ → Builder → Bool × Builder
  | 0, b => (true, b)
  | n + 1, b =>
    match b.agencyOuter subject with
    | (some answer, b) => (answer, b)
    | (none, b) => agencyLoop subject n b

/-- The adoption agency algorithm: whether it handled the tag, and the state after it. -/
def adoptionAgency (b : Builder) (subject : Text) : Bool × Builder :=
  match b.openElements.getLast? with
  | none => agencyLoop subject 8 b
  | some top =>
    if top.ns = .html && top.tag == subject && (b.formattingIndexOf top.id).isNone then
      (true, b.pop)
    else agencyLoop subject 8 b

/-! ## The source of `svg` elements -/

def openForeign (b : Builder) (t : Token) : Builder :=
  let capture := b.foreign
  let capture :=
    match b.openElements.getLast? with
    | some top =>
      if capture.depth = 0 then { capture with node := some top.id, start := t.sourceBegin }
      else capture
    | none => capture
  { b with foreign := { capture with depth := capture.depth + 1 } }

/-- The source of a capture, closed when the document did not close it. -/
def capturedSource (input : Text) (start stop : ℕ) : Text :=
  let source := (input.drop start).take (stop - start)
  if (ascii "</svg>").isSuffixOf source then source else source ++ ascii "</svg>"

def closeForeign (b : Builder) (sourceEnd : ℕ) : Builder :=
  let capture := b.foreign
  if capture.depth = 0 then b
  else if 1 < capture.depth then { b with foreign := { capture with depth := capture.depth - 1 } }
  else
    match capture.node with
    | none => { b with foreign := { capture with depth := 0 } }
    | some node =>
      let sources :=
        if capture.start < sourceEnd && sourceEnd ≤ b.input.length then
          capture.sources ++ [(node, capturedSource b.input capture.start sourceEnd)]
        else capture.sources
      { b with foreign := { capture with sources, node := none, depth := 0 } }

end Builder

end CtBrowser.Dom
