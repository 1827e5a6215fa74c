import CtBrowser.Dom.Attributes

/-!
# The Document's Tree

The node tree of a document: parent pointers and child lists, character data and attributes,
the shadow roots and the contents of templates that hang below an element beside its children,
and the log of the writes that live ranges read. Node handles are positions in the list of nodes; nodes are
never freed.

## Main definitions

- `Document` — the nodes, the side tables and the write log.
- `appendChild`, `insertBefore`, `removeChild`, `setText` — the writes.
- `setAttribute`, `removeAttribute`, `removeAttributeNs` — the writes of attributes.
- `attachShadow`, `setTemplateContent` — the two other ways to hang a tree below an element.
-/

namespace CtBrowser.Dom

/-- A handle to a node. -/
abbrev NodeId := ℕ

/-- What a node is. -/
inductive NodeKind
  | document
  | element
  | text
  | comment
  | documentFragment
  | documentType
  | processingInstruction
  | cdataSection
deriving DecidableEq, Repr

/-- The namespaces the engine tells apart. -/
inductive NodeNs
  | html
  | svg
  | other
deriving DecidableEq, Repr

/-- A node of the tree. -/
structure Node where
  kind : NodeKind
  ns : NodeNs
  localName : Text
  -- character data
  text : Text
  -- of an element or a processing instruction
  attributes : List Attribute
  parent : Option NodeId
  children : List NodeId
deriving DecidableEq, Repr

/-- Why a write was refused. -/
inductive DomError
  | noSuchNode
  | notAnElement
  | wouldCycle
  | isRoot
  | tooDeep
  | invalidShadowHost
  | shadowRootExists
deriving DecidableEq, Repr

/-- A replacement of character data, in UTF-16 code units. -/
structure DataEdit where
  offset : ℕ
  count : ℕ
  added : ℕ
deriving DecidableEq, Repr

/-- A logged write that live ranges read. -/
inductive WriteNote
  | data (node : NodeId) (edit : DataEdit)
  | inserted (parent child : NodeId) (index : ℕ)
  | removed (parent child : NodeId) (index : ℕ)
deriving DecidableEq, Repr

/-- A document. -/
structure Document where
  nodes : List Node
  root : NodeId
  documentNode : NodeId
  -- each shadow host with its shadow root
  shadows : List (NodeId × NodeId)
  -- each template with the fragment of its contents
  templateContents : List (NodeId × NodeId)
  logWrites : Bool
  writesLog : List WriteNote
deriving DecidableEq, Repr

/-- The deepest a tree may go. -/
def maxDomDepth : ℕ := 512

/-- UTF-16 code units of a text. -/
def unitsLength (text : Text) : ℕ :=
  ((codePoints text).map fun c => if c ≥ 0x10000 then 2 else 1).sum

/-- The ordinary elements that may host a shadow root. -/
def shadowHostNames : List Text :=
  [ascii "article", ascii "aside", ascii "blockquote", ascii "body", ascii "div",
    ascii "footer", ascii "h1", ascii "h2", ascii "h3", ascii "h4", ascii "h5", ascii "h6",
    ascii "header", ascii "main", ascii "nav", ascii "p", ascii "section", ascii "span"]

/-- Hyphenated names that are taken and so name no custom element. -/
def reservedElementNames : List Text :=
  [ascii "annotation-xml", ascii "color-profile", ascii "font-face", ascii "font-face-src",
    ascii "font-face-uri", ascii "font-face-format", ascii "font-face-name",
    ascii "missing-glyph"]

/-- Whether an HTML element with this local name may host a shadow root: an ordinary element
or a custom one. -/
def validShadowHostName (name : Text) : Bool :=
  if shadowHostNames.contains name then true
  else if name.length < 2 || !name.head?.any (fun c => 97 ≤ c && c ≤ 122) || !name.contains 45
  then false
  else if name.any fun c => 65 ≤ c && c ≤ 90 then false
  else !reservedElementNames.contains name

namespace Document

/-- A document without an element. -/
def new : Document :=
  ⟨[⟨.document, .html, [], [], [], none, []⟩], 0, 0, [], [], false, []⟩

/-- The node of a handle. -/
def find (d : Document) (id : NodeId) : Option Node := d.nodes[id]?

/-- The parent pointer of a node. -/
def parentOf (d : Document) (id : NodeId) : Option NodeId := (d.find id).bind Node.parent

/-- The child list of a node. -/
def childrenOf (d : Document) (id : NodeId) : List NodeId := ((d.find id).map Node.children).getD []

/-- Rewrites one node. -/
def modify (d : Document) (id : NodeId) (f : Node → Node) : Document :=
  { d with nodes := d.nodes.modify id f }

/-- Logs a write while a reader asked for the log. -/
def noteEdit (d : Document) (note : WriteNote) : Document :=
  if d.logWrites then { d with writesLog := d.writesLog ++ [note] } else d

/-- A new node, and its handle. -/
def create (d : Document) (kind : NodeKind) (ns : NodeNs) (localName text : Text) :
    Document × NodeId :=
  ({ d with nodes := d.nodes ++ [⟨kind, ns, localName, text, [], none, []⟩] }, d.nodes.length)

@[simp]
theorem find_modify (d : Document) (id : NodeId) (f : Node → Node) (x : NodeId) :
    (d.modify id f).find x = if x = id then (d.find x).map f else d.find x := by
  rw [find, modify, List.getElem?_modify, find]
  by_cases h : x = id
  · subst h
    simp
  · have h' : ¬ id = x := fun he => h he.symm
    simp [h, h']

@[simp]
theorem nodes_noteEdit (d : Document) (note : WriteNote) : (d.noteEdit note).nodes = d.nodes := by
  rw [noteEdit]
  split <;> rfl

@[simp]
theorem find_noteEdit (d : Document) (note : WriteNote) (x : NodeId) :
    (d.noteEdit note).find x = d.find x := by
  rw [find, nodes_noteEdit, find]

@[simp]
theorem length_nodes_modify (d : Document) (id : NodeId) (f : Node → Node) :
    (d.modify id f).nodes.length = d.nodes.length := by
  simp [modify]

/-! ### Walking up -/

/-- A node and its ancestors by parent pointers, to at most a number of steps. -/
def parentChain (d : Document) : ℕ → NodeId → List NodeId
  | 0, id => [id]
  | fuel + 1, id => id :: ((d.parentOf id).map (d.parentChain fuel)).getD []

/-- A node and its ancestors by parent pointers. -/
def inclusiveAncestors (d : Document) (id : NodeId) : List NodeId :=
  d.parentChain d.nodes.length id

/-- The shadow root of a host. -/
def shadowRootOf (d : Document) (host : NodeId) : Option NodeId :=
  (d.shadows.find? fun p => p.1 = host).map Prod.snd

/-- The host of a shadow root. -/
def shadowHostOf (d : Document) (root : NodeId) : Option NodeId :=
  (d.shadows.find? fun p => p.2 = root).map Prod.fst

/-- The contents of a template. -/
def templateContent (d : Document) (element : NodeId) : Option NodeId :=
  (d.templateContents.find? fun p => p.1 = element).map Prod.snd

/-- The template whose contents a fragment is. -/
def templateOf (d : Document) (fragment : NodeId) : Option NodeId :=
  (d.templateContents.find? fun p => p.2 = fragment).map Prod.fst

/-- One level up: the Document for the document element, the parent, or the host of a
parentless fragment. -/
def up (d : Document) (id : NodeId) : Option NodeId :=
  match d.find id with
  | none => none
  | some n =>
    if id = d.root ∧ id ≠ d.documentNode then some d.documentNode
    else if n.parent.isSome ∨ n.kind ≠ .documentFragment then n.parent
    else (d.shadowHostOf id).or (d.templateOf id)

/-- How many levels a node lies below the top, to at most a number of steps. -/
def depthWithin (d : Document) : ℕ → NodeId → ℕ
  | 0, _ => 0
  | fuel + 1, id => ((d.up id).map fun above => d.depthWithin fuel above + 1).getD 0

/-- How many levels a node lies below the top, at most `maxDomDepth`. -/
def depth (d : Document) (id : NodeId) : ℕ := d.depthWithin maxDomDepth id

/-- What hangs directly below a node: its children, its shadow root and its contents. -/
def below (d : Document) (id : NodeId) : List NodeId :=
  match d.find id with
  | none => []
  | some n =>
    if n.kind = .element then
      n.children ++ (d.shadowRootOf id).toList ++ (d.templateContent id).toList
    else n.children

/-- The longest way down from a node, to at most a number of steps. -/
def heightWithin (d : Document) : ℕ → NodeId → ℕ
  | 0, _ => 0
  | fuel + 1, id => ((d.below id).map fun one => d.heightWithin fuel one + 1).foldr max 0

/-- The longest way down from a node, at most `maxDomDepth`. -/
def height (d : Document) (id : NodeId) : ℕ := d.heightWithin maxDomDepth id

/-- Whether `child` below `parent` would make the tree too deep. -/
def tooDeep (d : Document) (parent child : NodeId) : Bool :=
  d.depth parent + 1 + d.height child ≥ maxDomDepth

/-! ### Structural writes -/

/-- Takes a node out of its parent's child list. -/
def detach (d : Document) (child : NodeId) : Document :=
  match d.parentOf child with
  | none => d
  | some oldParent =>
    match d.find oldParent with
    | none => d
    | some p =>
      ((d.noteEdit (.removed oldParent child (p.children.idxOf child))).modify oldParent
        fun n => { n with children := n.children.filter (· ≠ child) }).modify child
        fun n => { n with parent := none }

/-- Puts a parentless node into a child list at an index. -/
def attach (d : Document) (parent child : NodeId) (index : ℕ) : Document :=
  ((d.modify parent fun n => { n with children := n.children.insertIdx index child }).modify child
    fun n => { n with parent := some parent }).noteEdit (.inserted parent child index)

/-- Why a node may not go below another. -/
def insertionError (d : Document) (parent child : NodeId) : Option DomError :=
  if (d.find parent).isNone ∨ (d.find child).isNone then some .noSuchNode
  else if child ∈ d.inclusiveAncestors parent then some .wouldCycle
  else if d.tooDeep parent child then some .tooDeep
  else none

/-- Appends a child. -/
def appendChild (d : Document) (parent child : NodeId) : Except DomError Document :=
  match d.insertionError parent child with
  | some e => .error e
  | none =>
    let detached := d.detach child
    .ok (detached.attach parent child (detached.childrenOf parent).length)

/-- The sibling that follows a node in a child list. -/
def following (items : List NodeId) (child : NodeId) : Option NodeId :=
  items[items.idxOf child + 1]?

/-- Inserts a child before another one; at the end when there is none or it is no child of
the parent. A node inserted before itself stays where it is. -/
def insertBefore (d : Document) (parent child : NodeId) (before : Option NodeId) :
    Except DomError Document :=
  match d.insertionError parent child with
  | some e => .error e
  | none =>
    let reference := if before = some child then following (d.childrenOf parent) child else before
    let detached := d.detach child
    let items := detached.childrenOf parent
    .ok (detached.attach parent child (reference.elim items.length items.idxOf))

/-- Removes a node from its parent. -/
def removeChild (d : Document) (child : NodeId) : Except DomError Document :=
  if (d.find child).isNone then .error .noSuchNode
  else if child = d.root then .error .isRoot
  else .ok (d.detach child)

/-! ### Character data and attributes -/

/-- The attributes that a node has once its text is written: those of a processing instruction are
read from it, and none are left when it is malformed. -/
def updatePiAttributes (n : Node) (data : Text) : List Attribute :=
  if n.kind = .processingInstruction then (parsePseudoAttributes data).getD [] else n.attributes

/-- Replaces character data; the whole of it unless the caller said which part. -/
def setText (d : Document) (id : NodeId) (value : Text) (edit : Option DataEdit) :
    Except DomError Document :=
  match d.find id with
  | none => .error .noSuchNode
  | some n =>
    .ok ((d.modify id fun n => { n with text := value, attributes := updatePiAttributes n value }).noteEdit
      (.data id (edit.getD ⟨0, unitsLength n.text, unitsLength value⟩)))

/-- A new processing instruction. -/
def createProcessingInstruction (d : Document) (target data : Text) : Document × NodeId :=
  let (made, id) := d.create .processingInstruction .html target data
  (made.modify id fun n => { n with attributes := updatePiAttributes n data }, id)

/-- Writes the attributes of a processing instruction into its data, which is logged as a write of the
text. -/
def updatePiData (d : Document) (id : NodeId) (n : Node) : Document :=
  if n.kind ≠ .processingInstruction then d
  else
    (d.modify id fun n => { n with text := serializePseudoAttributes n.attributes }).noteEdit
      (.data id ⟨0, 0, 0⟩)

/-- Sets the first attribute with a qualified name, or adds one. -/
def setAttribute (d : Document) (id : NodeId) (name value : Text) : Except DomError Document :=
  match d.find id with
  | none => .error .noSuchNode
  | some n =>
    if n.kind ≠ .element ∧ n.kind ≠ .processingInstruction then .error .notAnElement
    else
      let attributes := if n.attributes.any fun a => a.name = name then
          n.attributes.modify (n.attributes.findIdx fun a => a.name = name) fun a => { a with value := value }
        else n.attributes ++ [{ name, value }]
      .ok ((d.modify id fun n => { n with attributes := attributes }).updatePiData id n)

/-- Removes the first attribute with a qualified name, if there is one. -/
def removeAttribute (d : Document) (id : NodeId) (name : Text) : Except DomError Document :=
  match d.find id with
  | none => .error .noSuchNode
  | some n =>
    if n.attributes.any fun a => a.name = name then
      .ok ((d.modify id fun n => { n with attributes := n.attributes.eraseP fun a => a.name = name }).updatePiData id n)
    else .ok d

/-- Removes the attribute with a namespace and a local name, if there is one. The data of a processing
instruction stays as it is. -/
def removeAttributeNs (d : Document) (id : NodeId) (ns localName : Text) : Except DomError Document :=
  match d.find id with
  | none => .error .noSuchNode
  | some n =>
    if n.attributes.any fun a => attributeIs a ns localName then
      .ok (d.modify id fun n => { n with attributes := n.attributes.eraseP fun a => attributeIs a ns localName })
    else .ok d

/-! ### Trees beside the children -/

/-- Makes a shadow root for an element. -/
def attachShadow (d : Document) (host : NodeId) : Except DomError (Document × NodeId) :=
  match d.find host with
  | none => .error .noSuchNode
  | some n =>
    if n.kind ≠ .element ∨ n.ns ≠ .html ∨ validShadowHostName n.localName = false then
      .error .invalidShadowHost
    else if (d.shadowRootOf host).isSome then .error .shadowRootExists
    else if d.depth host + 1 ≥ maxDomDepth then .error .tooDeep
    else
      let (made, root) := d.create .documentFragment .html [] []
      .ok ({ made with shadows := made.shadows ++ [(host, root)] }, root)

/-- Makes a fragment the contents of a template. -/
def setTemplateContent (d : Document) (element fragment : NodeId) : Document :=
  if d.templateContents.any fun p => p.1 = element then
    { d with templateContents := d.templateContents.map fun p =>
        if p.1 = element then (p.1, fragment) else p }
  else { d with templateContents := d.templateContents ++ [(element, fragment)] }

end Document

end CtBrowser.Dom
