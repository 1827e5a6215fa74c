import CtBrowser.Style.Css.Sheet

/-!
# Compiled Stylesheets

A parsed stylesheet as flat data, and the way back. Every string is a slice of one block of
text, an atom is spelled as its text, and every nested list is a range into a flat table.
`compile` flattens a stylesheet; `materialize` rebuilds one by copying and interning. Sizes fit
32 bits, so that they are natural numbers here.

## Main definitions

- `CompiledSheetData`, `CompiledSheet` — the flat data, and the same data behind views.
- `Flattener`, `compile` — a stylesheet is written into the tables.
- `materialize` — a stylesheet is read back from them.
-/

namespace CtBrowser.Style.Css

/-! ## The flat data -/

/-- A slice of the strings block. -/
structure CompiledText where
  offset : ℕ
  length : ℕ
  deriving DecidableEq, Repr, Inhabited

/-- A run of entries in a table. -/
structure CompiledRange where
  first : ℕ
  count : ℕ
  deriving DecidableEq, Repr, Inhabited

structure CompiledDeclaration where
  property : CompiledText
  firstValue : ℕ
  valueCount : ℕ
  text : ℕ
  length : ℕ
  order : ℤ
  important : Bool
  custom : Bool
  deriving DecidableEq, Repr

structure CompiledNamespace where
  prefix_ : CompiledText
  uri : CompiledText
  deriving DecidableEq, Repr

structure CompiledImport where
  href : CompiledText
  media : CompiledText
  layer : CompiledText
  layered : Bool
  supports : CompiledText
  scope : CompiledText
  scoped_ : Bool
  begin_ : ℕ
  end_ : ℕ
  deriving DecidableEq, Repr

structure CompiledAttribute where
  name : CompiledText
  nameExact : CompiledText
  value : CompiledText
  op : AttrOp
  caseInsensitive : Bool
  caseSensitiveFlag : Bool
  ns : NsPrefix
  nsUri : CompiledText
  deriving DecidableEq, Repr

/-- A pseudo-class: `args` are selectors, `ranges` texts and `levels` levels of the tables. -/
structure CompiledPseudo where
  kind : PseudoKind := .nthChild
  a : ℤ := 0
  b : ℤ := 0
  args : CompiledRange := ⟨0, 0⟩
  relative : Bool := false
  nesting : Bool := false
  ranges : CompiledRange := ⟨0, 0⟩
  levels : CompiledRange := ⟨0, 0⟩
  deriving DecidableEq, Repr

/-- A compound: `classes` are texts, and the others ranges of the table of their name. -/
structure CompiledCompound where
  tag : CompiledText := ⟨0, 0⟩
  tagExact : CompiledText := ⟨0, 0⟩
  id : CompiledText := ⟨0, 0⟩
  classes : CompiledRange := ⟨0, 0⟩
  attributes : CompiledRange := ⟨0, 0⟩
  states : ℕ := 0
  structural : ℕ := 0
  statesAfterPe : ℕ := 0
  structuralAfterPe : ℕ := 0
  pseudos : CompiledRange := ⟨0, 0⟩
  ns : NsPrefix := .unset
  nsName : CompiledText := ⟨0, 0⟩
  nsUri : CompiledText := ⟨0, 0⟩
  pseudoElement : CompiledText := ⟨0, 0⟩
  nesting : Bool := false
  neverMatches : Bool := false
  dropped : Bool := false
  deriving DecidableEq, Repr

/-- A selector: `parts` are compounds and `links` combinators of the tables. -/
structure CompiledComplex where
  parts : CompiledRange := ⟨0, 0⟩
  links : CompiledRange := ⟨0, 0⟩
  specificity : ℕ := 0
  explicitScope : Bool := false
  deriving DecidableEq, Repr

structure CompiledKeyframe where
  offsets : CompiledRange
  firstDeclaration : ℕ
  declarationCount : ℕ
  deriving DecidableEq, Repr

structure CompiledKeyframes where
  name : CompiledText
  condition : ℕ
  layer : ℕ
  frames : CompiledRange
  deriving DecidableEq, Repr

structure CompiledMediaQuery where
  type : MediaType
  negated : Bool
  malformed : Bool
  condition : CompiledText
  deriving DecidableEq, Repr

structure CompiledMediaCondition where
  parent : ℕ
  queries : CompiledRange
  deriving DecidableEq, Repr

structure CompiledContainerQuery where
  name : CompiledText
  condition : CompiledText
  deriving DecidableEq, Repr

structure CompiledContainerCondition where
  parent : ℕ
  queries : CompiledRange
  deriving DecidableEq, Repr

/-- What a compiled sheet holds besides its two blocks of text. -/
structure SheetTables where
  prefixesChecked : Bool := true
  forgiving : Bool := true
  sourceLength : ℕ := 0
  namespaces : List CompiledNamespace := []
  imports : List CompiledImport := []
  tokens : List CssToken := []
  values : List ComponentValue := []
  -- the sheet's own selectors first, then those nested in pseudo-classes
  selectors : List CompiledComplex := []
  selectorCount : ℕ := 0
  compounds : List CompiledCompound := []
  combinators : List Combinator := []
  attributes : List CompiledAttribute := []
  pseudos : List CompiledPseudo := []
  -- class names and `:lang()` ranges
  texts : List CompiledText := []
  levels : List ℤ := []
  declarations : List CompiledDeclaration := []
  rules : List RawRule := []
  fontFaces : List FontFace := []
  properties : List AtRuleBlock := []
  functions : List AtRuleBlock := []
  keyframes : List CompiledKeyframes := []
  keyframeBlocks : List CompiledKeyframe := []
  offsets : List DoubleBits := []
  conditions : List CompiledMediaCondition := []
  mediaQueries : List CompiledMediaQuery := []
  layers : List CompiledText := []
  scopes : List ScopeBlock := []
  containers : List CompiledContainerCondition := []
  containerQueries : List CompiledContainerQuery := []
  deriving DecidableEq, Repr

/-- A compiled sheet that owns its tables. -/
structure CompiledSheetData extends SheetTables where
  pool : Text := []
  strings : Text := []
  deriving DecidableEq, Repr

/-- A compiled sheet behind views: each text is chunks, joined in order. -/
structure CompiledSheet extends SheetTables where
  pool : List Text
  strings : List Text
  deriving DecidableEq, Repr

/-- The chunks of a text joined into one. -/
def joined (chunks : List Text) : Text := chunks.flatten

/-- The tables as a compiled sheet, each text as one chunk. -/
def CompiledSheetData.view (d : CompiledSheetData) : CompiledSheet :=
  { d.toSheetTables with pool := [d.pool], strings := [d.strings] }

/-! ## Flattening -/

/-- The tables that texts and nested lists are filed in. -/
inductive Table where
  | strings | selectors | compounds | combinators | attributes | pseudos | texts | levels
  | keyframeBlocks | offsets | mediaQueries | containerQueries
  deriving DecidableEq, Repr

/-- What a table has as entries. -/
abbrev Table.Entry : Table → Type
  | .strings => UInt8
  | .selectors => CompiledComplex
  | .compounds => CompiledCompound
  | .combinators => Combinator
  | .attributes => CompiledAttribute
  | .pseudos => CompiledPseudo
  | .texts => CompiledText
  | .levels => ℤ
  | .keyframeBlocks => CompiledKeyframe
  | .offsets => DoubleBits
  | .mediaQueries => CompiledMediaQuery
  | .containerQueries => CompiledContainerQuery

/-- The entries of a table. -/
def CompiledSheetData.table (d : CompiledSheetData) : (t : Table) → List t.Entry
  | .strings => d.strings
  | .selectors => d.selectors
  | .compounds => d.compounds
  | .combinators => d.combinators
  | .attributes => d.attributes
  | .pseudos => d.pseudos
  | .texts => d.texts
  | .levels => d.levels
  | .keyframeBlocks => d.keyframeBlocks
  | .offsets => d.offsets
  | .mediaQueries => d.mediaQueries
  | .containerQueries => d.containerQueries

/-- The data with other entries in one table. -/
def CompiledSheetData.setTable (d : CompiledSheetData) :
    (t : Table) → List t.Entry → CompiledSheetData
  | .strings, l => { d with strings := l }
  | .selectors, l => { d with selectors := l }
  | .compounds, l => { d with compounds := l }
  | .combinators, l => { d with combinators := l }
  | .attributes, l => { d with attributes := l }
  | .pseudos, l => { d with pseudos := l }
  | .texts, l => { d with texts := l }
  | .levels, l => { d with levels := l }
  | .keyframeBlocks, l => { d with keyframeBlocks := l }
  | .offsets, l => { d with offsets := l }
  | .mediaQueries, l => { d with mediaQueries := l }
  | .containerQueries, l => { d with containerQueries := l }

/-- Builds compiled data from one stylesheet. -/
structure Flattener where
  out : CompiledSheetData := {}
  -- the slices of the texts written so far
  seen : List (Text × CompiledText) := []

/-- A step of the flattener. -/
abbrev Flatten := StateM Flattener

/-- Changes the entries of a table. -/
def modifyTable (t : Table) (f : List t.Entry → List t.Entry) : Flatten Unit :=
  modify fun s => { s with out := s.out.setTable t (f (s.out.table t)) }

/-- The range of the next entries of a table. -/
def nextRange (t : Table) (count : ℕ) : Flatten CompiledRange :=
  return ⟨((← get).out.table t).length, count⟩

/-- Appends an entry to a table. -/
def pushBack (t : Table) (x : t.Entry) : Flatten Unit := modifyTable t (· ++ [x])

/-- Appends entries to a table. -/
def insertAtEnd (t : Table) (l : List t.Entry) : Flatten Unit := modifyTable t (· ++ l)

/-- Takes slots at the end of a table, to be filled later. -/
def growBy (t : Table) (count : ℕ) (x : t.Entry) : Flatten Unit :=
  modifyTable t (· ++ List.replicate count x)

/-- Fills a slot of a table. -/
def fill (t : Table) (slot : ℕ) (x : t.Entry) : Flatten Unit := modifyTable t (·.set slot x)

/-- A text as a slice of the strings block, shared with every earlier use of it. -/
def text (s : Text) : Flatten CompiledText := do
  if s.isEmpty then return ⟨0, 0⟩
  match (← get).seen.lookup s with
  | some found => return found
  | none =>
    let made : CompiledText := ⟨(← get).out.strings.length, s.length⟩
    insertAtEnd .strings s
    modify fun f => { f with seen := (s, made) :: f.seen }
    return made

/-- An atom as a slice of the strings block. -/
def atomText (atoms : AtomTable) (a : Atom) : Flatten CompiledText := text (atoms.text a)

/-- An attribute selector's entry. -/
def attributeOf (atoms : AtomTable) (a : AttributeMatch) : Flatten CompiledAttribute := do
  let name ← atomText atoms a.name
  let nameExact ← atomText atoms a.nameExact
  let value ← text a.value
  let nsUri ← atomText atoms a.nsUri
  return { a with name, nameExact, value, nsUri }

mutual

/-- A selector's entry, whose compounds are a contiguous run: their slots are taken before
any of them is filled. -/
def complex (atoms : AtomTable) : CompiledSelector → Flatten CompiledComplex
  | selector@{ parts := parts, .. } => do
    let links ← nextRange .combinators selector.links.length
    insertAtEnd .combinators selector.links
    let range ← nextRange .compounds parts.length
    growBy .compounds parts.length ({} : CompiledCompound)
    fillCompounds atoms range.first parts
    return { parts := range, links, specificity := selector.spec,
             explicitScope := selector.explicitScope }

/-- Fills the slots of some compounds. -/
def fillCompounds (atoms : AtomTable) (slot : ℕ) : List Compound → Flatten Unit
  | [] => return
  | part :: rest => do
    let filled ← compoundOf atoms part
    fill .compounds slot filled
    fillCompounds atoms (slot + 1) rest

/-- A compound's entry. -/
def compoundOf (atoms : AtomTable) : Compound → Flatten CompiledCompound
  | c@{ pseudos := pseudos, .. } => do
    let tag ← atomText atoms c.tag
    let tagExact ← atomText atoms c.tagExact
    let id ← atomText atoms c.id
    let classes ← nextRange .texts c.classes.length
    c.classes.forM fun name => do pushBack .texts (← atomText atoms name)
    let attributes ← nextRange .attributes c.attributes.length
    c.attributes.forM fun a => do pushBack .attributes (← attributeOf atoms a)
    -- an argument list appends more pseudos, so the run is reserved first
    let range ← nextRange .pseudos pseudos.length
    growBy .pseudos pseudos.length ({} : CompiledPseudo)
    fillPseudos atoms range.first pseudos
    let nsName ← atomText atoms c.nsName
    let nsUri ← atomText atoms c.nsUri
    let pseudoElement ← atomText atoms c.pseudoElement
    return { tag, tagExact, id, classes, attributes, states := c.states,
             structural := c.structural, statesAfterPe := c.statesAfterPe,
             structuralAfterPe := c.structuralAfterPe, pseudos := range, ns := c.ns, nsName,
             nsUri, pseudoElement, nesting := c.nesting, neverMatches := c.neverMatches,
             dropped := c.dropped }

/-- Fills the slots of some pseudo-classes. -/
def fillPseudos (atoms : AtomTable) (slot : ℕ) : List PseudoRef → Flatten Unit
  | [] => return
  | pseudo :: rest => do
    let filled ← pseudoOf atoms pseudo
    fill .pseudos slot filled
    fillPseudos atoms (slot + 1) rest

/-- A pseudo-class's entry. -/
def pseudoOf (atoms : AtomTable) : PseudoRef → Flatten CompiledPseudo
  | p@{ args := args, .. } => do
    let range ← nextRange .selectors args.length
    growBy .selectors args.length ({} : CompiledComplex)
    fillSelectors atoms range.first args
    let ranges ← nextRange .texts p.ranges.length
    p.ranges.forM fun range => do pushBack .texts (← text range)
    let levels ← nextRange .levels p.levels.length
    insertAtEnd .levels p.levels
    return { kind := p.kind, a := p.a, b := p.b, args := range, relative := p.relative,
             nesting := p.nesting, ranges, levels }

/-- Fills the slots of some selectors. -/
def fillSelectors (atoms : AtomTable) (slot : ℕ) : List CompiledSelector → Flatten Unit
  | [] => return
  | selector :: rest => do
    let filled ← complex atoms selector
    fill .selectors slot filled
    fillSelectors atoms (slot + 1) rest

end

/-- A keyframe block's entry. -/
def keyframeOf (frame : KeyframeBlock) : Flatten CompiledKeyframe := do
  let offsets ← nextRange .offsets frame.offsets.length
  insertAtEnd .offsets frame.offsets
  return { frame with offsets }

/-- A media query's entry. -/
def mediaQueryOf (q : MediaQuery) : Flatten CompiledMediaQuery :=
  return { q with condition := ← text q.condition }

/-- A container query's entry. -/
def containerQueryOf (q : ContainerQuery) : Flatten CompiledContainerQuery :=
  return { name := ← text q.name, condition := ← text q.condition }

def namespaceOf (n : NamespaceDeclaration) : Flatten CompiledNamespace :=
  return { prefix_ := ← text n.prefix_, uri := ← text n.uri }

def importOf (i : ImportStatement) : Flatten CompiledImport :=
  return { i with
    href := ← text i.href
    media := ← text i.media
    layer := ← text i.layer
    supports := ← text i.supports
    scope := ← text i.scope }

def declarationOf (atoms : AtomTable) (d : RawDeclaration) : Flatten CompiledDeclaration :=
  return { d with property := ← atomText atoms d.property }

def keyframesOf (k : KeyframesBlock) : Flatten CompiledKeyframes := do
  let frames ← nextRange .keyframeBlocks k.frames.length
  k.frames.forM fun frame => do pushBack .keyframeBlocks (← keyframeOf frame)
  return { k with name := ← text k.name, frames }

def mediaConditionOf (c : MediaCondition) : Flatten CompiledMediaCondition := do
  let queries ← nextRange .mediaQueries c.queries.length
  c.queries.forM fun q => do pushBack .mediaQueries (← mediaQueryOf q)
  return { c with queries }

def containerConditionOf (c : ContainerCondition) : Flatten CompiledContainerCondition := do
  let queries ← nextRange .containerQueries c.queries.length
  c.queries.forM fun q => do pushBack .containerQueries (← containerQueryOf q)
  return { c with queries }

/-- The whole sheet. Its own selectors take the first slots, so that a rule's selector index
means the same in both forms. -/
def Flattener.run (sheet : Stylesheet) (atoms : AtomTable) : Flatten CompiledSheetData := do
  let namespaces ← sheet.namespaces.mapM namespaceOf
  let imports ← sheet.imports.mapM importOf
  growBy .selectors sheet.selectors.length ({} : CompiledComplex)
  let selectorCount := (← get).out.selectors.length
  fillSelectors atoms 0 sheet.selectors
  let declarations ← sheet.declarations.mapM (declarationOf atoms)
  let keyframes ← sheet.keyframes.mapM keyframesOf
  let conditions ← sheet.conditions.mapM mediaConditionOf
  let layers ← sheet.layers.mapM text
  let containers ← sheet.containers.mapM containerConditionOf
  return { (← get).out with
    pool := sheet.pool
    prefixesChecked := sheet.prefixesChecked
    forgiving := sheet.forgiving
    sourceLength := sheet.sourceLength
    tokens := sheet.tokens
    values := sheet.values
    rules := sheet.rules
    fontFaces := sheet.fontFaces
    properties := sheet.properties
    functions := sheet.functions
    scopes := sheet.scopes
    namespaces, imports, selectorCount, declarations, keyframes, conditions, layers, containers }

/-- Flattens a stylesheet, whose atoms belong to the table. -/
def compile (sheet : Stylesheet) (atoms : AtomTable) : CompiledSheetData :=
  ((Flattener.run sheet atoms).run {}).1

/-! ## Rebuilding -/

/-- A step of the rebuilder, which interns names and which may leave a table. -/
abbrev Rebuild := StateT AtomTable Option

/-- A run of a table, when it lies inside it. -/
def slice {α : Type} (table : List α) (r : CompiledRange) : Option (List α) :=
  if r.first + r.count ≤ table.length then some ((table.drop r.first).take r.count) else none

/-- Every text of a sheet is a slice of this. -/
def CompiledSheet.text (sheet : CompiledSheet) : Text := joined sheet.strings

/-- A slice of the strings block. -/
def CompiledSheet.string (sheet : CompiledSheet) (t : CompiledText) : Rebuild Text :=
  if t.offset ≤ sheet.text.length then
    return (sheet.text.drop t.offset).take t.length
  else failure

/-- The atom of a slice. -/
def CompiledSheet.intern (sheet : CompiledSheet) (t : CompiledText) : Rebuild Atom := do
  let name ← sheet.string t
  modifyGet (·.intern name)

def CompiledSheet.attributeMatch (sheet : CompiledSheet) (a : CompiledAttribute) :
    Rebuild AttributeMatch := do
  let name ← sheet.intern a.name
  let nameExact ← sheet.intern a.nameExact
  let value ← sheet.string a.value
  let nsUri ← sheet.intern a.nsUri
  return { a with name, nameExact, value, nsUri }

mutual

/-- A selector of the tables, `none` when the recursion is cut short. -/
def CompiledSheet.complex (sheet : CompiledSheet) :
    ℕ → CompiledComplex → Rebuild CompiledSelector
  | 0, _ => failure
  | fuel + 1, c => do
    let links ← slice sheet.combinators c.links
    let parts ← (← slice sheet.compounds c.parts).mapM (sheet.compoundOf fuel)
    return { parts, links, spec := c.specificity, explicitScope := c.explicitScope }

/-- A compound of the tables. -/
def CompiledSheet.compoundOf (sheet : CompiledSheet) :
    ℕ → CompiledCompound → Rebuild Compound
  | 0, _ => failure
  | fuel + 1, c => do
    let tag ← sheet.intern c.tag
    let tagExact ← sheet.intern c.tagExact
    let id ← sheet.intern c.id
    let classes ← (← slice sheet.texts c.classes).mapM sheet.intern
    let attributes ← (← slice sheet.attributes c.attributes).mapM sheet.attributeMatch
    let pseudos ← (← slice sheet.pseudos c.pseudos).mapM (sheet.pseudoOf fuel)
    let nsName ← sheet.intern c.nsName
    let nsUri ← sheet.intern c.nsUri
    let pseudoElement ← sheet.intern c.pseudoElement
    return { c with tag, tagExact, id, classes, attributes, pseudos, nsName, nsUri, pseudoElement }

/-- A pseudo-class of the tables. -/
def CompiledSheet.pseudoOf (sheet : CompiledSheet) : ℕ → CompiledPseudo → Rebuild PseudoRef
  | 0, _ => failure
  | fuel + 1, p => do
    let args ← (← slice sheet.selectors p.args).mapM (sheet.complex fuel)
    let ranges ← (← slice sheet.texts p.ranges).mapM sheet.string
    let levels ← slice sheet.levels p.levels
    return { p with args, ranges, levels }

end

def CompiledSheet.namespaceDeclaration (sheet : CompiledSheet) (n : CompiledNamespace) :
    Rebuild NamespaceDeclaration :=
  return { prefix_ := ← sheet.string n.prefix_, uri := ← sheet.string n.uri }

def CompiledSheet.importStatement (sheet : CompiledSheet) (i : CompiledImport) :
    Rebuild ImportStatement :=
  return { i with
    href := ← sheet.string i.href
    media := ← sheet.string i.media
    layer := ← sheet.string i.layer
    supports := ← sheet.string i.supports
    scope := ← sheet.string i.scope }

def CompiledSheet.declaration (sheet : CompiledSheet) (d : CompiledDeclaration) :
    Rebuild RawDeclaration :=
  return { d with property := ← sheet.intern d.property }

def CompiledSheet.keyframe (sheet : CompiledSheet) (frame : CompiledKeyframe) :
    Rebuild KeyframeBlock :=
  return { frame with offsets := ← slice sheet.offsets frame.offsets }

def CompiledSheet.keyframesBlock (sheet : CompiledSheet) (k : CompiledKeyframes) :
    Rebuild KeyframesBlock := do
  let name ← sheet.string k.name
  let frames ← (← slice sheet.keyframeBlocks k.frames).mapM sheet.keyframe
  return { k with name, frames }

def CompiledSheet.mediaQuery (sheet : CompiledSheet) (q : CompiledMediaQuery) :
    Rebuild MediaQuery :=
  return { q with condition := ← sheet.string q.condition }

def CompiledSheet.mediaCondition (sheet : CompiledSheet) (c : CompiledMediaCondition) :
    Rebuild MediaCondition := do
  let queries ← (← slice sheet.mediaQueries c.queries).mapM sheet.mediaQuery
  return { c with queries }

def CompiledSheet.containerQuery (sheet : CompiledSheet) (q : CompiledContainerQuery) :
    Rebuild ContainerQuery :=
  return { name := ← sheet.string q.name, condition := ← sheet.string q.condition }

def CompiledSheet.containerCondition (sheet : CompiledSheet) (c : CompiledContainerCondition) :
    Rebuild ContainerCondition := do
  let queries ← (← slice sheet.containerQueries c.queries).mapM sheet.containerQuery
  return { c with queries }

/-- Rebuilds the stylesheet a sheet was compiled from, with its names interned in the table.
Selectors that nest deeper than the fuel are `none`. -/
def materialize (fuel : ℕ) (sheet : CompiledSheet) : Rebuild Stylesheet := do
  let namespaces ← sheet.namespaces.mapM sheet.namespaceDeclaration
  let imports ← sheet.imports.mapM sheet.importStatement
  let selectors ← (List.range sheet.selectorCount).mapM fun i => do
    sheet.complex fuel (← sheet.selectors[i]?)
  let declarations ← sheet.declarations.mapM sheet.declaration
  let keyframes ← sheet.keyframes.mapM sheet.keyframesBlock
  let conditions ← sheet.conditions.mapM sheet.mediaCondition
  let layers ← sheet.layers.mapM sheet.string
  let containers ← sheet.containers.mapM sheet.containerCondition
  return {
    pool := joined sheet.pool
    prefixesChecked := sheet.prefixesChecked
    forgiving := sheet.forgiving
    sourceLength := sheet.sourceLength
    tokens := sheet.tokens
    values := sheet.values
    rules := sheet.rules
    fontFaces := sheet.fontFaces
    properties := sheet.properties
    functions := sheet.functions
    scopes := sheet.scopes
    namespaces, imports, selectors, declarations, keyframes, conditions, layers, containers }

end CtBrowser.Style.Css
