import CtBrowser.Core.Atom
import CtBrowser.Style.Css.Token

/-!
# Stylesheets

What the parser makes of a stylesheet: tokens, component values, compiled selectors,
declarations, rules and the tables that rules are gated on. Selectors nest: a pseudo-class
such as `:not(:is(.a))` holds selectors of its own.

## Main definitions

- `CompiledSelector`, `Compound`, `PseudoRef` — selectors.
- `Stylesheet` — a parsed stylesheet.
- `Stylesheet.AtomsIn` — the atoms of a sheet belong to a table.
-/

namespace CtBrowser.Style.Css

/-! ## Selectors -/

/-- How a compound relates to the next one to its right. -/
inductive Combinator where
  | none | descendant | child | nextSibling | subsequentSibling
  deriving DecidableEq, Repr

/-- The attribute selector operators. -/
inductive AttrOp where
  | present | exact | includes | dash | prefix_ | suffix | substring
  deriving DecidableEq, Repr

/-- The namespace prefix on a type or attribute selector. -/
inductive NsPrefix where
  | unset | any | none | named
  deriving DecidableEq, Repr

/-- The pseudo-classes that carry an argument. -/
inductive PseudoKind where
  | nthChild | nthLastChild | nthOfType | nthLastOfType | not_ | is_ | where_ | lang | dir
  | heading
  deriving DecidableEq, Repr

/-- One attribute selector. -/
structure AttributeMatch where
  name : Atom
  nameExact : Atom
  value : Text
  op : AttrOp
  caseInsensitive : Bool
  caseSensitiveFlag : Bool
  ns : NsPrefix
  nsUri : Atom
  deriving DecidableEq, Repr

mutual

/-- One argument-carrying pseudo-class. -/
structure PseudoRef where
  kind : PseudoKind
  a : ℤ
  b : ℤ
  -- the argument of `:not()`, `:is()` or `:where()`
  args : List CompiledSelector
  relative : Bool
  nesting : Bool
  -- the argument of `:lang()`, kept as written
  ranges : List Text
  levels : List ℤ

/-- One compound selector. -/
structure Compound where
  tag : Atom
  tagExact : Atom
  id : Atom
  classes : List Atom
  attributes : List AttributeMatch
  states : ℕ
  structural : ℕ
  statesAfterPe : ℕ
  structuralAfterPe : ℕ
  pseudos : List PseudoRef
  ns : NsPrefix
  nsName : Atom
  nsUri : Atom
  pseudoElement : Atom
  nesting : Bool
  neverMatches : Bool
  dropped : Bool

/-- One complex selector, compiled for matching. -/
structure CompiledSelector where
  -- rightmost first
  parts : List Compound
  links : List Combinator
  -- the specificity triple, packed
  spec : ℕ
  explicitScope : Bool

end

/-! ## Tables -/

/-- What a component value is. -/
inductive CvKind where
  | token | function | block
  deriving DecidableEq, Repr

/-- A preserved token, function or block, with its children stored contiguously. -/
structure ComponentValue where
  kind : CvKind
  opener : UInt8
  tooDeep : Bool
  pad : UInt8
  token : ℕ
  endToken : ℕ
  firstChild : ℕ
  childCount : ℕ
  deriving DecidableEq, Repr

/-- One declaration. -/
structure RawDeclaration where
  property : Atom
  firstValue : ℕ
  valueCount : ℕ
  text : ℕ
  length : ℕ
  order : ℤ
  important : Bool
  custom : Bool
  deriving DecidableEq, Repr

/-- One qualified rule: a selector list, a declaration block, and what gates it. -/
structure RawRule where
  firstSelector : ℕ
  selectorCount : ℕ
  firstDeclaration : ℕ
  declarationCount : ℕ
  condition : ℕ
  layer : ℕ
  scope : ℕ
  container : ℕ
  deriving DecidableEq, Repr

/-- One `@scope` block. -/
structure ScopeBlock where
  parent : ℕ
  firstRoot : ℕ
  rootCount : ℕ
  firstLimit : ℕ
  limitCount : ℕ
  implicitRoot : ℕ
  deriving DecidableEq, Repr

/-- One `@font-face` rule. -/
structure FontFace where
  firstDeclaration : ℕ
  declarationCount : ℕ
  deriving DecidableEq, Repr

/-- One `@property` or `@function` rule. -/
structure AtRuleBlock where
  preludeFirst : ℕ
  preludeCount : ℕ
  firstDeclaration : ℕ
  declarationCount : ℕ
  deriving DecidableEq, Repr

/-- One `@namespace` rule. -/
structure NamespaceDeclaration where
  prefix_ : Text
  uri : Text
  deriving DecidableEq, Repr

/-- One `@import` of the sheet's leading run. -/
structure ImportStatement where
  href : Text
  media : Text
  layer : Text
  layered : Bool
  supports : Text
  scope : Text
  scoped_ : Bool
  begin_ : ℕ
  end_ : ℕ
  deriving DecidableEq, Repr

/-- One keyframe block: its offsets and its declarations. -/
structure KeyframeBlock where
  offsets : List DoubleBits
  firstDeclaration : ℕ
  declarationCount : ℕ
  deriving DecidableEq, Repr

/-- One `@keyframes` rule. -/
structure KeyframesBlock where
  name : Text
  condition : ℕ
  layer : ℕ
  frames : List KeyframeBlock
  deriving DecidableEq, Repr

/-- A media type. -/
inductive MediaType where
  | all | screen | print | other
  deriving DecidableEq, Repr

/-- One media query, whose condition is kept as text. -/
structure MediaQuery where
  type : MediaType
  negated : Bool
  malformed : Bool
  condition : Text
  deriving DecidableEq, Repr

/-- A list of media queries, and the index of the enclosing condition. -/
structure MediaCondition where
  parent : ℕ
  queries : List MediaQuery
  deriving DecidableEq, Repr

/-- One container query: a container's name and the query as text. -/
structure ContainerQuery where
  name : Text
  condition : Text
  deriving DecidableEq, Repr

/-- A list of container queries, and the index of the enclosing condition. -/
structure ContainerCondition where
  parent : ℕ
  queries : List ContainerQuery
  deriving DecidableEq, Repr

/-- A parsed stylesheet. -/
structure Stylesheet where
  pool : Text
  namespaces : List NamespaceDeclaration
  prefixesChecked : Bool
  forgiving : Bool
  imports : List ImportStatement
  sourceLength : ℕ
  tokens : List CssToken
  values : List ComponentValue
  selectors : List CompiledSelector
  declarations : List RawDeclaration
  rules : List RawRule
  fontFaces : List FontFace
  properties : List AtRuleBlock
  functions : List AtRuleBlock
  keyframes : List KeyframesBlock
  conditions : List MediaCondition
  layers : List Text
  scopes : List ScopeBlock
  containers : List ContainerCondition

/-! ## Atoms of a sheet -/

/-- The atoms of an attribute selector. -/
def AttributeMatch.atoms (a : AttributeMatch) : List Atom := [a.name, a.nameExact, a.nsUri]

mutual

/-- The atoms of a selector. -/
def CompiledSelector.atoms : CompiledSelector → List Atom
  | { parts := parts, .. } => compoundAtoms parts

/-- The atoms of some compounds. -/
def compoundAtoms : List Compound → List Atom
  | [] => []
  | part :: rest => part.atoms ++ compoundAtoms rest

/-- The atoms of a compound. -/
def Compound.atoms : Compound → List Atom
  | c@{ pseudos := pseudos, .. } =>
    [c.tag, c.tagExact, c.id] ++ c.classes ++ c.attributes.flatMap AttributeMatch.atoms ++
      pseudoAtoms pseudos ++ [c.nsName, c.nsUri, c.pseudoElement]

/-- The atoms of some pseudo-classes. -/
def pseudoAtoms : List PseudoRef → List Atom
  | [] => []
  | pseudo :: rest => pseudo.atoms ++ pseudoAtoms rest

/-- The atoms of a pseudo-class. -/
def PseudoRef.atoms : PseudoRef → List Atom
  | { args := args, .. } => selectorAtoms args

/-- The atoms of some selectors. -/
def selectorAtoms : List CompiledSelector → List Atom
  | [] => []
  | selector :: rest => selector.atoms ++ selectorAtoms rest

end

/-- The atoms of a sheet. -/
def Stylesheet.atoms (sheet : Stylesheet) : List Atom :=
  selectorAtoms sheet.selectors ++ sheet.declarations.map RawDeclaration.property

/-- The atoms of a sheet belong to a table. -/
def Stylesheet.AtomsIn (sheet : Stylesheet) (atoms : AtomTable) : Prop :=
  ∀ a ∈ sheet.atoms, atoms.Holds a

instance (sheet : Stylesheet) (atoms : AtomTable) : Decidable (sheet.AtomsIn atoms) :=
  inferInstanceAs (Decidable (∀ a ∈ sheet.atoms, atoms.Holds a))

end CtBrowser.Style.Css
