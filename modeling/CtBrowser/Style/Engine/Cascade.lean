import CtBrowser.Style.Engine.LayerOrder

/-!
# The Cascade of One Element

How the engine finds the values of an element: the rules whose rightmost compound may match
are gathered bucket by bucket, those that match are sorted, and their declarations are applied
in order, the style attribute's normal ones before the first important rule and its
important ones at the end. The later write to a property wins.

What a declaration comes to on the element (its substituted, folded and expanded longhands)
is a parameter, which may look at what has been folded so far.

## Main definitions

- `gather` — the rules that match an element.
- `Engine.precedes` — the comparison they are sorted by.
- `foldOrder` — the declarations in the order they are applied.
- `put` — how one of them is applied.
- `resolve` — the whole.
-/

namespace CtBrowser.Style

/-! ### Gathering -/

/-- What gathering asks about an element. -/
structure Subject where
  id : Option Atom
  classes : List Atom
  tag : Atom
  -- an HTML element, whose tag is compared folded
  folds : Bool
  -- whether the rest holds: conditions, container, scope, and the rest of the selector
  applies : SelectorPlace → Bool
  -- how far the scoping root of a rule is, 0xFFFF when it has none
  distance : SelectorPlace → ℕ

/-- The name tests of the rightmost compound. -/
def Subject.keyMatches (subject : Subject) (sel : SheetSelector) : Bool :=
  (sel.tag.isNone || (if subject.folds then sel.tag else sel.tagExact) == some subject.tag) &&
    (sel.id.isNone || sel.id == subject.id) && sel.classes.all (· ∈ subject.classes)

/-- Whether a selector matches the element, in a rule whose conditions hold. -/
def Subject.matches (subject : Subject) (f : Filed) : Bool :=
  subject.keyMatches f.compiled && subject.applies f.selector

/-- A rule that matches, with the distance of its scoping root. -/
def Subject.consider (subject : Subject) (r : Rule) : Option Rule :=
  if subject.matches r.toFiled then some ⟨r.toFiled, r.layer, subject.distance r.selector⟩ else none

/-- The buckets an element draws from, in order. -/
def Subject.lookups (subject : Subject) : List BucketKey :=
  subject.id.toList.map .byId ++ subject.classes.map .byClass ++ [.byTag subject.tag, .universal]

/-- The rules that match an element, bucket by bucket. -/
def gather (e : Engine) (subject : Subject) : List Rule :=
  subject.lookups.flatMap fun key => (e.index key).filterMap subject.consider

/-! ### Sorting -/

/-- The number of an origin. -/
def Origin.number : Origin → ℕ
  | .userAgent => 0
  | .author => 1

/-- One rule is sorted before another. -/
def Engine.precedes (e : Engine) (a b : Rule) : Bool :=
  if a.important ≠ b.important then !a.important
  else if a.origin ≠ b.origin then
    if a.important then b.origin.number < a.origin.number else a.origin.number < b.origin.number
  else if a.layer ≠ b.layer then
    if a.important then e.rankOf b.layer < e.rankOf a.layer
    else e.rankOf a.layer < e.rankOf b.layer
  else if a.compiled.spec ≠ b.compiled.spec then a.compiled.spec < b.compiled.spec
  else if a.proximity ≠ b.proximity then b.proximity < a.proximity
  else a.order < b.order

/-- The rules that match an element, in the order they are applied. -/
def sortedMatches (e : Engine) (subject : Subject) : List Rule :=
  (gather e subject).insertionSort fun a b => !e.precedes b a

/-! ### Folding -/

/-- How many normal and important declarations a style attribute has. -/
structure InlineBlock where
  normal : ℕ
  important : ℕ
deriving DecidableEq, Repr

/-- A declaration of a sheet, or of the style attribute. -/
inductive DeclarationRef
  | filed (place : DeclarationPlace)
  | own (important : Bool) (index : ℕ)
deriving DecidableEq, Repr

/-- The normal or the important declarations of a style attribute. -/
def InlineBlock.refs (own : InlineBlock) (important : Bool) : List DeclarationRef :=
  (List.range (if important then own.important else own.normal)).map (.own important)

/-- The declarations from a rule on, each with the position of its rule; the style attribute
stands at `size`. -/
def foldFrom (size : ℕ) (own : InlineBlock) : Bool → ℕ → List Rule → List (ℕ × DeclarationRef)
  | spliced, _, [] =>
    (if spliced then [] else (own.refs false).map (size, ·)) ++ (own.refs true).map (size, ·)
  | spliced, i, r :: rest =>
    if r.important && !spliced then
      (own.refs false).map (size, ·) ++
        (i, .filed r.declaration) :: foldFrom size own true (i + 1) rest
    else (i, .filed r.declaration) :: foldFrom size own spliced (i + 1) rest

/-- The declarations in the order they are applied. -/
def foldOrder (rules : List Rule) (own : InlineBlock) : List (ℕ × DeclarationRef) :=
  foldFrom rules.length own false 0 rules

/-! ### Applying a declaration -/

/-- A property and its value. -/
structure Declaration where
  property : Text
  value : Text
deriving DecidableEq, Repr

/-- What has been folded so far: the values, and the declarations with their rules. -/
structure Folding where
  out : List Declaration
  applied : List (ℕ × Declaration)
deriving DecidableEq, Repr

/-- What a declaration comes to: a longhand with a value, or one taken back. -/
inductive Fill
  | put (d : Declaration)
  | unset (property : Text)
deriving DecidableEq, Repr

/-- The property a fill is about. -/
def Fill.property : Fill → Text
  | .put d => d.property
  | .unset property => property

/-- The value in place of the property's, or a new entry. -/
def writeValue : List Declaration → Declaration → List Declaration
  | [], d => [d]
  | e :: rest, d => if e.property = d.property then d :: rest else e :: writeValue rest d

/-- The value of a property. -/
def valueOf (out : List Declaration) (property : Text) : Option Text :=
  (out.find? fun d => d.property = property).map Declaration.value

/-- The first entry of a property is taken out. -/
def eraseValue (out : List Declaration) (property : Text) : List Declaration :=
  out.eraseP fun d => d.property = property

/-- The value that a custom property has when it has none. -/
def guaranteedInvalid : Text := 1 :: ascii "invalid"

section Put

variable (rules : List Rule) (parent : Text → Text)

/-- The last applied declaration of a property before a position, of a rule that is kept. -/
def rolledBack (applied : List (ℕ × Declaration)) (property : Text) (limit : ℕ)
    (keep : Rule → Bool) : Option (ℕ × Declaration) :=
  applied.reverse.find? fun x =>
    decide (x.1 < limit) && decide (x.2.property = property) && rules[x.1]?.any keep

/-- What a rollback keyword at a position finds: the outer option says whether the value is a
rollback keyword. -/
def rollback (applied : List (ℕ × Declaration)) (property : Text) (at' : ℕ) (value : Text) :
    Option (Option (ℕ × Declaration)) :=
  if value = ascii "revert" then
    some (rolledBack rules applied property rules.length fun r => r.origin = .userAgent)
  else if value = ascii "revert-layer" then
    some (rolledBack rules applied property at' fun r =>
      rules[at']?.all fun self => r.origin ≠ self.origin || r.layer ≠ self.layer)
  else if value = ascii "revert-rule" then
    some (rolledBack rules applied property at' fun r =>
      rules[at']?.all fun self => r.selector ≠ self.selector)
  else none

/-- Follows rollback keywords, a bounded number of times. -/
def rollValue (applied : List (ℕ × Declaration)) (property : Text) : ℕ → ℕ → Text → Text
  | 0, _, value => value
  | guard + 1, at', value =>
    match rollback rules applied property at' value with
    | none => value
    | some none => ascii "unset"
    | some (some (found, d)) => rollValue applied property guard found d.value

/-- Applies one longhand of the declaration at a position. -/
def put (st : Folding) (folding : ℕ) (d : Declaration) : Folding :=
  let rolled := rollValue rules st.applied d.property 16 folding d.value
  let applied :=
    if folding < rules.length then st.applied ++ [(folding, ⟨d.property, rolled⟩)] else st.applied
  -- the initial value of display is written out
  let value :=
    if d.property = ascii "display" ∧
      (rolled = ascii "initial" ∨ rolled = ascii "unset" ∧ d.value = ascii "unset") then
      ascii "inline"
    else rolled
  if value = ascii "inherit" then
    ⟨writeValue st.out ⟨d.property, parent d.property⟩, applied⟩
  else if value = ascii "unset" ∨ value = ascii "revert" then
    ⟨eraseValue st.out d.property, applied⟩
  else if value = ascii "initial" then
    let initial := if ascii "--" <+: d.property then guaranteedInvalid else []
    ⟨writeValue st.out ⟨d.property, initial⟩, applied⟩
  else ⟨writeValue st.out ⟨d.property, value⟩, applied⟩

/-- Applies what a declaration at a position comes to. -/
def applyFill (folding : ℕ) (st : Folding) : Fill → Folding
  | .put d => put rules parent st folding d
  | .unset property =>
    ⟨eraseValue st.out property,
      if folding < rules.length then st.applied ++ [(folding, ⟨property, ascii "unset"⟩)]
      else st.applied⟩

/-- Applies a declaration. -/
def applyDeclaration (fills : DeclarationRef → List Declaration → List Fill) (st : Folding)
    (x : ℕ × DeclarationRef) : Folding :=
  (fills x.2 st.out).foldl (applyFill rules parent x.1) st

end Put

/-- The declarations an element is left with. -/
def resolve (e : Engine) (subject : Subject) (own : InlineBlock) (parent : Text → Text)
    (fills : DeclarationRef → List Declaration → List Fill) : List Declaration :=
  let rules := sortedMatches e subject
  ((foldOrder rules own).foldl (applyDeclaration rules parent fills) ⟨[], []⟩).out

end CtBrowser.Style
