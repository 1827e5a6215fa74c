import Mathlib.Tactic

/-!
# Matching Selectors

How the style engine matches a compiled complex selector against an element it visits. The
traversal keeps, for every depth, the elements of the row it is in up to the one on the way
to the subject; the matcher moves a cursor over these rows, from the rightmost compound to
the left. At a combinator it takes the nearest element whose compound matches and goes on
from there.

What a compound asks of an element apart from its nested selector lists is a test on the
element's facts.

## Main definitions

- `CompiledSelector` — compounds joined by combinators, with nested selector lists.
- `Visit` — the rows and the path the traversal keeps.
- `matchesFrom` — the matcher.
-/

namespace CtBrowser.Style

/-- How a compound relates to the next one to its right. -/
inductive Combinator
  | descendant
  | child
  | nextSibling
  | subsequentSibling
deriving DecidableEq, Repr

/-- The pseudo-classes whose argument is a selector list about the same element. -/
inductive PseudoKind
  | not_
  | is_
  | where_
deriving DecidableEq, Repr

mutual

/-- What one element has to be: a test on its facts, and nested selector lists. -/
inductive Compound (ε : Type)
  | mk (test : ε → Bool) (pseudos : List (PseudoRef ε))

/-- A pseudo-class with a selector list. -/
inductive PseudoRef (ε : Type)
  | mk (kind : PseudoKind) (args : List (CompiledSelector ε))

/-- A complex selector, the rightmost compound first. -/
inductive CompiledSelector (ε : Type)
  | mk (subject : Compound ε) (links : List (Link ε))

/-- A combinator and the compound to its left. -/
inductive Link (ε : Type)
  | mk (combinator : Combinator) (want : Compound ε)

end

/-- The combinator of a link. -/
def Link.combinator {ε : Type} : Link ε → Combinator
  | .mk combinator _ => combinator

/-- The compound a link wants. -/
def Link.want {ε : Type} : Link ε → Compound ε
  | .mk _ want => want

/-- The combinators of a selector, from the right. -/
def CompiledSelector.combinators {ε : Type} : CompiledSelector ε → List Combinator
  | .mk _ links => links.map Link.combinator

/-- An element and the elements below it; what matching reads of one is its facts. -/
inductive Element (ε : Type)
  | mk (facts : ε) (children : List (Element ε))

namespace Element

variable {ε : Type}

/-- The facts of an element. -/
def facts : Element ε → ε
  | mk facts _ => facts

/-- The child elements of an element. -/
def children : Element ε → List (Element ε)
  | mk _ children => children

end Element

/-- An element the traversal has visited: a depth, and an index into the row there. -/
structure Cursor where
  depth : ℕ
  index : ℕ
deriving DecidableEq, Repr

/-- What the traversal keeps while it is at an element: for every depth down to it the row of
elements visited so far, and the index of the one on the way. -/
structure Visit (ε : Type) where
  levels : List (List ε)
  path : List ℕ

/-- The rows on the way to a position below a row of elements. -/
def levelsOn {ε : Type} : List (Element ε) → List ℕ → List (List ε)
  | _, [] => []
  | row, i :: rest =>
    (row.take (i + 1)).map Element.facts ::
      levelsOn ((row[i]?.map Element.children).getD []) rest

/-- The traversal at a position of a tree. -/
def visit {ε : Type} (root : Element ε) (position : List ℕ) : Visit ε :=
  ⟨levelsOn [root] position, position⟩

namespace Visit

variable {ε : Type} (v : Visit ε)

/-- The facts of the element at a cursor. -/
def factsAt (at' : Cursor) : Option ε := v.levels[at'.depth]?.bind fun row => row[at'.index]?

/-- The cursor of the element on the way at a depth. -/
def onPath (depth : ℕ) : Cursor := ⟨depth, (v.path[depth]?).getD 0⟩

/-- The elements a combinator leads to, in the order the matcher tries them. -/
def candidates (combinator : Combinator) (at' : Cursor) : List Cursor :=
  match combinator with
  | .child => if at'.depth = 0 then [] else [v.onPath (at'.depth - 1)]
  | .descendant => (List.range at'.depth).reverse.map v.onPath
  | .nextSibling => if at'.index = 0 then [] else [⟨at'.depth, at'.index - 1⟩]
  | .subsequentSibling => (List.range at'.index).reverse.map fun k => ⟨at'.depth, k⟩

end Visit

section Matcher

variable {ε : Type} (mayMatch : Compound ε → Bool) (v : Visit ε)

mutual

/-- Whether the element at a cursor is what a compound asks for. -/
def compoundMatches : Compound ε → Cursor → Bool
  | .mk test pseudos, at' => (v.factsAt at').any test && pseudosMatch pseudos at'

/-- Whether every nested selector list of a compound agrees. -/
def pseudosMatch : List (PseudoRef ε) → Cursor → Bool
  | [], _ => true
  | p :: ps, at' => pseudoMatches p at' && pseudosMatch ps at'

/-- A nested list is run from the same cursor: `:is` and `:where` pass if any argument
matches, `:not` if none does. -/
def pseudoMatches : PseudoRef ε → Cursor → Bool
  | .mk kind args, at' => if kind = .not_ then !anyMatches args at' else anyMatches args at'

/-- Whether one of a list of selectors matches. -/
def anyMatches : List (CompiledSelector ε) → Cursor → Bool
  | [], _ => false
  | arg :: args, at' => matchesFrom arg at' || anyMatches args at'

/-- The walk from a cursor: the subject first, then the links to its left. -/
def matchesFrom : CompiledSelector ε → Cursor → Bool
  | .mk subject links, at' => compoundMatches subject at' && linksMatch links at'

/-- Takes the first candidate of each link that matches. The ancestor filter may reject a
descendant link outright. -/
def linksMatch : List (Link ε) → Cursor → Bool
  | [], _ => true
  | link :: links, at' =>
    if link.combinator = .descendant && !mayMatch link.want then false
    else
      match (v.candidates link.combinator at').find? (linkMatches link) with
      | none => false
      | some next => linksMatch links next

/-- Whether the element at a cursor is what a link wants. -/
def linkMatches : Link ε → Cursor → Bool
  | .mk _ want, at' => compoundMatches want at'

end

end Matcher

/-- Whether a selector matches the element at a position of a tree. -/
def elementMatches {ε : Type} (mayMatch : Compound ε → Bool) (sel : CompiledSelector ε)
    (root : Element ε) (position : List ℕ) : Bool :=
  let v := visit root position
  matchesFrom mayMatch v sel (v.onPath (position.length - 1))

end CtBrowser.Style
