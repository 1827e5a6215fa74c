import CtBrowser.Style.Css.Token

/-!
# Boolean conditions

The grammar `<boolean-expr>` behind media queries, `@supports`, `@container` and `if()`, and the
engine's parser of it, which evaluates while it reads. The parser works on a flat array and finds the
end of a group by counting brackets of all kinds. The grammar is about component values: a block ends
at the closing bracket of its own kind, or with the range.

Tests and enclosed groups are decided by parameters, which are given the tokens that they are about.

## Main definitions

- `Truth` — three-valued truth.
- `booleanExpression` — the engine's evaluation of a range.
- `componentsOf` — a range as component values.
- `exprValue`, `items` — the value of a condition by the grammar.
-/

namespace CtBrowser.Style.Css.Boolean

/-! ## Truth -/

inductive Truth
  | no | yes | unknown
deriving DecidableEq, Repr

namespace Truth

def negate : Truth → Truth
  | unknown => unknown
  | yes => no
  | no => yes

def both (a b : Truth) : Truth :=
  if a = no ∨ b = no then no else if a = yes ∧ b = yes then yes else unknown

def either (a b : Truth) : Truth :=
  if a = yes ∨ b = yes then yes else if a = no ∧ b = no then no else unknown

end Truth

/-! ## Tokens -/

/-- The text of a token. -/
def textOf (s : TokenStream) (t : CssToken) : Text := (s.pool.drop t.text).take t.length

def opens (t : CssToken) : Bool :=
  t.type = .function || t.type = .openParen || t.type = .openSquare || t.type = .openCurly

def closes (t : CssToken) : Bool :=
  t.type = .closeParen || t.type = .closeSquare || t.type = .closeCurly

def isSpace (t : CssToken) : Bool := t.type = .whitespace

/-- An identifier, in any case. -/
def named (s : TokenStream) (want : Text) (t : CssToken) : Bool :=
  t.type = .ident && asciiIequals (textOf s t) want

/-! ## The engine's parser -/

/-- Tests are given a function's name and the range of its arguments, enclosed groups their range; the
answer is missing when they are neither. -/
structure Tests where
  test : Text → ℕ → ℕ → Option Truth
  enclosed : ℕ → ℕ → Option Truth

/-- Where the brackets that are open are closed, counted from a place on. -/
def blockEnd (fallback : ℕ) : List CssToken → ℕ → ℤ → ℕ
  | [], _, _ => fallback
  | t :: rest, i, depth =>
    if t.type = .eof then i
    else if opens t then blockEnd fallback rest (i + 1) (depth + 1)
    else if closes t then
      if depth - 1 = 0 then i + 1 else blockEnd fallback rest (i + 1) (depth - 1)
    else blockEnd fallback rest (i + 1) depth

/-- One past the block that opens at a place, or the token at the end. -/
def endOfBlock (s : TokenStream) (start : ℕ) : ℕ :=
  blockEnd (s.tokens.length - 1) (s.tokens.drop start) start 0

section Parser

variable (s : TokenStream) (tests : Tests)

def tokenIs (p : CssToken → Bool) (i : ℕ) : Bool := s.tokens[i]?.any p

/-- The place after white space. -/
def skipWs (i stop : ℕ) : ℕ := i + (((s.tokens.drop i).take (stop - i)).takeWhile isSpace).length

mutual

/-- The tokens up to a place as one expression. -/
def expression : ℕ → ℕ → ℕ → Option Truth
  | 0, _, _ => none
  | fuel + 1, i, stop =>
    let i := skipWs s i stop
    if tokenIs s (named s (ascii "not")) i then
      match group fuel (i + 1) stop with
      | none => none
      | some (g, i) => if skipWs s i stop < stop then none else some g.negate
    else
      match group fuel i stop with
      | none => none
      | some (g, i) => joined fuel none g i stop
  termination_by structural fuel => fuel

/-- The groups that are joined to the first, all by the same word. -/
def joined : ℕ → Option Bool → Truth → ℕ → ℕ → Option Truth
  | 0, _, _, _, _ => none
  | fuel + 1, isAnd, result, i, stop =>
    let i := skipWs s i stop
    if stop ≤ i then some result
    else
      let and := tokenIs s (named s (ascii "and")) i
      let or := !and && tokenIs s (named s (ascii "or")) i
      if !and && !or then none
      else if isAnd.any (· ≠ and) then none
      else
        match group fuel (i + 1) stop with
        | none => none
        | some (g, i) => joined fuel (some and) (if and then result.both g else result.either g) i stop
  termination_by structural fuel => fuel

/-- One group, and the place after it. -/
def group : ℕ → ℕ → ℕ → Option (Truth × ℕ)
  | 0, _, _ => none
  | fuel + 1, i, stop =>
    let i := skipWs s i stop
    if stop ≤ i then none
    else
      match s.tokens[i]? with
      | none => none
      | some t =>
        if t.type ≠ .function ∧ t.type ≠ .openParen then none
        else
          let close := min (endOfBlock s i) stop
          -- the arguments: past the opener, and short of the bracket when it is there
          let last := if i + 1 < close ∧ tokenIs s (·.type = .closeParen) (close - 1) then close - 1 else close
          let answer :=
            if t.type = .function then tests.test (textOf s t).dropLast (i + 1) last
            else (expression fuel (i + 1) last).or (tests.enclosed (i + 1) last)
          answer.map fun g => (g, close)
  termination_by structural fuel => fuel

end

/-- The tokens of a range as one expression. -/
def booleanExpression (start stop : ℕ) : Option Truth := expression s tests (2 * (stop - start) + 2) start stop

end Parser

/-! ## Component values -/

/-- The bracket that closes a block. -/
def closerOf (t : CssToken) : Option TokenType :=
  if t.type = .function ∨ t.type = .openParen then some .closeParen
  else if t.type = .openSquare then some .closeSquare
  else if t.type = .openCurly then some .closeCurly
  else none

/-- A token that opens no block, or a block with the range of its contents. -/
inductive Component
  | token (t : CssToken)
  | block (opener : CssToken) (contents : List Component) (first last : ℕ) (closed : Bool)

/-- What was read: the components up to the wanted bracket or the end, where they end, whether the bracket
was there, and what follows it. -/
structure Contents where
  components : List Component
  last : ℕ
  closed : Bool
  rest : List CssToken

/-- A component before the others. -/
def Contents.cons (c : Component) (r : Contents) : Contents := { r with components := c :: r.components }

/-- The components of tokens. A closing bracket of another kind is a token like others. -/
def readComponents : ℕ → Option TokenType → ℕ → List CssToken → Contents
  | 0, _, i, _ => ⟨[], i, false, []⟩
  | _, _, i, [] => ⟨[], i, false, []⟩
  | fuel + 1, want, i, t :: rest =>
    if want = some t.type then ⟨[], i, true, rest⟩
    else
      match closerOf t with
      | some closer =>
        let inner := readComponents fuel (some closer) (i + 1) rest
        let next := if inner.closed then inner.last + 1 else inner.last
        (readComponents fuel want next inner.rest).cons
          (.block t inner.components (i + 1) inner.last inner.closed)
      | none => (readComponents fuel want (i + 1) rest).cons (.token t)

/-- The tokens of a range. -/
def range (s : TokenStream) (start stop : ℕ) : List CssToken := (s.tokens.drop start).take (stop - start)

/-- The component values of a range. -/
def componentsOf (s : TokenStream) (start stop : ℕ) : List Component :=
  (readComponents (stop - start) none start (range s start stop)).components

/-! ## The value of a condition -/

/-- A token of `<any-value>` that opens no block. -/
def isAnyToken (t : CssToken) : Bool :=
  !closes t && t.type ≠ .badString && t.type ≠ .badUrl && t.type ≠ .eof

mutual

/-- The components are an `<any-value>`, or none. -/
def isAnyValue : List Component → Bool
  | [] => true
  | c :: rest => isAnyComponent c && isAnyValue rest

def isAnyComponent : Component → Bool
  | .token t => isAnyToken t
  | .block _ contents _ _ _ => isAnyValue contents

end

/-- What a component is to the grammar. A group comes with its answer, if it has one. -/
inductive Item
  | space | not | and | or | other
  | group (answer : Option Truth)
deriving DecidableEq

/-- The answers of groups that are each preceded by a word. -/
def chain (word : Item) : List Item → Option (List Truth)
  | [] => some []
  | w :: .group (some g) :: rest => if w = word then (chain word rest).map (g :: ·) else none
  | _ => none

/-- One group, its negation, or groups joined by the same word, with white space anywhere. -/
def exprValue (items : List Item) : Option Truth :=
  match items.filter (· ≠ .space) with
  | [.not, .group g] => g.map Truth.negate
  | .group (some g) :: rest =>
    ((chain .and rest).map (·.foldl Truth.both g)).or ((chain .or rest).map (·.foldl Truth.either g))
  | _ => none

section Value

variable (s : TokenStream) (tests : Tests)

def tokenItem (t : CssToken) : Item :=
  if isSpace t then .space
  else if named s (ascii "not") t then .not
  else if named s (ascii "and") t then .and
  else if named s (ascii "or") t then .or
  else .other

/-- A block as a group: a test, or an expression in brackets, or else enclosed. -/
def blockItem (opener : CssToken) (value : Option Truth) (first last : ℕ) : Item :=
  if opener.type = .function then .group (tests.test (textOf s opener).dropLast first last)
  else if opener.type = .openParen then .group (value.or (tests.enclosed first last))
  else .other

mutual

def items : List Component → List Item
  | [] => []
  | c :: rest => item c :: items rest

/-- A block that holds no `<any-value>` is no group. -/
def item : Component → Item
  | .token t => tokenItem s t
  | .block opener contents first last _ =>
    if isAnyValue contents then blockItem s tests opener (exprValue (items contents)) first last else .other

end

end Value

/-! ## Where the parser is right -/

/-- A group of the grammar ends where the parser sees it end: what it holds is an `<any-value>`, and a
group that is not closed does not end with a bracket that closes another. -/
def GroupSound (s : TokenStream) : Component → Prop
  | .token _ => True
  | .block opener contents first last closed =>
    opener.type = .function ∨ opener.type = .openParen →
      isAnyValue contents ∧ (closed = true ∨ last ≤ first ∨ tokenIs s (·.type = .closeParen) (last - 1) = false)

def isSpaceComponent : Component → Bool
  | .token t => isSpace t
  | .block .. => false

def isGroup : Component → Bool
  | .token _ => false
  | .block opener .. => opener.type = .function || opener.type = .openParen

/-- The components without white space. -/
def visible (cs : List Component) : List Component := cs.filter (!isSpaceComponent ·)

/-- The word before a group: whether it is `and`, if it is a word that joins groups. -/
def joinWord (s : TokenStream) (t : CssToken) : Option Bool :=
  if named s (ascii "and") t then some true else if named s (ascii "or") t then some false else none

/-- What follows words that join groups, as long as it is the same word and each is a group. -/
def joinedGroups (s : TokenStream) : Option Bool → List Component → List Component
  | isAnd, .token t :: c :: rest =>
    if joinWord s t = none ∨ isAnd ≠ none ∧ isAnd ≠ joinWord s t then []
    else c :: if isGroup c then joinedGroups s (joinWord s t) rest else []
  | _, _ => []

/-- Where a condition has its groups: the parser looks no further. -/
def groupsOf (s : TokenStream) : List Component → List Component
  | .token t :: c :: _ => if named s (ascii "not") t then [c] else []
  | c :: rest => c :: if isGroup c then joinedGroups s none rest else []
  | [] => []

/-- The groups of a range end where the parser sees them end. -/
def GroupsSound (s : TokenStream) (cs : List Component) : Prop := ∀ c ∈ groupsOf s (visible cs), GroupSound s c

end CtBrowser.Style.Css.Boolean
