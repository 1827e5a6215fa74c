import CtBrowser.CtNative.Types
import CtBrowser.Foundations.SortedUnion

/-!
# The Meet of Native Types

The least upper bound of two native types: numbers and strings widen within their family,
containers meet element by element, and anything else becomes a union of alternatives, sorted
by their printed form. Past one cap a union is `json`, past another a set of callables is
`boxed`.

The printer of types is a parameter. The recursion through element types is on their depth,
which is the fuel.

## Main definitions

- `mergeSameFamily` — the wider of two types of one family.
- `finishUnion` — the union of collected alternatives.
- `meet` — the meet.
-/

namespace CtBrowser.CtNative

open Foundations.SortedUnion

/-- How many alternatives a variant may carry. -/
def kMaxVariantAlternatives : ℕ := 4

/-- How many targets a closure set may name. -/
def kMaxClosureSetTargets : ℕ := 16

/-- The wider of two ranked enumerators. -/
def NumKind.widerOf (a b : NumKind) : NumKind := if a.rank ≤ b.rank then b else a

def StrEncoding.widerOf (a b : StrEncoding) : StrEncoding := if a.rank ≤ b.rank then b else a

/-- The parts of a union, gathered before anything is decided about them. -/
structure Alternatives where
  members : List CtType := []
  nullable : Bool := false
  sawBoxed : Bool := false
  sawJson : Bool := false

mutual

/-- Flattens a type into the parts of a union. -/
def collect : CtType → Alternatives → Alternatives
  -- `bottom` contributes no values
  | .bottom, into => into
  | .boxed, into => { into with sawBoxed := true }
  | .json, into => { into with sawJson := true }
  | .opt element, into => collect element { into with nullable := true }
  | .variant alternatives, into => collectAll alternatives into
  | .nominal n, into => { into with members := into.members ++ [.nominal n] }
  | .num kind, into => { into with members := into.members ++ [.num kind] }
  | .str encoding, into => { into with members := into.members ++ [.str encoding] }
  | .strview encoding, into => { into with members := into.members ++ [.strview encoding] }
  | .wrapper w element, into => { into with members := into.members ++ [.wrapper w element] }
  | .tuple elements, into => { into with members := into.members ++ [.tuple elements] }
  | .map key value, into => { into with members := into.members ++ [.map key value] }
  | .closure target, into => { into with members := into.members ++ [.closure target] }
  | .closureSet targets, into => { into with members := into.members ++ [.closureSet targets] }
  | .classTag className, into => { into with members := into.members ++ [.classTag className] }
  | .owned pointee, into => { into with members := into.members ++ [.owned pointee] }
  | .shared pointee, into => { into with members := into.members ++ [.shared pointee] }

def collectAll : List CtType → Alternatives → Alternatives
  | [], into => into
  | alternative :: rest, into => collectAll rest (collect alternative into)

end

/-- The targets of a callable. -/
def targetsOf : CtType → Option (List Text)
  | .closure target => some [target]
  | .closureSet targets => some targets
  | _ => none

/-- Two callables are one of their targets. -/
def mergeCallables (a b : List Text) : CtType :=
  let targets := sortUnique codes (a ++ b)
  if kMaxClosureSetTargets < targets.length then .boxed else .closureSet targets

/-- The wider of two types in one family, or none when they are in different families. -/
def mergeSameFamily (meet : CtType → CtType → CtType) (a b : CtType) : Option CtType :=
  if a = b then some a
  else match a, b with
    | .num x, .num y => some (.num (x.widerOf y))
    -- the owning `str` wins
    | .str x, .str y | .str x, .strview y | .strview x, .str y => some (.str (x.widerOf y))
    | .strview x, .strview y => some (.strview (x.widerOf y))
    | .wrapper v x, .wrapper w y => if v = w then some (.wrapper v (meet x y)) else none
    | .tuple xs, .tuple ys =>
      -- another arity is a different record
      if xs.length = ys.length then some (.tuple (List.zipWith meet xs ys)) else none
    | .map k v, .map k' v' => some (.map (meet k k') (meet v v'))
    -- among the pointers only `owned` widens, to `shared`
    | .owned x, .owned y => some (.owned (meet x y))
    | .owned x, .shared y | .shared x, .owned y | .shared x, .shared y =>
      some (.shared (meet x y))
    | a, b =>
      match targetsOf a, targetsOf b with
      | some x, some y => some (mergeCallables x y)
      | _, _ => none

section Printed

variable {κ : Type} [LinearOrder κ] (printedForm : CtType → κ)

/-- The canonical union of collected parts. -/
def finishUnion (meet : CtType → CtType → CtType) (parts : Alternatives) : CtType :=
  if parts.sawBoxed then .boxed
  else if parts.sawJson then .json
  else
    let members := sortUnique printedForm parts.members
    let members := mergeAll (mergeSameFamily meet) members.length members
    -- the merges stand where the first of their pair stood
    let members := sortUnique printedForm members
    if .boxed ∈ members then .boxed
    else
      let result : CtType :=
        match members with
        | [] => .bottom
        | [member] => member
        | members => if kMaxVariantAlternatives < members.length then .json else .variant members
      if !parts.nullable then result
      else if result = .boxed ∨ result = .json then result
      else .opt result

/-- Whether a type is a class tag. -/
def CtType.isClassTag : CtType → Bool
  | .classTag _ => true
  | _ => false

/-- The meet, with the meet of element types given. -/
def meetWith (meet : CtType → CtType → CtType) (a b : CtType) : CtType :=
  if a = b then a
  else if a = .bottom then b
  else if b = .bottom then a
  else if a = .boxed ∨ b = .boxed then .boxed
  -- a class tag never merges with a value, nor with another class
  else if a.isClassTag ∨ b.isClassTag then if a = b then a else .boxed
  else if a = .json ∨ b = .json then .json
  else
    match mergeSameFamily meet a b with
    | some merged => merged
    | none => finishUnion printedForm meet (collect b (collect a {}))

mutual

/-- How deep element types nest. An optional or a union is no deeper than what it is of. -/
def CtType.depth : CtType → ℕ
  | .opt element => element.depth
  | .variant alternatives => depthAll alternatives
  | .wrapper _ element => element.depth + 1
  | .tuple elements => depthAll elements + 1
  | .map key value => max key.depth value.depth + 1
  | .owned pointee => pointee.depth + 1
  | .shared pointee => pointee.depth + 1
  | .bottom | .boxed | .json | .nominal _ | .num _ | .str _ | .strview _ | .closure _
  | .closureSet _ | .classTag _ => 0

def depthAll : List CtType → ℕ
  | [] => 0
  | t :: ts => max t.depth (depthAll ts)

end

/-- The meet of types that nest less deep than the fuel. -/
def meetFuel : ℕ → CtType → CtType → CtType
  | 0 => fun a _ => a
  | n + 1 => meetWith printedForm (meetFuel n)

/-- The meet. -/
def meet (a b : CtType) : CtType := meetFuel printedForm (max a.depth b.depth + 1) a b

end Printed

end CtBrowser.CtNative
