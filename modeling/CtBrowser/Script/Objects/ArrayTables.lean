import CtBrowser.Core.Double
import CtBrowser.Foundations.SortedEntries
import CtBrowser.Script.Objects.PropertyTable

/-!
# Array Tables

What an array keeps beside its elements: the attributes of those that have their own, in a list
sorted by index, and one run of holes that a length made. The run moves its ends as it is filled, is
split when it is filled in the middle, and is settled into the list when another one begins. Beside
it stands the plain array, with one attribute for each index.

## Main definitions

- `ArrayObject` — the elements and the tables beside them, with the operations of the source.
- `ArrayOp`, `ArrayObject.apply` — an operation on an array.
- `Promised` — what the callers of an operation promise.
- `PlainArray` — one attribute for each index, with the same operations.
-/

namespace CtBrowser.Script.Objects

open Foundations.SortedEntries

variable {ν : Type}

/-! ## The array -/

/-- The mark of an index that is not a property. -/
def elemHole : UInt8 := 8

/-- The most slots that one operation makes. -/
def denseLimit : ℕ := 2 ^ 24

/-- The greatest length. -/
def maxLength : ℚ := 4294967295

/-- A list cut or padded to a size: `std::vector::resize`. -/
def resize (xs : List ν) (size : ℕ) (pad : ν) : List ν :=
  xs.take size ++ List.replicate (size - xs.length) pad

theorem length_resize (xs : List ν) (size : ℕ) (pad : ν) : (resize xs size pad).length = size := by
  rw [resize, List.length_append, List.length_take, List.length_replicate]
  omega

/-- The length that a number is, unless it is none. -/
def arrayLength : Double → Option ℕ
  | .finite negative q =>
    if (negative = false ∨ q = 0) ∧ q ≤ maxLength ∧ q = ⌊q⌋ then some ⌊q⌋.toNat else none
  | _ => none

/-- An array. -/
structure ArrayObject (ν : Type) where
  items : List ν := []
  -- the elements far past the end, by index
  sparse : List (ℕ × ν) := []
  sparseLength : ℕ := 0
  elementsWritable : Bool := true
  elementsConfigurable : Bool := true
  -- the attributes of the elements that have their own, by index
  elementAttrs : List (ℕ × UInt8) := []
  -- the run of holes
  holesBegin : ℕ := 0
  holesEnd : ℕ := 0

namespace ArrayObject

def hasHoleRun (a : ArrayObject ν) : Bool := a.holesBegin < a.holesEnd

def inHoleRun (a : ArrayObject ν) (i : ℕ) : Bool := a.holesBegin ≤ i ∧ i < a.holesEnd

def findElementAttrs (a : ArrayObject ν) (i : ℕ) : Option UInt8 := lookup i a.elementAttrs

/-- Makes entries of the run. -/
def settleHoleRun (a : ArrayObject ν) : ArrayObject ν :=
  if !a.hasHoleRun then a
  else
    let made := (List.range' a.holesBegin (a.holesEnd - a.holesBegin)).map fun k => (k, elemHole)
    { a with
      elementAttrs := splice a.holesBegin made a.elementAttrs
      holesBegin := 0
      holesEnd := 0 }

/-- Makes holes of slots that were just added. -/
def addHoles (a : ArrayObject ν) (start stop : ℕ) : ArrayObject ν :=
  if start ≥ stop then a
  else
    let a := if a.hasHoleRun ∧ a.holesEnd ≠ start then a.settleHoleRun else a
    let a := if !a.hasHoleRun then { a with holesBegin := start % 2 ^ 32 } else a
    { a with holesEnd := stop % 2 ^ 32 }

/-- Takes a hole out of the run. -/
def takeOut (a : ArrayObject ν) (i : ℕ) : ArrayObject ν :=
  if i = a.holesBegin then { a with holesBegin := a.holesBegin + 1 }
  else if i + 1 = a.holesEnd then { a with holesEnd := a.holesEnd - 1 }
  -- what lies below becomes entries, and the run keeps what lies above
  else { settleHoleRun { a with holesEnd := i } with holesBegin := i + 1, holesEnd := a.holesEnd }

/-- No run where it is empty. -/
def normaliseRun (a : ArrayObject ν) : ArrayObject ν :=
  if a.holesBegin ≥ a.holesEnd then { a with holesBegin := 0, holesEnd := 0 } else a

/-- Fills a hole of the run. -/
def fillHole (a : ArrayObject ν) (i : ℕ) : ArrayObject ν := (a.takeOut i).normaliseRun

/-- Enters the attributes of an element, none if they are the default ones. -/
def enterAttrs (a : ArrayObject ν) (i : ℕ) (attrs : UInt8) : ArrayObject ν :=
  { a with
    elementAttrs :=
      if attrs = attrDefault then remove i a.elementAttrs else put i attrs a.elementAttrs }

def setElementAttrs (a : ArrayObject ν) (i : ℕ) (attrs : UInt8) : ArrayObject ν :=
  if a.inHoleRun i then
    if attrs = attrDefault then a.fillHole i else (a.fillHole i).enterAttrs i attrs
  else a.enterAttrs i attrs

/-- The attributes of an element, masked by the integrity of the array. -/
def elementAttrsAt (a : ArrayObject ν) (i : ℕ) : UInt8 :=
  if a.inHoleRun i then elemHole
  else
    let attrs := (a.findElementAttrs i).getD attrDefault
    let attrs := if !a.elementsWritable then attrs &&& ~~~attrWritable else attrs
    if !a.elementsConfigurable then attrs &&& ~~~attrConfigurable else attrs

def isHole (a : ArrayObject ν) (i : ℕ) : Bool :=
  a.inHoleRun i || (a.findElementAttrs i).any fun attrs => attrs &&& elemHole ≠ 0

/-- Discards what is not below a length. -/
def truncate (a : ArrayObject ν) (wanted : ℕ) : ArrayObject ν :=
  normaliseRun { a with
    items := a.items.take wanted
    sparse := a.sparse.filter (·.1 < wanted)
    elementAttrs := a.elementAttrs.filter (·.1 < wanted)
    holesEnd := min a.holesEnd wanted }

/-- Sets the length where growing pads with undefined elements, and tells whether it is one. -/
def setJsLength (undefined : ν) (a : ArrayObject ν) (n : Double) : ArrayObject ν × Bool :=
  match arrayLength n with
  | none => (a, false)
  | some wanted =>
    let a := a.truncate wanted
    if wanted ≤ denseLimit then ({ a with items := resize a.items wanted undefined, sparseLength := 0 }, true)
    else ({ a with sparseLength := wanted }, true)

/-- Sets the length where growing makes holes. -/
def setJsLengthWithHoles (undefined : ν) (a : ArrayObject ν) (n : Double) : ArrayObject ν × Bool :=
  let before := a.items.length
  let set := a.setJsLength undefined n
  if !set.2 then set else (set.1.addHoles before set.1.items.length, true)

end ArrayObject

/-! ## Operations -/

/-- An operation on an array. -/
inductive ArrayOp
  -- slots are added up to a size, of which those before `upTo` are holes
  | grow (size upTo : ℕ)
  | settleHoleRun
  | fillHole (i : ℕ)
  | setElementAttrs (i : ℕ) (attrs : UInt8)
  | setJsLength (n : Double)
  | setJsLengthWithHoles (n : Double)
  -- what freezing and sealing set
  | restrict (writable configurable : Bool)

/-- What an operation makes of an array. -/
def ArrayObject.apply (undefined : ν) (a : ArrayObject ν) : ArrayOp → ArrayObject ν
  | .grow size upTo => { a with items := resize a.items size undefined }.addHoles a.items.length upTo
  | .settleHoleRun => a.settleHoleRun
  | .fillHole i => a.fillHole i
  | .setElementAttrs i attrs => a.setElementAttrs i attrs
  | .setJsLength n => (a.setJsLength undefined n).1
  | .setJsLengthWithHoles n => (a.setJsLengthWithHoles undefined n).1
  | .restrict writable configurable =>
    { a with elementsWritable := writable, elementsConfigurable := configurable }

/-- What the callers of an operation promise: the slots were just added and their indices fit, the
hole is in the run, the attributes are of an element. -/
def Promised (a : ArrayObject ν) : ArrayOp → Prop
  | .grow size upTo => a.items.length ≤ size ∧ upTo ≤ size ∧ upTo < 2 ^ 32
  | .fillHole i => a.inHoleRun i
  | .setElementAttrs i _ => i < a.items.length
  | _ => True

/-! ## The plain array -/

/-- An array with one attribute for each index. -/
structure PlainArray where
  length : ℕ := 0
  attrs : ℕ → UInt8 := fun _ => attrDefault
  elementsWritable : Bool := true
  elementsConfigurable : Bool := true

namespace PlainArray

def isHole (p : PlainArray) (i : ℕ) : Bool := p.attrs i &&& elemHole ≠ 0

def elementAttrsAt (p : PlainArray) (i : ℕ) : UInt8 :=
  let attrs := if !p.elementsWritable then p.attrs i &&& ~~~attrWritable else p.attrs i
  if !p.elementsConfigurable then attrs &&& ~~~attrConfigurable else attrs

/-- Marks indices as holes. -/
def markHoles (p : PlainArray) (start stop : ℕ) : PlainArray :=
  { p with attrs := fun i => if start ≤ i ∧ i < stop then elemHole else p.attrs i }

def setAttrs (p : PlainArray) (i : ℕ) (attrs : UInt8) : PlainArray :=
  { p with attrs := Function.update p.attrs i attrs }

/-- Forgets what is past a length. -/
def setLength (p : PlainArray) (wanted : ℕ) : PlainArray :=
  { p with
    length := if wanted ≤ denseLimit then wanted else min p.length wanted
    attrs := fun i => if i < wanted then p.attrs i else attrDefault }

/-- What an operation makes of a plain array. -/
def apply (p : PlainArray) : ArrayOp → PlainArray
  | .grow size upTo => { p with length := size }.markHoles p.length upTo
  | .settleHoleRun => p
  | .fillHole i => p.setAttrs i attrDefault
  | .setElementAttrs i attrs => p.setAttrs i attrs
  | .setJsLength n =>
    match arrayLength n with
    | none => p
    | some wanted => p.setLength wanted
  | .setJsLengthWithHoles n =>
    match arrayLength n with
    | none => p
    | some wanted => (p.setLength wanted).markHoles p.length (p.setLength wanted).length
  | .restrict writable configurable =>
    { p with elementsWritable := writable, elementsConfigurable := configurable }

end PlainArray

end CtBrowser.Script.Objects
