import CtBrowser.Foundations.SlotList
import CtBrowser.Script.Collections.Keyed

/-!
# `[[MapData]]` and `[[SetData]]`

What the language says `Map` and `Set` do. A collection's list never shrinks: a delete
empties a slot and a clear empties all of them, and the loops of `forEach` and of the
iterators step over empty slots.

## Main definitions

- `SlotState` — the lists with emptied slots, the iterators and the running loops.
- `slotStep` — one call, and what it answers.
-/

namespace CtBrowser.Script.Collections

open Foundations.SlotList

/-- A running `forEach` and its index into the list. -/
structure SlotLoop where
  collection : ℕ
  index : ℕ
deriving DecidableEq, Repr

/-- An iterator closure: the collection, its index, and whether the closure has ended. -/
structure SlotIterator where
  collection : ℕ
  index : ℕ
  kind : IterationKind
  finished : Bool
deriving DecidableEq, Repr

/-- The collections as the language keeps them. -/
structure SlotState (ν : Type) where
  kinds : ℕ → Kind
  data : ℕ → List (Option (Entry ν))
  iterators : List SlotIterator
  -- innermost first
  loops : List SlotLoop

namespace SlotState

variable {ν : Type} (ops : KeyOps ν)

/-- Replaces the list of a collection. -/
def setData (t : SlotState ν) (c : ℕ) (slots : List (Option (Entry ν))) : SlotState ν :=
  { t with data := Function.update t.data c slots }

/-- The slot of the entry under `key`. -/
def findKey (slots : List (Option (Entry ν))) (key : ν) : Option ℕ :=
  findSlot (fun entry => ops.sameValueZero entry.key key) slots

/-- `Map.prototype.set` on the list: changes the entry under `key` or appends one. -/
def put (slots : List (Option (Entry ν))) (key held : ν) : List (Option (Entry ν)) :=
  match findKey ops slots key with
  | some j => slots.modify j (Option.map fun entry => { entry with held := held })
  | none => slots ++ [some ⟨key, held⟩]

/-- `Set.prototype.add` on the list: appends a member that is not there. -/
def addTo (slots : List (Option (Entry ν))) (member : ν) : List (Option (Entry ν)) :=
  match findKey ops slots member with
  | some _ => slots
  | none => slots ++ [some ⟨member, member⟩]

/-- The innermost loop goes on to the next filled slot, or ends. -/
def advance (t : SlotState ν) : List SlotLoop → SlotState ν × Answer ν
  | [] => (t, .undefined)
  | loop :: outer =>
    match visit (t.data loop.collection) loop.index with
    | some (entry, index) => ({ t with loops := { loop with index := index } :: outer }, .visits entry)
    | none => ({ t with loops := outer }, .undefined)

/-- The iterator closure goes on to the next filled slot, or ends for good. -/
def next (t : SlotState ν) (i : ℕ) : SlotState ν × Answer ν :=
  match t.iterators[i]? with
  | none => (t, .typeError)
  | some it =>
    if it.finished then (t, .finished)
    else
      match visit (t.data it.collection) it.index with
      | some (entry, index) =>
        ({ t with iterators := t.iterators.set i { it with index := index } },
          .iterResult (it.kind.item entry))
      | none => ({ t with iterators := t.iterators.set i { it with finished := true } }, .finished)

end SlotState

/-- One call and its answer, as the language has it. -/
def slotStep {ν : Type} (ops : KeyOps ν) (t : SlotState ν) : Call ν → SlotState ν × Answer ν
  | .set c key held =>
    if t.kinds c = .map then
      (t.setData c (SlotState.put ops (t.data c) (ops.normaliseKey key) held), .receiver)
    else (t, .typeError)
  | .add c member =>
    if t.kinds c = .set then
      (t.setData c (SlotState.addTo ops (t.data c) (ops.normaliseKey member)), .receiver)
    else (t, .typeError)
  | .delete c key =>
    match SlotState.findKey ops (t.data c) key with
    | some j => (t.setData c ((t.data c).set j none), .boolean true)
    | none => (t, .boolean false)
  | .clear c => (t.setData c ((t.data c).map fun _ => none), .undefined)
  | .forEach c => t.advance (⟨c, 0⟩ :: t.loops)
  | .returns => t.advance t.loops
  | .throws => ({ t with loops := t.loops.tail }, .thrown)
  | .caught => (t, .undefined)
  | .iterator c kind =>
    ({ t with iterators := t.iterators ++ [⟨c, 0, kind, false⟩] }, .made t.iterators.length)
  | .next i => t.next i

/-- Collections of the given classes, before any call. -/
def SlotState.fresh {ν : Type} (kinds : ℕ → Kind) : SlotState ν :=
  { kinds := kinds, data := fun _ => [], iterators := [], loops := [] }

end CtBrowser.Script.Collections
