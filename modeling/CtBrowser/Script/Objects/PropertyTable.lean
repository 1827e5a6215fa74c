import CtBrowser.Core.Text

/-!
# Property Tables

The two tables of an ordinary object: its data properties in insertion order, with their attributes
beside them, and its accessors, each with the number of data properties that stood before it. Names
are found through an index: always for data properties, past eight entries for accessors.

## Main definitions

- `AccessorTable`, `ObjectObject` — the tables, with the operations of the source on them.
- `eachOwnEntry` — every own property in the order of OrdinaryOwnPropertyKeys.
- `Op`, `ObjectObject.apply` — one operation on an object.
-/

namespace CtBrowser.Script.Objects

/-! ## Attributes -/

def attrWritable : UInt8 := 1

def attrEnumerable : UInt8 := 2

def attrConfigurable : UInt8 := 4

/-- What an ordinary assignment gives a new property. -/
def attrDefault : UInt8 := attrWritable ||| attrEnumerable ||| attrConfigurable

/-! ## Indexes -/

/-- A map from names to positions: `string_flat_map`. -/
abbrev FlatMap := List (Text × ℕ)

namespace FlatMap

/-- The position under a name. -/
def find (m : FlatMap) (name : Text) : Option ℕ := m.lookup name

/-- Enters a name that is not there. -/
def emplace (m : FlatMap) (name : Text) (i : ℕ) : FlatMap :=
  if (m.find name).isSome then m else m ++ [(name, i)]

/-- Enters every name at its position. -/
def ofKeys (keys : List Text) : FlatMap :=
  keys.zipIdx.foldl (fun m e => m.emplace e.1 e.2) []

end FlatMap

variable {ν : Type}

/-! ## Accessors -/

/-- One accessor. -/
structure AccessorEntry (ν : Type) where
  key : Text
  getter : ν
  setter : ν
  -- how many data properties stand before it
  after : ℕ
  attrs : UInt8

/-- An object's accessors, beside its data properties. -/
structure AccessorTable (ν : Type) where
  entries : List (AccessorEntry ν) := []
  index : FlatMap := []
  -- whether there are any
  any : Bool := false

namespace AccessorTable

/-- The linear scan for a name. -/
def scan (t : AccessorTable ν) (name : Text) : Option ℕ := t.entries.findIdx? (·.key == name)

/-- Where the accessor of a name stands: by a scan up to eight entries, then by the index. -/
def find (t : AccessorTable ν) (name : Text) : Option ℕ :=
  if !t.any then none
  else if t.entries.length ≤ 8 then t.scan name
  else t.index.find name

/-- Rebuilds the index, which is kept past eight entries only. -/
def reindex (t : AccessorTable ν) : AccessorTable ν :=
  { t with index := if t.entries.length > 8 then FlatMap.ofKeys (t.entries.map (·.key)) else [] }

/-- Changes the accessor of a name, where an undefined getter or setter leaves the old one, or
appends it. -/
def define (isUndefined : ν → Bool) (t : AccessorTable ν) (name : Text) (getter setter : ν)
    (after : ℕ) (attrs : UInt8) : AccessorTable ν :=
  match t.find name with
  | some i =>
    { t with entries := t.entries.modify i fun existing =>
        { existing with
          getter := if isUndefined getter then existing.getter else getter
          setter := if isUndefined setter then existing.setter else setter
          attrs := attrs } }
  | none =>
    let entries := t.entries ++ [⟨name, getter, setter, after, attrs⟩]
    let index :=
      if entries.length > 8 then
        if t.index.isEmpty then FlatMap.ofKeys (entries.map (·.key))
        else t.index.emplace name (entries.length - 1)
      else t.index
    { entries, index, any := true }

/-- Removes the accessor of a name. -/
def erase (t : AccessorTable ν) (name : Text) : AccessorTable ν × Bool :=
  match t.scan name with
  | none => (t, false)
  | some i =>
    let entries := t.entries.eraseIdx i
    (reindex { t with entries, any := !entries.isEmpty }, true)

/-- Inserts an accessor at a position among the accessors. -/
def insert (t : AccessorTable ν) (slot : ℕ) (entry : AccessorEntry ν) : AccessorTable ν :=
  reindex { t with entries := t.entries.insertIdx (min slot t.entries.length) entry, any := true }

end AccessorTable

/-! ## Objects -/

/-- An ordinary object's properties. -/
structure ObjectObject (ν : Type) where
  -- the data properties, in insertion order
  props : List (Text × ν) := []
  index : FlatMap := []
  accessors : AccessorTable ν := {}
  -- the attributes of `props`, or nothing while all are the default ones
  attrs : List UInt8 := []
  -- whether a key looked like an array index when it was added
  indexed : Bool := false

/-- The number a decimal spelling stands for. -/
def decimalOf (key : Text) : Option ℕ :=
  key.foldlM (fun n c => if 48 ≤ c.toNat ∧ c.toNat ≤ 57 then some (n * 10 + (c.toNat - 48)) else none) 0

/-- The array index a key spells canonically. -/
def arrayIndexKey (key : Text) : Option ℕ :=
  if key.isEmpty || key.length > 10 then none
  else if key.length > 1 && key.head? == some 48 then none
  else (decimalOf key).filter fun n => n ≤ 4294967294

namespace ObjectObject

/-- Trims or fills the attributes to the properties they describe. -/
def normalise (o : ObjectObject ν) : ObjectObject ν :=
  { o with attrs :=
      if o.attrs.isEmpty then []
      else o.attrs.take o.props.length ++
        List.replicate (o.props.length - o.attrs.length) attrDefault }

def attrsAt (o : ObjectObject ν) (i : ℕ) : UInt8 := o.attrs.getD i attrDefault

def setAttrsAt (o : ObjectObject ν) (i : ℕ) (a : UInt8) : ObjectObject ν :=
  if a = attrDefault ∧ o.attrs.isEmpty then o
  else
    { o with attrs := (o.attrs ++
        List.replicate (o.props.length - o.attrs.length) attrDefault).set i a }

def setAttrs (o : ObjectObject ν) (name : Text) (a : UInt8) : ObjectObject ν :=
  match o.index.find name with
  | some i => o.setAttrsAt i a
  | none => o

/-- Sets a data property, keeping the attributes of one that exists. -/
def set (o : ObjectObject ν) (name : Text) (v : ν) : ObjectObject ν :=
  let o := o.normalise
  match o.index.find name with
  | some i => { o with props := o.props.modify i fun p => (p.1, v) }
  | none =>
    { o with
      index := o.index.emplace name o.props.length
      props := o.props ++ [(name, v)]
      attrs := if o.attrs.isEmpty then [] else o.attrs ++ [attrDefault]
      indexed := o.indexed || (arrayIndexKey name).isSome }

/-- Sets a data property with its attributes. -/
def define (o : ObjectObject ν) (name : Text) (v : ν) (a : UInt8) : ObjectObject ν :=
  (o.set name v).setAttrs name a

/-- Removes a data property, and moves the accessors after it along. -/
def erase (o : ObjectObject ν) (name : Text) : ObjectObject ν × Bool :=
  let o := o.normalise
  match o.index.find name with
  | none => (o, false)
  | some at' =>
    let props := o.props.eraseIdx at'
    let entries := o.accessors.entries.map fun entry =>
      if entry.after > at' then { entry with after := entry.after - 1 } else entry
    ({ o with
        props
        attrs := if o.attrs.isEmpty then [] else o.attrs.eraseIdx at'
        index := FlatMap.ofKeys (props.map Prod.fst)
        accessors := { o.accessors with entries } }, true)

/-- Defines an accessor. It takes the place of a data property of the same name. -/
def defineAccessor (isUndefined : ν → Bool) (o : ObjectObject ν) (name : Text) (getter setter : ν)
    (a : UInt8) : ObjectObject ν :=
  let o := { o with indexed := o.indexed || (arrayIndexKey name).isSome }
  match o.index.find name, o.accessors.find name with
  | some place, none =>
    let slot := (o.accessors.entries.findIdx? fun entry => entry.after > place).getD
      o.accessors.entries.length
    let erased := (o.erase name).1
    { erased with accessors := erased.accessors.insert slot ⟨name, getter, setter, place, a⟩ }
  | _, _ =>
    let erased := (o.erase name).1
    { erased with
      accessors := erased.accessors.define isUndefined name getter setter erased.props.length a }

def eraseAccessor (o : ObjectObject ν) (name : Text) : ObjectObject ν × Bool :=
  let erased := o.accessors.erase name
  ({ o with accessors := erased.1 }, erased.2)

/-- Defines a data property, in the place of an accessor of the same name. -/
def defineOverAccessor (o : ObjectObject ν) (name : Text) (v : ν) (a : UInt8) : ObjectObject ν :=
  match o.accessors.find name with
  | none => o.define name v a
  | some own =>
    let o := o.normalise
    let place := min ((o.accessors.entries[own]?.map (·.after)).getD 0) o.props.length
    -- accessors after this one now follow the data property
    let entries := o.accessors.entries.mapIdx fun i other =>
      if other.after > place ∨ other.after = place ∧ i > own then
        { other with after := other.after + 1 }
      else other
    let accessors := ({ o.accessors with entries }.erase name).1
    let props := o.props.insertIdx place (name, v)
    let attrs := if o.attrs.isEmpty then [] else o.attrs.insertIdx place attrDefault
    { o with props, attrs, accessors, index := FlatMap.ofKeys (props.map Prod.fst) }.setAttrsAt
      place a

/-- The walk in definition order from data property `i` on: before each data property and after
the last one stand the accessors of that position. -/
def walkFrom (entries : List (AccessorEntry ν)) : ℕ → List (Text × UInt8) → List (Text × UInt8)
  | i, [] => (entries.filter (·.after = i)).map fun entry => (entry.key, entry.attrs)
  | i, p :: ps => ((entries.filter (·.after = i)).map fun entry => (entry.key, entry.attrs)) ++
      p :: walkFrom entries (i + 1) ps

/-- The straight-line walk, data and accessors interleaved. -/
def eachOwnEntryInOrder (o : ObjectObject ν) : List (Text × UInt8) :=
  walkFrom o.accessors.entries 0 (o.props.zipIdx.map fun p => (p.1.1, o.attrsAt p.2))

/-- Every own key with its attributes: array indices first, ascending, then the others in
insertion order. -/
def eachOwnEntry (o : ObjectObject ν) : List (Text × UInt8) :=
  if !o.indexed then o.eachOwnEntryInOrder
  else
    let order := o.eachOwnEntryInOrder
    let atIndex := order.filterMap fun e => (arrayIndexKey e.1).map fun n => (n, e)
    let named := order.filter fun e => (arrayIndexKey e.1).isNone
    (atIndex.mergeSort fun x y => x.1 ≤ y.1).map Prod.snd ++ named

end ObjectObject

/-! ## Operations -/

/-- An operation on an object's tables. -/
inductive Op (ν : Type)
  | set (name : Text) (v : ν)
  | define (name : Text) (v : ν) (attrs : UInt8)
  | defineAccessor (name : Text) (getter setter : ν) (attrs : UInt8)
  | defineOverAccessor (name : Text) (v : ν) (attrs : UInt8)
  | erase (name : Text)
  | eraseAccessor (name : Text)

/-- What an operation makes of an object. -/
def ObjectObject.apply (isUndefined : ν → Bool) (o : ObjectObject ν) : Op ν → ObjectObject ν
  | .set name v => o.set name v
  | .define name v a => o.define name v a
  | .defineAccessor name getter setter a => o.defineAccessor isUndefined name getter setter a
  | .defineOverAccessor name v a => o.defineOverAccessor name v a
  | .erase name => (o.erase name).1
  | .eraseAccessor name => (o.eraseAccessor name).1

end CtBrowser.Script.Objects
