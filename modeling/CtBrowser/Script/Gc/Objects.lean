import CtBrowser.Script.Value

/-!
# Heap objects and roots

What the collector walks: the values that each kind of heap object holds, and those that the engine
holds itself. Numbers, booleans and the singletons point nowhere, and a table's texts and attribute
bits lead to nothing, so neither is written down.

## Main definitions

- `HeapObject`, `HeapObject.edges` — the kinds of objects, and where each one points.
- `Roots`, `eachRoot` — what the engine holds, in the order it is visited.
-/

namespace CtBrowser.Script

/-- Where a heap object lives. -/
abbrev Address := UInt64

namespace Value

/-- The bits of a boxed word that are its pointer. -/
def payloadMask : UInt64 := 0x0000FFFFFFFFFFFF

/-- The object a heap value points to. -/
def asHeap (v : Value) : Address := v.bits &&& payloadMask

/-- Where a value points: the null pointer is no object. -/
def pointers (v : Value) : List Address := if v.isHeap ∧ v.asHeap ≠ 0 then [v.asHeap] else []

end Value

namespace Gc

/-- Where some values point. -/
def pointersOf (vs : List Value) : List Address := vs.flatMap Value.pointers

/-- The getter and the setter of an accessor. -/
structure AccessorEntry where
  getter : Value
  setter : Value
deriving DecidableEq, Repr

/-- The values an object's own properties hold. -/
structure Properties where
  props : List Value
  accessors : List AccessorEntry
deriving DecidableEq, Repr

/-- Where own properties point. -/
def Properties.edges (p : Properties) : List Address :=
  pointersOf p.props ++ p.accessors.flatMap fun entry => entry.getter.pointers ++ entry.setter.pointers

structure ArrayObject where
  items : List Value
  sparse : List Value
  viewed : Value
  prototype : Value
  index : Value
  input : Value
  groups : Value
  /-- The array's own table, which is no heap object. -/
  named : Option Properties
deriving DecidableEq, Repr

structure ClosureObject where
  upvalues : List Value
  props : Properties
  capturedThis : Value
  protoLink : Value
deriving DecidableEq, Repr

structure NativeObject where
  props : Properties
  /-- What the native's C++ lambda captured. -/
  retained : List Value
  protoLink : Value
deriving DecidableEq, Repr

structure AsyncRequest where
  sent : Value
  promise : Value
deriving DecidableEq, Repr

structure CoroutineObject where
  window : List Value
  receiver : Value
  promise : Value
  closure : Option Address
  self : Value
  delegate : Value
  queue : List AsyncRequest
deriving DecidableEq, Repr

/-- A heap object, by its kind. -/
inductive HeapObject
  | string
  | symbol
  | bigint
  | array (arr : ArrayObject)
  | object (props : Properties) (prototype : Value)
  | cell (slot : Value)
  | function (closure : ClosureObject)
  | native (fn : NativeObject)
  | proxy (target handler privateElements : Value)
  | coroutine (saved : CoroutineObject)
deriving DecidableEq, Repr

/-- Where an object points, in the order its edges are followed. Strings, symbols and integers own no
values. -/
def HeapObject.edges : HeapObject → List Address
  | string | symbol | bigint => []
  | array arr =>
    pointersOf arr.items ++ pointersOf arr.sparse ++
      pointersOf [arr.viewed, arr.prototype, arr.index, arr.input, arr.groups] ++
      (arr.named.map Properties.edges).getD []
  | object props prototype => props.edges ++ prototype.pointers
  | cell slot => slot.pointers
  | function closure =>
    pointersOf closure.upvalues ++ closure.props.edges ++ pointersOf [closure.capturedThis, closure.protoLink]
  | native fn => fn.props.edges ++ pointersOf fn.retained ++ fn.protoLink.pointers
  | proxy target handler privateElements => pointersOf [target, handler, privateElements]
  | coroutine saved =>
    pointersOf saved.window ++ pointersOf [saved.receiver, saved.promise] ++ saved.closure.toList ++
      pointersOf [saved.self, saved.delegate] ++
      saved.queue.flatMap fun waiting => pointersOf [waiting.sent, waiting.promise]

/-! ## Roots -/

/-- What a realm holds. -/
structure Realm where
  globalThis : Value
  globals : List Value
  internals : List Value
  platformPrototypes : List Value
  prototypes : List (Option Address)
  errorPrototypes : List (Option Address)
  throwTypeError : Value

/-- What a call frame holds beside its registers. -/
structure CallFrame where
  closure : Option Address
  receiver : Value
  receiverCell : Value
  argumentsObject : Value
  asyncPromise : Value
  newTarget : Value

structure Microtask where
  fn : Value
  args : List Value

structure ModuleRecord where
  exports : List Value
  namespaceObject : Value
  deferredNamespaceObject : Value

/-- What the engine holds. -/
structure Roots where
  realms : List Realm
  realmTemplate : List Value
  realmTemplateInternals : List Value
  realmTemplatePlatformPrototypes : List Value
  registers : List Value
  currentThis : Value
  pendingNewTarget : Value
  pendingClosure : Value
  frames : List CallFrame
  microtasks : List Microtask
  awaitJob : Value
  modules : List ModuleRecord
  thrown : Value
  fenceThrown : Value
  pendingThrow : Value
  temporaries : List Value
  stringCache : List (List Value)
  bigintCache : List (List Value)
  /-- What the host holds: listeners, timer callbacks and wrappers. -/
  externalRoots : List Value

def Realm.pointers (r : Realm) : List Address :=
  r.globalThis.pointers ++ pointersOf r.globals ++ pointersOf r.internals ++ pointersOf r.platformPrototypes ++
    r.prototypes.flatMap Option.toList ++ r.errorPrototypes.flatMap Option.toList ++ r.throwTypeError.pointers

def CallFrame.pointers (f : CallFrame) : List Address :=
  f.closure.toList ++ pointersOf [f.receiver, f.receiverCell, f.argumentsObject, f.asyncPromise, f.newTarget]

/-- The root inventory, below a limit of registers and one of frames. -/
def eachRoot (r : Roots) (registerLimit frameLimit : ℕ) : List Address :=
  r.realms.flatMap Realm.pointers ++ pointersOf r.realmTemplate ++ pointersOf r.realmTemplateInternals ++
    pointersOf r.realmTemplatePlatformPrototypes ++ pointersOf (r.registers.take registerLimit) ++
    pointersOf [r.currentThis, r.pendingNewTarget, r.pendingClosure] ++
    (r.frames.take frameLimit).flatMap CallFrame.pointers ++
    r.microtasks.flatMap (fun job => job.fn.pointers ++ pointersOf job.args) ++ r.awaitJob.pointers ++
    r.modules.flatMap (fun m => pointersOf m.exports ++ pointersOf [m.namespaceObject, m.deferredNamespaceObject]) ++
    pointersOf [r.thrown, r.fenceThrown, r.pendingThrow] ++ pointersOf r.temporaries ++
    r.stringCache.flatMap pointersOf ++ r.bigintCache.flatMap pointersOf ++ pointersOf r.externalRoots

end Gc

end CtBrowser.Script
