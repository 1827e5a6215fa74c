import CtBrowser.Core.Text

/-!
# Event Listeners

The registry of event listeners: the entries of all targets in one list, in the order they were
added. A listener is known by its target, type, callback and phase.

## Main definitions

- `ListenerRegistry` — the entries, and what the registry does with them.
- `ListenerEdit` — what a page does to its listeners.
- `ListenerTable` — the registry of one document.
-/

namespace CtBrowser.Shell

/-- The kind of event target a listener is registered on. -/
inductive EventTargetKind
  | node
  | document
  | window
  | object
deriving DecidableEq, Repr

/-- A listener's target: document and window use identity zero. -/
structure ListenerTarget where
  kind : EventTargetKind
  identity : ℕ
deriving DecidableEq, Repr

/-- The identity of a callback. The native function that stands for an event handler has an
identity of its own. -/
inductive CallbackId
  | function (id : ℕ)
  | handler (id : ℕ)
deriving DecidableEq, Repr

/-- One registered listener. -/
structure ListenerEntry (π : Type) where
  target : ListenerTarget
  type : Text
  callbackId : CallbackId
  capture : Bool
  once : Bool
  passive : Bool
  -- a `once` listener that has had its turn
  spent : Bool
  -- an event handler property rather than an `addEventListener` call
  handler : Bool
  payload : π
deriving DecidableEq, Repr

/-! ## The registry -/

/-- Every entry in registration order, including spent ones until they are reaped. -/
abbrev ListenerRegistry (π : Type) := List (ListenerEntry π)

namespace ListenerRegistry

variable {π : Type}

def matches_ (current : ListenerEntry π) (target : ListenerTarget) (type : Text)
    (capture : Bool) : Bool :=
  current.target = target && current.type = type && current.capture = capture

/-- Adds a listener, unless it is spent already or an equal one is there. -/
def add (entries : ListenerRegistry π) (made : ListenerEntry π) : Bool × ListenerRegistry π :=
  if made.spent then (false, entries)
  else if entries.any fun current => !current.spent &&
      matches_ current made.target made.type made.capture && current.callbackId = made.callbackId
  then (false, entries)
  else (true, entries ++ [made])

/-- The callbacks of the live listeners for one target, type and phase. -/
def snapshot (entries : ListenerRegistry π) (target : ListenerTarget) (type : Text)
    (capture : Bool) : List CallbackId :=
  (entries.filter fun current => !current.spent && matches_ current target type capture).map
    ListenerEntry.callbackId

/-- Looks up a listener just before it runs. A `once` listener is spent by that. -/
def begin_ (target : ListenerTarget) (type : Text) (callbackId : CallbackId) (capture : Bool) :
    ListenerRegistry π → Option (ListenerEntry π × ListenerRegistry π)
  | [] => none
  | current :: rest =>
    if !current.spent && current.callbackId = callbackId && matches_ current target type capture
    then
      let found := if current.once && !current.handler then { current with spent := true }
        else current
      some (found, found :: rest)
    else (begin_ target type callbackId capture rest).map fun (found, rest) =>
      (found, current :: rest)

/-- Drops the entries that a test picks. -/
def eraseIf (entries : ListenerRegistry π) (picked : ListenerEntry π → Bool) :
    ListenerRegistry π :=
  entries.filter fun current => !picked current

/-- `removeEventListener`. -/
def remove (entries : ListenerRegistry π) (target : ListenerTarget) (type : Text)
    (callbackId : CallbackId) (capture : Bool) : ListenerRegistry π :=
  entries.eraseIf fun current =>
    current.callbackId = callbackId && matches_ current target type capture

/-- Whether a target has an event handler slot for a type. -/
def hasHandler (entries : ListenerRegistry π) (target : ListenerTarget) (type : Text) : Bool :=
  entries.any fun current => current.handler && current.target = target && current.type = type

/-- Drops the event handler slot of a target for a type. -/
def removeHandler (entries : ListenerRegistry π) (target : ListenerTarget) (type : Text) :
    ListenerRegistry π :=
  entries.eraseIf fun current =>
    current.handler && current.target = target && current.type = type

/-- Erases spent `once` listeners. -/
def reapSpent (entries : ListenerRegistry π) : ListenerRegistry π :=
  entries.eraseIf ListenerEntry.spent

end ListenerRegistry

/-! ## The listeners of a document -/

/-- What the bindings keep with an entry. -/
structure ListenerPayload where
  -- which registration this is, counted from the first
  serial : ℕ
  abortSignal : Option ℕ
deriving DecidableEq, Repr

/-- A registration, as one that is about to run is described. -/
structure Registration where
  serial : ℕ
  abortSignal : Option ℕ
  target : ListenerTarget
  type : Text
  callbackId : CallbackId
  capture : Bool
  once : Bool
  passive : Bool
  handler : Bool
deriving DecidableEq, Repr

def ListenerEntry.registration (e : ListenerEntry ListenerPayload) : Registration where
  serial := e.payload.serial
  abortSignal := e.payload.abortSignal
  target := e.target
  type := e.type
  callbackId := e.callbackId
  capture := e.capture
  once := e.once
  passive := e.passive
  handler := e.handler

/-- What a page does to its listeners. -/
inductive ListenerEdit
  -- refused: without a callback, or with a signal that is aborted already
  | addEventListener (target : ListenerTarget) (type : Text) (callback : ℕ)
      (capture once passive : Bool) (abortSignal : Option ℕ) (refused : Bool)
  | removeEventListener (target : ListenerTarget) (type : Text) (callback : ℕ) (capture : Bool)
  | abort (signal : ℕ)
  -- an event handler is set where there was none, or keeps its place
  | activateHandler (target : ListenerTarget) (type : Text) (passive : Bool)
  | deactivateHandler (target : ListenerTarget) (type : Text)
deriving DecidableEq, Repr

/-- The registry of one document. -/
structure ListenerTable where
  listeners : ListenerRegistry ListenerPayload
  -- how many registrations were asked for
  made : ℕ
deriving DecidableEq, Repr

namespace ListenerTable

/-- Before anything is registered. -/
def fresh : ListenerTable := ⟨[], 0⟩

/-- Registers a listener, under a serial number of its own. -/
def addListener (s : ListenerTable) (made : ListenerEntry ListenerPayload) : ListenerTable :=
  ⟨(s.listeners.add made).2, s.made + 1⟩

/-- Adds the placeholder entry of an event handler, unless it has one. -/
def activateEventHandler (s : ListenerTable) (target : ListenerTarget) (type : Text)
    (passive : Bool) : ListenerTable :=
  if s.listeners.hasHandler target type then s
  else s.addListener {
    target, type, passive
    callbackId := .handler s.made
    capture := false
    once := false
    spent := false
    handler := true
    payload := ⟨s.made, none⟩ }

/-- One edit. -/
def edit (s : ListenerTable) : ListenerEdit → ListenerTable
  | .addEventListener target type callback capture once passive abortSignal refused =>
    s.addListener {
      target, type, capture, once, passive
      callbackId := .function callback
      spent := refused
      handler := false
      payload := ⟨s.made, abortSignal⟩ }
  | .removeEventListener target type callback capture =>
    { s with listeners := s.listeners.remove target type (.function callback) capture }
  | .abort signal =>
    { s with listeners := s.listeners.eraseIf fun l => l.payload.abortSignal = some signal }
  | .activateHandler target type passive => s.activateEventHandler target type passive
  | .deactivateHandler target type =>
    { s with listeners := s.listeners.removeHandler target type }

/-- The callbacks of the live listeners for one target, type and phase. -/
def snapshot (s : ListenerTable) (target : ListenerTarget) (type : Text) (capture : Bool) :
    List CallbackId :=
  s.listeners.snapshot target type capture

/-- Looks up a listener just before it runs. -/
def begin_ (s : ListenerTable) (target : ListenerTarget) (type : Text) (capture : Bool)
    (callbackId : CallbackId) : Option (Registration × ListenerTable) :=
  (s.listeners.begin_ target type callbackId capture).map fun (entry, listeners) =>
    (entry.registration, { s with listeners })

/-- Erases spent `once` listeners. -/
def reapSpentListeners (s : ListenerTable) : ListenerTable :=
  { s with listeners := s.listeners.reapSpent }

end ListenerTable

end CtBrowser.Shell
