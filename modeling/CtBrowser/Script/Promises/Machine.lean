import CtBrowser.Foundations.Transition

/-!
# Promises

The promise algorithms of the engine: settling and resolving a promise, the pairs of resolving
functions, reactions and the two jobs that run them, and suspended awaits. Scripts enter these
algorithms from anywhere, also from inside the handlers and getters they call, so a state
holds the stack of the calls that are waiting for a script to return.

## Main definitions

- `State` — the promises, the resolving pairs, the job queue and the waiting calls.
- `settle`, `resolvePromise`, `performThen`, `deliver` — the algorithms.
- `step` — what a script or the event loop does next.
-/

namespace CtBrowser.Script.Promises

/-- A handle to a promise. -/
abbrev PromiseId := ℕ

/-- A handle to the state a pair of resolving functions shares. -/
abbrev PairId := ℕ

/-- A handle to a suspended async function. -/
abbrev CoroutineId := ℕ

/-- A script value, as far as promises tell values apart. -/
inductive Value
  | undefined
  | primitive (bits : ℕ)
  | promise (id : PromiseId)
  -- one of a pair of resolving functions
  | resolving (pair : PairId) (rejecting : Bool)
  | function (id : ℕ)
  | object (id : ℕ)
  | error (name message : String)
deriving DecidableEq, Repr

/-- Whether a value can be called. -/
def Value.isCallable : Value → Bool
  | .resolving .. | .function _ => true
  | .undefined | .primitive _ | .promise _ | .object _ | .error .. => false

/-- Whether a value is an object of any kind. -/
def Value.isObjectLike : Value → Bool
  | .undefined | .primitive _ => false
  | .promise _ | .resolving .. | .function _ | .object _ | .error .. => true

/-- A promise capability. The functions of a native one are made on first need. -/
structure Capability where
  promise : Value
  resolve : Value
  reject : Value
deriving DecidableEq, Repr

/-- What a reaction does once its promise is settled. -/
inductive Reaction
  | handlers (ok err : Value) (next : Capability)
  -- a suspended await
  | resume (coroutine : CoroutineId)
deriving DecidableEq, Repr

/-- A reaction record. -/
structure Record where
  reaction : Reaction
  -- its number among all registrations, which nothing reads
  registration : ℕ
deriving DecidableEq, Repr

/-- The slots of a promise. -/
structure Slots where
  value : Value
  rejected : Bool
  settled : Bool
  handlers : List Record
  isHandled : Bool
deriving DecidableEq, Repr

/-- The state that a pair of resolving functions shares. -/
structure Pair where
  promise : Value
  done : Bool
deriving DecidableEq, Repr

/-- A queued job. -/
inductive Job
  | reaction (record : Record) (argument : Value) (rejected : Bool)
  | thenable (promise thenable callee : Value)
  | await (coroutine : CoroutineId) (argument : Value) (rejected : Bool)
  -- a function that a script or the host queued
  | script (callee : Value)
deriving DecidableEq, Repr

/-- A call whose callee has not returned. -/
inductive Frame
  | handler (next : Capability)
  | getThen (promise resolution : Value)
  | thenable (pair : PairId)
  | executor (pair : PairId)
  | coroutine (promise : Value)
  -- a call whose completion is not read
  | plain
deriving DecidableEq, Repr

/-- How a callee returned. -/
inductive Completion
  | returned (value : Value)
  | thrown (value : Value)
deriving DecidableEq, Repr

/-- What has happened so far, which nothing reads. -/
structure History where
  -- the promise of each registration
  registered : List PromiseId
  -- each queued job, with the registration it is for
  queued : List (Job × Option ℕ)
  -- the jobs that have been taken from the queue
  started : List Job
  -- the jobs whose handler has been called
  called : List Job
  -- the pairs of which a function had an effect
  effects : List PairId
  settled : List PromiseId
deriving DecidableEq, Repr

/-- The promises of a realm. -/
structure State where
  promises : List Slots
  pairs : List Pair
  -- the promise of each suspended async function
  coroutines : List Value
  queue : List Job
  stack : List Frame
  history : History
deriving DecidableEq, Repr

namespace State

/-- A realm without promises. -/
def new : State := ⟨[], [], [], [], [], ⟨[], [], [], [], [], []⟩⟩

/-- The slots of a promise. -/
def slots (s : State) : Value → Option Slots
  | .promise id => s.promises[id]?
  | _ => none

/-- Waits for a callee to return. -/
def push (s : State) (frame : Frame) : State := { s with stack := frame :: s.stack }

/-- Queues a job at the end. -/
def queueMicrotask (s : State) (job : Job) (registration : Option ℕ) : State :=
  { s with
    queue := s.queue ++ [job]
    history := { s.history with queued := s.history.queued ++ [(job, registration)] } }

/-- A new pending promise. -/
def pendingPromise (s : State) : State × Value :=
  ({ s with promises := s.promises ++ [⟨.undefined, false, false, [], false⟩] },
    .promise s.promises.length)

/-- A new pair of resolving functions of a promise. -/
def resolversFor (s : State) (promise : Value) : State × PairId :=
  ({ s with pairs := s.pairs ++ [⟨promise, false⟩] }, s.pairs.length)

/-- Marks a promise as handled. -/
def markHandled (s : State) (id : PromiseId) : State :=
  { s with promises := s.promises.modify id fun p => { p with isHandled := true } }

/-! ### Settling -/

/-- Queues the job of a reaction record. -/
def enqueueReaction (s : State) (record : Record) (argument : Value) (rejected : Bool) : State :=
  s.queueMicrotask (.reaction record argument rejected) (some record.registration)

/-- Settles a promise that is pending, and queues its reactions. -/
def settle (s : State) (promise argument : Value) (rejected : Bool) : State :=
  match promise with
  | .promise id =>
    match s.promises[id]? with
    | none => s
    | some p =>
      if p.settled then s
      else
        let settled := { s with
          promises := s.promises.set id
            { p with value := argument, rejected := rejected, settled := true, handlers := [] }
          history := { s.history with settled := s.history.settled ++ [id] } }
        p.handlers.foldl (fun s record => s.enqueueReaction record argument rejected) settled
  | _ => s

/-- Resolves a promise: a thenable is asked for its then first. -/
def resolvePromise (s : State) (promise resolution : Value) : State :=
  if resolution = promise then
    s.settle promise (.error "TypeError" "Chaining cycle detected for promise") true
  else if resolution.isObjectLike = false then s.settle promise resolution false
  else s.push (.getThen promise resolution)

/-- Goes on once the then of a resolution has been read. -/
def afterGetThen (s : State) (promise resolution : Value) : Completion → State
  | .thrown thrown => s.settle promise thrown true
  | .returned callee =>
    if callee.isCallable then s.queueMicrotask (.thenable promise resolution callee) none
    else s.settle promise resolution false

/-- Calls one of a pair of resolving functions. -/
def callResolving (s : State) (pair : PairId) (rejecting : Bool) (argument : Value) : State :=
  match s.pairs[pair]? with
  | none => s
  | some shared =>
    if shared.done then s
    else
      let marked := { s with
        pairs := s.pairs.set pair { shared with done := true }
        history := { s.history with effects := s.history.effects ++ [pair] } }
      if rejecting then marked.settle shared.promise argument true
      else marked.resolvePromise shared.promise argument

/-- Calls a function: a resolving function runs at once, a script's when it likes. -/
def call (s : State) (frame : Frame) (callee argument : Value) : State :=
  match callee with
  | .resolving pair rejecting => (s.push frame).callResolving pair rejecting argument
  | _ => s.push frame

/-- Settles a capability: through its functions when it has them. -/
def settleCapability (s : State) (cap : Capability) (argument : Value) (rejected : Bool) : State :=
  let callee := if rejected then cap.reject else cap.resolve
  if callee.isCallable then s.call .plain callee argument
  else if rejected then s.settle cap.promise argument true
  else s.resolvePromise cap.promise argument

/-! ### Reactions -/

/-- Registers handlers on a promise: kept while it is pending, queued once it is not. -/
def performThen (s : State) (id : PromiseId) (ok err : Value) (next : Capability) : State :=
  match s.promises[id]? with
  | none => s
  | some p =>
    let handler := fun callee : Value => if callee.isCallable then callee else .undefined
    let record : Record :=
      ⟨.handlers (handler ok) (handler err) next, s.history.registered.length⟩
    let registered := { s with
      history := { s.history with registered := s.history.registered ++ [id] } }
    if p.settled then (registered.enqueueReaction record p.value p.rejected).markHandled id
    else
      { registered with
        promises := s.promises.set id { p with handlers := p.handlers ++ [record] } }.markHandled id

/-- Goes on with the capability of a reaction once its handler has returned. -/
def afterHandler (s : State) (next : Capability) (result : Value) (threw : Bool) : State :=
  if next.promise ≠ .undefined ∨ next.resolve.isCallable then
    s.settleCapability next result threw
  else s

/-- Resumes a suspended async function. -/
def resume (s : State) (coroutine : CoroutineId) : State :=
  match s.coroutines[coroutine]? with
  | none => s
  | some promise => s.push (.coroutine promise)

/-- Notes that the handler of a job is called. -/
def noteCall (s : State) (job : Job) : State :=
  { s with history := { s.history with called := s.history.called ++ [job] } }

/-- Runs a reaction. -/
def deliver (s : State) (record : Record) (argument : Value) (rejected : Bool) : State :=
  match record.reaction with
  | .resume coroutine => (s.noteCall (.reaction record argument rejected)).resume coroutine
  | .handlers ok err next =>
    let handler := if rejected then err else ok
    if handler.isCallable then
      (s.noteCall (.reaction record argument rejected)).call (.handler next) handler argument
    else s.afterHandler next argument rejected

/-- Suspends an async function until a value settles. -/
def suspend (s : State) (promise awaited : Value) : State :=
  let coroutine := s.coroutines.length
  let saved := { s with coroutines := s.coroutines ++ [promise] }
  match awaited with
  | .promise id =>
    match s.promises[id]? with
    | none => saved.queueMicrotask (.await coroutine awaited false) none
    | some p =>
      let registration := s.history.registered.length
      let registered := { saved with
        history := { s.history with registered := s.history.registered ++ [id] } }
      if p.settled then
        (registered.markHandled id).queueMicrotask (.await coroutine p.value p.rejected)
          (some registration)
      else
        let record : Record := ⟨.resume coroutine, registration⟩
        { registered with
          promises := s.promises.set id
            { p with handlers := p.handlers ++ [record] } }.markHandled id
  | _ => saved.queueMicrotask (.await coroutine awaited false) none

/-- Settles the promise of an async function whose body is done, adopting the promise the body
ended with once that is settled. -/
def finishCoroutine (s : State) (promise : Value) : Completion → State
  | .thrown thrown => s.settle promise thrown true
  | .returned value =>
    match value with
    | .promise id =>
      match s.promises[id]? with
      | some p =>
        if p.settled then
          if p.rejected then (s.markHandled id).settle promise p.value true
          else (s.markHandled id).resolvePromise promise p.value
        else s.resolvePromise promise value
      | none => s.resolvePromise promise value
    | _ => s.resolvePromise promise value

/-! ### Jobs and steps -/

/-- Runs a job. -/
def perform (s : State) : Job → State
  | .reaction record argument rejected => s.deliver record argument rejected
  | .thenable promise _ callee =>
    let (made, pair) := s.resolversFor promise
    made.call (.thenable pair) callee (.resolving pair false)
  | .await coroutine argument rejected =>
    (s.noteCall (.await coroutine argument rejected)).resume coroutine
  | .script callee => s.call .plain callee .undefined

/-- Takes the first job from the queue and runs it. -/
def runJob (s : State) : Option State :=
  match s.queue with
  | [] => none
  | job :: rest =>
    some ({ s with
      queue := rest
      history := { s.history with started := s.history.started ++ [job] } }.perform job)

/-- The last call's callee returns. -/
def finish (s : State) (completion : Completion) : Option State :=
  match s.stack with
  | [] => none
  | frame :: rest =>
    let popped := { s with stack := rest }
    some <| match frame, completion with
      | .handler next, .returned value => popped.afterHandler next value false
      | .handler next, .thrown value => popped.afterHandler next value true
      | .getThen promise resolution, completion =>
        popped.afterGetThen promise resolution completion
      | .thenable pair, .thrown value | .executor pair, .thrown value =>
        popped.callResolving pair true value
      | .thenable _, .returned _ | .executor _, .returned _ | .plain, _ => popped
      | .coroutine promise, completion => popped.finishCoroutine promise completion

end State

/-- What happens next. -/
inductive Action
  | pendingPromise
  | resolversFor (promise : Value)
  -- the constructor, with its executor
  | construct (executor : Value)
  | performThen (id : PromiseId) (ok err : Value) (next : Capability)
  | callResolving (pair : PairId) (rejecting : Bool) (argument : Value)
  | settleCapability (cap : Capability) (argument : Value) (rejected : Bool)
  -- an async function awaits for the first time, or again
  | awaitFirst (awaited : Value)
  | awaitAgain (awaited : Value)
  | queueMicrotask (callee : Value)
  | finish (completion : Completion)
  | runJob
  -- a script that failed for good takes the queue with it
  | dropQueue
deriving DecidableEq, Repr

/-- The state after an action that can happen. -/
def step (s : State) : Action → Option State
  | .pendingPromise => some s.pendingPromise.1
  | .resolversFor promise => some (s.resolversFor promise).1
  | .construct executor =>
    let (made, promise) := s.pendingPromise
    let (made, pair) := made.resolversFor promise
    some (made.call (.executor pair) executor (.resolving pair false))
  | .performThen id ok err next => some (s.performThen id ok err next)
  | .callResolving pair rejecting argument => some (s.callResolving pair rejecting argument)
  | .settleCapability cap argument rejected => some (s.settleCapability cap argument rejected)
  | .awaitFirst awaited =>
    let (made, promise) := s.pendingPromise
    some (made.suspend promise awaited)
  | .awaitAgain awaited =>
    match s.stack with
    | .coroutine promise :: rest => some ({ s with stack := rest }.suspend promise awaited)
    | _ => none
  | .queueMicrotask callee => some (s.queueMicrotask (.script callee) none)
  | .finish completion => s.finish completion
  | .runJob => s.runJob
  | .dropQueue => some { s with queue := [] }

open Foundations in
/-- The runs of a realm's scripts. -/
def promiseSystem : TransitionSystem State Action where
  initial s := s = State.new
  step s action s' := step s action = some s'

end CtBrowser.Script.Promises
