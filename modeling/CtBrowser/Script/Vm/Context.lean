import CtBrowser.Foundations.WindowStack
import CtBrowser.Script.Bytecode

/-!
# The Interpreter's Stacks

The state the interpreter keeps between instructions: one register vector shared by the
windows of all call frames, the frames, the exception handlers, the coroutines that hold
suspended frames, and the C++ calls that run the interpreter loop. All four stacks are listed
bottom first, as the vectors of the source are. A frame carries the fields its operations read;
heap objects appear as addresses only.

## Main definitions

- `CallFrame`, `Handler`, `Coroutine`, `Run`, `Context` — the state.
- `executeCall`, `executeConstruct`, `ret` — the opcodes that push and pop frames.
- `unwindToHandler`, `throwValue` — throwing.
- `suspendFrame`, `restoreFrame`, `makeGenerator` — coroutines.
- `invoke`, `runReentrant`, `execute`, `leave` — entering the loop from C++, and leaving it.
-/

namespace CtBrowser.Script.Vm

open CtBrowser.Foundations

/-- The address of a heap object. -/
abbrev HeapRef := ℕ

/-- The activation of an interpreted function. -/
structure CallFrame where
  proto : FunctionProto
  ip : ℕ := 0
  -- the index in the register vector of this frame's register 0
  base : ℕ := 0
  -- the caller's register that receives the result
  resultReg : UInt16 := 0
  -- how many arguments arrived
  argc : UInt16 := 0
  closure : Option HeapRef := none
  receiver : Value := .undefined
  -- how many exception handlers there were on entry
  handlerBase : ℕ := 0
  landedSlot : UInt16 := 0
  newTarget : Value := .undefined
  generator : Option HeapRef := none
  constructing : Bool := false
  -- the items of the `arguments` object, once it was built
  argumentsObject : Option (List Value) := none
  asyncPromise : Value := .undefined
deriving DecidableEq, Repr

/-- An exception handler: a `try` of an interpreted frame, or the fence of a C++ caller. -/
structure Handler where
  frame : ℕ := 0
  address : ℕ := 0
  regTop : ℕ := 0
  slot : UInt16 := 0
  fence : Bool := false
deriving DecidableEq, Repr

/-- A suspended frame: its register window and its handlers, whose `regTop` is relative to the
frame's base. -/
structure Coroutine where
  proto : FunctionProto
  ip : ℕ := 0
  awaitReg : UInt16 := 0
  argc : UInt16 := 0
  closure : Option HeapRef := none
  receiver : Value := .undefined
  constructing : Bool := false
  window : List Value := []
  handlers : List Handler := []
  promise : Value := .undefined
  generator : Bool := false
  started : Bool := false
deriving DecidableEq, Repr

/-- The C++ calls that run the interpreter loop. -/
inductive RunKind
  -- the top level of a script
  | execute
  -- a call from C++, or a module evaluated inside another program's turn
  | invoke
  -- an async function put back by its awaited promise
  | resume
  -- a generator put back by a request
  | generatorResume
deriving DecidableEq, Repr

/-- A C++ call that runs the interpreter loop. -/
structure Run where
  kind : RunKind
  -- the size of the register vector when the call started
  base : ℕ := 0
  -- the number of frames at which the loop stops
  stop : ℕ := 0
  -- the base of the frame whose instruction made the call
  site : ℕ := 0
  -- the size of the handler stack with the call's own fence on it
  fenceMark : Option ℕ := none
deriving DecidableEq, Repr

/-- The interpreter's state between instructions. -/
structure Context where
  registers : List Value := []
  frames : List CallFrame := []
  handlers : List Handler := []
  thrown : Value := .undefined
  fenceHit : Bool := false
  fenceThrown : Value := .undefined
  failed : Bool := false
  yielded : Bool := false
  suspended : Bool := false
  coroutines : List Coroutine := []
  -- the C++ calls that run the loop, innermost first
  runs : List Run := []
deriving DecidableEq, Repr

/-- What a frame is entered with besides its arguments: the function, the closure object, the
bound receiver and the constructor in flight. -/
structure Callee where
  proto : FunctionProto
  closure : Option HeapRef := none
  receiver : Value := .undefined
  newTarget : Value := .undefined
deriving DecidableEq, Repr

/-- The spare registers every frame entry reserves above the frame's own. -/
def slack : ℕ := 8

/-- The interpreter's frame-depth limit. -/
def maxFrames : ℕ := 512

namespace CallFrame

/-- The number of registers the frame's body needs. -/
def size (f : CallFrame) : ℕ := f.proto.frameSize.toNat

/-- The window of a frame on the register vector. -/
def window (f : CallFrame) : Window := ⟨f.base, f.size⟩

/-- A frame made to go on at a handler. -/
def landedAt (f : CallFrame) (h : Handler) : CallFrame :=
  { f with ip := h.address, landedSlot := h.slot }

@[simp]
theorem window_landedAt (f : CallFrame) (h : Handler) : (f.landedAt h).window = f.window := rfl

end CallFrame

namespace Context

variable (s : Context)

/-- Change the running frame. -/
def mapTop (f : CallFrame → CallFrame) : Context :=
  { s with frames := s.frames.dropLast ++ (s.frames.getLast?.map f).toList }

/-- The head of the loop moves the running frame past the instruction it fetches. -/
def fetched : Context := s.mapTop fun frame => { frame with ip := frame.ip + 1 }

/-- Write a register of a window; an index past the end is not written. -/
def writeRegister (index : ℕ) (v : Value) : Context :=
  { s with registers := s.registers.set index v }

/-- Mark the context failed with an uncatchable error. -/
def raise : Context := { s with failed := true }

/-- Go to a handler of the frame it belongs to: the frames above go, and the thrown value is
written to the handler's register. -/
def land (h : Handler) (below : List Handler) : Context :=
  let frames := s.frames.take (h.frame + 1)
  match frames.getLast? with
  | none => { s with handlers := below }
  | some target =>
    { s with
      frames := frames.dropLast ++ [target.landedAt h]
      handlers := below
      registers := (grownTo h.regTop .undefined s.registers).set (target.base + h.slot.toNat)
        s.thrown
      thrown := .undefined }

/-- Find the innermost live handler among `handlers`, listed top first, and go to it. -/
def unwind : List Handler → Bool × Context
  | [] => (false, { s with handlers := [] })
  | h :: below =>
    if h.fence then
      (true, { s with
        frames := s.frames.take h.frame
        handlers := below.reverse
        fenceThrown := s.thrown
        fenceHit := true
        thrown := .undefined })
    -- a handler whose frame already returned
    else if s.frames.length ≤ h.frame then unwind below
    else (true, s.land h below.reverse)

/-- Find the innermost live handler and go to it. -/
def unwindToHandler : Bool × Context := s.unwind s.handlers.reverse

/-- Throw a value: to the innermost live handler, or else as an uncatchable error. -/
def throwValue (v : Value) : Context :=
  match ({ s with thrown := v } : Context).unwindToHandler with
  | (true, t) => t
  | (false, t) => t.raise

/-- The register vector a callee is entered with: grown to its frame, the parameters past the
arguments that arrived undefined. -/
def calleeRegisters (newBase : ℕ) (target : FunctionProto) (argc : ℕ) : List Value :=
  overwritten (newBase + argc) .undefined (target.paramCount.toNat - argc)
    (grownTo (newBase + target.frameSize.toNat + slack) .undefined s.registers)

/-- Push the frame of a callee whose arguments already are in the caller's window, or throw
the stack-overflow error, whose value is `overflow`. -/
def enterCallee (one : Instruction) (callee : Callee) (constructing : Bool)
    (overflow : Value) : Context :=
  match s.frames.getLast? with
  | none => s
  | some frame =>
    let newBase := frame.base + one.a.toNat + 1
    let t := { s with registers := s.calleeRegisters newBase callee.proto one.b.toNat }
    if s.frames.length > maxFrames then t.throwValue overflow
    else { t with frames := s.frames ++ [{
        proto := callee.proto, base := newBase, resultReg := one.a, argc := one.b
        closure := callee.closure, receiver := callee.receiver
        handlerBase := s.handlers.length, newTarget := callee.newTarget
        constructing }] }

/-- A call opcode on an interpreted closure that is no generator. -/
def executeCall (one : Instruction) (callee : Callee) (overflow : Value) : Context :=
  s.enterCallee one callee false overflow

/-- A construct opcode on an interpreted constructor. -/
def executeConstruct (one : Instruction) (callee : Callee) (overflow : Value) : Context :=
  s.enterCallee one callee true overflow

/-- Return a value: the frame's handlers die with it, and the caller's register receives the
value unless the loop stops here. -/
def ret (stop : ℕ) (returned : Value) : Context :=
  match s.frames.getLast? with
  | none => s
  | some frame =>
    let frames := s.frames.dropLast
    let t := { s with
      frames
      handlers := if s.handlers.length > frame.handlerBase then
        resized frame.handlerBase {} s.handlers else s.handlers }
    if frames.length ≤ stop then t
    else match frames.getLast? with
      | none => t
      | some caller => t.writeRegister (caller.base + frame.resultReg.toNat) returned

/-- The size suspension keeps: the suspended frame's base, and the window of the frame below
it with its spare registers. -/
def keptSize : ℕ :=
  match s.frames.getLast? with
  | none => s.registers.length
  | some frame =>
    match s.frames.dropLast.getLast? with
    | none => frame.base
    | some caller => max frame.base (caller.base + caller.proto.frameSize.toNat + slack)

/-- What a suspended frame is saved as. -/
def savedAs (frame : CallFrame) (saved : Coroutine) (awaitReg : UInt16) : Coroutine :=
  { saved with
    proto := frame.proto, ip := frame.ip, awaitReg, argc := frame.argc
    closure := frame.closure, receiver := frame.receiver
    constructing := frame.constructing, promise := frame.asyncPromise
    window := s.registers.drop frame.base
    handlers := (s.handlers.drop frame.handlerBase).map fun h =>
      { h with regTop := h.regTop - frame.base } }

/-- Move the top frame into a coroutine and pop it: into the one at `c`, or into a new one. -/
def suspendFrame (c : Option HeapRef) (awaitReg : UInt16) : Context :=
  match s.frames.getLast? with
  | none => s
  | some frame =>
    { s with
      coroutines := match c with
        | some i => s.coroutines.modify i fun saved => s.savedAs frame saved awaitReg
        | none => s.coroutines ++ [s.savedAs frame { proto := frame.proto } awaitReg]
      handlers := resized frame.handlerBase {} s.handlers
      frames := s.frames.dropLast
      registers := if s.registers.length > s.keptSize then
        resized s.keptSize .undefined s.registers else s.registers }

/-- Await a value that is not at hand: suspend the frame and give its caller the promise of
its result, unless the loop stops here. -/
def executeAwait (stop : ℕ) (one : Instruction) (promise : Value) : Context :=
  let t := s.mapTop fun frame =>
    if frame.asyncPromise.isUndefined then { frame with asyncPromise := promise } else frame
  match t.frames.getLast? with
  | none => s
  | some frame =>
    let u := { t.suspendFrame frame.generator one.a with suspended := true }
    if u.frames.length ≤ stop then u
    else match u.frames.getLast? with
      | none => u
      | some caller => u.writeRegister (caller.base + frame.resultReg.toNat) frame.asyncPromise

/-- Yield a value: suspend the frame into its generator. Outside the request that resumed it
there is nowhere to put the value. -/
def executeYield (stop : ℕ) (one : Instruction) : Context :=
  match s.frames.getLast? with
  | none => s
  | some frame =>
    match frame.generator with
    | none => s.raise
    | some c =>
      let t := { s.suspendFrame (some c) one.a with yielded := true }
      if t.frames.length ≤ stop then t else t.raise

/-- Push a coroutine's window and handlers back as a new top frame. -/
def restoreFrame (c : HeapRef) : Context :=
  match s.coroutines[c]? with
  | none => s
  | some saved =>
    let base := s.registers.length
    { s with
      registers := s.registers ++ saved.window ++ List.replicate slack .undefined
      frames := s.frames ++ [{
        proto := saved.proto, ip := saved.ip, base, resultReg := 0, argc := saved.argc
        closure := saved.closure, receiver := saved.receiver
        constructing := saved.constructing, handlerBase := s.handlers.length
        generator := if saved.generator then some c else none
        asyncPromise := saved.promise }]
      handlers := s.handlers ++ saved.handlers.map fun h =>
        { h with frame := s.frames.length, regTop := h.regTop + base }
      coroutines := s.coroutines.modify c fun saved => { saved with handlers := [] } }

/-- The generator object of a call: the arguments are the first registers of a window of the
frame's size, and nothing has run. -/
def generatorOf (callee : Callee) (args : List Value) : Coroutine :=
  { proto := callee.proto, argc := UInt16.ofNat args.length
    closure := callee.closure, receiver := callee.receiver, generator := true
    window := resized callee.proto.frameSize.toNat .undefined args }

/-- Call a generator function: it makes the generator object and runs nothing. -/
def makeGenerator (callee : Callee) (args : List Value) : Context :=
  { s with coroutines := s.coroutines ++ [generatorOf callee args] }

/-- The base of the running frame, where the instruction that calls out to C++ stands. -/
def site : ℕ :=
  match s.frames.getLast? with
  | none => 0
  | some frame => frame.base

/-- The registers of a call from C++: every argument, then the missing parameters. -/
def argumentWindow (target : FunctionProto) (args : List Value) : List Value :=
  resized (max target.frameSize.toNat args.length + slack) .undefined args

/-- Push a fence, when the C++ caller asked for one. -/
def pushFence (fenced : Bool) : Context :=
  if fenced then
    { s with handlers := s.handlers ++
        [{ frame := s.frames.length, regTop := s.registers.length, fence := true }] }
  else s

/-- The handler-stack size a fence is remembered by. -/
def fenceMarkOf (fenced : Bool) : Option ℕ :=
  if fenced then some s.handlers.length else none

/-- Take the fence of a call that has ended off the handler stack, unless a throw did. -/
def popFence (fenceMark : Option ℕ) : Context :=
  match fenceMark with
  | none => s
  | some mark =>
    if s.fenceHit then { s with fenceHit := false }
    else if s.handlers.length ≥ mark then
      { s with handlers := resized (mark - 1) {} s.handlers }
    else s

/-- Call an interpreted closure that is no generator from C++, or throw the stack-overflow
error, whose value is `overflow`. -/
def invoke (fenced : Bool) (callee : Callee) (args : List Value) (overflow : Value) : Context :=
  let t := s.pushFence fenced
  let u := { t with registers := t.registers ++ argumentWindow callee.proto args }
  if u.frames.length > maxFrames then
    (u.throwValue overflow).popFence (t.fenceMarkOf fenced)
  else { u with
    frames := u.frames ++ [{
      proto := callee.proto, base := t.registers.length
      argc := UInt16.ofNat args.length, closure := callee.closure
      receiver := callee.receiver, handlerBase := t.handlers.length
      newTarget := callee.newTarget }]
    runs := { kind := .invoke, base := t.registers.length, stop := t.frames.length
              site := t.site, fenceMark := t.fenceMarkOf fenced } :: t.runs }

/-- Run a program from inside the interpreter. -/
def runReentrant (entry : FunctionProto) (receiver : Value) : Context :=
  let base := s.registers.length
  { s with
    registers := s.registers ++ List.replicate (entry.frameSize.toNat + slack) .undefined
    runs := { kind := .invoke, base, stop := s.frames.length, site := s.site } :: s.runs
    frames := s.frames ++ [{
      proto := entry, base, receiver, handlerBase := s.handlers.length }] }

/-- Run the top level of a program on fresh stacks. -/
def execute (entry : FunctionProto) (receiver : Value) : Context :=
  { s with
    registers := List.replicate (entry.frameSize.toNat + slack) .undefined
    frames := [{ proto := entry, receiver }]
    handlers := []
    thrown := .undefined
    failed := false
    runs := [{ kind := .execute }] }

/-- Put an async function's frame back with the value its await produced. -/
def resume (c : HeapRef) (sent : Value) : Context :=
  match s.coroutines[c]? with
  | none => s
  | some saved =>
    let t := s.restoreFrame c
    { t with
      registers := t.registers.set (s.registers.length + saved.awaitReg.toNat) sent
      suspended := false
      runs := { kind := .resume, base := s.registers.length, stop := s.frames.length
                site := s.site } :: s.runs }

/-- Put a generator's frame back for a request. Nothing waits for the value sent to a
generator that has not started. -/
def generatorResume (fenced : Bool) (c : HeapRef) (sent : Value) : Context :=
  match s.coroutines[c]? with
  | none => s
  | some saved =>
    let t := s.pushFence fenced
    let u := t.restoreFrame c
    { u with
      registers := if saved.started then
        u.registers.set (s.registers.length + saved.awaitReg.toNat) sent else u.registers
      coroutines := u.coroutines.modify c fun saved => { saved with started := true }
      yielded := false
      runs := { kind := .generatorResume, base := s.registers.length, stop := s.frames.length
                site := s.site, fenceMark := t.fenceMarkOf fenced } :: s.runs }

end Context

/-- How a C++ call that ran the loop leaves the register vector. -/
inductive LeaveMode
  -- as it is: a script's top level, a yield, a suspended or finished async function
  | keep
  -- cut to its size at the start of the call, if it is longer: a call from C++
  | cut
  -- resized to its size at the start of the call: a generator that is done
  | finish
  -- the same, with the call's frames dropped: a rejection that nothing caught
  | abandon
deriving DecidableEq, Repr

namespace Context

variable (s : Context)

/-- The end of a C++ call that ran the loop. -/
def leave (mode : LeaveMode) : Context :=
  match s.runs with
  | [] => s
  | r :: rest =>
    let t := s.popFence r.fenceMark
    { t with
      runs := rest
      registers := match mode with
        | .keep => t.registers
        | .cut => if t.registers.length ≥ r.base then resized r.base .undefined t.registers
            else t.registers
        | .finish | .abandon => resized r.base .undefined t.registers
      frames := match mode with
        | .abandon => t.frames.take r.stop
        | _ => t.frames }

/-- Throw a rejection at the await or yield a coroutine was put back at. When nothing catches
it, the call that put it back drops the frame. -/
def throwAtAwait (v : Value) : Context :=
  match ({ s with thrown := v } : Context).unwindToHandler with
  | (true, t) => t
  | (false, t) =>
    match s.runs with
    | [] => t
    | r :: _ =>
      { t.leave .abandon with
        thrown := if r.kind = .resume then .undefined else t.thrown }

end Context

end CtBrowser.Script.Vm
