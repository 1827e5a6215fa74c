import CtBrowser.Foundations.Transition
import CtBrowser.Script.Vm.Context

/-!
# The Steps of the Interpreter

The interpreter as a labelled transition system. A label names the operation and the values
the stacks do not determine: what an opcode computed, which function a call reached, what a
native threw. The labels of opcodes are enabled for functions that respect their own frame
size; every other choice is free, so that the runs of the system include the runs of every
program.

## Main definitions

- `Label`, `Label.apply` — the operations.
- `Label.Enabled` — when an operation may happen.
- `interpreter` — the transition system.
-/

namespace CtBrowser.Script.Vm

open CtBrowser.Foundations

/-- One operation of the interpreter. -/
inductive Label
  -- an opcode that stores its result in a register of the running frame
  | store (r : UInt16) (v : Value)
  -- an opcode that only moves the instruction pointer
  | jump (ip : ℕ)
  | call (one : Instruction) (callee : Callee) (overflow : Value)
  | construct (one : Instruction) (callee : Callee) (overflow : Value)
  | ret (returned : Value)
  -- a throw, by an opcode or a native; the instruction that threw may still store its result
  -- in its own frame's register after the throw has landed
  | throw (v : Value) (late : Option (UInt16 × Value))
  | pushHandler (one : Instruction)
  | popHandler
  | await (one : Instruction) (promise : Value)
  | yield (one : Instruction)
  | makeGenerator (callee : Callee) (args : List Value)
  | invoke (fenced : Bool) (callee : Callee) (args : List Value) (overflow : Value)
  | runReentrant (entry : FunctionProto) (receiver : Value)
  | execute (entry : FunctionProto) (receiver : Value)
  | resume (c : HeapRef) (sent : Value)
  | generatorResume (fenced : Bool) (c : HeapRef) (sent : Value)
  | throwAtAwait (v : Value)
  -- a C++ call that ran the loop ends; the instruction that made it may store its result
  | leave (mode : LeaveMode) (late : Option (UInt16 × Value))
  -- the embedder takes an error and goes on
  | takeError

namespace Context

variable (s : Context)

/-- The frame depth at which the innermost loop stops. -/
def stop : ℕ :=
  match s.runs with
  | [] => 0
  | r :: _ => r.stop

/-- The site of the innermost C++ call that runs the loop. -/
def runSite : ℕ :=
  match s.runs with
  | [] => 0
  | r :: _ => r.site

/-- Store an instruction's result in a register of the window that starts at `base`, if it
stores one. -/
def storeLate (base : ℕ) (late : Option (UInt16 × Value)) : Context :=
  match late with
  | none => s
  | some (r, v) => s.writeRegister (base + r.toNat) v

/-- Push the handler of a `try` of the running frame. -/
def pushHandler (one : Instruction) : Context :=
  match s.frames.getLast? with
  | none => s
  | some frame =>
    { s with handlers := s.handlers ++ [{
        frame := s.frames.length - 1, address := (frame.ip + one.sbx).toNat
        regTop := s.registers.length, slot := one.a }] }

/-- Pop the innermost handler. -/
def popHandler : Context := { s with handlers := s.handlers.dropLast }

/-- Take the error of a failed context and clear the failure. -/
def takeError : Context := { s with failed := false }

/-- The innermost loop has a frame to run. -/
structure Running (frame : CallFrame) : Prop where
  top : s.frames.getLast? = some frame
  runs_ne_nil : s.runs ≠ []
  stop_lt : s.stop < s.frames.length

end Context

namespace Label

/-- What an operation does. -/
def apply (s : Context) : Label → Context
  | store r v => s.fetched.writeRegister (s.site + r.toNat) v
  | jump ip => s.mapTop fun frame => { frame with ip }
  | call one callee overflow => s.fetched.executeCall one callee overflow
  | construct one callee overflow => s.fetched.executeConstruct one callee overflow
  | ret returned => s.fetched.ret s.stop returned
  | throw v late => (s.throwValue v).storeLate s.site late
  | pushHandler one => s.fetched.pushHandler one
  | popHandler => s.fetched.popHandler
  | await one promise => s.fetched.executeAwait s.stop one promise
  | yield one => s.fetched.executeYield s.stop one
  | makeGenerator callee args => s.makeGenerator callee args
  | invoke fenced callee args overflow => s.invoke fenced callee args overflow
  | runReentrant entry receiver => s.runReentrant entry receiver
  | execute entry receiver => s.execute entry receiver
  | resume c sent => s.resume c sent
  | generatorResume fenced c sent => s.generatorResume fenced c sent
  | throwAtAwait v => s.throwAtAwait v
  | leave mode late => (s.leave mode).storeLate s.runSite late
  | takeError => s.takeError

/-- The operations that push a frame. -/
def pushesFrame : Label → Bool
  | call .. | construct .. | invoke .. | runReentrant .. | execute .. | resume ..
  | generatorResume .. => true
  | _ => false

/-- The call window of an instruction lies inside the frame that runs it. -/
def FitsCall (frame : CallFrame) (one : Instruction) : Prop :=
  one.a.toNat + 1 + one.b.toNat ≤ frame.size

instance (frame : CallFrame) (one : Instruction) : Decidable (FitsCall frame one) :=
  inferInstanceAs (Decidable (_ ≤ _))

/-- The modes in which each kind of C++ call may leave the registers. -/
def mayLeave : RunKind → LeaveMode → Prop
  | .execute, mode => mode = .keep
  | .invoke, mode => mode = .cut
  | .resume, mode => mode = .keep
  | .generatorResume, mode => mode = .keep ∨ mode = .finish

/-- When an operation may happen, for functions that respect their own frame size. -/
def Enabled (s : Context) : Label → Prop
  | store r _ => ∃ frame, s.Running frame ∧ r.toNat < frame.size
  | jump _ => ∃ frame, s.Running frame
  | call one callee _ | construct one callee _ =>
      (∃ frame, s.Running frame ∧ FitsCall frame one) ∧
        callee.proto.paramCount ≤ callee.proto.frameSize ∧ callee.proto.isGenerator = false
  | ret _ | popHandler => ∃ frame, s.Running frame
  | pushHandler one | await one _ | yield one =>
      ∃ frame, s.Running frame ∧ one.a.toNat < frame.size
  | throw _ _ | takeError => True
  | makeGenerator callee _ => callee.proto.isGenerator = true
  | invoke _ callee _ _ =>
      callee.proto.paramCount ≤ callee.proto.frameSize ∧ callee.proto.isGenerator = false
  | runReentrant _ _ => True
  | execute _ _ => s.runs = []
  | resume c _ | generatorResume _ c _ => c < s.coroutines.length
  | throwAtAwait _ =>
      ∃ r rest, s.runs = r :: rest ∧ (r.kind = .resume ∨ r.kind = .generatorResume)
  -- only an instruction of an outer loop has a result to store
  | leave mode late =>
      ∃ r rest, s.runs = r :: rest ∧ mayLeave r.kind mode ∧ (late.isSome → rest ≠ [])

end Label

/-- The interpreter, from the moment a context was made. -/
def interpreter : TransitionSystem Context Label where
  initial s := s = {}
  step s l s' := l.Enabled s ∧ s' = l.apply s

end CtBrowser.Script.Vm
