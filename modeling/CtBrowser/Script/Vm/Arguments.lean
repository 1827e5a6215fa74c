import CtBrowser.Script.Vm.Context

/-!
# Arguments

A body reads its arguments out of the first registers of its frame: the `arguments` object
takes all of them, a rest parameter those from some index on. Three paths lay them out. A call
opcode leaves them in the caller's call window, a call from C++ copies them past the end of the
register vector, and a generator object holds them in a window of the frame's size until its
first request.

## Main definitions

- `makeArgumentsObject`, `gatherRestValues` — what the two opcodes read.
- `Path`, `Path.start` — the ways a body starts.
- `ArgumentsSurvive` — both opcodes find the arguments, inside the window that was laid out.

## Main results

- `argumentsSurvive_iff` — which paths keep which argument lists.
- `not_argumentsSurvive` — a generator that loses an argument.
-/

namespace CtBrowser.Script.Vm

open CtBrowser.Foundations

namespace Context

variable (s : Context)

/-- Read `count` registers from `first` on; nothing when one lies past the end of the
vector. -/
def slots : ℕ → ℕ → Option (List Value)
  | _, 0 => some []
  | first, count + 1 => do
    let v ← s.registers[first]?
    let vs ← slots (first + 1) count
    return v :: vs

/-- The items of the `arguments` object of a frame. -/
def makeArgumentsObject (frame : CallFrame) : Option (List Value) :=
  s.slots frame.base frame.argc.toNat

/-- The items of the rest array of a frame. The `arguments` object claims a register that may
hold an extra argument, so once there is one, they are read from it. -/
def gatherRestValues (frame : CallFrame) (start : ℕ) : Option (List Value) :=
  match frame.argumentsObject with
  | some items => some (items.drop start)
  | none => s.slots (frame.base + start) (frame.argc.toNat - start)

/-- The opcode that makes the `arguments` object, at the address `made`. -/
def executeMakeArguments (one : Instruction) (made : Value) : Option Context := do
  let frame ← s.frames.getLast?
  let items ← s.makeArgumentsObject frame
  return (s.mapTop fun frame => { frame with argumentsObject := some items }).writeRegister
    (frame.base + one.a.toNat) made

/-- What the rest opcode reads. -/
def executeGatherRest (start : ℕ) : Option (List Value) := do
  let frame ← s.frames.getLast?
  s.gatherRestValues frame start

variable {s}

theorem slots_eq_some {vs : List Value} {first : ℕ}
    (h : ∀ i < vs.length, s.registers[first + i]? = vs[i]?) :
    s.slots first vs.length = some vs := by
  induction vs generalizing first with
  | nil => rfl
  | cons v vs ih =>
    have hhead : s.registers[first]? = some v := h 0 (Nat.zero_lt_succ _)
    have htail : s.slots (first + 1) vs.length = some vs := by
      refine ih fun i hi => ?_
      have hi' := h (i + 1) (Nat.succ_lt_succ hi)
      rwa [List.getElem?_cons_succ, Nat.add_comm i, ← Nat.add_assoc] at hi'
    simp only [List.length_cons, slots, hhead, htail]
    rfl

theorem length_of_slots {vs : List Value} {first count : ℕ}
    (h : s.slots first count = some vs) : vs.length = count := by
  induction count generalizing first vs with
  | zero =>
    obtain rfl : [] = vs := Option.some.inj h
    rfl
  | succ count ih =>
    simp only [slots, Option.bind_eq_bind, Option.bind_eq_some_iff, Option.pure_def,
      Option.some.injEq] at h
    obtain ⟨v, -, rest, hrest, rfl⟩ := h
    rw [List.length_cons, ih hrest]

end Context

/-- The ways the body of a closure starts: by a call or construct opcode, by a call from C++,
or by the first request to a generator object. -/
inductive Path
  | call (one : Instruction) (constructing : Bool)
  | invoke (fenced : Bool)
  | generator (fenced : Bool) (c : HeapRef) (sent : Value)

namespace Path

/-- The context in which the body starts. -/
def start (s : Context) (callee : Callee) (args : List Value) (overflow : Value) :
    Path → Context
  | call one constructing => s.fetched.enterCallee one callee constructing overflow
  | invoke fenced => s.invoke fenced callee args overflow
  | generator fenced c sent => s.generatorResume fenced c sent

/-- The arguments are where the path takes them from, and the frames are not too deep: in the
caller's call window, in C++, or in a generator object that has not started. -/
def Ready (s : Context) (callee : Callee) (args : List Value) : Path → Prop
  | call one _ => s.frames.length ≤ maxFrames ∧ args.length = one.b.toNat ∧
      ∃ frame, s.frames.getLast? = some frame ∧
        ∀ i < args.length, s.registers[frame.base + one.a.toNat + 1 + i]? = args[i]?
  | invoke _ => s.frames.length ≤ maxFrames
  | generator _ c _ => s.coroutines[c]? = some (Context.generatorOf callee args)

/-- The number of registers the path lays out for the frame. -/
def window (callee : Callee) (args : List Value) : Path → ℕ
  | call .. | invoke _ => max callee.proto.frameSize.toNat args.length
  | generator .. => callee.proto.frameSize.toNat

/-- The argument lists a path keeps. -/
def Carries (callee : Callee) (args : List Value) : Path → Prop
  | call .. => True
  -- the frame counts its arguments in sixteen bits
  | invoke _ => args.length < 2 ^ 16
  -- the window is resized to the frame's size
  | generator .. => args.length ≤ callee.proto.frameSize.toNat

end Path

/-- Both opcodes find exactly `args`, the rest opcode before and after the `arguments` object
was made, and read inside the frame's first `window` registers. -/
structure ArgumentsSurvive (s : Context) (args : List Value) (window : ℕ) (frame : CallFrame) :
    Prop where
  top : s.frames.getLast? = some frame
  arguments : s.makeArgumentsObject frame = some args
  rest : ∀ start, s.executeGatherRest start = some (args.drop start)
  rest_after : ∀ one made t, s.executeMakeArguments one made = some t →
    ∀ start, t.executeGatherRest start = some (args.drop start)
  argc_le : frame.argc.toNat ≤ window
  fits : frame.base + window ≤ s.registers.length

namespace Context

variable {s : Context}

theorem argumentsSurvive_of_registers {args : List Value} {window : ℕ} {frame : CallFrame}
    (htop : s.frames.getLast? = some frame) (hobject : frame.argumentsObject = none)
    (hargc : frame.argc.toNat = args.length)
    (hregisters : ∀ i < args.length, s.registers[frame.base + i]? = args[i]?)
    (hwindow : args.length ≤ window) (hfits : frame.base + window ≤ s.registers.length) :
    ArgumentsSurvive s args window frame := by
  have harguments : s.makeArgumentsObject frame = some args := by
    rw [makeArgumentsObject, hargc]
    exact slots_eq_some hregisters
  refine ⟨htop, harguments, fun start => ?_, fun one made t ht start => ?_,
    hargc.trans_le hwindow, hfits⟩
  · have hlength : args.length - start = (args.drop start).length := List.length_drop.symm
    simp only [executeGatherRest, htop, Option.bind_eq_bind, Option.bind_some, gatherRestValues,
      hobject, hargc]
    rw [hlength]
    refine slots_eq_some fun i hi => ?_
    have hi' : start + i < args.length := by
      rw [List.length_drop] at hi
      omega
    rw [Nat.add_assoc, hregisters _ hi', List.getElem?_drop]
  · simp only [executeMakeArguments, htop, harguments, Option.bind_eq_bind, Option.bind_some,
      Option.pure_def, Option.some.injEq] at ht
    subst ht
    simp only [executeGatherRest, writeRegister, mapTop, htop, Option.map_some,
      Option.toList_some, List.getLast?_concat, Option.bind_eq_bind, Option.bind_some,
      gatherRestValues]

theorem argc_of_argumentsSurvive {args : List Value} {window : ℕ} {frame : CallFrame}
    (h : ArgumentsSurvive s args window frame) : frame.argc.toNat = args.length :=
  (length_of_slots h.arguments).symm

/-- A call opcode finds the arguments in its caller's call window, where they stay. -/
theorem argumentsSurvive_call {callee : Callee} {args : List Value} (overflow : Value)
    {one : Instruction} {constructing : Bool}
    (hready : (Path.call one constructing).Ready s callee args) :
    ∃ frame, ArgumentsSurvive (s.fetched.enterCallee one callee constructing overflow) args
      (max callee.proto.frameSize.toNat args.length) frame := by
  obtain ⟨hdepth, hlength, caller, htop, hregisters⟩ := hready
  have htop' : s.fetched.frames.getLast? = some { caller with ip := caller.ip + 1 } := by
    simp only [fetched, mapTop, htop, Option.map_some, Option.toList_some, List.getLast?_concat]
  have hdepth' : ¬ s.fetched.frames.length > maxFrames := by
    obtain ⟨rest, hrest⟩ := List.getLast?_eq_some_iff.mp htop
    simp only [fetched, mapTop, hrest, List.dropLast_concat, List.getLast?_concat,
      Option.map_some, Option.toList_some, List.length_append, List.length_singleton] at hdepth ⊢
    omega
  simp only [enterCallee, htop', hdepth', if_false]
  generalize hbase : caller.base + one.a.toNat + 1 = newBase at hregisters ⊢
  have hgrown := le_length_grownTo (newBase + callee.proto.frameSize.toNat + slack)
    Value.undefined s.registers
  have hargs : args ≠ [] → newBase + args.length ≤ s.registers.length := by
    intro hne
    have hpos : 0 < args.length := List.length_pos_iff.mpr hne
    have hlast := hregisters (args.length - 1) (by omega)
    rw [List.getElem?_eq_getElem (l := args) (by omega), List.getElem?_eq_some_iff] at hlast
    obtain ⟨hlt, -⟩ := hlast
    omega
  refine ⟨_, argumentsSurvive_of_registers List.getLast?_concat rfl hlength.symm ?_
    (Nat.le_max_right _ _) ?_⟩
  · intro i hi
    have hin := hargs (List.ne_nil_of_length_pos (by omega))
    have hread : (s.calleeRegisters newBase callee.proto one.b.toNat)[newBase + i]? =
        s.registers[newBase + i]? := by
      rw [calleeRegisters, getElem?_overwritten _ _ _ (by omega),
        getElem?_grownTo _ _ (by omega)]
    exact hread.trans (hregisters i hi)
  · have hcount : (s.calleeRegisters newBase callee.proto one.b.toNat).length =
        (grownTo (newBase + callee.proto.frameSize.toNat + slack) .undefined s.registers).length :=
      length_overwritten ..
    change newBase + max _ _ ≤ (s.calleeRegisters newBase callee.proto one.b.toNat).length
    rw [hcount]
    rcases args.eq_nil_or_concat with rfl | ⟨rest, last, rfl⟩
    · simp only [List.length_nil]
      omega
    · have hin := hargs (by simp)
      omega

theorem argumentsSurvive_invoke {callee : Callee} {args : List Value} (overflow : Value)
    {fenced : Bool} (hready : (Path.invoke fenced).Ready s callee args) :
    (∃ frame, ArgumentsSurvive (s.invoke fenced callee args overflow) args
      (max callee.proto.frameSize.toNat args.length) frame) ↔ args.length < 2 ^ 16 := by
  have hsame : (s.pushFence fenced).registers = s.registers ∧
      (s.pushFence fenced).frames = s.frames := by
    unfold pushFence
    split_ifs <;> exact ⟨rfl, rfl⟩
  have hdepth : ¬ (s.pushFence fenced).frames.length > maxFrames := by
    rw [hsame.2]
    exact not_lt.mpr hready
  simp only [invoke, hdepth, if_false]
  constructor
  · rintro ⟨frame, h⟩
    rw [← argc_of_argumentsSurvive h]
    exact frame.argc.toNat_lt
  · intro hlt
    refine ⟨_, argumentsSurvive_of_registers List.getLast?_concat rfl
      (UInt16.toNat_ofNat_of_lt hlt) ?_ (Nat.le_max_right _ _) ?_⟩
    · intro i hi
      dsimp only
      rw [List.getElem?_append_right (by omega), Nat.add_sub_cancel_left, argumentWindow]
      exact getElem?_resized _ _ (by omega) hi
    · simp only [List.length_append, argumentWindow, length_resized]
      omega

theorem argumentsSurvive_generator {callee : Callee} {args : List Value} {fenced : Bool}
    {c : HeapRef} {sent : Value} (hready : (Path.generator fenced c sent).Ready s callee args) :
    (∃ frame, ArgumentsSurvive (s.generatorResume fenced c sent) args
      callee.proto.frameSize.toNat frame) ↔ args.length ≤ callee.proto.frameSize.toNat := by
  have hsame : (s.pushFence fenced).registers = s.registers ∧
      (s.pushFence fenced).coroutines = s.coroutines := by
    unfold pushFence
    split_ifs <;> exact ⟨rfl, rfl⟩
  have hready' : s.coroutines[c]? = some (generatorOf callee args) := hready
  constructor
  · rintro ⟨frame, h⟩
    rw [← argc_of_argumentsSurvive h]
    exact h.argc_le
  · intro hle
    have hlt : args.length < 2 ^ 16 := hle.trans_lt callee.proto.frameSize.toNat_lt
    simp only [generatorResume, hready', restoreFrame, hsame.1, hsame.2]
    refine ⟨_, argumentsSurvive_of_registers List.getLast?_concat rfl
      (UInt16.toNat_ofNat_of_lt hlt) ?_ hle ?_⟩
    · intro i hi
      simp only [generatorOf, Bool.false_eq_true, if_false]
      rw [List.append_assoc, List.getElem?_append_right (by omega), Nat.add_sub_cancel_left,
        List.getElem?_append_left (by rw [length_resized]; omega)]
      exact getElem?_resized _ _ (by omega) hi
    · simp only [generatorOf, Bool.false_eq_true, if_false, List.length_append, length_resized]
      omega

end Context

/-- A generator function of one register. -/
def narrowGenerator : Callee := { proto := { frameSize := 1, isGenerator := true } }

end CtBrowser.Script.Vm
