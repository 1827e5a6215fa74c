import CtBrowser.Script.Vm.Context

/-!
# Suspending what was just Restored

What a coroutine is after its frame was put back and suspended again with nothing run in between.
The stacks below the frame come back as they were and so do the parts of the frame, but the
register window takes the spare registers above it along, and is longer each time.

## Main definitions

- `SameFrame`, `Handler.relative` — what suspension saves of a frame besides its window.
- `Mirrors` — suspension undoes restoration.

## Main results

- `suspendFrame_restoreFrame` — the coroutine and the stacks after one round.
-/

namespace CtBrowser.Script.Vm

open CtBrowser.Foundations

/-- A handler without the index of its frame, which is the frame it is put back with. -/
def Handler.relative (h : Handler) : Handler := { h with frame := 0 }

/-- Two coroutines with the same frame: the function and where it is, its arguments, and its
handlers relative to the frame. -/
structure SameFrame (saved again : Coroutine) : Prop where
  proto : again.proto = saved.proto
  ip : again.ip = saved.ip
  argc : again.argc = saved.argc
  receiver : again.receiver = saved.receiver
  closure : again.closure = saved.closure
  handlers : again.handlers.map Handler.relative = saved.handlers.map Handler.relative

namespace Context

variable (s : Context)

/-- How far the window of the running frame, with its spare registers, reaches past the end of the
register vector. -/
def overhang : ℕ :=
  match s.frames.getLast? with
  | none => 0
  | some caller => caller.base + caller.proto.frameSize.toNat + slack - s.registers.length

/-- The registers that putting a coroutine back pushes. -/
def pushedWindow (saved : Coroutine) : List Value := saved.window ++ List.replicate slack .undefined

/-- A coroutine put back and suspended at once: into the coroutine at `target`, or a new one. -/
def resuspend (c : HeapRef) (target : Option HeapRef) (awaitReg : UInt16) : Context :=
  (s.restoreFrame c).suspendFrame target awaitReg

/-- The coroutine that suspension filled: the one at `target`, or the new one at the end. -/
def suspendedInto (target : Option HeapRef) : Option Coroutine :=
  s.coroutines[target.getD (s.coroutines.length - 1)]?

end Context

/-- Suspension undoes restoration: the coroutine has its frame and its window again, and the
stacks below are as they were. -/
structure Mirrors (s t : Context) (saved again : Coroutine) : Prop where
  frame : SameFrame saved again
  window : again.window = saved.window
  frames : t.frames = s.frames
  handlers : t.handlers = s.handlers
  registers : t.registers.take s.registers.length = s.registers

namespace Context

variable {s : Context}

/-- The registers that suspension leaves: those below the frame, and what the window of the caller
still covers of the frame's own. -/
theorem registers_resuspend {c : HeapRef} {saved : Coroutine} (hc : s.coroutines[c]? = some saved)
    (target : Option HeapRef) (awaitReg : UInt16) : (s.resuspend c target awaitReg).registers =
      s.registers ++ (pushedWindow saved).take s.overhang := by
  have hkept : (s.restoreFrame c).keptSize = s.registers.length + s.overhang := by
    rw [keptSize, restoreFrame, hc, overhang]
    dsimp only
    rw [List.getLast?_append, List.getLast?_singleton, Option.some_or, List.dropLast_concat]
    dsimp only
    cases s.frames.getLast? with
    | none => rfl
    | some caller =>
      dsimp only
      omega
  have hregisters : (s.restoreFrame c).registers = s.registers ++ pushedWindow saved := by
    rw [restoreFrame, hc, pushedWindow]
    exact List.append_assoc ..
  obtain ⟨frame, hframe⟩ : ∃ frame, (s.restoreFrame c).frames.getLast? = some frame := by
    rw [restoreFrame, hc]
    exact ⟨_, List.getLast?_concat⟩
  rw [resuspend, suspendFrame, hframe]
  dsimp only
  rw [hkept, hregisters, List.length_append]
  split_ifs with hcut
  · rw [resized, List.take_append, List.take_of_length_le (by omega), Nat.add_sub_cancel_left]
    have hfull : s.registers.length + s.overhang - (s.registers ++ pushedWindow saved).length = 0 := by
      rw [List.length_append]
      omega
    rw [hfull, List.replicate_zero, List.append_nil]
  · rw [List.take_of_length_le (by omega)]

end Context

/-- The frame that restoration pushes. -/
def restoredFrame (s : Context) (c : HeapRef) (saved : Coroutine) : CallFrame :=
  { proto := saved.proto, ip := saved.ip, base := s.registers.length, resultReg := 0
    argc := saved.argc, closure := saved.closure, receiver := saved.receiver
    constructing := saved.constructing, handlerBase := s.handlers.length
    generator := if saved.generator then some c else none, asyncPromise := saved.promise }

theorem savedAs_restoreFrame {s : Context} {c : HeapRef} {saved : Coroutine}
    (hc : s.coroutines[c]? = some saved) (into : Coroutine) (awaitReg : UInt16) :
    SameFrame saved ((s.restoreFrame c).savedAs (restoredFrame s c saved) into awaitReg) ∧
      ((s.restoreFrame c).savedAs (restoredFrame s c saved) into awaitReg).window =
        saved.window ++ List.replicate slack .undefined := by
  refine ⟨⟨rfl, rfl, rfl, rfl, rfl, ?_⟩, ?_⟩
  · -- the depths that restoration made absolute become relative again
    simp only [Context.restoreFrame, hc, Context.savedAs, restoredFrame, List.drop_left, List.map_map]
    refine List.map_congr_left fun h _ => ?_
    simp only [Function.comp_apply, Handler.relative, Nat.add_sub_cancel]
  · simp only [Context.restoreFrame, hc, Context.savedAs, restoredFrame, List.append_assoc, List.drop_left]

/-- The coroutine and the stacks after a round. -/
theorem exists_resuspend {s : Context} {c : HeapRef} {saved : Coroutine}
    (hc : s.coroutines[c]? = some saved) {target : Option HeapRef}
    (htarget : ∀ i ∈ target, i < s.coroutines.length) (awaitReg : UInt16) :
    ∃ again, (s.resuspend c target awaitReg).suspendedInto target = some again ∧
      SameFrame saved again ∧ again.window = saved.window ++ List.replicate slack .undefined ∧
      (s.resuspend c target awaitReg).frames = s.frames ∧
      (s.resuspend c target awaitReg).handlers = s.handlers := by
  have htop : (s.restoreFrame c).frames.getLast? = some (restoredFrame s c saved) := by
    rw [Context.restoreFrame, hc]
    exact List.getLast?_concat
  obtain ⟨into, hinto⟩ : ∃ into, (s.resuspend c target awaitReg).suspendedInto target =
      some ((s.restoreFrame c).savedAs (restoredFrame s c saved) into awaitReg) := by
    rw [Context.resuspend, Context.suspendFrame, htop, Context.suspendedInto]
    cases target with
    | none =>
      refine ⟨{ proto := (restoredFrame s c saved).proto }, ?_⟩
      simp only [Option.getD_none, List.length_append, List.length_singleton, Nat.add_sub_cancel,
        List.getElem?_concat_length]
    | some i =>
      have hi : i < (s.restoreFrame c).coroutines.length := by
        rw [Context.restoreFrame, hc]
        exact (List.length_modify ..).symm ▸ htarget i rfl
      refine ⟨(s.restoreFrame c).coroutines[i], ?_⟩
      simp only [Option.getD_some, List.getElem?_modify_eq, List.getElem?_eq_getElem hi]
      rfl
  obtain ⟨hsame, hwindow⟩ := savedAs_restoreFrame hc into awaitReg
  refine ⟨_, hinto, hsame, hwindow, ?_, ?_⟩
  · rw [Context.resuspend, Context.suspendFrame, htop, Context.restoreFrame, hc]
    exact List.dropLast_concat
  · rw [Context.resuspend, Context.suspendFrame, htop, Context.restoreFrame, hc]
    have hbase : (restoredFrame s c saved).handlerBase = s.handlers.length := rfl
    dsimp only
    rw [hbase, resized, List.take_left, List.length_append, Nat.sub_eq_zero_of_le (Nat.le_add_right _ _),
      List.replicate_zero, List.append_nil]

/-- After a round every part of the frame and every stack is as it was, but the window has the spare
registers above it too, so that suspension never undoes restoration. -/
theorem suspendFrame_restoreFrame (s : Context) (c : Fin s.coroutines.length)
    (target : Option (Fin s.coroutines.length)) (awaitReg : UInt16) :
    ∃ again, (s.resuspend c (target.map Fin.val) awaitReg).suspendedInto (target.map Fin.val) = some again ∧
      SameFrame s.coroutines[c] again ∧
      again.window = s.coroutines[c].window ++ List.replicate slack .undefined ∧
      (s.resuspend c (target.map Fin.val) awaitReg).frames = s.frames ∧
      (s.resuspend c (target.map Fin.val) awaitReg).handlers = s.handlers ∧
      (s.resuspend c (target.map Fin.val) awaitReg).registers =
        s.registers ++ (Context.pushedWindow s.coroutines[c]).take s.overhang ∧
      ¬ Mirrors s (s.resuspend c (target.map Fin.val) awaitReg) s.coroutines[c] again := by
  have hc : s.coroutines[c.val]? = some s.coroutines[c] := List.getElem?_eq_getElem c.isLt
  have htarget : ∀ i ∈ target.map Fin.val, i < s.coroutines.length := by
    intro i hi
    obtain ⟨j, -, rfl⟩ := Option.map_eq_some_iff.mp hi
    exact j.isLt
  obtain ⟨again, hagain, hsame, hwindow, hframes, hhandlers⟩ := exists_resuspend hc htarget awaitReg
  refine ⟨again, hagain, hsame, hwindow, hframes, hhandlers, Context.registers_resuspend hc _ awaitReg,
    fun h => ?_⟩
  have hlength := congrArg List.length (hwindow.symm.trans h.window)
  rw [List.length_append, List.length_replicate, slack] at hlength
  omega

/-- A generator that only takes a yielded value and yields again. -/
def idleGenerator : Context :=
  { coroutines := [{ proto := {}, window := [.undefined], generator := true, started := true }] }

/-- Its window has eight more registers after a round. -/
theorem not_mirrors_idleGenerator : ¬ ∃ again,
    (idleGenerator.resuspend 0 (some 0) 0).suspendedInto (some 0) = some again ∧
      Mirrors idleGenerator (idleGenerator.resuspend 0 (some 0) 0) idleGenerator.coroutines[0] again := by
  rintro ⟨again, hagain, h⟩
  have hlength : ((idleGenerator.resuspend 0 (some 0) 0).suspendedInto (some 0)).map
      (fun again => again.window.length) = some 9 := by decide
  rw [hagain, Option.map_some, h.window] at hlength
  exact absurd hlength (by decide)

end CtBrowser.Script.Vm
