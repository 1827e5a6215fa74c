import CtBrowser.Script.ProgramImage.Read
import CtBrowser.Script.Vm.Uses

/-!
# Operand Soundness of the Image Reader

The reader checks operands by the columns of the opcode table; the interpreter indexes its
tables in about a hundred opcode bodies. Every index a body uses without a check of its own
lies inside the table it indexes, with one exception that the reader makes on purpose: a
branch may go to the end of the code, where the head of the run loop stops.

## Main definitions

- `Use.Inside` — an index lies inside the table it indexes.
- `OperandsInside` — every index every function of a program uses does.

## Main results

- `loadImage_operands` — the indices of an accepted image are inside, or go to the end.
- `not_loadImage_operandsInside` — an accepted image may branch to the end of its code.
-/

namespace CtBrowser.Script.Vm

/-- An index of `fn` lies inside the table it indexes. -/
def Use.Inside (functions : List FunctionProto) (fn : FunctionProto) : Use → Prop
  | .reg index => index < fn.frameSize.toNat
  | .constant index => index < fn.constants.length
  | .string index => index < fn.strings.length
  | .name index => index < fn.names.length
  | .function index => index < functions.length
  | .capture index => ∀ closed, functions[index]? = some closed →
      ∀ up ∈ closed.upvalues, up.fromParentLocal = true → up.index.toNat < fn.frameSize.toNat
  | .target ip => 0 ≤ ip ∧ ip < fn.code.length

end CtBrowser.Script.Vm

namespace CtBrowser.Script.ProgramImage

open Vm

section Checks

variable {functions : List FunctionProto} {fn : FunctionProto} {one : Instruction}
  {fi ip : ℕ}

theorem checks_of_instructionFailure (h : instructionFailure functions fi fn ip one = none) :
    checkOperands functions.length fn one = none ∧ checkJump fn ip one = none ∧
      checkCapture functions fn one = none ∧ checkWindow fn one = none := by
  simpa [instructionFailure] using h

theorem lt_boundOf_of_checkSlot {kind : SlotKind} {operand : UInt16} {which : String}
    {functionCount : ℕ} (h : checkSlot functionCount fn kind operand which = none) :
    operand.toNat < boundOf functionCount fn kind := by
  have hsmall := operand.toNat_lt
  unfold checkSlot at h
  split_ifs at h with hlt
  · exact hlt
  · -- the kinds without a message have a bound no operand reaches
    cases kind <;> simp only [reduceCtorEq] at h <;> simp only [boundOf, unchecked] <;> omega

theorem inside_of_mem_slotUses {kind : SlotKind} {operand : UInt16} {which : String}
    (h : checkSlot functions.length fn kind operand which = none) {use : Use}
    (huse : use ∈ slotUses kind operand.toNat) : use.Inside functions fn := by
  have hlt := lt_boundOf_of_checkSlot h
  cases kind <;> simp only [slotUses, List.mem_singleton, List.not_mem_nil] at huse <;>
    subst huse <;> exact hlt

theorem inside_capture_of_checkCapture (hb : one.code.shape.b = .fidx)
    (hc : one.code.shape.c = .bxHi) (h : checkCapture functions fn one = none) :
    (Use.capture one.bx).Inside functions fn := by
  intro closed hclosed up hup hlocal
  simp only [checkCapture, hb, hc, hclosed, and_self, if_true] at h
  split at h
  next hnone =>
    have hcaptures := List.findIdx?_eq_none_iff.mp hnone up hup
    simpa [capturesOutside, hlocal] using hcaptures
  next => simp at h

/-- A wide operand that passes indexes inside the table its columns name, or is a branch to
the end of the code. -/
theorem inside_of_mem_wideUses (hc : one.code.shape.c = .bxHi)
    (hwide : checkWide functions.length fn one.code.shape.b one.bx = none)
    (hjump : checkJump fn ip one = none) (hcapture : checkCapture functions fn one = none)
    {use : Use} (huse : use ∈ wideUses one.code.shape.b one ip) :
    use.Inside functions fn ∨ use = .target fn.code.length := by
  cases hb : one.code.shape.b <;> rw [hb] at huse hwide <;>
    simp only [wideUses, List.mem_cons, List.not_mem_nil, or_false] at huse
  case kidx | sidx | nidx =>
    subst huse
    unfold checkWide at hwide
    split_ifs at hwide with hlt
    exact .inl hlt
  case fidx =>
    left
    rcases huse with rfl | rfl
    · unfold checkWide at hwide
      split_ifs at hwide with hlt
      exact hlt
    · exact inside_capture_of_checkCapture hb hc hcapture
  case jump =>
    subst huse
    simp only [checkJump, hb, true_and] at hjump
    split_ifs at hjump with houtside
    by_cases hend : one.jumpTarget ip = fn.code.length
    · exact .inr (by rw [hend])
    · refine .inl ⟨?_, ?_⟩ <;> omega

/-- An instruction that passes the operand pass uses what its row accounts for inside the
tables, or branches to the end of the code. -/
theorem inside_of_mem_columnUses (h : instructionFailure functions fi fn ip one = none)
    {use : Use} (huse : use ∈ columnUses one ip) :
    use.Inside functions fn ∨ use = .target fn.code.length := by
  obtain ⟨hoperands, hjump, hcapture, -⟩ := checks_of_instructionFailure h
  simp only [columnUses, List.mem_append] at huse
  by_cases hc : one.code.shape.c = .bxHi
  · obtain ⟨hwide, ha⟩ : checkWide functions.length fn one.code.shape.b one.bx = none ∧
        checkSlot functions.length fn one.code.shape.a one.a "operand a" = none := by
      simpa [checkOperands, hc] using hoperands
    simp only [hc, if_true] at huse
    rcases huse with huse | huse
    · exact .inl (inside_of_mem_slotUses ha huse)
    · exact inside_of_mem_wideUses hc hwide hjump hcapture huse
  · obtain ⟨ha, hb, hc'⟩ :
        checkSlot functions.length fn one.code.shape.a one.a "operand a" = none ∧
        checkSlot functions.length fn one.code.shape.b one.b "operand b" = none ∧
        checkSlot functions.length fn one.code.shape.c one.c "operand c" = none := by
      simpa [checkOperands, hc] using hoperands
    simp only [hc, if_false, List.mem_append] at huse
    rcases huse with huse | huse | huse
    · exact .inl (inside_of_mem_slotUses ha huse)
    · exact .inl (inside_of_mem_slotUses hb huse)
    · exact .inl (inside_of_mem_slotUses hc' huse)

theorem inside_of_mem_windowUses (h : instructionFailure functions fi fn ip one = none)
    (hcall : one.code.isCallShape = true) {use : Use} (huse : use ∈ windowUses one) :
    use.Inside functions fn := by
  obtain ⟨-, -, -, hwindow⟩ := checks_of_instructionFailure h
  have hfits : one.a.toNat + 1 + one.b.toNat ≤ fn.frameSize.toNat := by
    simpa [checkWindow, hcall] using hwindow
  simp only [windowUses, List.mem_map, List.mem_range] at huse
  obtain ⟨k, hk, rfl⟩ := huse
  show one.a.toNat + 1 + k < fn.frameSize.toNat
  omega

end Checks

/-- The functions of a program keep their parameters inside their frames, hold immediates
only, and use indices `within` allows. -/
def OperandsWithin (within : FunctionProto → Use → Prop) (program : Program) : Prop :=
  ∀ fn ∈ program.functions, fn.paramCount ≤ fn.frameSize ∧
    (∀ v ∈ fn.constants, v.IsImmediate ∧ v.isHeap = false) ∧
    ∀ ip one, fn.code[ip]? = some one → ∀ use ∈ uses fn ip one, within fn use

/-- The functions of an accepted program use indices inside their tables, or branch to the
end of their code. -/
theorem Accepted.operandsWithin {program : Program} (h : Accepted program) :
    OperandsWithin (fun fn use => use.Inside program.functions fn ∨
      use = .target fn.code.length) program := by
  obtain ⟨names, strings, hread⟩ := h.readOk
  intro fn hfn
  have hok := hread fn hfn
  obtain ⟨fi, hfi⟩ := List.mem_iff_getElem?.mp hfn
  refine ⟨hok.paramCount_le, fun v hv => ?_, fun ip one hone use huse => ?_⟩
  · exact ⟨hok.constants_immediate v hv, (hok.constants_immediate v hv).isHeap_eq_false⟩
  · have hpass := h.operands fi fn ip one hfi hone
    rcases mem_uses huse with hcolumn | ⟨hcall, hwindow⟩ | ⟨i, prior, hprior, horigin⟩
    · exact inside_of_mem_columnUses hpass hcolumn
    · exact .inl (inside_of_mem_windowUses hpass hcall hwindow)
    · exact inside_of_mem_columnUses (h.operands fi fn i prior hfi hprior) horigin

/-- Every index an accepted image makes the run loop use without a check lies inside the
table it indexes, except that a branch may go to the end of the code, which the head of the
run loop checks. -/
theorem loadImage_operandsWithin (fingerprint : UInt64) (bytes : List UInt8)
    (expectSourceHash : Option UInt64) (expectKind : ScriptKind)
    (h : (loadImage fingerprint bytes expectSourceHash expectKind).ok = true) :
    OperandsWithin (fun fn use =>
        use.Inside (loadImage fingerprint bytes expectSourceHash expectKind).value.functions fn ∨
          use = .target fn.code.length)
      (loadImage fingerprint bytes expectSourceHash expectKind).value :=
  (loadImage_spec h).operandsWithin

/-- An image of fingerprint zero whose only function is the single instruction `jump +0`,
in a frame of one register. -/
def imageJumpingToEnd : List UInt8 :=
  [0x43, 0x42, 0x54, 0x43, 8, 0, 0, 0] ++ List.replicate 8 0 ++ List.replicate 4 0 ++ [0] ++
    List.replicate 8 0 ++
    -- the pools, the lists and the source text are empty
    List.replicate 40 0 ++ [1, 0, 0, 0] ++
    -- three empty texts, no parameters, one register, no flags, no source range
    List.replicate 12 0 ++ [0, 0, 0, 0, 1, 0, 0, 0] ++ List.replicate 8 0 ++
    -- one instruction, and seven empty tables
    [1, 0, 0, 0, 45, 0, 0, 0, 0, 0, 0] ++ List.replicate 28 0

/-- The indices of the image that jumps to its end satisfy the reader's promise. -/
theorem loadImage_operandsWithin_imageJumpingToEnd :
    OperandsWithin (fun fn use =>
        use.Inside (loadImage 0 imageJumpingToEnd none .classic).value.functions fn ∨
          use = .target fn.code.length)
      (loadImage 0 imageJumpingToEnd none .classic).value :=
  loadImage_operandsWithin 0 imageJumpingToEnd none .classic (by decide +kernel)

private theorem functions_imageJumpingToEnd :
    (loadImage 0 imageJumpingToEnd none .classic).value.functions =
      [{ code := [{ code := .jump }] }] := by
  decide +kernel

/-- The reader accepts a branch to the end of the code, which is not an instruction. -/
theorem not_loadImage_operandsInside :
    ¬ ∀ (fingerprint : UInt64) (bytes : List UInt8) (expectSourceHash : Option UInt64)
        (expectKind : ScriptKind),
      (loadImage fingerprint bytes expectSourceHash expectKind).ok = true →
      OperandsWithin
        (Use.Inside (loadImage fingerprint bytes expectSourceHash expectKind).value.functions)
        (loadImage fingerprint bytes expectSourceHash expectKind).value := by
  intro h
  have hwithin := h 0 imageJumpingToEnd none .classic (by decide +kernel)
  rw [OperandsWithin, functions_imageJumpingToEnd] at hwithin
  obtain ⟨-, -, huses⟩ := hwithin _ List.mem_cons_self
  have htarget := huses 0 { code := .jump } rfl (.target 1) (by decide)
  exact absurd htarget.2 (by decide)

end CtBrowser.Script.ProgramImage
