import CtBrowser.Script.ProgramImage.OperandSoundness

/-!
# Control Flow of Accepted Images

The paths of instructions through a function: fall-throughs, branches taken or not, and the
entries of exception handlers. The reader does not require a function to end in a return, and
it accepts a branch to the end of the code, so a path may reach the end. There the head of the
run loop stops the run; no path of an accepted image goes further.

## Main definitions

- `fetch` — the head of the run loop: the next instruction, or the end of the run.
- `Flows`, `Reaches` — one step of a path, and the paths from the entry.
- `EndsInside` — no instruction falls through or branches to the end.

## Main results

- `loadImage_reaches` — where the paths of an accepted image lead.
- `not_loadImage_neverEnds` — an accepted image may run to the end of its code.
-/

namespace CtBrowser.Script

namespace Op

/-- The opcodes that may send the instruction pointer to their target: a jump, and a handler
whose entry a later throw takes. -/
def branches (code : Op) : Bool :=
  code == jump || code == jumpIfFalse || code == jumpIfTrue || code == jumpIfNotNullish ||
    code == jumpIfDefined || code == pushHandler

/-- The opcodes that leave the frame: a return, a throw, and the end of the program. -/
def leaves (code : Op) : Bool :=
  code == ret || code == retUndef || code == throwValue || code == halt

/-- The opcodes after which the frame may run its next instruction. -/
def fallsThrough (code : Op) : Bool := !(code == jump || code.leaves)

theorem branches_iff (code : Op) : code.branches = true ↔ code.shape.b = .jump := by
  cases code <;> decide

theorem branches_or_leaves {code : Op} (h : code.fallsThrough = false) :
    code.branches = true ∨ code.leaves = true := by
  by_cases hjump : code = jump
  · exact .inl (hjump ▸ rfl)
  · simpa [fallsThrough, hjump] using Or.inr h

end Op

namespace Vm

/-- The head of the run loop: the instruction at `ip`, or nothing at the end of the code,
where the run ends. -/
def fetch (fn : FunctionProto) (ip : ℕ) : Option Instruction := fn.code[ip]?

/-- One step of a path through `fn`: the instruction at `ip` runs, and `next` is where the
frame may go on. -/
inductive Flows (fn : FunctionProto) : ℕ → ℕ → Prop
  | fallThrough {ip : ℕ} {one : Instruction} (hone : fetch fn ip = some one)
      (hfalls : one.code.fallsThrough = true) : Flows fn ip (ip + 1)
  | branch {ip next : ℕ} {one : Instruction} (hone : fetch fn ip = some one)
      (hbranches : one.code.branches = true) (hnext : one.jumpTarget ip = next) :
      Flows fn ip next

/-- Some path from the entry of `fn` leads to `ip`. -/
def Reaches (fn : FunctionProto) (ip : ℕ) : Prop := Relation.ReflTransGen (Flows fn) 0 ip

/-- No instruction of `fn` falls through to the end of the code or branches there. -/
def EndsInside (fn : FunctionProto) : Prop :=
  ∀ ip one, fetch fn ip = some one →
    (one.code.fallsThrough = true → ip + 1 ≠ fn.code.length) ∧
    (one.code.branches = true → one.jumpTarget ip ≠ fn.code.length)

theorem lt_length_of_fetch {fn : FunctionProto} {ip : ℕ} {one : Instruction}
    (h : fetch fn ip = some one) : ip < fn.code.length :=
  (List.getElem?_eq_some_iff.mp h).1

theorem fetch_eq_none_iff {fn : FunctionProto} {ip : ℕ} :
    fetch fn ip = none ↔ fn.code.length ≤ ip :=
  List.getElem?_eq_none_iff

section Bounded

variable {fn : FunctionProto}
  (hbranch : ∀ ip one, fetch fn ip = some one → one.code.branches = true →
    one.jumpTarget ip ≤ fn.code.length)

include hbranch

theorem Flows.le_length {ip next : ℕ} (h : Flows fn ip next) : next ≤ fn.code.length := by
  cases h with
  | fallThrough hone hfalls => exact lt_length_of_fetch hone
  | branch hone hbranches hnext =>
    have := hbranch _ _ hone hbranches
    omega

theorem Reaches.le_length {ip : ℕ} (h : Reaches fn ip) : ip ≤ fn.code.length := by
  cases h with
  | refl => exact Nat.zero_le _
  | tail _ hstep => exact hstep.le_length hbranch

theorem Reaches.lt_length (hcode : fn.code ≠ []) (hend : EndsInside fn) {ip : ℕ}
    (h : Reaches fn ip) : ip < fn.code.length := by
  refine Nat.lt_of_le_of_ne (h.le_length hbranch) ?_
  cases h with
  | refl => exact fun hzero => hcode (List.eq_nil_of_length_eq_zero hzero.symm)
  | tail _ hstep =>
    cases hstep with
    | fallThrough hone hfalls => exact (hend _ _ hone).1 hfalls
    | branch hone hbranches hnext =>
      have := (hend _ _ hone).2 hbranches
      omega

end Bounded

theorem reaches_length_iff {fn : FunctionProto} (hcode : fn.code ≠ []) :
    Reaches fn fn.code.length ↔
      ∃ ip one, Reaches fn ip ∧ fetch fn ip = some one ∧
        ((one.code.fallsThrough = true ∧ ip + 1 = fn.code.length) ∨
          (one.code.branches = true ∧ one.jumpTarget ip = fn.code.length)) := by
  constructor
  · intro h
    generalize hlast : fn.code.length = last at h
    cases h with
    | refl => exact absurd (List.eq_nil_of_length_eq_zero hlast) hcode
    | tail hpath hstep =>
      cases hstep with
      | fallThrough hone hfalls => exact ⟨_, _, hpath, hone, .inl ⟨hfalls, rfl⟩⟩
      | branch hone hbranches hnext => exact ⟨_, _, hpath, hone, .inr ⟨hbranches, hnext⟩⟩
  · rintro ⟨ip, one, hpath, hone, ⟨hfalls, hlast⟩ | ⟨hbranches, hlast⟩⟩
    · exact hlast ▸ hpath.tail (.fallThrough hone hfalls)
    · exact hpath.tail (.branch hone hbranches hlast)

end Vm

namespace ProgramImage

open Vm

theorem Accepted.jumpTarget_mem {program : Program} (h : Accepted program)
    {fn : FunctionProto} (hfn : fn ∈ program.functions) (ip : ℕ) (one : Instruction)
    (hone : fetch fn ip = some one) (hbranches : one.code.branches = true) :
    0 ≤ one.jumpTarget ip ∧ one.jumpTarget ip ≤ fn.code.length := by
  obtain ⟨fi, hfi⟩ := List.mem_iff_getElem?.mp hfn
  have hjump := (checks_of_instructionFailure (h.operands fi fn ip one hfi hone)).2.1
  simp only [checkJump, (Op.branches_iff _).mp hbranches, true_and] at hjump
  split_ifs at hjump with houtside
  omega

theorem Accepted.flows_or_leaves {program : Program} (h : Accepted program)
    {fn : FunctionProto} (hfn : fn ∈ program.functions) {ip : ℕ} {one : Instruction}
    (hone : fetch fn ip = some one) : one.code.leaves = true ∨ ∃ next, Flows fn ip next := by
  cases hfalls : one.code.fallsThrough with
  | true => exact .inr ⟨ip + 1, .fallThrough hone hfalls⟩
  | false =>
    rcases Op.branches_or_leaves hfalls with hbranches | hleaves
    · have hnext := (h.jumpTarget_mem hfn ip one hone hbranches).1
      exact .inr ⟨_, .branch hone hbranches (Int.toNat_of_nonneg hnext).symm⟩
    · exact .inl hleaves

/-- Every path through a function of an accepted image stays inside its code or stops at its
end, where the head of the run loop ends the run; it stops there exactly when an instruction
on a path falls through or branches to the end. In a function without one every path runs
on until an instruction leaves the frame. -/
theorem loadImage_reaches (fingerprint : UInt64) (bytes : List UInt8)
    (expectSourceHash : Option UInt64) (expectKind : ScriptKind)
    (h : (loadImage fingerprint bytes expectSourceHash expectKind).ok = true)
    (fn : FunctionProto)
    (hfn : fn ∈ (loadImage fingerprint bytes expectSourceHash expectKind).value.functions) :
    (∀ ip, Reaches fn ip → ip ≤ fn.code.length ∧
      (fetch fn ip = none ↔ ip = fn.code.length)) ∧
    (Reaches fn fn.code.length ↔
      ∃ ip one, Reaches fn ip ∧ fetch fn ip = some one ∧
        ((one.code.fallsThrough = true ∧ ip + 1 = fn.code.length) ∨
          (one.code.branches = true ∧ one.jumpTarget ip = fn.code.length))) ∧
    (EndsInside fn → ∀ ip, Reaches fn ip → ∃ one, fetch fn ip = some one ∧
      (one.code.leaves = true ∨ ∃ next, Flows fn ip next)) := by
  have haccepted := loadImage_spec h
  obtain ⟨names, strings, hread⟩ := haccepted.readOk
  have hcode := (hread fn hfn).code_ne_nil
  have hbranch := fun ip one hone hbranches =>
    (haccepted.jumpTarget_mem hfn ip one hone hbranches).2
  refine ⟨fun ip hip => ?_, reaches_length_iff hcode, fun hend ip hip => ?_⟩
  · have hle := hip.le_length hbranch
    exact ⟨hle, fetch_eq_none_iff.trans ⟨fun hge => Nat.le_antisymm hle hge, fun heq => heq ▸ Nat.le_refl _⟩⟩
  · have hlt := hip.lt_length hbranch hcode hend
    have hone : fetch fn ip = some fn.code[ip] := List.getElem?_eq_getElem hlt
    exact ⟨_, hone, haccepted.flows_or_leaves hfn hone⟩

private theorem mem_functions_imageJumpingToEnd :
    ({ code := [{ code := .jump }] } : FunctionProto) ∈
      (loadImage 0 imageJumpingToEnd none .classic).value.functions := by
  decide +kernel

/-- Where the paths of the image that jumps to its end lead. -/
theorem loadImage_reaches_imageJumpingToEnd :
    let fn : FunctionProto := { code := [{ code := .jump }] }
    (∀ ip, Reaches fn ip → ip ≤ fn.code.length ∧
      (fetch fn ip = none ↔ ip = fn.code.length)) ∧
    (Reaches fn fn.code.length ↔
      ∃ ip one, Reaches fn ip ∧ fetch fn ip = some one ∧
        ((one.code.fallsThrough = true ∧ ip + 1 = fn.code.length) ∨
          (one.code.branches = true ∧ one.jumpTarget ip = fn.code.length))) ∧
    (EndsInside fn → ∀ ip, Reaches fn ip → ∃ one, fetch fn ip = some one ∧
      (one.code.leaves = true ∨ ∃ next, Flows fn ip next)) :=
  loadImage_reaches 0 imageJumpingToEnd none .classic (by decide +kernel) _
    mem_functions_imageJumpingToEnd

/-- The reader accepts an image with a path that runs to the end of its code. -/
theorem not_loadImage_neverEnds :
    ¬ ∀ (fingerprint : UInt64) (bytes : List UInt8) (expectSourceHash : Option UInt64)
        (expectKind : ScriptKind),
      (loadImage fingerprint bytes expectSourceHash expectKind).ok = true →
      ∀ fn ∈ (loadImage fingerprint bytes expectSourceHash expectKind).value.functions,
        ¬ Reaches fn fn.code.length := by
  intro h
  refine h 0 imageJumpingToEnd none .classic (by decide +kernel) _
    mem_functions_imageJumpingToEnd ?_
  have hone : fetch { code := [{ code := .jump }] } 0 = some { code := .jump } := rfl
  exact .single (.branch hone rfl (by decide))

end ProgramImage

end CtBrowser.Script
