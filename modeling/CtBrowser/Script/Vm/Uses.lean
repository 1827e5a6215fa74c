import CtBrowser.Script.Bytecode

/-!
# What the Run Loop Indexes

The tables each opcode body of the interpreter indexes without a check of its own. The
opcode bodies are written by hand; the operand columns of the opcode table are a second
description of the same operands, and this file shows that the columns cover the bodies.

## Main definitions

- `Use` — one unchecked index into a table.
- `uses` — the unchecked indices of an opcode body.
- `columnUses`, `windowUses` — the indices the opcode table accounts for.

## Main results

- `mem_uses` — every index an opcode body uses is one its row accounts for, a register of
  its argument window, or a name an earlier instruction uses.
-/

namespace CtBrowser.Script.Vm

/-- One index the interpreter uses without checking it. -/
inductive Use
  -- a register of the running frame
  | reg (index : ℕ)
  -- an entry of the running function's constant pool
  | constant (index : ℕ)
  -- an entry of the running function's string table
  | string (index : ℕ)
  -- an entry of the running function's name table
  | name (index : ℕ)
  -- a function of the running program
  | function (index : ℕ)
  -- the registers of the running frame that the upvalues of a function capture
  | capture (index : ℕ)
  -- where the instruction pointer may be sent
  | target (ip : ℤ)
deriving DecidableEq, Repr

/-- The registers of a call's argument window. -/
def windowUses (one : Instruction) : List Use :=
  (List.range one.b.toNat).map fun k => .reg (one.a.toNat + 1 + k)

/-- The names read to describe what a call tried to call: the walk back from `ip` to the
instruction that last wrote the register. -/
def originUses (code : List Instruction) : ℕ → UInt16 → List Use
  | 0, _ => []
  | i + 1, want =>
    match code[i]? with
    | none => []
    | some prior =>
      if prior.a ≠ want then originUses code i want
      else match prior.code with
        | .getGlobal => [.name prior.bx]
        | .getProp | .callMethod => [.name prior.c.toNat]
        | .move => originUses code i prior.b
        | .call | .construct => originUses code i prior.a
        | _ => []

/-- The indices the body of an opcode uses without a check. -/
def uses (fn : FunctionProto) (ip : ℕ) (one : Instruction) : List Use :=
  let a := Use.reg one.a.toNat
  let b := Use.reg one.b.toNat
  let c := Use.reg one.c.toNat
  match one.code with
  | .loadConst => [a, .constant one.bx]
  | .loadString | .loadBigint => [a, .string one.bx]
  | .loadUndef | .loadNull | .loadTrue | .loadFalse => [a]
  | .move => [a, b]
  | .getGlobal | .getGlobalTypeof | .setGlobal | .initGlobal => [a, .name one.bx]
  | .newCell => [a]
  | .cellGet | .cellSet => [a, b]
  | .getUpvalue => [a]
  | .setUpvalue => [b]
  | .add | .concat | .addGeneric | .sub | .mul | .div | .mod | .pow => [a, b, c]
  | .negate | .toNumber | .logicalNot => [a, b]
  | .equal | .notEqual | .looseEqual | .looseNotEqual => [a, b, c]
  | .less | .lessEqual | .greater | .greaterEqual => [a, b, c]
  | .instanceOf | .hasProperty => [a, b, c]
  | .bitAnd | .bitOr | .bitXor | .shl | .shr | .ushr => [a, b, c]
  | .bitNot => [a, b]
  | .jump => [.target (one.jumpTarget ip)]
  | .jumpIfFalse | .jumpIfTrue | .jumpIfNotNullish | .jumpIfDefined =>
    [a, .target (one.jumpTarget ip)]
  | .gatherRest => [a]
  | .apply => [a, b, c]
  | .constructApply => [a, b]
  | .defineGetter | .defineSetter => [a, .name one.b.toNat, c]
  | .defineData => [a, b, c]
  | .newObject | .newArray => [a]
  | .getProp => [a, b, .name one.c.toNat]
  | .setProp => [a, .name one.b.toNat, c]
  | .getIndex | .setIndex => [a, b, c]
  | .append => [a, b]
  | .closure => [a, .function one.bx, .capture one.bx]
  | .call | .construct => a :: (windowUses one ++ originUses fn.code ip one.a)
  | .callMethod =>
    a :: .name one.c.toNat :: (windowUses one ++ originUses fn.code ip one.a)
  | .callComputed | .callReceiver =>
    a :: c :: (windowUses one ++ originUses fn.code ip one.a)
  | .copyProps => [a, b]
  | .deleteProp => [a, .name one.b.toNat]
  | .deleteIndex => [a, b]
  | .ownKeys | .iterable => [a, b]
  | .setProto | .getProto => [a, b]
  | .loadHome => [a]
  -- register `a` is written when the suspended frame is resumed
  | .awaitValue | .yieldValue => [a, b]
  | .wrapPromise => [a]
  | .ret => [a]
  | .retUndef => []
  | .typeOf => [a, b]
  | .loadThis | .loadNewTarget => [a]
  | .passNewTarget => []
  | .loadImport => [a, .name one.b.toNat, .name one.c.toNat]
  | .bindExport => [a, .name one.bx]
  | .dynImport => [a, b]
  | .loadNamespace => [a, .name one.b.toNat]
  | .loadCallee | .makeArguments => [a]
  -- register `a` is written when a throw lands on the handler
  | .pushHandler => [a, .target (one.jumpTarget ip)]
  | .popHandler => []
  | .throwValue => [a]
  | .halt => []

/-- What the column of a narrow operand accounts for. -/
def slotUses (kind : SlotKind) (operand : ℕ) : List Use :=
  match kind with
  | .reg => [.reg operand]
  | .kidx => [.constant operand]
  | .sidx => [.string operand]
  | .nidx => [.name operand]
  | .fidx => [.function operand]
  | _ => []

/-- What the columns of a wide operand account for. -/
def wideUses (kind : SlotKind) (one : Instruction) (ip : ℕ) : List Use :=
  match kind with
  | .kidx => [.constant one.bx]
  | .sidx => [.string one.bx]
  | .nidx => [.name one.bx]
  | .fidx => [.function one.bx, .capture one.bx]
  | .jump => [.target (one.jumpTarget ip)]
  | _ => []

/-- What the row of an opcode accounts for. -/
def columnUses (one : Instruction) (ip : ℕ) : List Use :=
  slotUses one.code.shape.a one.a.toNat ++
    if one.code.shape.c = .bxHi then wideUses one.code.shape.b one ip
    else slotUses one.code.shape.b one.b.toNat ++ slotUses one.code.shape.c one.c.toNat

theorem mem_originUses {code : List Instruction} {n : ℕ} {want : UInt16} {use : Use}
    (h : use ∈ originUses code n want) :
    ∃ (i : ℕ) (prior : Instruction), code[i]? = some prior ∧ use ∈ columnUses prior i := by
  induction n generalizing want with
  | zero => simp [originUses] at h
  | succ i ih =>
    rw [originUses] at h
    split at h
    · simp at h
    next prior hprior =>
      split_ifs at h with hwant
      · exact ih h
      · obtain ⟨opcode, a, b, c⟩ := prior
        split at h
        next hcode =>
          obtain rfl : opcode = .getGlobal := hcode
          exact ⟨i, _, hprior, List.mem_cons_of_mem _ h⟩
        next hcode =>
          obtain rfl : opcode = .getProp := hcode
          exact ⟨i, _, hprior, List.mem_cons_of_mem _ (List.mem_cons_of_mem _ h)⟩
        next hcode =>
          obtain rfl : opcode = .callMethod := hcode
          exact ⟨i, _, hprior, List.mem_cons_of_mem _ h⟩
        next => exact ih h
        next => exact ih h
        next => exact ih h
        next => simp at h

private theorem mem_uses_call {fn : FunctionProto} {ip : ℕ} {one : Instruction} {use : Use}
    {columns : List Use} (hcall : one.code.isCallShape = true)
    (hcolumns : columns = columnUses one ip)
    (h : use ∈ columns ++ (windowUses one ++ originUses fn.code ip one.a)) :
    use ∈ columnUses one ip ∨ (one.code.isCallShape ∧ use ∈ windowUses one) ∨
      ∃ (i : ℕ) (prior : Instruction), fn.code[i]? = some prior ∧
        use ∈ columnUses prior i := by
  rcases List.mem_append.mp h with h | h
  · exact .inl (hcolumns ▸ h)
  · rcases List.mem_append.mp h with h | h
    · exact .inr (.inl ⟨hcall, h⟩)
    · exact .inr (.inr (mem_originUses h))

/-- Every index an opcode body uses is one its row accounts for, a register of its argument
window, or a name an earlier instruction's row accounts for. -/
theorem mem_uses {fn : FunctionProto} {ip : ℕ} {one : Instruction} {use : Use}
    (h : use ∈ uses fn ip one) :
    use ∈ columnUses one ip ∨ (one.code.isCallShape ∧ use ∈ windowUses one) ∨
      ∃ (i : ℕ) (prior : Instruction), fn.code[i]? = some prior ∧
        use ∈ columnUses prior i := by
  obtain ⟨opcode, a, b, c⟩ := one
  cases opcode
  case call => exact mem_uses_call  rfl rfl h
  case construct => exact mem_uses_call  rfl rfl h
  case callMethod => exact mem_uses_call  rfl rfl h
  case callComputed => exact mem_uses_call  rfl rfl h
  case callReceiver => exact mem_uses_call  rfl rfl h
  -- elsewhere the body uses exactly what the row accounts for
  all_goals exact .inl h

end CtBrowser.Script.Vm
