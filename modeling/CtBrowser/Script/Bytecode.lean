import CtBrowser.Script.Value

/-!
# Register Bytecode

The instruction set of the script VM, the operand columns of its opcode table, and the
compiled forms built from it.

## Main definitions

- `Op`, `Op.order`, `Op.ofByte` — the opcodes and their numbering in an image.
- `SlotKind`, `Op.shape` — what each operand of an opcode indexes.
- `Instruction` — an opcode and three 16-bit operands, `bx` and `sbx` the wide ones.
- `FunctionProto`, `Program` — what the compiler produces and an image carries.
-/

namespace CtBrowser.Script

/-- The opcodes, in the order of the opcode table. -/
inductive Op
  | loadConst | loadString | loadBigint | loadUndef | loadNull | loadTrue | loadFalse | move
  | getGlobal | getGlobalTypeof | setGlobal | initGlobal | newCell | cellGet | cellSet
  | getUpvalue | setUpvalue | add | concat | addGeneric | sub | mul | div | mod | pow | negate
  | toNumber | logicalNot | equal | notEqual | looseEqual | looseNotEqual | less | lessEqual
  | greater | greaterEqual | instanceOf | hasProperty | bitAnd | bitOr | bitXor | shl | shr
  | ushr | bitNot | jump | jumpIfFalse | jumpIfTrue | jumpIfNotNullish | jumpIfDefined
  | gatherRest | apply | constructApply | defineGetter | defineSetter | defineData | newObject
  | newArray | getProp | setProp | getIndex | setIndex | append | closure | call | callMethod
  | callComputed | construct | callReceiver | copyProps | deleteProp | deleteIndex | ownKeys
  | iterable | setProto | getProto | loadHome | awaitValue | yieldValue | wrapPromise | ret
  | retUndef | typeOf | loadThis | loadNewTarget | passNewTarget | loadImport | bindExport
  | dynImport | loadNamespace | loadCallee | makeArguments | pushHandler | popHandler
  | throwValue | halt
deriving DecidableEq, Repr

/-- What an operand indexes: a register, a constant, a string, a name, a function, a
relative jump target, a plain count, the high half of a wide operand, or nothing. -/
inductive SlotKind
  | reg | kidx | sidx | nidx | fidx | jump | count | bxHi | unused
deriving DecidableEq, Repr

/-- The operand columns of one row of the opcode table. -/
structure OpcodeShape where
  a : SlotKind
  b : SlotKind
  c : SlotKind
deriving DecidableEq, Repr

namespace Op

/-- The opcodes in table order; an image stores the position. -/
def order : List Op :=
  [.loadConst, .loadString, .loadBigint, .loadUndef, .loadNull, .loadTrue, .loadFalse, .move,
   .getGlobal, .getGlobalTypeof, .setGlobal, .initGlobal, .newCell, .cellGet, .cellSet,
   .getUpvalue, .setUpvalue, .add, .concat, .addGeneric, .sub, .mul, .div, .mod, .pow, .negate,
   .toNumber, .logicalNot, .equal, .notEqual, .looseEqual, .looseNotEqual, .less, .lessEqual,
   .greater, .greaterEqual, .instanceOf, .hasProperty, .bitAnd, .bitOr, .bitXor, .shl, .shr,
   .ushr, .bitNot, .jump, .jumpIfFalse, .jumpIfTrue, .jumpIfNotNullish, .jumpIfDefined,
   .gatherRest, .apply, .constructApply, .defineGetter, .defineSetter, .defineData, .newObject,
   .newArray, .getProp, .setProp, .getIndex, .setIndex, .append, .closure, .call, .callMethod,
   .callComputed, .construct, .callReceiver, .copyProps, .deleteProp, .deleteIndex, .ownKeys,
   .iterable, .setProto, .getProto, .loadHome, .awaitValue, .yieldValue, .wrapPromise, .ret,
   .retUndef, .typeOf, .loadThis, .loadNewTarget, .passNewTarget, .loadImport, .bindExport,
   .dynImport, .loadNamespace, .loadCallee, .makeArguments, .pushHandler, .popHandler,
   .throwValue, .halt]

/-- The number of opcodes. -/
def opcodeCount : ℕ := order.length

/-- The opcode an image byte stands for. -/
def ofByte (raw : ℕ) : Option Op := order[raw]?

/-- The operand columns of the opcode table. -/
def shape : Op → OpcodeShape
  | .loadConst => ⟨.reg, .kidx, .bxHi⟩
  | .loadString | .loadBigint => ⟨.reg, .sidx, .bxHi⟩
  | .loadUndef | .loadNull | .loadTrue | .loadFalse | .newCell | .newObject | .newArray
  | .loadHome | .wrapPromise | .ret | .loadThis | .loadNewTarget | .loadCallee | .makeArguments
  | .throwValue => ⟨.reg, .unused, .unused⟩
  | .move | .cellGet | .cellSet | .negate | .toNumber | .logicalNot | .bitNot | .constructApply
  | .append | .copyProps | .deleteIndex | .ownKeys | .iterable | .setProto | .getProto
  | .awaitValue | .yieldValue | .typeOf | .dynImport => ⟨.reg, .reg, .unused⟩
  | .getGlobal | .getGlobalTypeof | .setGlobal | .initGlobal | .bindExport => ⟨.reg, .nidx, .bxHi⟩
  | .getUpvalue | .gatherRest | .call | .construct => ⟨.reg, .count, .unused⟩
  | .setUpvalue => ⟨.count, .reg, .unused⟩
  | .add | .concat | .addGeneric | .sub | .mul | .div | .mod | .pow | .equal | .notEqual
  | .looseEqual | .looseNotEqual | .less | .lessEqual | .greater | .greaterEqual | .instanceOf
  | .hasProperty | .bitAnd | .bitOr | .bitXor | .shl | .shr | .ushr | .apply | .defineData
  | .getIndex | .setIndex => ⟨.reg, .reg, .reg⟩
  | .jump => ⟨.unused, .jump, .bxHi⟩
  | .jumpIfFalse | .jumpIfTrue | .jumpIfNotNullish | .jumpIfDefined | .pushHandler => ⟨.reg, .jump, .bxHi⟩
  | .defineGetter | .defineSetter | .setProp => ⟨.reg, .nidx, .reg⟩
  | .getProp => ⟨.reg, .reg, .nidx⟩
  | .closure => ⟨.reg, .fidx, .bxHi⟩
  | .callMethod => ⟨.reg, .count, .nidx⟩
  | .callComputed | .callReceiver => ⟨.reg, .count, .reg⟩
  | .deleteProp | .loadNamespace => ⟨.reg, .nidx, .unused⟩
  | .retUndef | .passNewTarget | .popHandler | .halt => ⟨.unused, .unused, .unused⟩
  | .loadImport => ⟨.reg, .nidx, .nidx⟩

/-- The opcodes that place a callee's frame at the caller's argument window. -/
def isCallShape (code : Op) : Bool :=
  code == call || code == callMethod || code == callComputed || code == construct ||
    code == callReceiver

end Op

/-- One instruction: an opcode and three 16-bit operands. -/
structure Instruction where
  code : Op
  a : UInt16 := 0
  -- operand `b`, or the high half of the wide operand
  b : UInt16 := 0
  -- operand `c`, or the low half of the wide operand
  c : UInt16 := 0
deriving DecidableEq, Repr

namespace Instruction

/-- Operands `b` and `c` read as one unsigned 32-bit field. -/
def bx (i : Instruction) : ℕ := i.b.toNat * 2 ^ 16 + i.c.toNat

/-- `bx` reinterpreted as a signed 32-bit offset. -/
def sbx (i : Instruction) : ℤ := if i.bx < 2 ^ 31 then i.bx else i.bx - 2 ^ 32

/-- Where a branch taken at `ip` goes: the offset is added to the incremented `ip`. -/
def jumpTarget (i : Instruction) (ip : ℕ) : ℤ := ip + 1 + i.sbx

end Instruction

/-- Where one upvalue of a function comes from: a register of the enclosing frame, or an
upvalue of the enclosing closure. -/
structure UpvalueDesc where
  -- whether `index` is a register of the enclosing frame
  fromParentLocal : Bool := true
  index : UInt16 := 0
deriving DecidableEq, Repr

/-- The name of a register over a half-open range of instructions. -/
structure LocalDesc where
  name : Text := []
  reg : UInt16 := 0
  -- the first instruction of the range
  firstPc : UInt32 := 0
  -- the end of the range
  lastPc : UInt32 := 0
  -- whether the local ended its scope in a cell
  boxed : Bool := false
deriving DecidableEq, Repr

/-- One compiled function. -/
structure FunctionProto where
  module : Text := []
  -- the name the source wrote
  name : Text := []
  -- the name taken from the binding an anonymous function initialised
  inferredName : Text := []
  -- the number of parameter registers
  paramCount : UInt16 := 0
  length : UInt16 := 0
  -- the number of registers the body needs
  frameSize : UInt16 := 1
  isArrow : Bool := false
  isStrict : Bool := false
  isGenerator : Bool := false
  -- whether a generator's parameter prologue runs at the call
  eagerPrologue : Bool := false
  -- whether a generator is an async one
  isAsync : Bool := false
  sourceBegin : UInt32 := 0
  sourceEnd : UInt32 := 0
  code : List Instruction := []
  -- the constant pool, immediates only
  constants : List Value := []
  strings : List Text := []
  names : List Text := []
  upvalues : List UpvalueDesc := []
  locals : List LocalDesc := []
  -- the source offset of each instruction, or nothing
  codeOffsets : List UInt32 := []
  -- the instructions that rethrow a value a handler caught
  rethrows : List UInt32 := []
deriving DecidableEq, Repr

/-- Which kind of script a program is. -/
inductive ScriptKind
  | classic | module_
deriving DecidableEq, Repr

/-- A re-export edge of a module. -/
structure Reexport where
  exported : Text
  -- the name in the other module, empty for `export *`
  source : Text
  origin : Text
deriving DecidableEq, Repr

/-- A compiled script or module: the fields an image carries. -/
structure Program where
  imports : List Text := []
  exports : List Text := []
  reexports : List Reexport := []
  -- a classic script's hoisted `var` names
  hoistedVars : List Text := []
  lexicalNames : List Text := []
  functionNames : List Text := []
  -- the hoisted names that only a block's function declaration made
  annexBNames : List Text := []
  source : Text := []
  -- the functions; the first is the top-level script
  functions : List FunctionProto := []
  kind : ScriptKind := .classic
  ok : Bool := true
deriving DecidableEq, Repr

end CtBrowser.Script
