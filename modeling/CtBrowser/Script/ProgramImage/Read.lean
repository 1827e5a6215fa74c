import CtBrowser.Script.ProgramImage.SourceBytes

/-!
# Loading a Program Image

The reader of a program image: the pools and lists of the program, the fields of each
function, and the pass that checks every operand against the tables it indexes once all of
them are present.

## Main definitions

- `whyNotAConstant` — the rule for constant-pool entries.
- `readTables`, `readFunction` — the two halves of the body of an image.
- `instructionFailure`, `operandFailure` — the operand pass.
- `loadImage` — the loader.

## Main results

- `ensures_readFunction` — what a function that was read without a failure satisfies.
- `loadImage_spec` — what an accepted program satisfies.
-/

namespace CtBrowser.Script.ProgramImage

open CtBrowser.Foundations

/-- Why a word may not be a constant-pool entry, if it may not. -/
def whyNotAConstant (bits : UInt64) : Option String :=
  let v : Value := ⟨bits⟩
  if v.isHeap then some "carries a heap pointer; the pool holds immediates only"
  else if v.isNumber then
    if v.isNan && bits != Value.canonicalNanBits then
      some ("is a NaN carrying a payload - one arithmetic operation quiets bit 51 and " ++
        "turns it into a boxed tag or a heap pointer")
    else none
  else if v.isUndefined || v.isNull || v.isBoolean then none
  else some ("is a tag no value has - it is neither a number, nor undefined, null, false or " ++
    "true, nor a heap pointer")

/-- The rule admits exactly the immediates. -/
theorem whyNotAConstant_eq_none_iff (bits : UInt64) :
    whyNotAConstant bits = none ↔ Value.IsImmediate ⟨bits⟩ := by
  constructor
  · intro h
    by_cases hheap : (⟨bits⟩ : Value).isHeap = true
    · simp [whyNotAConstant, hheap] at h
    by_cases hnumber : (⟨bits⟩ : Value).isNumber = true
    · refine .number hnumber fun hnan => ?_
      by_contra hbits
      simp [whyNotAConstant, hheap, hnumber, hnan, hbits] at h
    · have htag : ((⟨bits⟩ : Value).isUndefined || (⟨bits⟩ : Value).isNull ||
          (⟨bits⟩ : Value).isBoolean) = true := by
        by_contra htag
        rw [Bool.not_eq_true] at htag
        simp [whyNotAConstant, hheap, hnumber, htag] at h
      rcases (Value.isTag_iff _).mp htag with htag | htag | ⟨b, htag⟩ <;> rw [htag]
      · exact .undefined
      · exact .null
      · exact .boolean b
  · intro h
    have hheap := h.isHeap_eq_false
    by_cases hnumber : (⟨bits⟩ : Value).isNumber = true
    · have hnan : ((⟨bits⟩ : Value).isNan && bits != Value.canonicalNanBits) = false := by
        cases h with
        | number _ honly =>
          cases hnan : (⟨bits⟩ : Value).isNan with
          | false => rfl
          | true =>
            have hbits : bits = Value.canonicalNanBits := honly hnan
            simp [hbits]
        | undefined => exact absurd hnumber (by decide)
        | null => exact absurd hnumber (by decide)
        | boolean b => cases b <;> exact absurd hnumber (by decide)
      simp [whyNotAConstant, hheap, hnumber, hnan]
    · have htag : ((⟨bits⟩ : Value).isUndefined || (⟨bits⟩ : Value).isNull ||
          (⟨bits⟩ : Value).isBoolean) = true := by
        rw [Value.isTag_iff]
        cases h with
        | number hn _ => exact absurd hn hnumber
        | undefined => exact .inl rfl
        | null => exact .inr (.inl rfl)
        | boolean b => exact .inr (.inr ⟨b, rfl⟩)
      simp [whyNotAConstant, hheap, hnumber, htag]
/-- Read a pool: a count, then that many texts. -/
def readPool (what : String) : Reader (List Text) := do
  let n ← u32
  if (← needs n.toNat) then
    Scan.forEach (fun _ => text) 0 n.toNat
  else
    failWith ("the " ++ what ++ " pool claims more entries than the image holds")
    return []

/-- Read a list of the program: a count, then that many texts. -/
def readList (what : String) : Reader (List Text) := do
  let n ← u32
  if (← needs (n.toNat * 4)) then
    Scan.forEach (fun _ => text) 0 n.toNat
  else
    failWith ("the " ++ what ++ " list claims more entries than the image holds")
    return []

/-- Read one re-export edge. -/
def readReexport : Reader Reexport := do
  let exported ← text
  let source ← text
  let origin ← text
  return { exported, source, origin }

/-- Read the re-exports. -/
def readReexports : Reader (List Reexport) := do
  let n ← u32
  if (← needs (n.toNat * 12)) then
    Scan.forEach (fun _ => readReexport) 0 n.toNat
  else
    failWith "the re-export list claims more entries than the image holds"
    return []

/-- The part of an image before its functions. -/
structure Tables where
  -- the name pool
  names : List Text
  -- the string pool
  strings : List Text
  -- the program without its functions
  program : Program
  -- the number of functions
  functionCount : ℕ

/-- Read the part of an image before its functions. -/
def readTables (kind : ScriptKind) : Reader Tables := do
  let names ← readPool "name"
  let strings ← readPool "string"
  let imports ← readList "import"
  let exports ← readList "export"
  let reexports ← readReexports
  let hoistedVars ← readList "hoisted var"
  let lexicalNames ← readList "lexical name"
  let functionNames ← readList "function name"
  let annexBNames ← readList "Annex B name"
  let source ← text
  let functionCount ← u32
  return {
    names, strings, functionCount := functionCount.toNat
    program := { imports, exports, reexports, hoistedVars, lexicalNames, functionNames,
                 annexBNames, source, kind } }

/-- The prefix of a message about function `fi`. -/
def whereIs (fi : ℕ) : String := "function " ++ toString fi ++ ": "

/-- Leave with a message about function `fi`. -/
def refuseIn {α : Type} (fi : ℕ) (reason : String) : Reader α := refuse (whereIs fi ++ reason)

/-- Read the fixed-width fields of function `fi`. -/
def readHeader (fi : ℕ) : Reader FunctionProto := do
  let module ← text
  let name ← text
  let inferredName ← text
  let paramCount ← u16
  let length ← u16
  let frameSize ← u16
  let arrow ← u8
  let flags ← u8
  let generator := flags &&& 3
  if arrow > 3 || generator > 2 || (flags &&& 0xF8) != 0 || flags == 4 then
    refuseIn fi "a function flag out of range"
  else
    let sourceBegin ← u32
    let sourceEnd ← u32
    if paramCount > frameSize then
      refuseIn fi ("param_count " ++ toString paramCount.toNat ++ " exceeds frame_size " ++
        toString frameSize.toNat ++
        " - the parameter fill would write past the register window")
    else
      return {
        module, name, inferredName, paramCount, length, frameSize
        isArrow := (arrow &&& 1) != 0
        isStrict := (arrow &&& 2) != 0
        isGenerator := generator != 0
        isAsync := generator == 2
        eagerPrologue := (flags &&& 4) != 0
        sourceBegin, sourceEnd }

/-- Read one instruction of function `fi`. -/
def readInstruction (fi : ℕ) : Reader Instruction := do
  let raw ← u8
  match Op.ofByte raw.toNat with
  | none =>
    refuseIn fi ("opcode byte " ++ toString raw.toNat ++ " is not an instruction")
  | some code =>
    let a ← u16
    let b ← u16
    let c ← u16
    return { code, a, b, c }

/-- Read the code of function `fi`. -/
def readCode (fi : ℕ) : Reader (List Instruction) := do
  let codeCount ← u32
  if (← needs (codeCount.toNat * 7)) then
    if codeCount.toNat = 0 then
      refuseIn fi "no instructions - a frame entered here would run off the end"
    else
      let code ← Scan.forEach (fun _ => readInstruction fi) 0 codeCount.toNat
      Scan.stopIfBad
      return code
  else
    refuseIn fi "the code array claims more instructions than the image holds"

/-- Read constant `i` of function `fi`. -/
def readConstant (fi i : ℕ) : Reader Value := do
  let bits ← u64
  match whyNotAConstant bits with
  | some why => refuseIn fi ("constant " ++ toString i ++ " " ++ why)
  | none => return ⟨bits⟩

/-- Read the constant pool of function `fi`. -/
def readConstants (fi : ℕ) : Reader (List Value) := do
  let constantCount ← u32
  if (← needs (constantCount.toNat * 8)) then
    let constants ← Scan.forEach (readConstant fi) 0 constantCount.toNat
    Scan.stopIfBad
    return constants
  else
    refuseIn fi "the constant pool claims more entries than the image holds"

/-- Read one index into a pool, and the text it stands for. -/
def readIndex (fi : ℕ) (pool : List Text) (what : String) (i : ℕ) : Reader Text := do
  let id ← u32
  match pool[id.toNat]? with
  | none =>
    refuseIn fi (what ++ " entry " ++ toString i ++ " points outside the " ++ what ++ " pool")
  | some entry => return entry

/-- Read a table of function `fi` that indexes a pool. -/
def readIndices (fi : ℕ) (pool : List Text) (what : String) : Reader (List Text) := do
  let n ← u32
  if (← needs (n.toNat * 4)) then
    let into ← Scan.forEach (readIndex fi pool what) 0 n.toNat
    Scan.stopIfBad
    return into
  else
    refuseIn fi ("the " ++ what ++ " table claims more entries than the image holds")

/-- Read upvalue descriptor `i` of function `fi`. -/
def readUpvalue (fi i : ℕ) : Reader UpvalueDesc := do
  let fromLocal ← u8
  if fromLocal > 1 then
    refuseIn fi ("upvalue " ++ toString i ++ " has a boolean that is neither 0 nor 1")
  else
    let index ← u16
    return { fromParentLocal := fromLocal != 0, index }

/-- Read the upvalue descriptors of function `fi`. -/
def readUpvalues (fi : ℕ) : Reader (List UpvalueDesc) := do
  let upvalueCount ← u32
  if (← needs (upvalueCount.toNat * 3)) then
    let upvalues ← Scan.forEach (readUpvalue fi) 0 upvalueCount.toNat
    Scan.stopIfBad
    return upvalues
  else
    refuseIn fi "the upvalue table claims more entries than the image holds"

/-- Read local `i` of function `fi`, whose frame and code have the given sizes. -/
def readLocal (fi : ℕ) (names : List Text) (frameSize codeSize : ℕ) (i : ℕ) :
    Reader LocalDesc := do
  let id ← u32
  match names[id.toNat]? with
  | none => refuseIn fi ("local " ++ toString i ++ " points outside the name pool")
  | some name =>
    let reg ← u16
    let firstPc ← u32
    let lastPc ← u32
    let boxed ← u8
    if boxed > 1 then
      refuseIn fi ("local " ++ toString i ++ " has a boolean that is neither 0 nor 1")
    else if reg.toNat ≥ frameSize then
      refuseIn fi ("local " ++ toString i ++ " names register " ++ toString reg.toNat ++
        " in a frame of " ++ toString frameSize)
    else if firstPc > lastPc ∨ lastPc.toNat > codeSize then
      refuseIn fi ("local " ++ toString i ++ " is live for [" ++ toString firstPc.toNat ++ ", " ++
        toString lastPc.toNat ++ ") of " ++ toString codeSize ++ " instructions")
    else
      return { name, reg, firstPc, lastPc, boxed := boxed != 0 }

/-- Read the local-variable table of function `fi`. -/
def readLocals (fi : ℕ) (names : List Text) (frameSize codeSize : ℕ) :
    Reader (List LocalDesc) := do
  let localCount ← u32
  if (← needs (localCount.toNat * 15)) then
    let locals ← Scan.forEach (readLocal fi names frameSize codeSize) 0 localCount.toNat
    Scan.stopIfBad
    return locals
  else
    refuseIn fi "the local table claims more entries than the image holds"

/-- Read the source-offset table of function `fi`. -/
def readOffsets (fi codeSize : ℕ) : Reader (List UInt32) := do
  let offsetCount ← u32
  if offsetCount.toNat ≠ 0 ∧ offsetCount.toNat ≠ codeSize then
    refuseIn fi ("the source-offset table has " ++ toString offsetCount.toNat ++
      " entries for " ++ toString codeSize ++
      " instructions - it is parallel to the code or it is absent")
  else if (← needs (offsetCount.toNat * 4)) then
    Scan.forEach (fun _ => u32) 0 offsetCount.toNat
  else
    refuseIn fi "the source-offset table claims more entries than the image holds"

/-- Read the rethrow table of function `fi`. -/
def readRethrows (fi : ℕ) : Reader (List UInt32) := do
  let rethrowCount ← u32
  if (← needs (rethrowCount.toNat * 4)) then
    let rethrows ← Scan.forEach (fun _ => u32) 0 rethrowCount.toNat
    Scan.stopIfBad
    return rethrows
  else
    refuseIn fi "the rethrow table claims more entries than the image holds"

/-- Read function `fi`. -/
def readFunction (names strings : List Text) (fi : ℕ) : Reader FunctionProto := do
  let fn ← readHeader fi
  let code ← readCode fi
  let constants ← readConstants fi
  let fnStrings ← readIndices fi strings "string"
  let fnNames ← readIndices fi names "name"
  let upvalues ← readUpvalues fi
  let locals ← readLocals fi names fn.frameSize.toNat code.length
  let codeOffsets ← readOffsets fi code.length
  let rethrows ← readRethrows fi
  return { fn with
    code, constants, strings := fnStrings, names := fnNames, upvalues, locals, codeOffsets,
    rethrows }

/-! ## What reading a function ensures -/

section Ensures

open Scan

/-- What a function satisfies once it was read, before its operands are checked. -/
structure ReadOk (names strings : List Text) (fn : FunctionProto) : Prop where
  -- the parameter fill stays inside the frame
  paramCount_le : fn.paramCount ≤ fn.frameSize
  -- there is an instruction to enter at
  code_ne_nil : fn.code ≠ []
  -- the constant pool holds immediates
  constants_immediate : ∀ v ∈ fn.constants, v.IsImmediate
  -- the string table comes from the string pool
  strings_mem : ∀ t ∈ fn.strings, t ∈ strings
  -- the name table comes from the name pool
  names_mem : ∀ t ∈ fn.names, t ∈ names
  -- a local is a register of the frame, live inside the code
  locals_inside : ∀ d ∈ fn.locals, d.reg.toNat < fn.frameSize.toNat ∧
    d.firstPc ≤ d.lastPc ∧ d.lastPc.toNat ≤ fn.code.length
  -- the source offsets are parallel to the code or absent
  codeOffsets_parallel : fn.codeOffsets = [] ∨ fn.codeOffsets.length = fn.code.length

theorem ensures_readHeader (fi : ℕ) :
    Ensures (readHeader fi) (fun fn => fn.paramCount ≤ fn.frameSize) := by
  refine ensures_text.bind fun module => ensures_text.bind fun name =>
    ensures_text.bind fun inferredName => ensures_u16.bind fun paramCount =>
    ensures_u16.bind fun length => ensures_u16.bind fun frameSize =>
    ensures_u8.bind fun arrow => ensures_u8.bind fun flags => ?_
  refine Ensures.ite (ensures_refuse _ _) ?_
  refine ensures_u32.bind fun sourceBegin => ensures_u32.bind fun sourceEnd => ?_
  refine Ensures.ite (ensures_refuse _ _) (Ensures.pure ?_)
  intros
  grind

theorem ensures_readInstruction (fi : ℕ) : Ensures (readInstruction fi) (fun _ => True) := by
  refine ensures_u8.bind fun raw => ?_
  split
  · exact ensures_refuse _ _
  · exact ensures_u16.bind fun a => ensures_u16.bind fun b => ensures_u16.bind fun c =>
      Ensures.pure (by simp)

theorem ensures_counted {α : Type} {P : α → Prop} {item : ℕ → Reader α} (n size : ℕ)
    (reason : String) (hitem : ∀ i, Ensures (item i) P) (fi : ℕ) :
    Ensures (do
      if (← needs size) then
        let xs ← Scan.forEach item 0 n
        Scan.stopIfBad
        return xs
      else
        refuseIn fi reason) (fun xs => xs.length = n ∧ ∀ x ∈ xs, P x) := by
  refine (ensures_needs size).bind fun ok => ?_
  refine Ensures.ite ?_ (ensures_refuse _ _)
  exact (Ensures.forEach hitem 0 n).bind fun xs => Ensures.stopIfBad.bind fun _ =>
    Ensures.pure fun _ hxs _ _ => hxs

theorem ensures_readCode (fi : ℕ) : Ensures (readCode fi) (· ≠ []) := by
  refine ensures_u32.bind fun n => (ensures_needs _).bind fun ok => ?_
  refine Ensures.ite (Ensures.ite (ensures_refuse _ _) ?_) (ensures_refuse _ _)
  refine (Ensures.forEach (fun _ => ensures_readInstruction fi) 0 n.toNat).bind fun code =>
    Ensures.stopIfBad.bind fun _ => Ensures.pure ?_
  intro _ hcode hn _ _ _ hnil
  exact hn (by simpa [hnil] using hcode.1.symm)

theorem ensures_readConstant (fi i : ℕ) :
    Ensures (readConstant fi i) (fun v => v.IsImmediate) := by
  refine ensures_u64.bind fun bits => ?_
  split
  next why _ => exact ensures_refuse _ _
  next hnone => exact Ensures.pure fun _ => (whyNotAConstant_eq_none_iff bits).mp hnone

theorem ensures_readConstants (fi : ℕ) :
    Ensures (readConstants fi) (fun vs => ∀ v ∈ vs, v.IsImmediate) :=
  ensures_u32.bind fun n => (ensures_counted n.toNat _ _ (ensures_readConstant fi) fi).mono
    fun _ h _ => h.2

theorem ensures_readIndex (fi : ℕ) (pool : List Text) (what : String) (i : ℕ) :
    Ensures (readIndex fi pool what i) (· ∈ pool) := by
  refine ensures_u32.bind fun id => ?_
  split
  next => exact ensures_refuse _ _
  next entry hentry => exact Ensures.pure fun _ => List.mem_of_getElem? hentry

theorem ensures_readIndices (fi : ℕ) (pool : List Text) (what : String) :
    Ensures (readIndices fi pool what) (fun ts => ∀ t ∈ ts, t ∈ pool) :=
  ensures_u32.bind fun n => (ensures_counted n.toNat _ _ (ensures_readIndex fi pool what)
    fi).mono fun _ h _ => h.2

theorem ensures_readUpvalue (fi i : ℕ) : Ensures (readUpvalue fi i) (fun _ => True) :=
  ensures_u8.bind fun _ => Ensures.ite (ensures_refuse _ _)
    (ensures_u16.bind fun _ => Ensures.pure (by simp))

theorem ensures_readUpvalues (fi : ℕ) : Ensures (readUpvalues fi) (fun _ => True) :=
  ensures_u32.bind fun n => (ensures_counted n.toNat _ _ (ensures_readUpvalue fi) fi).mono
    fun _ _ _ => trivial

theorem ensures_readLocal (fi : ℕ) (names : List Text) (frameSize codeSize i : ℕ) :
    Ensures (readLocal fi names frameSize codeSize i) (fun d =>
      d.reg.toNat < frameSize ∧ d.firstPc ≤ d.lastPc ∧ d.lastPc.toNat ≤ codeSize) := by
  refine ensures_u32.bind fun id => ?_
  split
  · exact ensures_refuse _ _
  · refine ensures_u16.bind fun reg => ensures_u32.bind fun firstPc =>
      ensures_u32.bind fun lastPc => ensures_u8.bind fun boxed => ?_
    refine Ensures.ite (ensures_refuse _ _) (Ensures.ite (ensures_refuse _ _)
      (Ensures.ite (ensures_refuse _ _) (Ensures.pure ?_)))
    intro hpc hreg
    intros
    exact ⟨Nat.lt_of_not_le hreg, UInt32.not_lt.mp fun h => hpc (.inl h),
      Nat.le_of_not_lt fun h => hpc (.inr h)⟩

theorem ensures_readLocals (fi : ℕ) (names : List Text) (frameSize codeSize : ℕ) :
    Ensures (readLocals fi names frameSize codeSize) (fun ds => ∀ d ∈ ds,
      d.reg.toNat < frameSize ∧ d.firstPc ≤ d.lastPc ∧ d.lastPc.toNat ≤ codeSize) :=
  ensures_u32.bind fun n => (ensures_counted n.toNat _ _
    (ensures_readLocal fi names frameSize codeSize) fi).mono fun _ h _ => h.2

theorem ensures_readOffsets (fi codeSize : ℕ) :
    Ensures (readOffsets fi codeSize) (fun xs => xs = [] ∨ xs.length = codeSize) := by
  refine ensures_u32.bind fun n => ?_
  refine Ensures.ite (ensures_refuse _ _) ((ensures_needs _).bind fun ok =>
    Ensures.ite ?_ (ensures_refuse _ _))
  refine (Ensures.forEach (fun _ => ensures_u32) 0 n.toNat).mono fun xs hxs _ _ hparallel _ => ?_
  rcases hxs with ⟨hlength, -⟩
  by_cases hzero : n.toNat = 0
  · exact .inl (List.eq_nil_of_length_eq_zero (hlength.trans hzero))
  · exact .inr (by omega)

theorem ensures_readRethrows (fi : ℕ) : Ensures (readRethrows fi) (fun _ => True) :=
  ensures_u32.bind fun n => (ensures_counted n.toNat _ _ (fun _ => ensures_u32) fi).mono
    fun _ _ _ => trivial

/-- A function that was read without a failure satisfies what the operand pass and the VM
rely on. -/
theorem ensures_readFunction (names strings : List Text) (fi : ℕ) :
    Ensures (readFunction names strings fi) (ReadOk names strings) := by
  refine (ensures_readHeader fi).bind fun fn => (ensures_readCode fi).bind fun code =>
    (ensures_readConstants fi).bind fun constants =>
    (ensures_readIndices fi strings _).bind fun fnStrings =>
    (ensures_readIndices fi names _).bind fun fnNames =>
    (ensures_readUpvalues fi).bind fun upvalues =>
    (ensures_readLocals fi names _ _).bind fun locals =>
    (ensures_readOffsets fi _).bind fun codeOffsets =>
    (ensures_readRethrows fi).bind fun rethrows => Ensures.pure ?_
  intro _ hoffsets hlocals _ hnames hstrings hconstants hcode hparams
  exact ⟨hparams, hcode, hconstants, hstrings, hnames, hlocals, hoffsets⟩

end Ensures

/-! ## The operand pass -/

/-- The bound no operand reaches, for the kinds that index nothing. -/
def unchecked : ℕ := 0xFFFFFFFF

/-- The bound of a narrow operand of each kind. -/
def boundOf (functionCount : ℕ) (fn : FunctionProto) : SlotKind → ℕ
  | .reg => fn.frameSize.toNat
  | .kidx => fn.constants.length
  | .sidx => fn.strings.length
  | .nidx => fn.names.length
  | .fidx => functionCount
  | _ => unchecked

/-- The bound of a wide operand of each kind. -/
def wideBoundOf (functionCount : ℕ) (fn : FunctionProto) : SlotKind → ℕ
  | .kidx => fn.constants.length
  | .sidx => fn.strings.length
  | .nidx => fn.names.length
  | .fidx => functionCount
  | _ => unchecked

/-- The prefix of a message about instruction `ip` of function `fi`. -/
def at_ (fi ip : ℕ) : String :=
  "function " ++ toString fi ++ ", instruction " ++ toString ip ++ ": "

/-- Why a narrow operand is refused, if it is. -/
def checkSlot (functionCount : ℕ) (fn : FunctionProto) (kind : SlotKind) (operand : UInt16)
    (which : String) : Option String :=
  if operand.toNat < boundOf functionCount fn kind then none
  else match kind with
    | .reg => some (which ++ " names register " ++ toString operand.toNat ++ " in a frame of " ++
        toString fn.frameSize.toNat)
    | .kidx => some (which ++ " points outside the constant pool")
    | .sidx => some (which ++ " points outside the string table")
    | .nidx => some (which ++ " points outside the name table")
    | .fidx => some (which ++ " is not a function")
    | _ => none

/-- Why a wide operand is refused, if it is. -/
def checkWide (functionCount : ℕ) (fn : FunctionProto) (kind : SlotKind) (wide : ℕ) :
    Option String :=
  if wide < wideBoundOf functionCount fn kind then none
  else match kind with
    | .kidx => some "constant index out of range"
    | .sidx => some "string index out of range"
    | .nidx => some "name index out of range"
    | .fidx => some "function index out of range"
    | _ => none

/-- Why the operands of an instruction are refused, if they are. -/
def checkOperands (functionCount : ℕ) (fn : FunctionProto) (one : Instruction) :
    Option String :=
  let shape := one.code.shape
  if shape.c = .bxHi then
    checkWide functionCount fn shape.b one.bx <|>
      checkSlot functionCount fn shape.a one.a "operand a"
  else
    checkSlot functionCount fn shape.a one.a "operand a" <|>
      checkSlot functionCount fn shape.b one.b "operand b" <|>
      checkSlot functionCount fn shape.c one.c "operand c"

/-- Why the target of a branch is refused, if it is: it may be one past the end. -/
def checkJump (fn : FunctionProto) (ip : ℕ) (one : Instruction) : Option String :=
  if one.code.shape.b = .jump ∧
      (one.jumpTarget ip < 0 ∨ one.jumpTarget ip > fn.code.length) then
    some "jumps outside the function"
  else none

/-- Whether a closure made in `fn` would read an upvalue from outside its frame. -/
def capturesOutside (fn : FunctionProto) (up : UpvalueDesc) : Bool :=
  up.fromParentLocal && up.index.toNat ≥ fn.frameSize.toNat

/-- Why the upvalues of the function a closure instruction names are refused, if they
are. -/
def checkCapture (functions : List FunctionProto) (fn : FunctionProto) (one : Instruction) :
    Option String :=
  if one.code.shape.b = .fidx ∧ one.code.shape.c = .bxHi then
    match functions[one.bx]? with
    | none => none
    | some closed =>
      match closed.upvalues.findIdx? (capturesOutside fn) with
      | none => none
      | some u => some ("closes over function " ++ toString one.bx ++ ", whose upvalue " ++
          toString u ++ " captures register " ++
          toString (closed.upvalues.getD u {}).index.toNat ++ " of a frame that has " ++
          toString fn.frameSize.toNat)
  else none

/-- Why the argument window of a call is refused, if it is. -/
def checkWindow (fn : FunctionProto) (one : Instruction) : Option String :=
  let window := one.a.toNat + 1 + one.b.toNat
  if one.code.isCallShape ∧ window > fn.frameSize.toNat then
    some ("an argument window of " ++ toString window ++ " does not fit a frame of " ++
      toString fn.frameSize.toNat)
  else none

/-- Why instruction `ip` of function `fi` is refused, if it is: the first check it
fails. -/
def instructionFailure (functions : List FunctionProto) (fi : ℕ) (fn : FunctionProto)
    (ip : ℕ) (one : Instruction) : Option String :=
  (checkOperands functions.length fn one <|> checkJump fn ip one <|>
    checkCapture functions fn one <|> checkWindow fn one).map (at_ fi ip ++ ·)

/-- Why the operands of the program's functions are refused, if they are. -/
def operandFailure (functions : List FunctionProto) : Option String :=
  functions.zipIdx.findSome? fun (fn, fi) =>
    fn.code.zipIdx.findSome? fun (one, ip) => instructionFailure functions fi fn ip one

/-! ## The loader -/

/-- What loading an image gives: the program, or the reason it was refused. -/
structure LoadResult where
  -- the program
  value : Program := {}
  -- whether the image was accepted
  ok : Bool := false
  -- why it was not
  error : String := ""
  -- the hash of the source the image was built from
  sourceHash : UInt64 := 0
  -- the kind of script the image holds
  kind : ScriptKind := .classic

/-- The fewest bytes a function takes in an image. -/
def leastBytesPerFunction : ℕ := 49

/-- Read the functions of an image whose tables have been read, and check their
operands. -/
def loadFunctions (tables : Tables) (s : SourceBytes) (out : LoadResult) : LoadResult :=
  if s.bad then { out with error := s.why }
  else if tables.functionCount = 0 then
    { out with error := "an image with no functions - functions[0] is the entry point and " ++
        "every caller assumes it exists" }
  else if (s.need (tables.functionCount * leastBytesPerFunction)).1 = false then
    { out with error := "the image claims more functions than its remaining bytes could " ++
        "describe" }
  else
    match (Scan.forEach (readFunction tables.names tables.strings) 0 tables.functionCount).run s with
    | (some functions, t) =>
      if t.bad then { out with error := t.why }
      else match operandFailure functions with
        | some why => { out with error := why }
        | none => { out with value := { tables.program with functions, ok := true }, ok := true }
    | (none, t) => { out with error := t.why }

/-- Decode an image to a program, or refuse it with a reason. -/
def loadImage (fingerprint : UInt64) (bytes : List UInt8) (expectSourceHash : Option UInt64)
    (expectKind : ScriptKind) : LoadResult :=
  match (readPrefix fingerprint).run { bytes } with
  | (some (.ok head), s) =>
    if head.kind ≠ expectKind then
      { kind := head.kind
        error := if head.kind = .module_ then
            "the image is a module, and a classic script was asked for"
          else "the image is a classic script, and a module was asked for" }
    else
      let out : LoadResult := { kind := head.kind, sourceHash := head.sourceHash }
      if expectSourceHash.any (· ≠ head.sourceHash) then
        { out with error := "the image was built from different source" }
      else
        match (readTables head.kind).run s with
        | (some tables, t) => loadFunctions tables t out
        | (none, t) => { out with error := t.why }
  | (some (.error why), _) => { error := why }
  | (none, s) => { error := s.why }

/-- What a program satisfies once its image was accepted. -/
structure Accepted (program : Program) : Prop where
  -- there is an entry point
  functions_ne_nil : program.functions ≠ []
  -- every function was read without a failure
  readOk : ∃ names strings, ∀ fn ∈ program.functions, ReadOk names strings fn
  -- every instruction passed the operand pass
  operands : ∀ fi fn ip one, program.functions[fi]? = some fn → fn.code[ip]? = some one →
    instructionFailure program.functions fi fn ip one = none

theorem instructionFailure_eq_none {functions : List FunctionProto}
    (h : operandFailure functions = none) {fi ip : ℕ} {fn : FunctionProto}
    {one : Instruction} (hfn : functions[fi]? = some fn) (hone : fn.code[ip]? = some one) :
    instructionFailure functions fi fn ip one = none := by
  simp only [operandFailure, List.findSome?_eq_none_iff] at h
  have hcode := h (fn, fi) (by simpa [List.mem_zipIdx_iff_getElem?] using hfn)
  exact hcode (one, ip) (by simpa [List.mem_zipIdx_iff_getElem?] using hone)

theorem loadFunctions_spec {tables : Tables} {s : SourceBytes} {out : LoadResult}
    (hout : out.ok = false) (h : (loadFunctions tables s out).ok = true) :
    Accepted (loadFunctions tables s out).value := by
  unfold loadFunctions at h ⊢
  split_ifs at h ⊢ with hbad hcount hneed
  all_goals try simp [hout] at h
  rcases hread : (Scan.forEach (readFunction tables.names tables.strings) 0
    tables.functionCount).run s with ⟨_ | functions, t⟩
  · simp [hread] at h
  · rw [hread] at h
    dsimp only at h ⊢
    split_ifs at h ⊢ with ht
    cases hoperands : operandFailure functions with
    | some why => simp [hoperands] at h
    | none =>
      obtain ⟨-, xs, hxs, hlength, hok⟩ := Scan.Ensures.forEach
        (ensures_readFunction tables.names tables.strings) 0 tables.functionCount s
        (by simpa [hread, Failing.bad] using ht)
      obtain rfl : functions = xs := by simpa [hread] using hxs
      refine ⟨fun hnil => hcount ?_, ⟨_, _, hok⟩, fun fi fn ip one hfn hone =>
        instructionFailure_eq_none hoperands hfn hone⟩
      simpa [show functions = [] from hnil] using hlength.symm

/-- An accepted image holds an accepted program. -/
theorem loadImage_spec {fingerprint : UInt64} {bytes : List UInt8}
    {expectSourceHash : Option UInt64} {expectKind : ScriptKind}
    (h : (loadImage fingerprint bytes expectSourceHash expectKind).ok = true) :
    Accepted (loadImage fingerprint bytes expectSourceHash expectKind).value := by
  unfold loadImage at h ⊢
  rcases hhead : (readPrefix fingerprint).run { bytes } with ⟨_ | _ | head, s⟩
  · simp [hhead] at h
  · simp [hhead] at h
  · simp only [hhead] at h ⊢
    split_ifs at h ⊢ with hkind hhash
    rcases htables : (readTables head.kind).run s with ⟨_ | tables, t⟩
    · simp [htables] at h
    · rw [htables] at h
      exact loadFunctions_spec rfl h

end CtBrowser.Script.ProgramImage
