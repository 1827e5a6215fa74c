import CtBrowser.Script.ProgramImage.Read

/-!
# Writing a Program Image

The writer of program images: the little-endian integers and length-prefixed texts, the two pools
that hold each text of the functions once, and the parts of an image in their order. The constant
rule of the reader is enforced here, too. Counts and lengths are written as 32-bit numbers.

## Main definitions

- `writeU8`, `writeU16`, `writeU32`, `writeU64`, `writeText` — the primitive writes.
- `internNames`, `internStrings` — the pools.
- `writeTables`, `writeFunction` — the two halves of the body of an image.
- `writeImage` — the writer.
-/

namespace CtBrowser.Script.ProgramImage

/-! ## The output -/

/-- The little-endian digits of a number. -/
def littleBytes : ℕ → ℕ → List UInt8
  | 0, _ => []
  | size + 1, v => UInt8.ofNat v :: littleBytes size (v / 2 ^ 8)

def writeU8 (v : UInt8) : List UInt8 := littleBytes 1 v.toNat

def writeU16 (v : UInt16) : List UInt8 := littleBytes 2 v.toNat

def writeU32 (v : UInt32) : List UInt8 := littleBytes 4 v.toNat

def writeU64 (v : UInt64) : List UInt8 := littleBytes 8 v.toNat

/-- A number of entries. -/
def writeCount (n : ℕ) : List UInt8 := writeU32 (UInt32.ofNat n)

def writeText (s : Text) : List UInt8 := writeCount s.length ++ s

/-- A count, and then the items. -/
def writeList {α : Type} (write : α → List UInt8) (items : List α) : List UInt8 :=
  writeCount items.length ++ items.flatMap write

/-! ## The pools -/

/-- A pool with a text, which it holds once. -/
def intern (pool : List Text) (text : Text) : List Text := if text ∈ pool then pool else pool ++ [text]

/-- The number of a text in its pool. -/
def poolIndex (pool : List Text) (text : Text) : UInt32 := UInt32.ofNat (pool.idxOf text)

/-- The names of the functions and of their locals. -/
def internNames (functions : List FunctionProto) : List Text :=
  functions.foldl (fun pool fn => (fn.locals.map (·.name)).foldl intern (fn.names.foldl intern pool)) []

def internStrings (functions : List FunctionProto) : List Text :=
  functions.foldl (fun pool fn => fn.strings.foldl intern pool) []

/-! ## The parts of an image -/

def optionWord : ImageOption → UInt32
  | .keepSource => 0
  | .dropSource => 1

def kindByte : ScriptKind → UInt8
  | .classic => 0
  | .module_ => 1

/-- The fixed prefix. -/
def writePrefix (fingerprint sourceHash : UInt64) (option : ImageOption) (kind : ScriptKind) : List UInt8 :=
  writeU32 (UInt32.ofNat magic) ++ (writeU32 (UInt32.ofNat formatVersion) ++ (writeU64 fingerprint ++
    (writeU32 (optionWord option) ++ (writeU8 (kindByte kind) ++ writeU64 sourceHash))))

def writeReexport (r : Reexport) : List UInt8 := writeText r.exported ++ (writeText r.source ++ writeText r.origin)

/-- The part of an image before its functions. -/
def writeTables (option : ImageOption) (program : Program) : List UInt8 :=
  writeList writeText (internNames program.functions) ++ (writeList writeText (internStrings program.functions) ++
    (writeList writeText program.imports ++ (writeList writeText program.exports ++
    (writeList writeReexport program.reexports ++ (writeList writeText program.hoistedVars ++
    (writeList writeText program.lexicalNames ++ (writeList writeText program.functionNames ++
    (writeList writeText program.annexBNames ++
    (writeText (if option = .keepSource then program.source else []) ++ writeCount program.functions.length)))))))))

/-- Whether a function is an arrow function, and whether it is strict. -/
def arrowByte (fn : FunctionProto) : UInt8 := (if fn.isArrow then 1 else 0) ||| if fn.isStrict then 2 else 0

/-- Which kind of generator a function is, and whether its prologue is eager. -/
def generatorByte (fn : FunctionProto) : UInt8 :=
  (if fn.isGenerator then if fn.isAsync then 2 else 1 else 0) ||| if fn.isGenerator && fn.eagerPrologue then 4 else 0

/-- The fixed-width fields of a function. -/
def writeHeader (fn : FunctionProto) : List UInt8 :=
  writeText fn.module ++ (writeText fn.name ++ (writeText fn.inferredName ++ (writeU16 fn.paramCount ++
    (writeU16 fn.length ++ (writeU16 fn.frameSize ++ (writeU8 (arrowByte fn) ++ (writeU8 (generatorByte fn) ++
    (writeU32 fn.sourceBegin ++ writeU32 fn.sourceEnd))))))))

/-- The byte of an opcode. -/
def opByte (code : Op) : UInt8 := UInt8.ofNat (Op.order.idxOf code)

def writeInstruction (one : Instruction) : List UInt8 :=
  writeU8 (opByte one.code) ++ (writeU16 one.a ++ (writeU16 one.b ++ writeU16 one.c))

def writeUpvalue (up : UpvalueDesc) : List UInt8 := writeU8 (if up.fromParentLocal then 1 else 0) ++ writeU16 up.index

def writeLocal (names : List Text) (d : LocalDesc) : List UInt8 :=
  writeU32 (poolIndex names d.name) ++ (writeU16 d.reg ++ (writeU32 d.firstPc ++ (writeU32 d.lastPc ++
    writeU8 (if d.boxed then 1 else 0))))

/-- A function. The source offsets and the rethrows are kept only with the source. -/
def writeFunction (option : ImageOption) (names strings : List Text) (fn : FunctionProto) : List UInt8 :=
  writeHeader fn ++ (writeList writeInstruction fn.code ++ (writeList (fun v => writeU64 v.bits) fn.constants ++
    (writeList (fun s => writeU32 (poolIndex strings s)) fn.strings ++
    (writeList (fun s => writeU32 (poolIndex names s)) fn.names ++ (writeList writeUpvalue fn.upvalues ++
    (writeList (writeLocal names) fn.locals ++
    (writeList writeU32 (if option = .keepSource then fn.codeOffsets else []) ++
    writeList writeU32 (if option = .keepSource then fn.rethrows else []))))))))

/-! ## The writer -/

/-- Why a constant of the functions may not be written, if one may not. -/
def constantFailure (functions : List FunctionProto) : Option String :=
  functions.zipIdx.findSome? fun (fn, fi) => fn.constants.zipIdx.findSome? fun (v, ci) =>
    (whyNotAConstant v.bits).map fun why =>
      "refusing to write function " ++ toString fi ++ ": constant " ++ toString ci ++ " " ++ why

/-- An image of a program, or why none is written. The hash is that of the program's own source, kept or
not; the compiler's message is that of a program that did not compile. -/
def writeImage (fingerprint : UInt64) (sourceHash : Text → UInt64) (program : Program) (compilerError : String)
    (option : ImageOption) : Except String (List UInt8) :=
  if program.ok = false then .error ("refusing to write a program that did not compile: " ++ compilerError)
  else if program.functions.isEmpty then
    .error ("refusing to write a program with no functions - functions[0] is the " ++
      "entry point and every caller assumes it exists")
  else if program.functions.length > 0xFFFFFFFF then
    .error ("refusing to write a program with more than 4,294,967,295 functions - " ++
      "the image records the count as a 32-bit number")
  else match constantFailure program.functions with
    | some why => .error why
    | none =>
      .ok (writePrefix fingerprint (sourceHash program.source) option program.kind ++
        (writeTables option program ++ program.functions.flatMap
          (writeFunction option (internNames program.functions) (internStrings program.functions))))

end CtBrowser.Script.ProgramImage
