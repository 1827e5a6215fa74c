import CtBrowser.Core.Text
import CtBrowser.Foundations.ShadowIndex
import CtBrowser.Foundations.Transition

/-!
# Scope tables of the compiler

A frame for each function that is being compiled: the locals in scope as a stack, an index of their
names, and the variables it takes over from the functions around it. A mention of a name that is no
local is resolved from the inside out, and each function on the way takes the variable over from the
one around it.

## Main definitions

- `Frame`, `Frame.addLocal`, `Frame.pushScope`, `Frame.popScope`, `Frame.findLocalEntry`.
- `resolveUpvalue` — the variable is added to the tables on the way.
- `designates` — what a descriptor stands for when closures are made.
- `lexical` — what a name stands for by the scopes.
- `compilerRuns` — the runs of these operations.
-/

namespace CtBrowser.Script.Compile

open CtBrowser.Foundations

/-! ## Frames -/

/-- A local in scope. -/
structure Local where
  name : Text
  reg : UInt16
  -- captured, and so kept in a cell
  boxed : Bool
deriving DecidableEq

/-- Where a function takes a variable over from: a register of the function around it, or one of the
variables that this has taken over itself. -/
structure UpvalueDesc where
  fromParentLocal : Bool
  index : UInt16
deriving DecidableEq

/-- A function that is being compiled. -/
structure Frame where
  locals : List Local := []
  localIndex : ShadowIndex Text := fun _ => none
  upvalueIndex : Text → Option ℕ := fun _ => none
  upvalueNames : List Text := []
  -- the number of locals at the start of each open scope, the innermost first
  scopeMarks : List ℕ := []
  -- the descriptors of the function's prototype
  upvalues : List UpvalueDesc := []

namespace Frame

def names (f : Frame) : List Text := f.locals.map Local.name

def addLocal (f : Frame) (l : Local) : Frame :=
  { f with localIndex := f.localIndex.push l.name f.locals.length, locals := f.locals ++ [l] }

def pushScope (f : Frame) : Frame := { f with scopeMarks := f.locals.length :: f.scopeMarks }

/-- The locals from `mark` on go out of scope. -/
def shrinkLocals (f : Frame) (mark : ℕ) : Frame :=
  { f with
    localIndex := ShadowIndex.unwind f.names mark f.locals.length f.localIndex
    locals := f.locals.take mark }

def popScope (f : Frame) : Frame :=
  match f.scopeMarks with
  | [] => f
  | mark :: marks => { f with scopeMarks := marks }.shrinkLocals mark

/-- The register of a local, by a search from the last. -/
def findLocal (f : Frame) (name : Text) : Option UInt16 :=
  ((ShadowIndex.scanBack f.names name f.locals.length).bind (f.locals[·]?)).map Local.reg

/-- The place of a local, by the index. -/
def findLocalEntry (f : Frame) (name : Text) : Option ℕ := f.localIndex.innermost name

/-- A captured local has to be a cell. -/
def box (f : Frame) (i : ℕ) : Frame := { f with locals := f.locals.modify i fun l => { l with boxed := true } }

def addUpvalue (f : Frame) (name : Text) (desc : UpvalueDesc) : Frame :=
  { f with
    upvalues := f.upvalues ++ [desc]
    upvalueNames := f.upvalueNames ++ [name]
    upvalueIndex := if (f.upvalueIndex name).isSome then f.upvalueIndex
      else Function.update f.upvalueIndex name (some f.upvalues.length) }

end Frame

/-! ## Variables of the functions around -/

/-- The frame of a program, which takes the variables of its caller over when it is the code of a
direct `eval`. -/
def entry (outer : List Text) : Frame :=
  outer.zipIdx.foldl (fun f named => f.addUpvalue named.1 ⟨false, UInt16.ofNat named.2⟩) {}

/-- The index of a name among the variables of the innermost frame, and the frames with what was added
to them; innermost first. -/
def resolveUpvalue (outer : List Text) (name : Text) : List Frame → Option ℕ × List Frame
  | [] => (none, [])
  | [f] => (if outer = [] then none else f.upvalueIndex name, [f])
  | f :: parent :: rest =>
    match f.upvalueIndex name with
    | some i => (some i, f :: parent :: rest)
    | none =>
      match (parent.findLocalEntry name).bind fun i => parent.locals[i]?.map fun l => (i, l.reg) with
      | some (i, reg) => (some f.upvalues.length, f.addUpvalue name ⟨true, reg⟩ :: parent.box i :: rest)
      | none =>
        match resolveUpvalue outer name (parent :: rest) with
        | (none, frames) => (none, f :: frames)
        | (some inherited, frames) =>
          -- the index is narrowed to the 16 bits of a descriptor
          (some f.upvalues.length, f.addUpvalue name ⟨false, UInt16.ofNat inherited⟩ :: frames)

/-! ## Meaning -/

/-- A variable: a register of the function at a level, or one of the caller's. -/
inductive Slot
  | register (level : ℕ) (reg : UInt16)
  | caller (i : ℕ)
deriving DecidableEq

/-- The variable of a closure's descriptor, as closures are made. -/
def designates : List Frame → ℕ → Option Slot
  | [], _ => none
  | [f], i => if i < f.upvalues.length then some (.caller i) else none
  | f :: parent :: rest, i =>
    match f.upvalues[i]? with
    | none => none
    | some ⟨true, reg⟩ => some (.register rest.length reg)
    | some ⟨false, j⟩ => designates (parent :: rest) j.toNat

/-- The last local of a name that is in scope. -/
def Frame.declared (f : Frame) (name : Text) : Option UInt16 :=
  (f.locals.reverse.find? fun l => l.name = name).map Local.reg

/-- The variable of a name in the functions around the innermost: that of the nearest that has it, else
the caller's. -/
def lexical (outer : List Text) (name : Text) : List Frame → Option Slot
  | [] => none
  | [_] => (outer.idxOf? name).map .caller
  | _ :: parent :: rest =>
    match parent.declared name with
    | some reg => some (.register rest.length reg)
    | none => lexical outer name (parent :: rest)

/-! ## Runs -/

inductive CompileStep
  | pushFunction
  | popFunction
  | pushScope
  | popScope
  | addLocal (l : Local)
  -- a mention, for the function that `inner` others are in
  | resolveUpvalue (inner : ℕ) (name : Text)

/-- The runs of the operations; frames are added and taken away at the innermost end. -/
def compilerRuns (outer : List Text) : TransitionSystem (List Frame) CompileStep where
  initial frames := frames = [entry outer]
  step frames label frames' :=
    match label with
    | .pushFunction => frames' = {} :: frames
    | .popFunction => ∃ f, frames = f :: frames' ∧ frames' ≠ []
    | .pushScope => ∃ f rest, frames = f :: rest ∧ frames' = f.pushScope :: rest
    | .popScope => ∃ f rest, frames = f :: rest ∧ f.scopeMarks ≠ [] ∧ frames' = f.popScope :: rest
    | .addLocal l => ∃ f rest, frames = f :: rest ∧ frames' = f.addLocal l :: rest
    | .resolveUpvalue inner name =>
      inner < frames.length ∧ frames' = frames.take inner ++ (resolveUpvalue outer name (frames.drop inner)).2

/-! ## The index of the locals -/

/-- The index of a frame is that of its locals. -/
def Frame.Indexed (f : Frame) : Prop := f.localIndex.Indexes f.names

namespace Frame

variable {f : Frame}

theorem Indexed.addLocal (h : f.Indexed) (l : Local) : (f.addLocal l).Indexed := by
  have hpush := h.push l.name
  rw [names, List.length_map] at hpush
  rw [Indexed, Frame.addLocal, names, List.map_append]
  exact hpush

theorem Indexed.shrinkLocals (h : f.Indexed) (mark : ℕ) : (f.shrinkLocals mark).Indexed := by
  have hlength : f.names.length = f.locals.length := List.length_map _
  have hall : f.localIndex.Indexes (f.names.take f.locals.length) := by
    rwa [← hlength, List.take_length]
  have hunwind : (ShadowIndex.unwind f.names mark f.locals.length f.localIndex).Indexes
      (f.names.take (min mark f.locals.length)) := hall.unwind hlength.ge
  have htake : (f.shrinkLocals mark).names = f.names.take (min mark f.locals.length) := by
    rw [← hlength, ← List.take_eq_take_min]
    exact List.map_take
  rw [Indexed, htake]
  exact hunwind

theorem Indexed.popScope (h : f.Indexed) : f.popScope.Indexed := by
  rw [Frame.popScope]
  cases f.scopeMarks with
  | nil => exact h
  | cons mark marks => exact Indexed.shrinkLocals (f := { f with scopeMarks := marks }) h mark

theorem names_box (f : Frame) (i : ℕ) : (f.box i).names = f.names := by
  rw [names, box, names]
  apply List.ext_getElem?
  intro j
  rw [List.getElem?_map, List.getElem?_map, List.getElem?_modify]
  split_ifs <;> cases f.locals[j]? <;> rfl

theorem scanBack_locals (f : Frame) (name : Text) {n : ℕ} (h : n ≤ f.locals.length) :
    (ShadowIndex.scanBack f.names name n).bind (f.locals[·]?) =
      (f.locals.take n).reverse.find? fun l => l.name = name := by
  induction n with
  | zero => rfl
  | succ n ih =>
    have hget : f.locals[n]? = some f.locals[n] := List.getElem?_eq_getElem h
    have hname : f.names[n]? = some f.locals[n].name := by rw [names, List.getElem?_map, hget, Option.map_some]
    rw [ShadowIndex.scanBack, List.take_add_one, hget, Option.toList_some, List.reverse_concat, List.find?_cons, hname]
    simp only [Option.some.injEq]
    by_cases heq : f.locals[n].name = name
    · rw [if_pos heq, decide_eq_true heq, Option.bind_some, hget]
    · rw [if_neg heq, decide_eq_false heq]
      exact ih (by omega)

theorem findLocal_eq (f : Frame) (name : Text) : f.findLocal name = f.declared name := by
  rw [findLocal, scanBack_locals f name le_rfl, List.take_length]
  rfl

theorem Indexed.findLocalEntry (h : f.Indexed) (name : Text) :
    f.findLocalEntry name = ShadowIndex.scanBack f.names name f.locals.length := by
  have hinner := h.innermost name
  rwa [names, List.length_map] at hinner

theorem Indexed.entry (h : f.Indexed) (name : Text) :
    ((f.findLocalEntry name).bind fun i => f.locals[i]?.map fun l => (i, l.reg)).map Prod.snd = f.declared name := by
  rw [← findLocal_eq, findLocal, h.findLocalEntry, Option.map_bind, Option.map_bind]
  congr 1
  funext i
  rw [Function.comp_apply, Function.comp_apply, Option.map_map]
  rfl

end Frame

end CtBrowser.Script.Compile
