import CtBrowser.Foundations.Marking
import CtBrowser.Foundations.Transition
import CtBrowser.Script.Gc.Objects
import Mathlib.Data.List.TakeWhile

/-!
# The collector

A mark-sweep collector over one list of all objects, the newest first. A native function holds what
it allocates in C++ locals, which no root shows: while it runs, its pin ranges keep those objects.
A range is two positions in the list itself, so the sweep that unlinks objects has to move them.

## Main definitions

- `Heap` — the list, the objects, the roots and the pins.
- `Heap.collect`, `sweepList` — a collection.
- `Heap.enterNative`, `Heap.callOut`, `Heap.leave` — the scopes that make pin ranges.
- `heapRuns` — everything a run does, in any order.
- `Heap.Sound` — the invariant of a run.

## Main results

- `collect_exact` — a collection keeps what can be reached, and every range its objects.
- `no_dangling_pointers` — no run leads to a pointer to an object that is gone.
- `held_objects_survive` — what natives in progress hold outlives any collection.
-/

namespace CtBrowser.Script.Gc

open Foundations

/-- A range of the list: from its newest object, or from the head while it is open, down to its
bottom, which is not in it. -/
structure PinRange where
  top : Option Address
  bottom : Option Address
deriving DecidableEq, Repr

/-- A C++ scope in progress: a native, or a native's call into script. -/
inductive Scope
  | native (savedFrames : ℕ) (fromScript : Bool) (savedPins savedResults : ℕ)
  | callout (fromNative : Bool)
deriving DecidableEq, Repr

/-- The heap, what the engine holds, and what natives in progress hold. -/
structure Heap where
  /-- All objects, the newest first: each one's `next` is the one after it. -/
  list : List Address
  objects : Address → HeapObject
  marked : Address → Bool
  liveObjects : ℕ
  roots : Roots
  /-- The newest range first. -/
  pins : List PinRange
  /-- What script returned to natives in progress, the last first. -/
  pinnedResults : List Value
  nativeDepth : ℕ
  /-- How many frames there were when the innermost native began. -/
  nativeFrames : ℕ
  /-- The scopes in progress, the innermost first. -/
  scopes : List Scope
  /-- What the host holds weakly. -/
  weak : List Value

/-- Where the objects of a heap point. -/
def Heap.edges (h : Heap) (a : Address) : List Address := (h.objects a).edges

/-! ## Ranges -/

/-- The objects down to a bottom, which is not one of them. -/
def downTo (list : List Address) (bottom : Option Address) : List Address :=
  list.takeWhile fun o => some o ≠ bottom

/-- The objects from a top down. -/
def fromTop (list : List Address) : Option Address → List Address
  | some top => list.dropWhile fun o => o ≠ top
  | none => list

/-- The objects of a range. -/
def PinRange.objects (list : List Address) (range : PinRange) : List Address :=
  downTo (fromTop list range.top) range.bottom

/-! ## Collecting -/

/-- What a collection marks from: the roots, the ranges and the results, the oldest range first. -/
def Heap.rootSet (h : Heap) : List Address :=
  eachRoot h.roots h.roots.registers.length h.roots.frames.length ++
    h.pins.reverse.flatMap (PinRange.objects h.list) ++ pointersOf h.pinnedResults.reverse

/-- The marks of a collection. -/
def Heap.markRoots (h : Heap) : Address → Bool :=
  (Marking.markAll h.edges (Marking.enough h.list) ⟨h.marked, []⟩ h.rootSet).marked

/-- What a sweep leaves of a part of the list. -/
structure Swept where
  list : List Address
  marked : Address → Bool
  pins : List PinRange
  freed : ℕ

/-- The sweep of the rest of the list, with the ranges whose bottom is not passed yet, the newest
first: their bottoms come in the order of the list. -/
def sweepList : List Address → (Address → Bool) → List PinRange → Swept
  | [], marked, pending => ⟨[], marked, pending, 0⟩
  | o :: next, marked, pending =>
    let here := pending.takeWhile fun range => range.bottom = some o
    let later := pending.dropWhile fun range => range.bottom = some o
    if marked o then
      let rest := sweepList next (Function.update marked o false) later
      { rest with list := o :: rest.list, pins := here ++ rest.pins }
    else
      -- the bottom of a range moves on when it is freed: all before it was freed too
      let moved := here.map fun range => { range with bottom := next.head? }
      let rest := sweepList next marked (moved ++ later)
      { rest with freed := rest.freed + 1 }

/-- A full collection. -/
def Heap.collect (h : Heap) : Heap :=
  let marked := h.markRoots
  let survives : Value → Bool := fun v => v.pointers.all marked
  let swept := sweepList h.list marked h.pins
  { h with
    list := swept.list
    marked := swept.marked
    pins := swept.pins
    liveObjects := h.liveObjects - swept.freed
    weak := h.weak.filter survives }

/-! ## Allocating and pinning -/

/-- A new object, at the head of the list. -/
def Heap.allocate (h : Heap) (a : Address) (o : HeapObject) : Heap :=
  { h with
    list := a :: h.list
    objects := Function.update h.objects a o
    marked := Function.update h.marked a false
    liveObjects := h.liveObjects + 1 }

/-- A list cut to a length from its older end, or filled up. -/
def resize {α : Type} (fill : α) (n : ℕ) (l : List α) : List α :=
  List.replicate (n - l.length) fill ++ l.drop (l.length - n)

/-- A native begins. One called by a native allocates into its caller's open range; one called from
script opens its own. -/
def Heap.enterNative (h : Heap) : Heap :=
  let frames := h.roots.frames.length
  let fromScript := h.nativeDepth == 0 || frames != h.nativeFrames
  { h with
    scopes := .native h.nativeFrames fromScript h.pins.length h.pinnedResults.length :: h.scopes
    nativeDepth := h.nativeDepth + 1
    pins := if fromScript then ⟨none, h.list.head?⟩ :: h.pins else h.pins
    nativeFrames := frames }

/-- The ranges once the open one is closed at the head: an empty one is dropped. -/
def closeRange (list : List Address) : List PinRange → List PinRange
  | [] => []
  | range :: ranges =>
    if range.top ≠ none then range :: ranges
    else if list.head? = range.bottom then ranges
    else { range with top := list.head? } :: ranges

/-- A native calls into script: what it has allocated so far stays pinned. -/
def Heap.callOut (h : Heap) : Heap :=
  let fromNative := decide (h.nativeDepth > 0) && h.roots.frames.length == h.nativeFrames
  { h with
    scopes := .callout fromNative :: h.scopes
    pins := if fromNative then closeRange h.list h.pins else h.pins }

/-- What the callee returns is pinned. -/
def Heap.returned (h : Heap) (v : Value) : Heap :=
  match h.scopes with
  | .callout true :: _ => { h with pinnedResults := if v.isHeap then v :: h.pinnedResults else h.pinnedResults }
  | _ => h

/-- The innermost scope ends. -/
def Heap.leave (h : Heap) : Heap :=
  match h.scopes with
  | [] => h
  | .native savedFrames fromScript savedPins savedResults :: scopes =>
    { h with
      scopes := scopes
      nativeFrames := savedFrames
      nativeDepth := h.nativeDepth - 1
      pins := if fromScript then resize ⟨none, none⟩ savedPins h.pins else h.pins
      pinnedResults := if fromScript then resize .undefined savedResults h.pinnedResults else h.pinnedResults }
  | .callout fromNative :: scopes =>
    { h with
      scopes := scopes
      pins := if fromNative then ⟨none, h.list.head?⟩ :: h.pins else h.pins }

/-! ## Runs -/

/-- What a run may do. -/
inductive HeapStep
  | allocate (a : Address) (o : HeapObject)
  | enterNative
  | callOut
  | returned (v : Value)
  | leave
  /-- The program writes to objects, and the engine and the host change what they hold. -/
  | mutate (objects : Address → HeapObject) (roots : Roots) (weak : List Value)
  | collect

/-- A heap with nothing in it. -/
def Heap.IsEmpty (h : Heap) : Prop :=
  h.list = [] ∧ h.marked = (fun _ => false) ∧ h.liveObjects = 0 ∧ h.pins = [] ∧ h.pinnedResults = [] ∧
    h.nativeDepth = 0 ∧ h.scopes = [] ∧ eachRoot h.roots h.roots.registers.length h.roots.frames.length = []

/-- The steps of a run. A pointer that is written, held or returned is one to an object there is, and a
new object has an address of its own. -/
inductive Heap.Step (h : Heap) : HeapStep → Heap → Prop
  | allocate {a : Address} {o : HeapObject} (hfresh : a ∉ h.list) (hedges : ∀ b ∈ o.edges, b ∈ a :: h.list) :
      Step h (.allocate a o) (h.allocate a o)
  | enterNative : Step h .enterNative h.enterNative
  | callOut : Step h .callOut h.callOut
  | returned {v : Value} (hv : ∀ a ∈ v.pointers, a ∈ h.list) : Step h (.returned v) (h.returned v)
  | leave : Step h .leave h.leave
  | mutate {objects : Address → HeapObject} {roots : Roots} {weak : List Value}
      (hobjects : ∀ a ∈ h.list, ∀ b ∈ (objects a).edges, b ∈ h.list)
      (hroots : ∀ a ∈ eachRoot roots roots.registers.length roots.frames.length, a ∈ h.list) :
      Step h (.mutate objects roots weak) { h with objects := objects, roots := roots, weak := weak }
  | collect : Step h .collect h.collect

/-- The runs of a heap: any order of these steps. -/
def heapRuns : TransitionSystem Heap HeapStep where
  initial := Heap.IsEmpty
  step := Heap.Step

/-! ## Positions in the list -/

/-- The part of a list from a bottom on. -/
def fromBottom (list : List Address) : Option Address → List Address
  | some bottom => list.dropWhile fun o => o ≠ bottom
  | none => []

variable {list above below : List Address} {a t o : Address} {bottom : Option Address} {m : Address → Bool}

theorem fromBottom_suffix (list : List Address) (bottom : Option Address) : fromBottom list bottom <:+ list := by
  cases bottom with
  | none => exact List.nil_suffix
  | some b => exact List.dropWhile_suffix _

/-- A list from its own head on. -/
@[simp]
theorem fromBottom_head (list : List Address) : fromBottom list list.head? = list := by
  cases list with
  | nil => rfl
  | cons o next => simp [fromBottom]

/-- A new head is above every bottom. -/
theorem fromBottom_cons (h : bottom ≠ some a) : fromBottom (a :: list) bottom = fromBottom list bottom := by
  cases bottom with
  | none => rfl
  | some b =>
    have hab : a ≠ b := fun heq => h (by rw [heq])
    simp [fromBottom, hab]

/-- What comes before the element a search is for does not matter. -/
theorem dropWhile_append (h : a ∉ above) :
    (above ++ below).dropWhile (fun o => o ≠ a) = below.dropWhile fun o => o ≠ a :=
  List.dropWhile_append_of_pos fun o ho => by
    simp only [decide_eq_true_eq]
    rintro rfl
    exact h ho

theorem fromTop_cons {top : Address} (h : top ≠ a) : fromTop (a :: list) (some top) = fromTop list (some top) := by
  simp [fromTop, h.symm]

theorem fromTop_suffix (list : List Address) (top : Option Address) : fromTop list top <:+ list := by
  cases top with
  | none => exact List.suffix_rfl
  | some t => exact List.dropWhile_suffix _

/-- A bottom in a part of the list is at the same place in that part. -/
theorem fromBottom_fromTop (hnodup : list.Nodup) {top : Option Address}
    (h : ∀ b, bottom = some b → b ∈ fromTop list top) : fromBottom (fromTop list top) bottom = fromBottom list bottom := by
  cases bottom with
  | none => rfl
  | some b =>
    obtain ⟨above, habove⟩ := fromTop_suffix list top
    have hb := h b rfl
    have hnot : b ∉ above := fun hmem => by
      rw [← habove] at hnodup
      exact (List.nodup_append.mp hnodup).2.2 b hmem b hb rfl
    conv_rhs => rw [← habove]
    exact (dropWhile_append hnot).symm

/-- A list is its objects down to a bottom, and the rest. -/
theorem downTo_append (list : List Address) (bottom : Option Address) :
    downTo list bottom ++ fromBottom list bottom = list := by
  cases bottom with
  | none =>
    have hall : downTo list none = list := List.takeWhile_eq_self_iff.mpr fun o _ => by simp
    rw [hall, fromBottom, List.append_nil]
  | some b =>
    have hdown : downTo list (some b) = list.takeWhile fun o => o ≠ b := by simp [downTo]
    rw [hdown, fromBottom, List.takeWhile_append_dropWhile]

/-- The objects down to the head of the rest are those before the rest. -/
theorem downTo_head (h : (above ++ below).Nodup) : downTo (above ++ below) below.head? = above := by
  induction above with
  | nil =>
    cases below with
    | nil => rfl
    | cons o next => simp [downTo]
  | cons o above ih =>
    have hne : some o ≠ below.head? := fun heq =>
      (List.nodup_append.mp h).2.2 o List.mem_cons_self o (List.mem_of_mem_head? heq.symm) rfl
    have hrest : (above ++ below).Nodup := (List.nodup_cons.mp h).2
    rw [List.cons_append, downTo, List.takeWhile_cons_of_pos (by simpa using hne), ← downTo, ih hrest]

/-- Taking elements out leaves the part from an element on that stays. -/
theorem dropWhile_filter (ha : m a = true) :
    (list.filter m).dropWhile (fun o => o ≠ a) = (list.dropWhile fun o => o ≠ a).filter m := by
  induction list with
  | nil => rfl
  | cons o next ih =>
    by_cases ho : o = a
    · subst ho
      simp [ha]
    · cases hm : m o with
      | true => simpa [hm, ho] using ih
      | false => simpa [hm, ho] using ih

/-! ## The sweep -/

/-- How much of the list is left at a bottom. -/
def depthOf (list : List Address) (bottom : Option Address) : ℕ := (fromBottom list bottom).length

/-- The ranges, the newest first, with their bottoms in the order of the list. -/
structure Descending (list : List Address) (pins : List PinRange) : Prop where
  bottoms : ∀ range ∈ pins, ∀ b, range.bottom = some b → b ∈ list
  order : pins.Pairwise fun newer older => depthOf list older.bottom ≤ depthOf list newer.bottom

/-- Taking the mark off one element keeps those of others. -/
theorem filter_update {next : List Address} (ho : o ∉ next) :
    next.filter (Function.update m o false) = next.filter m :=
  List.filter_congr fun x hx => by
    have hne : x ≠ o := fun heq => ho (heq ▸ hx)
    rw [Function.update_of_ne hne]

theorem sweepList_list (hnodup : list.Nodup) (pending : List PinRange) :
    (sweepList list m pending).list = list.filter m := by
  induction list generalizing m pending with
  | nil => rfl
  | cons o next ih =>
    obtain ⟨ho, hnext⟩ := List.nodup_cons.mp hnodup
    rw [sweepList]
    cases hm : m o with
    | true => simp only [if_true, ih hnext, filter_update ho, List.filter_cons_of_pos hm]
    | false => simp [ih hnext, hm]

theorem sweepList_freed (hnodup : list.Nodup) (pending : List PinRange) :
    (sweepList list m pending).freed + (list.filter m).length = list.length := by
  induction list generalizing m pending with
  | nil => rfl
  | cons o next ih =>
    obtain ⟨ho, hnext⟩ := List.nodup_cons.mp hnodup
    rw [sweepList]
    cases hm : m o with
    | true =>
      simp only [if_true, List.filter_cons_of_pos hm, List.length_cons]
      rw [← Nat.add_assoc, ← filter_update ho, ih hnext]
    | false =>
      simp only [Bool.false_eq_true, if_false, List.filter_cons, hm, List.length_cons]
      rw [Nat.add_right_comm, ih hnext]

/-- The sweep takes the marks off the objects it passes. -/
theorem sweepList_marked (hnodup : list.Nodup) (pending : List PinRange) (x : Address) :
    (sweepList list m pending).marked x = true ↔ m x = true ∧ x ∉ list := by
  induction list generalizing m pending with
  | nil => simp [sweepList]
  | cons o next ih =>
    obtain ⟨ho, hnext⟩ := List.nodup_cons.mp hnodup
    rw [sweepList]
    cases hm : m o with
    | true =>
      simp only [if_true, ih hnext, List.mem_cons, not_or]
      by_cases hx : x = o
      · simp [hx]
      · simp [hx]
    | false =>
      simp only [Bool.false_eq_true, if_false, ih hnext, List.mem_cons, not_or]
      refine and_congr_right fun hx => (and_iff_right_of_imp fun _ heq => ?_).symm
      rw [heq, hm] at hx
      cases hx

/-- The ranges that are pending at the head of the list are the newest ones. -/
theorem Descending.later {next : List Address} {pending : List PinRange} (h : Descending (o :: next) pending) :
    ∀ range ∈ pending.dropWhile (fun range => range.bottom = some o), range.bottom ≠ some o := by
  induction pending with
  | nil => simp
  | cons first pending ih =>
    obtain ⟨hfirst, hrest⟩ := List.pairwise_cons.mp h.order
    by_cases hhere : first.bottom = some o
    · simp only [hhere, decide_true, List.dropWhile_cons_of_pos]
      exact ih ⟨fun range hrange => h.bottoms range (List.mem_cons_of_mem _ hrange), hrest⟩
    · rw [List.dropWhile_cons_of_neg (by simpa using hhere)]
      rintro range hrange heq
      rcases List.mem_cons.mp hrange with rfl | hrange
      · exact hhere heq
      -- the first one's bottom is passed already, so no later one's is at the head
      have hle := hfirst range hrange
      have hshort : depthOf (o :: next) first.bottom ≤ next.length := by
        rw [depthOf, fromBottom_cons hhere]
        exact (fromBottom_suffix _ _).length_le
      have hlong : depthOf (o :: next) range.bottom = next.length + 1 := by
        simp [heq, depthOf, fromBottom]
      omega

/-- The ranges after the sweep: each bottom is at the first survivor from it on. -/
theorem sweepList_pins (hnodup : list.Nodup) {pending : List PinRange} (h : Descending list pending) :
    (sweepList list m pending).pins =
      pending.map fun range => { range with bottom := ((fromBottom list range.bottom).filter m).head? } := by
  induction list generalizing m pending with
  | nil =>
    have hnone : ∀ range ∈ pending, range.bottom = none := fun range hrange =>
      Option.eq_none_iff_forall_ne_some.mpr fun b hb => List.not_mem_nil (h.bottoms range hrange b hb)
    have hkept : pending.map (fun range => { range with bottom := ((fromBottom [] range.bottom).filter m).head? }) =
        pending.map id := by
      refine List.map_congr_left fun range hrange => ?_
      obtain ⟨top, bottom⟩ := range
      obtain rfl : bottom = none := hnone _ hrange
      rfl
    rw [hkept, List.map_id]
    rfl
  | cons o next ih =>
    obtain ⟨ho, hnext⟩ := List.nodup_cons.mp hnodup
    have hlater := h.later
    have hsplit : pending.takeWhile (fun range => range.bottom = some o) ++
        pending.dropWhile (fun range => range.bottom = some o) = pending := List.takeWhile_append_dropWhile
    have hhere : ∀ range ∈ pending.takeWhile (fun range => range.bottom = some o), range.bottom = some o :=
      fun range hrange => by simpa using List.mem_takeWhile_imp hrange
    rw [sweepList]
    generalize pending.takeWhile (fun range => range.bottom = some o) = here at hhere hsplit ⊢
    generalize pending.dropWhile (fun range => range.bottom = some o) = later at hlater hsplit ⊢
    subst hsplit
    -- what is later is so in the rest of the list too
    have hrest : Descending next later := by
      refine ⟨fun range hrange b hb => ?_, ?_⟩
      · have hne := hlater range hrange
        rcases List.mem_cons.mp (h.bottoms range (List.mem_append_right _ hrange) b hb) with rfl | hmem
        · exact absurd hb hne
        · exact hmem
      · refine (List.pairwise_append.mp h.order).2.1.imp_of_mem fun hnewer holder hle => ?_
        simpa only [depthOf, fromBottom_cons (hlater _ hnewer), fromBottom_cons (hlater _ holder)] using hle
    cases hm : m o with
    | true =>
      simp only [if_true, List.map_append, ih hnext hrest]
      congr 1
      · -- the bottom is at a survivor
        refine (List.map_id here).symm.trans (List.map_congr_left fun range hrange => ?_)
        obtain ⟨top, bottom⟩ := range
        obtain rfl : bottom = some o := hhere _ hrange
        simp [fromBottom, hm]
      · refine List.map_congr_left fun range hrange => ?_
        have hin : fromBottom next range.bottom <:+ next := fromBottom_suffix _ _
        rw [fromBottom_cons (hlater range hrange), filter_update fun hmem => ho (hin.subset hmem)]
    | false =>
      have hmoved : Descending next (here.map (fun range => { range with bottom := next.head? }) ++ later) := by
        have hdepth : ∀ range ∈ here.map (fun range => { range with bottom := next.head? }),
            depthOf next range.bottom = next.length := by
          intro range hrange
          obtain ⟨old, -, rfl⟩ := List.mem_map.mp hrange
          simp [depthOf]
        refine ⟨fun range hrange b hb => ?_, List.pairwise_append.mpr ⟨?_, hrest.order, fun newer hnewer older _ => ?_⟩⟩
        · rcases List.mem_append.mp hrange with hrange | hrange
          · obtain ⟨old, -, rfl⟩ := List.mem_map.mp hrange
            exact List.mem_of_mem_head? hb
          · exact hrest.bottoms range hrange b hb
        · refine List.pairwise_of_forall_mem_list fun newer hnewer older holder => ?_
          rw [hdepth newer hnewer, hdepth older holder]
        · rw [hdepth newer hnewer]
          exact (fromBottom_suffix _ _).length_le
      simp only [Bool.false_eq_true, if_false, ih hnext hmoved, List.map_append, List.map_map]
      congr 1
      · refine List.map_congr_left fun range hrange => ?_
        rw [Function.comp_apply, fromBottom_head, hhere range hrange]
        simp [fromBottom, hm]
      · refine List.map_congr_left fun range hrange => ?_
        rw [fromBottom_cons (hlater range hrange)]

/-! ## Ranges over a sweep -/

/-- A range of a list: it has its top in it, and its bottom is below its top. -/
structure PinRange.IsIn (list : List Address) (range : PinRange) : Prop where
  top : ∀ t, range.top = some t → t ∈ list ∧ range.bottom ≠ some t
  bottom : ∀ b, range.bottom = some b → b ∈ fromTop list range.top

/-- The range after the sweep of a list. -/
def PinRange.swept (list : List Address) (m : Address → Bool) (range : PinRange) : PinRange :=
  { range with bottom := ((fromBottom list range.bottom).filter m).head? }

/-- A range with its objects, and what is below it. -/
theorem PinRange.IsIn.append {range : PinRange} (h : range.IsIn list) (hnodup : list.Nodup) :
    range.objects list ++ fromBottom list range.bottom = fromTop list range.top := by
  rw [← fromBottom_fromTop hnodup h.bottom]
  exact downTo_append _ _

/-- The top of a range is one of its objects. -/
theorem PinRange.IsIn.top_mem {range : PinRange} (h : range.IsIn list) (ht : range.top = some t) :
    t ∈ range.objects list := by
  obtain ⟨hmem, hbottom⟩ := h.top t ht
  rw [objects, ht, fromTop]
  cases hrest : list.dropWhile fun o => o ≠ t with
  | nil => simpa using List.dropWhile_eq_nil_iff.mp hrest t hmem
  | cons first rest =>
    have hfirst : ¬ (decide (first ≠ t)) = true := by
      have hhead := List.head?_dropWhile_not (fun o => decide (o ≠ t)) list
      rw [hrest] at hhead
      simpa using hhead
    obtain rfl : first = t := by simpa using hfirst
    rw [downTo, List.takeWhile_cons_of_pos (by simpa using hbottom.symm)]
    exact List.mem_cons_self

/-- What a top leads to, once its objects have their marks, is what is left of it. -/
theorem PinRange.IsIn.fromTop_filter {range : PinRange} (h : range.IsIn list)
    (hmarked : ∀ o ∈ range.objects list, m o = true) :
    fromTop (list.filter m) range.top = (fromTop list range.top).filter m := by
  cases htop : range.top with
  | none => rfl
  | some t => exact dropWhile_filter (hmarked t (h.top_mem htop))

/-- A range whose objects have their marks loses none of them, and is followed by what is left. -/
theorem PinRange.IsIn.fromTop_swept {range : PinRange} (h : range.IsIn list) (hnodup : list.Nodup)
    (hmarked : ∀ o ∈ range.objects list, m o = true) :
    fromTop (list.filter m) range.top = range.objects list ++ (fromBottom list range.bottom).filter m := by
  rw [h.fromTop_filter hmarked, ← h.append hnodup, List.filter_append, List.filter_eq_self.mpr hmarked]

/-- So it is the same range of what is left of the list. -/
theorem PinRange.IsIn.objects_swept {range : PinRange} (h : range.IsIn list) (hnodup : list.Nodup)
    (hmarked : ∀ o ∈ range.objects list, m o = true) :
    (range.swept list m).objects (list.filter m) = range.objects list := by
  have hrest := h.fromTop_swept hnodup hmarked
  have hnodup' : (fromTop (list.filter m) range.top).Nodup := (hnodup.filter m).sublist (fromTop_suffix _ _).sublist
  rw [hrest] at hnodup'
  show downTo (fromTop (list.filter m) range.top) _ = _
  rw [hrest]
  exact downTo_head hnodup'

theorem PinRange.IsIn.swept {range : PinRange} (h : range.IsIn list) (hnodup : list.Nodup)
    (hmarked : ∀ o ∈ range.objects list, m o = true) : (range.swept list m).IsIn (list.filter m) := by
  have hrest := h.fromTop_swept hnodup hmarked
  have hnodup' : (fromTop (list.filter m) range.top).Nodup := (hnodup.filter m).sublist (fromTop_suffix _ _).sublist
  rw [hrest] at hnodup'
  refine ⟨fun t ht => ⟨List.mem_filter.mpr ⟨(h.top t ht).1, hmarked t (h.top_mem ht)⟩, fun hbottom => ?_⟩, ?_⟩
  · exact (List.nodup_append.mp hnodup').2.2 t (h.top_mem ht) t (List.mem_of_mem_head? hbottom) rfl
  · intro b hb
    show b ∈ fromTop (list.filter m) range.top
    rw [hrest]
    exact List.mem_append_right _ (List.mem_of_mem_head? hb)

/-- The part from a moved bottom on is what is left of the part. -/
theorem fromBottom_swept (hnodup : list.Nodup) (bottom : Option Address) :
    fromBottom (list.filter m) ((fromBottom list bottom).filter m).head? = (fromBottom list bottom).filter m := by
  obtain ⟨above, habove⟩ := fromBottom_suffix list bottom
  generalize fromBottom list bottom = rest at habove ⊢
  subst habove
  rw [List.filter_append]
  cases hrest : rest.filter m with
  | nil => rfl
  | cons b next =>
    have hb : b ∈ rest := (List.mem_filter.mp (hrest ▸ List.mem_cons_self)).1
    have hnot : b ∉ above.filter m := fun hmem =>
      (List.nodup_append.mp hnodup).2.2 b (List.mem_filter.mp hmem).1 b hb rfl
    show (above.filter m ++ b :: next).dropWhile _ = _
    rw [dropWhile_append hnot]
    simp

/-- The ranges stay in order. -/
theorem Descending.swept {pins : List PinRange} (h : Descending list pins) (hnodup : list.Nodup) :
    Descending (list.filter m) (pins.map (PinRange.swept list m)) := by
  refine ⟨fun range hrange b hb => ?_, List.pairwise_map.mpr (h.order.imp fun {newer older} hle => ?_)⟩
  · obtain ⟨old, -, rfl⟩ := List.mem_map.mp hrange
    have hmem : b ∈ (fromBottom list old.bottom).filter m := List.mem_of_mem_head? hb
    exact ((fromBottom_suffix _ _).filter m).subset hmem
  · show (fromBottom (list.filter m) _).length ≤ (fromBottom (list.filter m) _).length
    rw [PinRange.swept, PinRange.swept, fromBottom_swept hnodup, fromBottom_swept hnodup]
    have hsuffix : fromBottom list older.bottom <:+ fromBottom list newer.bottom :=
      List.suffix_of_suffix_length_le (fromBottom_suffix _ _) (fromBottom_suffix _ _) hle
    exact (hsuffix.filter m).length_le

/-! ## The invariant -/

/-- Scopes that may end one after the other: none gives back more ranges or results than there are, and
a native from script has a range of its own. -/
def ScopesFit : ℕ → ℕ → List Scope → Prop
  | _, _, [] => True
  | pins, results, .native _ fromScript savedPins savedResults :: scopes =>
    if fromScript then savedPins < pins ∧ savedResults ≤ results ∧ ScopesFit savedPins savedResults scopes
    else ScopesFit pins results scopes
  | pins, results, .callout fromNative :: scopes => ScopesFit (if fromNative then pins + 1 else pins) results scopes

/-- More ranges and results fit too. -/
theorem ScopesFit.mono {scopes : List Scope} {pins results pins' results' : ℕ} (h : ScopesFit pins results scopes)
    (hpins : pins ≤ pins') (hresults : results ≤ results') : ScopesFit pins' results' scopes := by
  induction scopes generalizing pins results pins' results' with
  | nil => trivial
  | cons scope scopes ih =>
    cases scope with
    | native frames fromScript savedPins savedResults =>
      cases fromScript with
      | true => exact ⟨h.1.trans_le hpins, h.2.1.trans hresults, h.2.2⟩
      | false => exact ih h hpins hresults
    | callout fromNative =>
      cases fromNative with
      | true => exact ih h (Nat.succ_le_succ hpins) hresults
      | false => exact ih h hpins hresults

/-- The invariant of a run: no pointer leads out of the list, there are no marks between collections, and
the ranges are ranges of the list, in its order. -/
structure Heap.Sound (h : Heap) : Prop where
  nodup : h.list.Nodup
  unmarked : ∀ a, h.marked a = false
  live : h.liveObjects = h.list.length
  edges : ∀ a ∈ h.list, ∀ b ∈ h.edges a, b ∈ h.list
  roots : ∀ a ∈ eachRoot h.roots h.roots.registers.length h.roots.frames.length, a ∈ h.list
  results : ∀ a ∈ pointersOf h.pinnedResults, a ∈ h.list
  ranges : ∀ range ∈ h.pins, range.IsIn h.list
  descending : Descending h.list h.pins
  scopes : ScopesFit h.pins.length h.pinnedResults.length h.scopes

variable {h : Heap}

/-- What a range holds is in the list. -/
theorem PinRange.objects_sublist (list : List Address) (range : PinRange) : (range.objects list).Sublist list :=
  (List.takeWhile_prefix _).sublist.trans (fromTop_suffix _ _).sublist

/-- What can be reached. -/
def Heap.Reachable (h : Heap) (a : Address) : Prop := ReachedFrom h.edges h.rootSet a

theorem Heap.Sound.rootSet (hs : h.Sound) : ∀ a ∈ h.rootSet, a ∈ h.list := by
  intro a ha
  rcases List.mem_append.mp ha with ha | ha
  · rcases List.mem_append.mp ha with ha | ha
    · exact hs.roots a ha
    · obtain ⟨range, -, ha⟩ := List.mem_flatMap.mp ha
      exact (range.objects_sublist h.list).subset ha
  · obtain ⟨v, hv, ha⟩ := List.mem_flatMap.mp ha
    exact hs.results a (List.mem_flatMap.mpr ⟨v, List.mem_reverse.mp hv, ha⟩)

/-- The marks of a collection are on what can be reached. -/
theorem Heap.Sound.markRoots (hs : h.Sound) (a : Address) : h.markRoots a = true ↔ h.Reachable a := by
  have hsettled : Marking.Settled h.edges ⟨h.marked, []⟩ := ⟨rfl, fun a ha => by simp [hs.unmarked] at ha⟩
  have hwithin : Marking.Within h.list ⟨h.marked, []⟩ := fun a ha => by simp [hs.unmarked] at ha
  obtain ⟨-, hall⟩ := Marking.markAll_spec hs.edges hs.rootSet hsettled hwithin
  rw [Heap.markRoots, hall]
  simp [hs.unmarked, Heap.Reachable]

/-- What can be reached is in the list. -/
theorem Heap.Sound.mem_of_reachable (hs : h.Sound) {a : Address} (ha : h.Reachable a) : a ∈ h.list := by
  obtain ⟨root, hroot, ha⟩ := ha
  exact Closed.of_reaches (fun a ha b hb => hs.edges a ha b hb) ha (hs.rootSet root hroot)

theorem Heap.reachable_of_root {a : Address} (ha : a ∈ h.rootSet) : h.Reachable a :=
  ⟨a, ha, Relation.ReflTransGen.refl⟩

/-- The objects of a range have their marks. -/
theorem Heap.Sound.marked_of_range (hs : h.Sound) {range : PinRange} (hrange : range ∈ h.pins) :
    ∀ o ∈ range.objects h.list, h.markRoots o = true := by
  intro o ho
  refine (hs.markRoots o).mpr (Heap.reachable_of_root (List.mem_append_left _ (List.mem_append_right _ ?_)))
  exact List.mem_flatMap.mpr ⟨range, List.mem_reverse.mpr hrange, ho⟩

theorem Heap.Sound.list_collect (hs : h.Sound) : h.collect.list = h.list.filter h.markRoots :=
  sweepList_list hs.nodup _

theorem Heap.Sound.pins_collect (hs : h.Sound) : h.collect.pins = h.pins.map (PinRange.swept h.list h.markRoots) :=
  sweepList_pins hs.nodup hs.descending

/-- A collection keeps just what can be reached. -/
theorem Heap.Sound.mem_collect (hs : h.Sound) (a : Address) : a ∈ h.collect.list ↔ h.Reachable a := by
  rw [hs.list_collect, List.mem_filter, hs.markRoots]
  exact and_iff_right_of_imp hs.mem_of_reachable

/-- A collection leaves each range its objects. -/
theorem Heap.Sound.objects_collect (hs : h.Sound) :
    h.collect.pins.map (PinRange.objects h.collect.list) = h.pins.map (PinRange.objects h.list) := by
  rw [hs.pins_collect, hs.list_collect, List.map_map]
  exact List.map_congr_left fun range hrange =>
    (hs.ranges range hrange).objects_swept hs.nodup (hs.marked_of_range hrange)

/-! ## What each step preserves -/

theorem Heap.Sound.collect (hs : h.Sound) : h.collect.Sound where
  nodup := by
    rw [hs.list_collect]
    exact hs.nodup.filter _
  unmarked a := by
    refine Bool.eq_false_iff.mpr fun ha => ?_
    obtain ⟨hmark, hnot⟩ := (sweepList_marked hs.nodup _ a).mp ha
    exact hnot (hs.mem_of_reachable ((hs.markRoots a).mp hmark))
  live := by
    have hfreed := @sweepList_freed h.list h.markRoots hs.nodup h.pins
    rw [hs.list_collect]
    show h.liveObjects - (sweepList h.list h.markRoots h.pins).freed = _
    rw [hs.live]
    omega
  edges a ha b hb := by
    rw [hs.mem_collect] at ha ⊢
    exact closed_reachedFrom h.edges h.rootSet a ha b hb
  roots a ha := (hs.mem_collect a).mpr
    (Heap.reachable_of_root (List.mem_append_left _ (List.mem_append_left _ ha)))
  results a ha := by
    refine (hs.mem_collect a).mpr (Heap.reachable_of_root (List.mem_append_right _ ?_))
    obtain ⟨v, hv, ha⟩ := List.mem_flatMap.mp ha
    exact List.mem_flatMap.mpr ⟨v, List.mem_reverse.mpr hv, ha⟩
  ranges range hrange := by
    rw [hs.pins_collect] at hrange
    obtain ⟨old, hold, rfl⟩ := List.mem_map.mp hrange
    rw [hs.list_collect]
    exact (hs.ranges old hold).swept hs.nodup (hs.marked_of_range hold)
  descending := by
    rw [hs.pins_collect, hs.list_collect]
    exact hs.descending.swept hs.nodup
  scopes := by
    have hlength : h.collect.pins.length = h.pins.length := by rw [hs.pins_collect, List.length_map]
    rw [hlength]
    exact hs.scopes

/-- A range of a list is one of the list with a new head. -/
theorem PinRange.IsIn.cons {range : PinRange} (hr : range.IsIn list) (ha : a ∉ list) : range.IsIn (a :: list) := by
  refine ⟨fun t ht => ⟨List.mem_cons_of_mem _ (hr.top t ht).1, (hr.top t ht).2⟩, fun b hb => ?_⟩
  have hmem := hr.bottom b hb
  cases htop : range.top with
  | none =>
    rw [htop] at hmem
    exact List.mem_cons_of_mem _ hmem
  | some t =>
    have hne : t ≠ a := fun heq => ha (heq ▸ (hr.top t htop).1)
    rw [fromTop_cons hne, ← htop]
    exact hmem

theorem Descending.cons {pins : List PinRange} (hd : Descending list pins) (ha : a ∉ list) :
    Descending (a :: list) pins := by
  have hdepth : ∀ range ∈ pins, depthOf (a :: list) range.bottom = depthOf list range.bottom := by
    intro range hrange
    rw [depthOf, fromBottom_cons fun hbottom => ha (hd.bottoms range hrange a hbottom), ← depthOf]
  refine ⟨fun range hrange b hb => List.mem_cons_of_mem _ (hd.bottoms range hrange b hb), ?_⟩
  refine hd.order.imp_of_mem fun hnewer holder hle => ?_
  rwa [hdepth _ hnewer, hdepth _ holder]

theorem Heap.Sound.allocate (hs : h.Sound) {o : HeapObject} (hfresh : a ∉ h.list)
    (hedges : ∀ b ∈ o.edges, b ∈ a :: h.list) : (h.allocate a o).Sound where
  nodup := List.nodup_cons.mpr ⟨hfresh, hs.nodup⟩
  unmarked x := by
    by_cases hx : x = a
    · simp [Heap.allocate, hx]
    · simp [Heap.allocate, hx, hs.unmarked]
  live := by simp [Heap.allocate, hs.live]
  edges x hx b hb := by
    by_cases heq : x = a
    · subst heq
      exact hedges b (by simpa [Heap.edges, Heap.allocate] using hb)
    · have hx' : x ∈ h.list := (List.mem_cons.mp hx).resolve_left heq
      exact List.mem_cons_of_mem _ (hs.edges x hx' b (by simpa [Heap.edges, Heap.allocate, heq] using hb))
  roots x hx := List.mem_cons_of_mem _ (hs.roots x hx)
  results x hx := List.mem_cons_of_mem _ (hs.results x hx)
  ranges range hrange := (hs.ranges range hrange).cons hfresh
  descending := hs.descending.cons hfresh
  scopes := hs.scopes

/-- An open range from the head of the list. -/
theorem isIn_open (list : List Address) : PinRange.IsIn list ⟨none, list.head?⟩ :=
  ⟨fun _ ht => absurd ht (Option.some_ne_none _).symm, fun _ hb => List.mem_of_mem_head? hb⟩

/-- It comes before every other. -/
theorem Descending.open_cons {pins : List PinRange} (hd : Descending list pins) :
    Descending list (⟨none, list.head?⟩ :: pins) := by
  refine ⟨fun range hrange b hb => ?_, List.pairwise_cons.mpr ⟨fun older _ => ?_, hd.order⟩⟩
  · rcases List.mem_cons.mp hrange with rfl | hrange
    · exact List.mem_of_mem_head? hb
    · exact hd.bottoms range hrange b hb
  · show _ ≤ (fromBottom list list.head?).length
    rw [fromBottom_head]
    exact (fromBottom_suffix _ _).length_le

theorem Heap.Sound.enterNative (hs : h.Sound) : h.enterNative.Sound := by
  refine ⟨hs.nodup, hs.unmarked, hs.live, hs.edges, hs.roots, hs.results, ?_, ?_, ?_⟩
  all_goals
    simp only [Heap.enterNative]
    cases h.nativeDepth == 0 || h.roots.frames.length != h.nativeFrames
  case refine_1.false => exact hs.ranges
  case refine_1.true => exact List.forall_mem_cons.mpr ⟨isIn_open h.list, hs.ranges⟩
  case refine_2.false => exact hs.descending
  case refine_2.true => exact hs.descending.open_cons
  case refine_3.false => exact hs.scopes
  case refine_3.true => exact ⟨Nat.lt_succ_self _, le_rfl, hs.scopes⟩

/-- Closing the open range keeps its objects, or drops it when it has none. -/
theorem closeRange_cases {pins : List PinRange} (hnodup : list.Nodup) (hr : ∀ range ∈ pins, range.IsIn list) :
    closeRange list pins = pins ∨
      (∃ range rest, pins = range :: rest ∧ range.objects list = [] ∧ closeRange list pins = rest) ∨
      ∃ range rest top, pins = range :: rest ∧ range.top = none ∧ list.head? = some top ∧ range.bottom ≠ some top ∧
        closeRange list pins = { range with top := some top } :: rest := by
  cases pins with
  | nil => exact Or.inl rfl
  | cons range rest =>
    rw [closeRange]
    split_ifs with htop hempty
    · exact Or.inl rfl
    · refine Or.inr (Or.inl ⟨range, rest, rfl, ?_, rfl⟩)
      rw [PinRange.objects, not_not.mp htop, ← hempty, fromTop]
      exact @downTo_head [] list hnodup
    · obtain ⟨top, htail⟩ : ∃ top, list.head? = some top := by
        cases hlist : list with
        | cons top next => exact ⟨top, rfl⟩
        | nil =>
          -- the bottom would be in an empty list
          have hsome : range.bottom ≠ none := fun hb => hempty (by rw [hlist, hb]; rfl)
          obtain ⟨b, hb⟩ := Option.ne_none_iff_exists'.mp hsome
          have hmem := (hr range List.mem_cons_self).bottom b hb
          rw [not_not.mp htop, hlist] at hmem
          exact absurd hmem List.not_mem_nil
      refine Or.inr (Or.inr ⟨range, rest, top, rfl, not_not.mp htop, htail, fun hb => hempty ?_, by rw [htail]⟩)
      rw [htail, hb]

/-- The list is what follows its head. -/
theorem fromTop_head (h : list.head? = some t) : fromTop list (some t) = list := by
  obtain ⟨next, rfl⟩ := List.head?_eq_some_iff.mp h
  simp [fromTop]

theorem PinRange.IsIn.close {range : PinRange} (hr : range.IsIn list) (htop : range.top = none)
    (hhead : list.head? = some t) (hbottom : range.bottom ≠ some t) :
    PinRange.IsIn list { range with top := some t } := by
  refine ⟨fun x hx => ?_, fun b hb => ?_⟩
  · obtain rfl := Option.some.inj hx
    exact ⟨List.mem_of_mem_head? hhead, hbottom⟩
  · have hmem := hr.bottom b hb
    rw [htop] at hmem
    show b ∈ fromTop list (some t)
    rwa [fromTop_head hhead]

theorem closeRange_spec {pins : List PinRange} (hnodup : list.Nodup) (hr : ∀ range ∈ pins, range.IsIn list)
    (hd : Descending list pins) : (∀ range ∈ closeRange list pins, range.IsIn list) ∧
      Descending list (closeRange list pins) ∧ pins.length ≤ (closeRange list pins).length + 1 := by
  rcases closeRange_cases hnodup hr with hclose | ⟨range, rest, rfl, -, hclose⟩ |
    ⟨range, rest, top, rfl, htop, hhead, hbottom, hclose⟩
  all_goals rw [hclose]
  · exact ⟨hr, hd, Nat.le_succ _⟩
  · exact ⟨(List.forall_mem_cons.mp hr).2, ⟨(List.forall_mem_cons.mp hd.bottoms).2, (List.pairwise_cons.mp hd.order).2⟩,
      le_rfl⟩
  · obtain ⟨hrange, hrest⟩ := List.forall_mem_cons.mp hr
    exact ⟨List.forall_mem_cons.mpr ⟨hrange.close htop hhead hbottom, hrest⟩,
      ⟨List.forall_mem_cons.mpr (List.forall_mem_cons.mp hd.bottoms),
        List.pairwise_cons.mpr (List.pairwise_cons.mp hd.order)⟩, Nat.le_succ _⟩

theorem Heap.Sound.callOut (hs : h.Sound) : h.callOut.Sound := by
  obtain ⟨hranges, hdescending, hlength⟩ := closeRange_spec hs.nodup hs.ranges hs.descending
  refine ⟨hs.nodup, hs.unmarked, hs.live, hs.edges, hs.roots, hs.results, ?_, ?_, ?_⟩
  all_goals
    simp only [Heap.callOut]
    cases decide (h.nativeDepth > 0) && h.roots.frames.length == h.nativeFrames
  case refine_1.false => exact hs.ranges
  case refine_1.true => exact hranges
  case refine_2.false => exact hs.descending
  case refine_2.true => exact hdescending
  case refine_3.false => exact hs.scopes
  case refine_3.true => exact hs.scopes.mono hlength le_rfl

theorem Heap.Sound.returned (hs : h.Sound) {v : Value} (hv : ∀ a ∈ v.pointers, a ∈ h.list) : (h.returned v).Sound := by
  have hmore : ∀ a ∈ pointersOf (v :: h.pinnedResults), a ∈ h.list := by
    intro a ha
    rcases List.mem_append.mp ha with ha | ha
    · exact hv a ha
    · exact hs.results a ha
  rw [Heap.returned]
  split
  · next hscopes =>
    cases v.isHeap with
    | false => exact hs
    | true =>
      refine ⟨hs.nodup, hs.unmarked, hs.live, hs.edges, hs.roots, hmore, hs.ranges, hs.descending, ?_⟩
      exact hs.scopes.mono le_rfl (Nat.le_succ _)
  · exact hs

/-- A list that is long enough is cut from its older end. -/
theorem resize_eq {α : Type} (fill : α) {n : ℕ} {l : List α} (hn : n ≤ l.length) :
    resize fill n l = l.drop (l.length - n) := by
  rw [resize, Nat.sub_eq_zero_of_le hn, List.replicate_zero, List.nil_append]

theorem Heap.Sound.leave (hs : h.Sound) : h.leave.Sound := by
  have hscopes := hs.scopes
  rw [Heap.leave]
  split
  · exact hs
  · next frames fromScript savedPins savedResults scopes heq =>
    rw [heq] at hscopes
    cases fromScript with
    | false => exact ⟨hs.nodup, hs.unmarked, hs.live, hs.edges, hs.roots, hs.results, hs.ranges, hs.descending, hscopes⟩
    | true =>
      obtain ⟨hpins, hresults, hrest⟩ := hscopes
      have hdrop : ∀ (n : ℕ), (h.pins.drop n).Sublist h.pins := fun n => List.drop_sublist n _
      simp only [if_true, resize_eq _ hpins.le, resize_eq _ hresults]
      refine ⟨hs.nodup, hs.unmarked, hs.live, hs.edges, hs.roots, fun a ha => ?_, fun range hrange => ?_, ⟨?_, ?_⟩, ?_⟩
      · obtain ⟨v, hv, ha⟩ := List.mem_flatMap.mp ha
        exact hs.results a (List.mem_flatMap.mpr ⟨v, List.mem_of_mem_drop hv, ha⟩)
      · exact hs.ranges range (List.mem_of_mem_drop hrange)
      · exact fun range hrange => hs.descending.bottoms range (List.mem_of_mem_drop hrange)
      · exact hs.descending.order.sublist (hdrop _)
      · simp only [List.length_drop]
        rwa [Nat.sub_sub_self hpins.le, Nat.sub_sub_self hresults]
  · next fromNative scopes heq =>
    rw [heq] at hscopes
    cases fromNative with
    | false => exact ⟨hs.nodup, hs.unmarked, hs.live, hs.edges, hs.roots, hs.results, hs.ranges, hs.descending, hscopes⟩
    | true =>
      exact ⟨hs.nodup, hs.unmarked, hs.live, hs.edges, hs.roots, hs.results,
        List.forall_mem_cons.mpr ⟨isIn_open h.list, hs.ranges⟩, hs.descending.open_cons, hscopes⟩

theorem Heap.Sound.step (hs : h.Sound) {l : HeapStep} {h' : Heap} (hstep : h.Step l h') : h'.Sound := by
  cases hstep with
  | allocate hfresh hedges => exact hs.allocate hfresh hedges
  | enterNative => exact hs.enterNative
  | callOut => exact hs.callOut
  | returned hv => exact hs.returned hv
  | leave => exact hs.leave
  | mutate hobjects hroots =>
    exact ⟨hs.nodup, hs.unmarked, hs.live, hobjects, hroots, hs.results, hs.ranges, hs.descending, hs.scopes⟩
  | collect => exact hs.collect

theorem Heap.IsEmpty.sound (hempty : h.IsEmpty) : h.Sound := by
  obtain ⟨hlist, hmarked, hlive, hpins, hresults, -, hscopes, hroots⟩ := hempty
  refine ⟨by simp [hlist], by simp [hmarked], by simp [hlive, hlist], by simp [hlist], by simp [hroots],
    by simp [hresults, pointersOf], by simp [hpins], ⟨by simp [hpins], by simp [hpins]⟩, ?_⟩
  rw [hscopes]
  trivial

/-- The invariant holds in every state of every run. -/
theorem sound_of_reachable {allowed : Heap → HeapStep → Prop} (hreach : heapRuns.Reachable allowed h) : h.Sound :=
  hreach.invariant (fun _ => Heap.IsEmpty.sound) fun _ _ _ hs _ hstep => hs.step hstep

/-! ## Collections of a run -/

/-- Roots that hold nothing. -/
def noRoots : Roots :=
  { realms := [], realmTemplate := [], realmTemplateInternals := [], realmTemplatePlatformPrototypes := [],
    registers := [], currentThis := .undefined, pendingNewTarget := .undefined, pendingClosure := .undefined,
    frames := [], microtasks := [], awaitJob := .undefined, modules := [], thrown := .undefined,
    fenceThrown := .undefined, pendingThrow := .undefined, temporaries := [], stringCache := [], bigintCache := [],
    externalRoots := [] }

def emptyHeap : Heap := ⟨[], fun _ => .string, fun _ => false, 0, noRoots, [], [], 0, 0, [], []⟩

/-- A native in progress that holds an object, and an older one that nothing holds. -/
def nativeHeap : Heap := ((emptyHeap.allocate 1 .string).enterNative).allocate 2 .symbol

theorem reachable_nativeHeap : heapRuns.Reachable (fun _ _ => True) nativeHeap := by
  have hempty : heapRuns.Reachable (fun _ _ => True) emptyHeap := .initial ⟨rfl, rfl, rfl, rfl, rfl, rfl, rfl, rfl⟩
  have hold := hempty.step trivial (.allocate (a := 1) (o := .string) (by simp [emptyHeap]) (by simp [HeapObject.edges]))
  refine (hold.step trivial .enterNative).step trivial (.allocate ?_ (by simp [HeapObject.edges]))
  decide

/-- The runs from a heap. -/
def heapRunsFrom (h : Heap) : TransitionSystem Heap HeapStep := { heapRuns with initial := (· = h) }

/-- A step that does not end a scope of some. -/
def Within (scopes : List Scope) (s : Heap) (l : HeapStep) : Prop := l = .leave → scopes.length < s.scopes.length

/-- An object that a range holds: the range with `j` older ones, which no scope that began later gives back. -/
structure Holds (outer : List Scope) (j : ℕ) (a : Address) (s : Heap) : Prop where
  sound : s.Sound
  scopes : ∃ inner, s.scopes = inner ++ outer ∧ ∀ f p r, Scope.native f true p r ∈ inner → j < p
  range : ∃ range, s.pins.reverse[j]? = some range ∧ a ∈ range.objects s.list

/-- A new object at the head leaves a range what it holds. -/
theorem PinRange.IsIn.mem_objects_cons {range : PinRange} (hr : range.IsIn list) {o : Address} (ho : o ∉ list)
    (ha : a ∈ range.objects list) : a ∈ range.objects (o :: list) := by
  have hbottom : some o ≠ range.bottom := fun heq =>
    ho ((fromTop_suffix _ _).subset (hr.bottom o heq.symm))
  cases htop : range.top with
  | none =>
    rw [objects, htop] at ha ⊢
    rw [fromTop, downTo, List.takeWhile_cons_of_pos (by simpa using hbottom)]
    exact List.mem_cons_of_mem _ ha
  | some t =>
    have hne : t ≠ o := fun heq => ho (heq ▸ (hr.top t htop).1)
    rw [objects, htop] at ha ⊢
    rwa [fromTop_cons hne]

section Holds

variable {outer : List Scope} {j : ℕ} {s s' : Heap}

theorem Holds.lt_length (hh : Holds outer j a s) : j < s.pins.length := by
  obtain ⟨range, hrange, -⟩ := hh.range
  simpa using (List.getElem?_eq_some_iff.mp hrange).1

theorem Holds.enterNative (hh : Holds outer j a s) : Holds outer j a s.enterNative := by
  obtain ⟨inner, hscopes, hsaved⟩ := hh.scopes
  obtain ⟨range, hrange, ha⟩ := hh.range
  refine ⟨hh.sound.enterNative, ⟨_ :: inner, by rw [Heap.enterNative, hscopes, List.cons_append], ?_⟩, range, ?_, ha⟩
  · intro f p r hmem
    rcases List.mem_cons.mp hmem with heq | hmem
    · obtain ⟨-, -, rfl, -⟩ := Scope.native.inj heq
      exact hh.lt_length
    · exact hsaved f p r hmem
  · simp only [Heap.enterNative]
    split_ifs
    · rwa [List.reverse_cons, List.getElem?_append_left (by simpa using hh.lt_length)]
    · exact hrange

theorem Holds.callOut (hh : Holds outer j a s) : Holds outer j a s.callOut := by
  obtain ⟨inner, hscopes, hsaved⟩ := hh.scopes
  obtain ⟨range, hrange, ha⟩ := hh.range
  have hsame : (s.callOut).list = s.list := rfl
  have hkept : ∃ range, (closeRange s.list s.pins).reverse[j]? = some range ∧ a ∈ range.objects s.list := by
    rcases closeRange_cases hh.sound.nodup hh.sound.ranges with hclose | ⟨first, rest, hpins, hempty, hclose⟩ |
      ⟨first, rest, top, hpins, htop, hhead, -, hclose⟩
    · exact ⟨range, by rwa [hclose], ha⟩
    all_goals
      rw [hpins, List.reverse_cons] at hrange
      rw [hclose]
      rcases lt_or_ge j rest.length with hj | hj
    -- an older range is as it was
    · exact ⟨range, by rwa [List.getElem?_append_left (by simpa using hj)] at hrange, ha⟩
    · obtain rfl : first = range := by
        rw [List.getElem?_append_right (by simpa using hj)] at hrange
        exact (List.mem_singleton.mp (List.mem_of_getElem? hrange)).symm
      rw [hempty] at ha
      exact absurd ha List.not_mem_nil
    · rw [List.getElem?_append_left (by simpa using hj)] at hrange
      exact ⟨range, by rwa [List.reverse_cons, List.getElem?_append_left (by simpa using hj)], ha⟩
    · obtain rfl : first = range := by
        rw [List.getElem?_append_right (by simpa using hj)] at hrange
        exact (List.mem_singleton.mp (List.mem_of_getElem? hrange)).symm
      have hlast : j = rest.length := by
        have hlt := hh.lt_length
        rw [hpins, List.length_cons] at hlt
        omega
      refine ⟨{ first with top := some top }, by simp [hlast], ?_⟩
      rw [PinRange.objects, htop] at ha
      rwa [PinRange.objects, fromTop_head hhead]
  refine ⟨hh.sound.callOut, ⟨_ :: inner, by rw [Heap.callOut, hscopes, List.cons_append], fun f p r hmem => ?_⟩, ?_⟩
  · exact hsaved f p r ((List.mem_cons.mp hmem).resolve_left (by simp))
  · rw [hsame]
    simp only [Heap.callOut]
    cases decide (s.nativeDepth > 0) && s.roots.frames.length == s.nativeFrames with
    | false => exact ⟨range, hrange, ha⟩
    | true => exact hkept

/-- A scope that began later ends: what it gives back is newer. -/
theorem Holds.leave (hh : Holds outer j a s) (hlater : outer.length < s.scopes.length) : Holds outer j a s.leave := by
  obtain ⟨inner, hscopes, hsaved⟩ := hh.scopes
  obtain ⟨range, hrange, ha⟩ := hh.range
  have hfit := hh.sound.scopes
  have hsound := hh.sound.leave
  cases inner with
  | nil =>
    rw [hscopes, List.nil_append] at hlater
    exact absurd hlater (lt_irrefl _)
  | cons scope inner =>
    have hrest : ∀ f p r, Scope.native f true p r ∈ inner → j < p := fun f p r hmem =>
      hsaved f p r (List.mem_cons_of_mem _ hmem)
    rw [hscopes] at hfit
    cases scope with
    | native frames fromScript savedPins savedResults =>
      have hleave : s.leave.scopes = inner ++ outer ∧ s.leave.list = s.list := by simp [Heap.leave, hscopes]
      refine ⟨hsound, ⟨inner, hleave.1, hrest⟩, range, ?_, by rwa [hleave.2]⟩
      cases fromScript with
      | false => simpa [Heap.leave, hscopes] using hrange
      | true =>
        have hj : j < savedPins := hsaved frames savedPins savedResults List.mem_cons_self
        have hpins : s.leave.pins = s.pins.drop (s.pins.length - savedPins) := by
          simp [Heap.leave, hscopes, resize_eq _ hfit.1.le]
        rw [hpins, List.reverse_drop, List.getElem?_take_of_lt (by have := hfit.1; omega)]
        exact hrange
    | callout fromNative =>
      have hleave : s.leave.scopes = inner ++ outer ∧ s.leave.list = s.list := by simp [Heap.leave, hscopes]
      refine ⟨hsound, ⟨inner, hleave.1, hrest⟩, range, ?_, by rwa [hleave.2]⟩
      cases fromNative with
      | false => simpa [Heap.leave, hscopes] using hrange
      | true =>
        have hpins : s.leave.pins = ⟨none, s.list.head?⟩ :: s.pins := by simp [Heap.leave, hscopes]
        rwa [hpins, List.reverse_cons, List.getElem?_append_left (by simpa using hh.lt_length)]

theorem Holds.collect (hh : Holds outer j a s) : Holds outer j a s.collect := by
  obtain ⟨range, hrange, ha⟩ := hh.range
  have hpins : s.collect.pins.reverse[j]? = some (range.swept s.list s.markRoots) := by
    rw [hh.sound.pins_collect, ← List.map_reverse, List.getElem?_map, hrange]
    rfl
  have hmem : range ∈ s.pins := List.mem_reverse.mp (List.mem_of_getElem? hrange)
  refine ⟨hh.sound.collect, hh.scopes, _, hpins, ?_⟩
  rwa [hh.sound.list_collect,
    (hh.sound.ranges range hmem).objects_swept hh.sound.nodup (hh.sound.marked_of_range hmem)]

theorem Holds.step (hh : Holds outer j a s) {l : HeapStep} (hwithin : Within outer s l) (hstep : s.Step l s') :
    Holds outer j a s' := by
  have hsound := hh.sound.step hstep
  obtain ⟨range, hrange, ha⟩ := hh.range
  cases hstep with
  | allocate hfresh hedges =>
    have hmem : range ∈ s.pins := List.mem_reverse.mp (List.mem_of_getElem? hrange)
    exact ⟨hsound, hh.scopes, range, hrange, (hh.sound.ranges range hmem).mem_objects_cons hfresh ha⟩
  | enterNative => exact hh.enterNative
  | callOut => exact hh.callOut
  | returned hv =>
    refine ⟨hsound, ?_, range, ?_, ?_⟩
    all_goals
      rw [Heap.returned]
      split
    exacts [hh.scopes, hh.scopes, hrange, hrange, ha, ha]
  | leave => exact hh.leave (hwithin rfl)
  | mutate hobjects hroots => exact ⟨hsound, hh.scopes, range, hrange, ha⟩
  | collect => exact hh.collect

end Holds

/-- A result that is pinned: the one with `j` older ones, which no scope that began later gives back. -/
structure Returns (outer : List Scope) (j : ℕ) (v : Value) (s : Heap) : Prop where
  sound : s.Sound
  scopes : ∃ inner, s.scopes = inner ++ outer ∧ ∀ f p r, Scope.native f true p r ∈ inner → j < r
  result : s.pinnedResults.reverse[j]? = some v

theorem Returns.step {outer : List Scope} {j : ℕ} {v : Value} {s s' : Heap} (hr : Returns outer j v s) {l : HeapStep}
    (hwithin : Within outer s l) (hstep : s.Step l s') : Returns outer j v s' := by
  have hsound := hr.sound.step hstep
  obtain ⟨inner, hscopes, hsaved⟩ := hr.scopes
  have hlength : j < s.pinnedResults.length := by simpa using (List.getElem?_eq_some_iff.mp hr.result).1
  cases hstep with
  | allocate => exact ⟨hsound, hr.scopes, hr.result⟩
  | mutate => exact ⟨hsound, hr.scopes, hr.result⟩
  | collect => exact ⟨hsound, hr.scopes, hr.result⟩
  | enterNative =>
    refine ⟨hsound, ⟨_ :: inner, by rw [Heap.enterNative, hscopes, List.cons_append], fun f p r hmem => ?_⟩, hr.result⟩
    rcases List.mem_cons.mp hmem with heq | hmem
    · obtain ⟨-, -, -, rfl⟩ := Scope.native.inj heq
      exact hlength
    · exact hsaved f p r hmem
  | callOut =>
    refine ⟨hsound, ⟨_ :: inner, by rw [Heap.callOut, hscopes, List.cons_append], fun f p r hmem => ?_⟩, hr.result⟩
    exact hsaved f p r ((List.mem_cons.mp hmem).resolve_left (by simp))
  | @returned w hw =>
    have hmore : (w :: s.pinnedResults).reverse[j]? = some v := by
      rw [List.reverse_cons, List.getElem?_append_left (by simpa using hlength)]
      exact hr.result
    refine ⟨hsound, ?_, ?_⟩
    all_goals
      rw [Heap.returned]
      split
    · exact hr.scopes
    · exact hr.scopes
    · cases w.isHeap with
      | false => exact hr.result
      | true => exact hmore
    · exact hr.result
  | leave =>
    have hlater := hwithin rfl
    have hfit := hr.sound.scopes
    cases inner with
    | nil =>
      rw [hscopes, List.nil_append] at hlater
      exact absurd hlater (lt_irrefl _)
    | cons scope inner =>
      rw [hscopes] at hfit
      have hleave : s.leave.scopes = inner ++ outer := by cases scope <;> simp [Heap.leave, hscopes]
      refine ⟨hsound, ⟨inner, hleave, fun f p r hmem => hsaved f p r (List.mem_cons_of_mem _ hmem)⟩, ?_⟩
      rcases scope with ⟨frames, _ | _, savedPins, savedResults⟩ | fromNative
      · simpa [Heap.leave, hscopes] using hr.result
      · have hj : j < savedResults := hsaved frames savedPins savedResults List.mem_cons_self
        have hresults : s.leave.pinnedResults = s.pinnedResults.drop (s.pinnedResults.length - savedResults) := by
          simp [Heap.leave, hscopes, resize_eq _ hfit.2.1]
        rw [hresults, List.reverse_drop, List.getElem?_take_of_lt (by have := hfit.2.1; omega)]
        exact hr.result
      · simpa [Heap.leave, hscopes] using hr.result

end CtBrowser.Script.Gc
