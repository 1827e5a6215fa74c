import CtBrowser.Foundations.Transition
import CtBrowser.Script.Objects.PropertyOrder

/-!
# Own Keys

The enumeration of an object's tables is the order of OrdinaryOwnPropertyKeys of the properties in
creation order, in every state an object's operations reach. The one operation that breaks away is
a data property set or defined under the name of an accessor, which leaves the name in both tables.

## Main definitions

- `objectRuns` — an object and its properties in creation order, from a new object on.
- `Consistent` — what holds between the two.

## Main results

- `eachOwnEntry_eq` — the enumeration is that of the list.
- `consistent_of_reachable` — consistency in every state reached without such an operation.
-/

namespace CtBrowser.Script.Objects

open Creation Foundations

variable {ν : Type}

/-! ## The walk -/

theorem walkFrom_cons_of_lt {entry : AccessorEntry ν} {i : ℕ} (h : entry.after < i)
    (entries : List (AccessorEntry ν)) (ps : List (Text × UInt8)) :
    ObjectObject.walkFrom (entry :: entries) i ps = ObjectObject.walkFrom entries i ps := by
  induction ps generalizing i with
  | nil => simp [ObjectObject.walkFrom, h.ne]
  | cons p ps ih =>
    rw [ObjectObject.walkFrom, ObjectObject.walkFrom, ih (h.trans (Nat.lt_succ_self i))]
    simp [h.ne]

theorem walkFrom_cons_self {entry : AccessorEntry ν} {i : ℕ} (h : entry.after = i)
    (entries : List (AccessorEntry ν)) (ps : List (Text × UInt8)) :
    ObjectObject.walkFrom (entry :: entries) i ps =
      (entry.key, entry.attrs) :: ObjectObject.walkFrom entries i ps := by
  cases ps with
  | nil => simp [ObjectObject.walkFrom, h]
  | cons p ps =>
    rw [ObjectObject.walkFrom, ObjectObject.walkFrom, walkFrom_cons_of_lt (by omega)]
    simp [h]

theorem walkFrom_entriesFrom (i : ℕ) (m : Creation ν) :
    ObjectObject.walkFrom (entriesFrom i m) i ((props m).zipWith (fun p a => (p.1, a)) (dataAttrs m)) =
      m.map fun e => (e.1, e.2.attrs) := by
  induction i, m using entriesFrom.induct with
  | case1 i => rfl
  | case2 i k v a m ih =>
    -- every accessor stands after the first data property
    have hnone : (entriesFrom (i + 1) m).filter (·.after = i) = [] := by
      refine List.filter_eq_nil_iff.mpr fun entry hentry => ?_
      have := (after_mem hentry).1
      simp only [decide_eq_true_eq]
      omega
    rw [entriesFrom, props_data, dataAttrs_data, List.zipWith_cons_cons, ObjectObject.walkFrom, hnone, ih]
    rfl
  | case3 i k g s a m ih =>
    rw [entriesFrom, props_accessor, dataAttrs_accessor, walkFrom_cons_self rfl, ih]
    rfl

/-! ## The enumeration -/

namespace Represents

variable {o : ObjectObject ν} {m : Creation ν}

theorem eachOwnEntryInOrder_eq (h : Represents o m) :
    o.eachOwnEntryInOrder = m.map fun e => (e.1, e.2.attrs) := by
  rw [← walkFrom_entriesFrom 0 m, ObjectObject.eachOwnEntryInOrder, h.entries, h.props]
  congr 1
  refine List.ext_getElem (by simp) fun i hi _ => ?_
  have hi' : i < (dataAttrs m).length := by simpa using hi
  simp only [List.getElem_map, List.getElem_zipIdx, List.getElem_zipWith, Nat.zero_add]
  rw [ObjectObject.attrsAt, h.attrs.getD_eq, List.getD_eq_getElem?_getD, List.getElem?_eq_getElem hi', Option.getD_some]

/-- The enumeration is that of the list. -/
theorem eachOwnEntry_eq (h : Represents o m) : o.eachOwnEntry = m.ownKeys := by
  rw [ObjectObject.eachOwnEntry, h.eachOwnEntryInOrder_eq]
  cases hindexed : o.indexed with
  | true => rfl
  | false =>
    have hnone : ∀ e ∈ m.map fun e => (e.1, e.2.attrs), arrayIndexKey e.1 = none := by
      rintro _ hmem
      obtain ⟨e, he, rfl⟩ := List.mem_map.mp hmem
      exact h.indexed hindexed e.1 (List.mem_map.mpr ⟨e, he, rfl⟩)
    have hindices : (m.map fun e => (e.1, e.2.attrs)).filterMap
        (fun e => (arrayIndexKey e.1).map fun n => (n, e)) = [] :=
      List.filterMap_eq_nil_iff.mpr fun e he => by rw [hnone e he]; rfl
    have hnamed : (m.map fun e => (e.1, e.2.attrs)).filter (fun e => (arrayIndexKey e.1).isNone) =
        m.map fun e => (e.1, e.2.attrs) :=
      List.filter_eq_self.mpr fun e he => by rw [hnone e he]; rfl
    rw [ownKeys]
    simp only [hindices, hnamed, Bool.not_false, if_true, List.mergeSort_nil, List.map_nil, List.nil_append]

end Represents

theorem ownKeys_ascending (m : Creation ν) :
    (m.ownKeys.filterMap fun e => arrayIndexKey e.1).Pairwise (· ≤ ·) := by
  rw [ownKeys]
  set all := m.map fun e => (e.1, e.2.attrs)
  set indices := all.filterMap fun e => (arrayIndexKey e.1).map fun n => (n, e) with hindices
  have hnamed : (all.filter fun e => (arrayIndexKey e.1).isNone).filterMap (fun e => arrayIndexKey e.1) = [] := by
    refine List.filterMap_eq_nil_iff.mpr fun e he => ?_
    simpa using List.of_mem_filter he
  have hmem : ∀ x ∈ indices, arrayIndexKey x.2.1 = some x.1 := by
    rintro ⟨n, e⟩ hx
    rw [hindices, List.mem_filterMap] at hx
    obtain ⟨e', -, he'⟩ := hx
    obtain ⟨n', hn', heq⟩ := Option.map_eq_some_iff.mp he'
    obtain ⟨rfl, rfl⟩ := Prod.mk.inj heq
    exact hn'
  have hfirst : ((indices.mergeSort fun x y => x.1 ≤ y.1).map Prod.snd).filterMap (fun e => arrayIndexKey e.1) =
      (indices.mergeSort fun x y => x.1 ≤ y.1).map Prod.fst := by
    rw [List.filterMap_map, ← List.filterMap_eq_map]
    exact List.filterMap_congr fun x hx => hmem x (List.mem_mergeSort.mp hx)
  have hsorted : (indices.mergeSort fun x y => x.1 ≤ y.1).Pairwise fun x y => decide (x.1 ≤ y.1) = true :=
    List.pairwise_mergeSort
      (fun a b c hab hbc => by simp only [decide_eq_true_eq] at *; omega)
      (fun a b => by simp only [Bool.or_eq_true, decide_eq_true_eq]; omega) indices
  simp only [List.filterMap_append, hnamed, hfirst, List.append_nil]
  exact List.pairwise_map.mpr (hsorted.imp fun h => by simpa using h)

theorem ownKeys_perm (m : Creation ν) : (m.ownKeys.map Prod.fst).Perm (m.map Prod.fst) := by
  have hsome (all : List (Text × UInt8)) :
      (all.filterMap fun e => (arrayIndexKey e.1).map fun n => (n, e)).map Prod.snd =
        all.filter fun e => (arrayIndexKey e.1).isSome := by
    rw [List.map_filterMap, ← List.filterMap_eq_filter]
    refine List.filterMap_congr fun e _ => ?_
    cases hn : arrayIndexKey e.1 with
    | none => simp [Option.guard, hn]
    | some n => simp [Option.guard, hn]
  have hall : (m.ownKeys).Perm (m.map fun e => (e.1, e.2.attrs)) := by
    rw [ownKeys]
    refine (((List.mergeSort_perm _ _).map Prod.snd).append_right _).trans ?_
    rw [hsome]
    have hnot : ∀ e : Text × UInt8, (arrayIndexKey e.1).isNone = !(arrayIndexKey e.1).isSome := fun e => by
      cases arrayIndexKey e.1 <;> rfl
    simp only [hnot]
    exact List.filter_append_perm _ _
  refine (hall.map Prod.fst).trans (List.Perm.of_eq ?_)
  rw [List.map_map]
  rfl

/-! ## Runs -/

/-- What holds between an object's tables, and between them and its properties in creation
order. -/
structure Consistent (o : ObjectObject ν) (m : Creation ν) : Prop where
  -- the index maps exactly each data key to its position
  index : ∀ name i, o.index.find name = some i ↔ (o.props.map Prod.fst)[i]? = some name
  -- the attributes are parallel to the properties, or all the default ones and not kept
  attrs : o.attrs = [] ∨ o.attrs.length = o.props.length
  -- no name is both a data property and an accessor
  disjoint : ∀ name ∈ o.props.map Prod.fst, name ∉ o.accessors.entries.map (·.key)
  -- an accessor is found where the scan finds it
  lookup : ∀ name, o.accessors.find name = o.accessors.scan name
  -- the enumeration has every own name exactly once
  once : (o.eachOwnEntry.map Prod.fst).Nodup
  every : ∀ name, name ∈ o.eachOwnEntry.map Prod.fst ↔
    name ∈ o.props.map Prod.fst ∨ name ∈ o.accessors.entries.map (·.key)
  -- array indices ascending, then the other names in creation order
  ascending : (o.eachOwnEntry.filterMap fun e => arrayIndexKey e.1).Pairwise (· ≤ ·)
  order : o.eachOwnEntry = m.ownKeys

theorem idxOf?_eq_some_iff {keys : List Text} (h : keys.Nodup) {name : Text} {i : ℕ} :
    keys.idxOf? name = some i ↔ keys[i]? = some name := by
  rw [List.idxOf?_eq_some_iff, List.getElem?_eq_some_iff]
  constructor
  · rintro ⟨hi, heq, -⟩
    exact ⟨hi, heq⟩
  · rintro ⟨hi, heq⟩
    refine ⟨hi, heq, fun j hj hsame => ?_⟩
    have := h.getElem_inj_iff.mp (hsame.trans heq.symm)
    omega

theorem disjoint_keys (i : ℕ) {m : Creation ν} (h : (m.map Prod.fst).Nodup) :
    ∀ name ∈ (props m).map Prod.fst, name ∉ (entriesFrom i m).map (·.key) := by
  induction i, m using entriesFrom.induct with
  | case1 i => simp
  | case2 i k v a m ih =>
    obtain ⟨hk, hm⟩ := List.nodup_cons.mp h
    intro name hname
    rcases List.mem_cons.mp hname with rfl | hname
    · exact fun hmem => hk ((sublist_entriesFrom (i + 1) m).subset hmem)
    · exact ih hm name hname
  | case3 i k g s a m ih =>
    obtain ⟨hk, hm⟩ := List.nodup_cons.mp h
    intro name hname hmem
    rcases List.mem_cons.mp hmem with rfl | hmem
    · exact hk ((sublist_props m).subset hname)
    · exact ih hm name hname hmem

theorem Represents.consistent {o : ObjectObject ν} {m : Creation ν} (h : Represents o m) : Consistent o m where
  index name i := by
    rw [h.index name, h.props]
    exact idxOf?_eq_some_iff ((sublist_props m).nodup h.nodup)
  attrs := by
    rw [h.props, ← length_dataAttrs]
    exact h.attrs.length_eq
  disjoint name hdata haccessor := by
    rw [h.props] at hdata
    rw [h.entries] at haccessor
    exact disjoint_keys 0 h.nodup name hdata haccessor
  lookup := h.accessors.find_eq_scan
  once := by
    rw [h.eachOwnEntry_eq]
    exact (ownKeys_perm m).nodup_iff.mpr h.nodup
  every name := by
    rw [h.eachOwnEntry_eq, (ownKeys_perm m).mem_iff, h.props, h.entries]
    exact mem_keys_iff 0 m name
  ascending := by
    rw [h.eachOwnEntry_eq]
    exact ownKeys_ascending m
  order := h.eachOwnEntry_eq

/-- An object and its properties in creation order, from a new object on. -/
def objectRuns (isUndefined : ν → Bool) : TransitionSystem (ObjectObject ν × Creation ν) (Op ν) where
  initial s := s = ({}, [])
  step s op s' := s' = (s.1.apply isUndefined op, s.2.apply isUndefined op)

/-- In every run in which a data property is set or defined only under names that have no accessor, an
object's tables stay consistent. -/
theorem consistent_of_reachable (isUndefined : ν → Bool) {s : ObjectObject ν × Creation ν}
    (h : (objectRuns isUndefined).Reachable (fun s op => NoAccessor s.1 op) s) : Consistent s.1 s.2 := by
  refine (h.invariant (P := fun s => Represents s.1 s.2) ?_ ?_).consistent
  · rintro _ rfl
    exact .new
  · rintro s op _ hs hallowed rfl
    exact hs.apply isUndefined hallowed

/-- Tables stay consistent while a property becomes an accessor and a data property again. -/
theorem consistent_of_reachable_redefined :
    Consistent
      ([.set (ascii "b") (some 1), .defineAccessor (ascii "b") (some 2) none 7, .defineOverAccessor (ascii "b") none 7].foldl
        (ObjectObject.apply Option.isNone) {})
      ([.set (ascii "b") (some 1), .defineAccessor (ascii "b") (some 2) none 7, .defineOverAccessor (ascii "b") none 7].foldl
        (Creation.apply Option.isNone) []) := by
  have hstart : (objectRuns Option.isNone).Reachable (fun s op => NoAccessor s.1 op)
    (({}, []) : ObjectObject (Option ℕ) × Creation (Option ℕ)) := .initial rfl
  have hset := hstart.step (l := Op.set (ascii "b") (some 1)) rfl rfl
  have haccessor := hset.step (l := Op.defineAccessor (ascii "b") (some 2) none 7) trivial rfl
  have hdata := haccessor.step (l := Op.defineOverAccessor (ascii "b") none 7) trivial rfl
  exact consistent_of_reachable Option.isNone hdata

/-- A data property that is set under the name of an accessor leaves both. -/
theorem not_consistent_of_set : ¬ ∀ s : ObjectObject (Option ℕ) × Creation (Option ℕ),
    (objectRuns Option.isNone).Reachable (fun _ _ => True) s → Consistent s.1 s.2 := by
  intro h
  have hstart : (objectRuns Option.isNone).Reachable (fun _ _ => True)
    (({}, []) : ObjectObject (Option ℕ) × Creation (Option ℕ)) := .initial rfl
  have haccessor := hstart.step (l := Op.defineAccessor (ascii "currentScript") (some 1) none 6) trivial rfl
  have hboth := haccessor.step (l := Op.set (ascii "currentScript") none) trivial rfl
  exact (h _ hboth).disjoint (ascii "currentScript") (by decide) (by decide)

end CtBrowser.Script.Objects
