import CtBrowser.Script.Objects.PropertyTable

/-!
# Creation Order

An object's own properties as one list in creation order, each a data property or an accessor. An
operation appends a property, removes one, or changes one where it stands. The list is taken apart
into the two tables an object keeps.

## Main definitions

- `Slot`, `Creation` — a property, and the properties of an object in creation order.
- `Creation.apply` — an operation on the list.
- `Creation.props`, `Creation.entriesFrom` — the data properties, and the accessors with the number
  of data properties before each.
- `Creation.ownKeys` — the order of OrdinaryOwnPropertyKeys.
-/

namespace CtBrowser.Script.Objects

variable {ν : Type}

/-! ## The list of properties -/

/-- A property: a data property or an accessor, with its attributes. -/
inductive Slot (ν : Type)
  | data (v : ν) (attrs : UInt8)
  | accessor (getter setter : ν) (attrs : UInt8)

/-- The attributes of a property. -/
def Slot.attrs : Slot ν → UInt8
  | .data _ a => a
  | .accessor _ _ a => a

/-- Own properties in creation order. -/
abbrev Creation (ν : Type) := List (Text × Slot ν)

namespace Creation

/-- Changes the property of a name where it stands. -/
def change (m : Creation ν) (name : Text) (f : Slot ν → Slot ν) : Creation ν :=
  m.map fun e => if e.1 = name then (e.1, f e.2) else e

/-- Changes the property of a name, or appends one. -/
def put (m : Creation ν) (name : Text) (new : Slot ν) (f : Slot ν → Slot ν) : Creation ν :=
  if name ∈ m.map Prod.fst then m.change name f else m ++ [(name, new)]

/-- Removes the property of a name if it is of a kind. -/
def remove (m : Creation ν) (name : Text) (p : Slot ν → Bool) : Creation ν :=
  m.filter fun e => !(e.1 == name && p e.2)

def isData : Slot ν → Bool
  | .data .. => true
  | .accessor .. => false

def isAccessor (slot : Slot ν) : Bool := !isData slot

/-- An operation on the list of properties. -/
def apply (isUndefined : ν → Bool) (m : Creation ν) : Op ν → Creation ν
  | .set name v => m.put name (.data v attrDefault) fun
    | .data _ a => .data v a
    | slot => slot
  | .define name v a => m.put name (.data v a) fun _ => .data v a
  | .defineAccessor name getter setter a => m.put name (.accessor getter setter a) fun
    | .data .. => .accessor getter setter a
    | .accessor g s _ => .accessor (if isUndefined getter then g else getter)
        (if isUndefined setter then s else setter) a
  | .defineOverAccessor name v a => m.put name (.data v a) fun _ => .data v a
  | .erase name => m.remove name isData
  | .eraseAccessor name => m.remove name isAccessor

/-- The data properties. -/
def props (m : Creation ν) : List (Text × ν) := m.filterMap fun
  | (k, .data v _) => some (k, v)
  | _ => none

/-- The attributes of the data properties. -/
def dataAttrs (m : Creation ν) : List UInt8 := m.filterMap fun
  | (_, .data _ a) => some a
  | _ => none

/-- The accessors, each with the number of data properties before it, of which `i` stand before
the list. -/
def entriesFrom : ℕ → Creation ν → List (AccessorEntry ν)
  | _, [] => []
  | i, (_, .data ..) :: m => entriesFrom (i + 1) m
  | i, (k, .accessor g s a) :: m => ⟨k, g, s, i, a⟩ :: entriesFrom i m

/-- The order of OrdinaryOwnPropertyKeys: the array indices ascending, then the other keys in
creation order. -/
def ownKeys (m : Creation ν) : List (Text × UInt8) :=
  let all := m.map fun e => (e.1, e.2.attrs)
  let indices := all.filterMap fun e => (arrayIndexKey e.1).map fun n => (n, e)
  (indices.mergeSort fun x y => x.1 ≤ y.1).map Prod.snd ++
    all.filter fun e => (arrayIndexKey e.1).isNone

/-! ### Taking a list apart -/

@[simp]
theorem props_append (m n : Creation ν) : (m ++ n).props = m.props ++ n.props :=
  List.filterMap_append ..

@[simp]
theorem dataAttrs_append (m n : Creation ν) : (m ++ n).dataAttrs = m.dataAttrs ++ n.dataAttrs :=
  List.filterMap_append ..

@[simp]
theorem props_data (k : Text) (v : ν) (a : UInt8) (m : Creation ν) :
    props ((k, .data v a) :: m) = (k, v) :: m.props := rfl

@[simp]
theorem props_accessor (k : Text) (g s : ν) (a : UInt8) (m : Creation ν) :
    props ((k, .accessor g s a) :: m) = m.props := rfl

@[simp]
theorem dataAttrs_data (k : Text) (v : ν) (a : UInt8) (m : Creation ν) :
    dataAttrs ((k, .data v a) :: m) = a :: m.dataAttrs := rfl

@[simp]
theorem dataAttrs_accessor (k : Text) (g s : ν) (a : UInt8) (m : Creation ν) :
    dataAttrs ((k, .accessor g s a) :: m) = m.dataAttrs := rfl

@[simp]
theorem props_nil : props ([] : Creation ν) = [] := rfl

@[simp]
theorem dataAttrs_nil : dataAttrs ([] : Creation ν) = [] := rfl

@[simp]
theorem length_dataAttrs (m : Creation ν) : m.dataAttrs.length = m.props.length := by
  induction m with
  | nil => rfl
  | cons e m ih =>
    rcases e with ⟨k, ⟨v, a⟩ | ⟨g, s, a⟩⟩
    · simpa using ih
    · simpa using ih

@[simp]
theorem entriesFrom_append (i : ℕ) (m n : Creation ν) :
    entriesFrom i (m ++ n) = entriesFrom i m ++ entriesFrom (i + m.props.length) n := by
  induction i, m using entriesFrom.induct with
  | case1 i => rfl
  | case2 i k v a m ih =>
    have hlength : i + 1 + (props m).length = i + ((props m).length + 1) := by omega
    simpa [entriesFrom, hlength] using ih
  | case3 i k g s a m ih => simpa [entriesFrom] using ih

theorem after_mem {i : ℕ} {m : Creation ν} {entry : AccessorEntry ν} (h : entry ∈ entriesFrom i m) :
    i ≤ entry.after ∧ entry.after ≤ i + m.props.length := by
  induction i, m using entriesFrom.induct with
  | case1 i => simp [entriesFrom] at h
  | case2 i k v a m ih =>
    have := ih h
    simp only [props_data, List.length_cons]
    omega
  | case3 i k g s a m ih =>
    rcases List.mem_cons.mp h with rfl | h
    · simp
    · simpa using ih h

theorem entriesFrom_succ (i : ℕ) (m : Creation ν) :
    entriesFrom (i + 1) m =
      (entriesFrom i m).map fun entry => { entry with after := entry.after + 1 } := by
  induction i, m using entriesFrom.induct with
  | case1 i => rfl
  | case2 i k v a m ih => simpa [entriesFrom] using ih
  | case3 i k g s a m ih => simpa [entriesFrom] using ih

theorem mem_keys_iff (i : ℕ) (m : Creation ν) (name : Text) :
    name ∈ m.map Prod.fst ↔
      name ∈ m.props.map Prod.fst ∨ name ∈ (entriesFrom i m).map (·.key) := by
  induction i, m using entriesFrom.induct with
  | case1 i => simp [entriesFrom]
  | case2 i k v a m ih =>
    rw [List.map_cons, List.mem_cons, ih, props_data, List.map_cons, List.mem_cons, or_assoc]
    rfl
  | case3 i k g s a m ih =>
    rw [List.map_cons, List.mem_cons, ih, props_accessor, entriesFrom, List.map_cons, List.mem_cons]
    exact or_left_comm

/-! ### Around a name -/

theorem sublist_props (m : Creation ν) : (props m).map Prod.fst |>.Sublist (m.map Prod.fst) := by
  induction m with
  | nil => exact .slnil
  | cons e m ih =>
    rcases e with ⟨k, ⟨v, a⟩ | ⟨g, s, a⟩⟩
    · exact ih.cons_cons k
    · exact ih.cons k

theorem sublist_entriesFrom (i : ℕ) (m : Creation ν) :
    ((entriesFrom i m).map (·.key)).Sublist (m.map Prod.fst) := by
  induction i, m using entriesFrom.induct with
  | case1 i => exact .slnil
  | case2 i k v a m ih => exact ih.cons k
  | case3 i k g s a m ih => exact ih.cons_cons k

theorem exists_eq_append {m : Creation ν} {name : Text} (h : name ∈ m.map Prod.fst) :
    ∃ m₁ slot m₂, m = m₁ ++ (name, slot) :: m₂ := by
  obtain ⟨⟨k, slot⟩, hmem, rfl⟩ := List.mem_map.mp h
  obtain ⟨m₁, m₂, rfl⟩ := List.append_of_mem hmem
  exact ⟨m₁, slot, m₂, rfl⟩

theorem notMem_of_nodup {m₁ m₂ : Creation ν} {name : Text} {slot : Slot ν}
    (h : ((m₁ ++ (name, slot) :: m₂).map Prod.fst).Nodup) :
    name ∉ m₁.map Prod.fst ∧ name ∉ m₂.map Prod.fst := by
  rw [List.map_append, List.map_cons, List.nodup_middle, List.nodup_cons, List.mem_append] at h
  exact not_or.mp h.1

theorem change_eq {m₁ m₂ : Creation ν} {name : Text} {slot : Slot ν} (h₁ : name ∉ m₁.map Prod.fst)
    (h₂ : name ∉ m₂.map Prod.fst) (f : Slot ν → Slot ν) :
    change (m₁ ++ (name, slot) :: m₂) name f = m₁ ++ (name, f slot) :: m₂ := by
  have hsame : ∀ l : Creation ν, name ∉ l.map Prod.fst → change l name f = l := by
    intro l hl
    conv_rhs => rw [← List.map_id l]
    refine List.map_congr_left fun e he => ?_
    rw [if_neg fun heq : e.1 = name => hl (heq ▸ List.mem_map_of_mem he)]
    rfl
  rw [change, List.map_append, List.map_cons, if_pos rfl]
  rw [show m₁.map _ = m₁ from hsame m₁ h₁, show m₂.map _ = m₂ from hsame m₂ h₂]

theorem put_eq {m₁ m₂ : Creation ν} {name : Text} {slot : Slot ν}
    (h : ((m₁ ++ (name, slot) :: m₂).map Prod.fst).Nodup) (new : Slot ν) (f : Slot ν → Slot ν) :
    put (m₁ ++ (name, slot) :: m₂) name new f = m₁ ++ (name, f slot) :: m₂ := by
  obtain ⟨h₁, h₂⟩ := notMem_of_nodup h
  rw [put, if_pos (by simp), change_eq h₁ h₂]

theorem put_new {m : Creation ν} {name : Text} (h : name ∉ m.map Prod.fst) (new : Slot ν)
    (f : Slot ν → Slot ν) : put m name new f = m ++ [(name, new)] :=
  if_neg h

theorem remove_of_notMem {m : Creation ν} {name : Text} (h : name ∉ m.map Prod.fst)
    (p : Slot ν → Bool) : remove m name p = m := by
  refine List.filter_eq_self.mpr fun e he => ?_
  have hne : e.1 ≠ name := fun heq => h (heq ▸ List.mem_map_of_mem he)
  simp [hne]

theorem remove_eq {m₁ m₂ : Creation ν} {name : Text} {slot : Slot ν}
    (h : ((m₁ ++ (name, slot) :: m₂).map Prod.fst).Nodup) (p : Slot ν → Bool) :
    remove (m₁ ++ (name, slot) :: m₂) name p =
      if p slot then m₁ ++ m₂ else m₁ ++ (name, slot) :: m₂ := by
  obtain ⟨h₁, h₂⟩ := notMem_of_nodup h
  have hcons : remove ((name, slot) :: m₂) name p =
      if p slot then m₂ else (name, slot) :: m₂ := by
    have hrest := remove_of_notMem h₂ p
    rw [remove] at hrest ⊢
    rw [List.filter_cons, hrest]
    cases p slot <;> simp
  rw [remove, List.filter_append]
  rw [show m₁.filter _ = m₁ from remove_of_notMem h₁ p,
    show ((name, slot) :: m₂).filter _ = _ from hcons]
  split <;> rfl

theorem nodup_append_new {m : Creation ν} {name : Text} (h : (m.map Prod.fst).Nodup)
    (hname : name ∉ m.map Prod.fst) (slot : Slot ν) :
    ((m ++ [(name, slot)]).map Prod.fst).Nodup := by
  rw [List.map_append, List.nodup_append]
  refine ⟨h, List.nodup_singleton _, fun a ha b hb heq => hname ?_⟩
  rw [← (List.mem_singleton.mp hb : b = name), ← heq]
  exact ha

theorem indexed_append {m : Creation ν} {name : Text} {indexed : Bool}
    (h : indexed = false → ∀ k ∈ m.map Prod.fst, arrayIndexKey k = none) (slot : Slot ν) :
    (indexed || (arrayIndexKey name).isSome) = false →
      ∀ k ∈ (m ++ [(name, slot)]).map Prod.fst, arrayIndexKey k = none := by
  intro hflag k hk
  obtain ⟨hflag, hnone⟩ := Bool.or_eq_false_iff.mp hflag
  rw [List.map_append, List.mem_append] at hk
  rcases hk with hk | hk
  · exact h hflag k hk
  · rw [List.mem_singleton.mp hk]
    simpa using hnone

theorem shift_before (m : Creation ν) :
    ((entriesFrom 0 m).map fun entry =>
      if entry.after > (props m).length then { entry with after := entry.after - 1 } else entry) =
        entriesFrom 0 m := by
  conv_rhs => rw [← List.map_id (entriesFrom 0 m)]
  refine List.map_congr_left fun entry hentry => ?_
  rw [if_neg (by have := (after_mem hentry).2; omega)]
  rfl

theorem shift_after (d : ℕ) (m : Creation ν) :
    ((entriesFrom (d + 1) m).map fun entry =>
      if entry.after > d then { entry with after := entry.after - 1 } else entry) =
        entriesFrom d m := by
  rw [entriesFrom_succ, List.map_map]
  conv_rhs => rw [← List.map_id (entriesFrom d m)]
  refine List.map_congr_left fun entry hentry => ?_
  have hle := (after_mem hentry).1
  simp only [Function.comp_apply]
  rw [if_pos (by omega)]
  rfl

theorem getD_findIdx?_after (m n : Creation ν) :
    ((entriesFrom 0 m ++ entriesFrom ((props m).length + 1) n).findIdx? fun entry =>
      entry.after > (props m).length).getD
        (entriesFrom 0 m ++ entriesFrom ((props m).length + 1) n).length =
      (entriesFrom 0 m).length := by
  have hbefore : (entriesFrom 0 m).findIdx? (fun entry => entry.after > (props m).length) = none := by
    rw [List.findIdx?_eq_none_iff]
    intro entry hentry
    have := (after_mem hentry).2
    simpa using this
  rw [List.findIdx?_append, hbefore, Option.none_or]
  cases hn : entriesFrom ((props m).length + 1) n with
  | nil => simp
  | cons entry rest =>
    have hle := (after_mem (hn ▸ List.mem_cons_self : entry ∈ entriesFrom _ n)).1
    rw [List.findIdx?_cons, if_pos (by simpa using hle)]
    simp

theorem mapIdx_bump (m n : Creation ν) (entry : AccessorEntry ν)
    (hentry : entry.after = (props m).length) :
    ((entriesFrom 0 m ++ entry :: entriesFrom (props m).length n).mapIdx fun i other =>
      if other.after > (props m).length ∨
        other.after = (props m).length ∧ i > (entriesFrom 0 m).length then
        { other with after := other.after + 1 }
      else other) =
        entriesFrom 0 m ++ entry :: entriesFrom ((props m).length + 1) n := by
  rw [List.mapIdx_append, List.mapIdx_cons, entriesFrom_succ]
  congr 1
  · refine List.ext_getElem (by simp) fun i hi _ => ?_
    have hi' : i < (entriesFrom 0 m).length := by simpa using hi
    have := (after_mem (List.getElem_mem hi')).2
    rw [List.getElem_mapIdx, if_neg (by omega)]
  · congr 1
    · rw [if_neg (by omega)]
    · refine List.ext_getElem (by simp) fun i hi _ => ?_
      have hi' : i < (entriesFrom (props m).length n).length := by simpa using hi
      have := (after_mem (List.getElem_mem hi')).1
      rw [List.getElem_mapIdx, if_pos (by omega), List.getElem_map]

end Creation

end CtBrowser.Script.Objects
