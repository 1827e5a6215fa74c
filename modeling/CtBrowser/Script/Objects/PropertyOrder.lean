import CtBrowser.Script.Objects.Creation

/-!
# Tables In Creation Order

What an object's two tables, their indexes and their attributes stand for: a list of own properties
in creation order. Every operation on the tables is the operation on the list, as long as no data
property is set or defined under the name of an accessor.

## Main definitions

- `Indexes`, `Describes`, `AccessorsFit` — the parts beside the entries fit them.
- `Represents` — the tables hold a list of properties in creation order.
- `NoAccessor` — a set or a define is for a name that has no accessor.

## Main results

- `Represents.apply` — every operation on the tables is the operation on the list.
-/

namespace CtBrowser.Script.Objects

variable {ν : Type}

/-! ## Indexes -/

/-- An index gives every name its position among the keys. -/
def Indexes (m : FlatMap) (keys : List Text) : Prop := ∀ name, m.find name = keys.idxOf? name

theorem indexes_nil : Indexes [] [] := fun _ => rfl

theorem idxOf?_append_self {pre : List Text} {name : Text} (h : name ∉ pre) (rest : List Text) :
    (pre ++ name :: rest).idxOf? name = some pre.length := by
  have hpre : pre.findIdx? (· == name) = none := by
    rw [List.findIdx?_eq_none_iff]
    intro k hk
    exact beq_eq_false_iff_ne.mpr fun heq => h (heq ▸ hk)
  simp [List.idxOf?, List.findIdx?_append, hpre, List.findIdx?_cons]

theorem idxOf?_append_of_ne {pre : List Text} {name k : Text} (h : k ≠ name) :
    (pre ++ [name]).idxOf? k = pre.idxOf? k := by
  simp [List.idxOf?, List.findIdx?_append, h.symm]

theorem idxOf?_eq_none {keys : List Text} {name : Text} (h : name ∉ keys) :
    keys.idxOf? name = none := by
  simpa using h

theorem Indexes.emplace {m : FlatMap} {keys : List Text} (h : Indexes m keys) {name : Text}
    (hnew : name ∉ keys) : Indexes (m.emplace name keys.length) (keys ++ [name]) := by
  have hnone : m.find name = none := (h name).trans (idxOf?_eq_none hnew)
  have happend : m.emplace name keys.length = m ++ [(name, keys.length)] := by
    rw [FlatMap.emplace, if_neg (by simp [hnone])]
  intro k
  have hk : List.lookup k m = keys.idxOf? k := h k
  rw [happend, FlatMap.find, List.lookup_append, hk]
  by_cases hname : k = name
  · subst hname
    rw [idxOf?_append_self hnew [], idxOf?_eq_none hnew]
    simp
  · have hlookup : List.lookup k [(name, keys.length)] = none := by simp [hname]
    rw [hlookup, Option.or_none, idxOf?_append_of_ne hname]

theorem indexes_ofKeys {keys : List Text} (h : keys.Nodup) : Indexes (FlatMap.ofKeys keys) keys := by
  have hfold : ∀ (rest pre : List Text) (m : FlatMap), Indexes m pre → (pre ++ rest).Nodup →
      Indexes ((rest.zipIdx pre.length).foldl (fun m e => m.emplace e.1 e.2) m) (pre ++ rest) := by
    intro rest
    induction rest with
    | nil =>
      intro pre m hm _
      simpa using hm
    | cons k rest ih =>
      intro pre m hm hnodup
      have hnew : k ∉ pre := by
        intro hmem
        exact (List.nodup_append.mp hnodup).2.2 k hmem k List.mem_cons_self rfl
      have hstep := ih (pre ++ [k]) (m.emplace k pre.length) (hm.emplace hnew) (by simpa using hnodup)
      simpa using hstep
  exact hfold keys [] [] indexes_nil h

/-! ## Around a position -/

section Middle

variable {α : Type*}

theorem modify_middle (xs : List α) (y : α) (ys : List α) (f : α → α) :
    (xs ++ y :: ys).modify xs.length f = xs ++ f y :: ys := by
  induction xs with
  | nil => rfl
  | cons x xs ih => simpa using ih

theorem set_middle (xs : List α) (y : α) (ys : List α) (a : α) :
    (xs ++ y :: ys).set xs.length a = xs ++ a :: ys := by
  simp

theorem eraseIdx_middle (xs : List α) (y : α) (ys : List α) :
    (xs ++ y :: ys).eraseIdx xs.length = xs ++ ys := by
  induction xs with
  | nil => rfl
  | cons x xs ih => simpa using ih

theorem insertIdx_middle (xs ys : List α) (a : α) :
    (xs ++ ys).insertIdx xs.length a = xs ++ a :: ys := by
  induction xs with
  | nil => rfl
  | cons x xs ih => simpa using ih

end Middle

/-! ## Attributes beside the properties -/

/-- The attributes kept beside the properties: all of them, or nothing while all are the default
ones. -/
def Describes (attrs full : List UInt8) : Prop :=
  attrs = full ∨ attrs = [] ∧ ∀ a ∈ full, a = attrDefault

namespace Describes

variable {attrs full : List UInt8} (h : Describes attrs full)

include h

theorem getD_eq (i : ℕ) : attrs.getD i attrDefault = full.getD i attrDefault := by
  rcases h with rfl | ⟨rfl, hfull⟩
  · rfl
  · rw [List.getD_nil, List.getD_eq_getElem?_getD]
    cases hi : full[i]? with
    | none => rfl
    | some a => exact (hfull a (List.mem_of_getElem? hi)).symm

theorem length_eq : attrs = [] ∨ attrs.length = full.length := by
  rcases h with rfl | ⟨rfl, -⟩
  · exact .inr rfl
  · exact .inl rfl

theorem normalised : (if attrs.isEmpty then []
    else attrs.take full.length ++ List.replicate (full.length - attrs.length) attrDefault) =
      attrs := by
  rcases h with rfl | ⟨rfl, -⟩
  · cases attrs <;> simp
  · rfl

theorem append : Describes (if attrs.isEmpty then [] else attrs ++ [attrDefault])
    (full ++ [attrDefault]) := by
  rcases h with rfl | ⟨rfl, hfull⟩
  · cases attrs with
    | nil => exact .inr ⟨rfl, by simp⟩
    | cons => exact .inl rfl
  · exact .inr ⟨rfl, by simpa [or_imp, forall_and] using hfull⟩

theorem eraseIdx (i : ℕ) : Describes (if attrs.isEmpty then [] else attrs.eraseIdx i)
    (full.eraseIdx i) := by
  rcases h with rfl | ⟨rfl, hfull⟩
  · cases attrs with
    | nil => exact .inl rfl
    | cons => exact .inl rfl
  · exact .inr ⟨rfl, fun a ha => hfull a (List.mem_of_mem_eraseIdx ha)⟩

theorem insertIdx {i : ℕ} (hi : i ≤ full.length) :
    Describes (if attrs.isEmpty then [] else attrs.insertIdx i attrDefault)
      (full.insertIdx i attrDefault) := by
  rcases h with rfl | ⟨rfl, hfull⟩
  · cases attrs with
    | nil => exact .inr ⟨rfl, by simp [Nat.le_zero.mp hi]⟩
    | cons => exact .inl rfl
  · refine .inr ⟨rfl, fun a ha => ?_⟩
    rcases (List.mem_insertIdx hi).mp ha with rfl | ha
    · rfl
    · exact hfull a ha

theorem set (i : ℕ) (a : UInt8) :
    Describes (if a = attrDefault ∧ attrs.isEmpty then attrs
      else (attrs ++ List.replicate (full.length - attrs.length) attrDefault).set i a)
      (full.set i a) := by
  rcases h with rfl | ⟨rfl, hfull⟩
  · split_ifs with hdefault
    · exact .inl (by simp [List.isEmpty_iff.mp hdefault.2])
    · exact .inl (by simp)
  · split_ifs with hdefault
    · refine .inr ⟨rfl, fun b hb => ?_⟩
      rcases List.mem_or_eq_of_mem_set hb with hb | rfl
      · exact hfull b hb
      · exact hdefault.1
    · refine .inl ?_
      rw [List.nil_append, List.length_nil, Nat.sub_zero, ← List.eq_replicate_of_mem hfull]

end Describes

/-! ## The accessor table -/

/-- The accessor table's flag and index fit its entries, whose keys differ. -/
structure AccessorsFit (t : AccessorTable ν) : Prop where
  nodup : (t.entries.map (·.key)).Nodup
  any : t.any = !t.entries.isEmpty
  index : if t.entries.length > 8 then Indexes t.index (t.entries.map (·.key)) else t.index = []

namespace AccessorsFit

theorem scan_eq (t : AccessorTable ν) (name : Text) :
    t.scan name = (t.entries.map (·.key)).idxOf? name := by
  rw [AccessorTable.scan, List.idxOf?, List.findIdx?_map]
  rfl

theorem find_eq_scan {t : AccessorTable ν} (h : AccessorsFit t) (name : Text) :
    t.find name = t.scan name := by
  rw [AccessorTable.find, h.any]
  by_cases hempty : t.entries = []
  · simp [AccessorTable.scan, hempty]
  · rw [if_neg (by simpa using hempty)]
    split_ifs with hlength
    · rfl
    · have hindex := h.index
      rw [if_pos (by omega)] at hindex
      rw [hindex name, scan_eq]

theorem reindex {t : AccessorTable ν} (hnodup : (t.entries.map (·.key)).Nodup)
    (hany : t.any = !t.entries.isEmpty) : AccessorsFit t.reindex := by
  refine ⟨hnodup, hany, ?_⟩
  simp only [AccessorTable.reindex]
  split_ifs
  · exact indexes_ofKeys hnodup
  · rfl

theorem congr {t u : AccessorTable ν} (h : AccessorsFit t)
    (hkeys : u.entries.map (·.key) = t.entries.map (·.key)) (hindex : u.index = t.index)
    (hany : u.any = t.any) : AccessorsFit u := by
  have hlength : u.entries.length = t.entries.length := by
    simpa using congrArg List.length hkeys
  have hempty : u.entries.isEmpty = t.entries.isEmpty := by
    simpa using congrArg List.isEmpty hkeys
  refine ⟨by rw [hkeys]; exact h.nodup, by rw [hany, h.any, hempty], ?_⟩
  rw [hlength, hkeys, hindex]
  exact h.index

/-- Appending an accessor of a new name. -/
theorem define_new {isUndefined : ν → Bool} {t : AccessorTable ν} (h : AccessorsFit t)
    {name : Text} (hnew : name ∉ t.entries.map (·.key)) (getter setter : ν) (after : ℕ)
    (attrs : UInt8) :
    AccessorsFit (t.define isUndefined name getter setter after attrs) ∧
      (t.define isUndefined name getter setter after attrs).entries =
        t.entries ++ [⟨name, getter, setter, after, attrs⟩] := by
  have hfind : t.find name = none := by
    rw [h.find_eq_scan, scan_eq, idxOf?_eq_none hnew]
  rw [AccessorTable.define, hfind]
  have hkeys (entry : AccessorEntry ν) :
      (t.entries ++ [entry]).map (·.key) = t.entries.map (·.key) ++ [entry.key] :=
    List.map_append ..
  have hnodup : (t.entries.map (·.key) ++ [name]).Nodup :=
    List.nodup_append.mpr ⟨h.nodup, List.nodup_singleton _, fun a ha b hb heq =>
      hnew (List.mem_singleton.mp hb ▸ heq ▸ ha)⟩
  have hindex := h.index
  refine ⟨⟨by rw [hkeys]; exact hnodup, by simp, ?_⟩, rfl⟩
  dsimp only
  rw [hkeys]
  by_cases hlength : t.entries.length > 8
  · rw [if_pos hlength] at hindex
    have hempty : t.index.isEmpty = false := by
      by_contra hnil
      rw [Bool.not_eq_false, List.isEmpty_iff] at hnil
      obtain ⟨entry, rest, hentries⟩ := List.exists_cons_of_length_pos (by omega : 0 < t.entries.length)
      have hfirst := hindex entry.key
      simp [hnil, hentries, FlatMap.find, List.idxOf?_cons] at hfirst
    have hlast (entry : AccessorEntry ν) :
        (t.entries ++ [entry]).length - 1 = (t.entries.map (·.key)).length := by simp
    rw [if_pos (by simp; omega), if_pos (by simp; omega), if_neg (by simp [hempty]), hlast]
    exact hindex.emplace hnew
  · rw [if_neg hlength] at hindex
    by_cases height : t.entries.length = 8
    · rw [if_pos (by simp; omega), if_pos (by simp; omega), if_pos (by simp [hindex])]
      exact indexes_ofKeys hnodup
    · rw [if_neg (by simp; omega), if_neg (by simp; omega), hindex]

end AccessorsFit

open Creation

/-- An object's tables hold a list of properties in creation order. -/
structure Represents (o : ObjectObject ν) (m : Creation ν) : Prop where
  nodup : (m.map Prod.fst).Nodup
  props : o.props = props m
  attrs : Describes o.attrs (dataAttrs m)
  index : Indexes o.index ((Creation.props m).map Prod.fst)
  entries : o.accessors.entries = entriesFrom 0 m
  accessors : AccessorsFit o.accessors
  indexed : o.indexed = false → ∀ k ∈ m.map Prod.fst, arrayIndexKey k = none

/-- A set or a define is for a name that has no accessor. -/
def NoAccessor (o : ObjectObject ν) : Op ν → Prop
  | .set name _ => o.accessors.find name = none
  | .define name _ _ => o.accessors.find name = none
  | _ => True

namespace Represents

variable {o : ObjectObject ν} {m m₁ m₂ : Creation ν} {name : Text}

theorem new : Represents ({} : ObjectObject ν) [] where
  nodup := .nil
  props := rfl
  attrs := .inl rfl
  index := indexes_nil
  entries := rfl
  accessors := ⟨.nil, rfl, rfl⟩
  indexed := by simp

theorem normalise_eq (h : Represents o m) : o.normalise = o := by
  have hlength : o.props.length = (dataAttrs m).length := by rw [h.props, length_dataAttrs]
  rw [ObjectObject.normalise, hlength, h.attrs.normalised]

theorem keys_entries (h : Represents o m) :
    o.accessors.entries.map (·.key) = (entriesFrom 0 m).map (·.key) := by
  rw [h.entries]

theorem find_data {v : ν} {a : UInt8} (h : Represents o (m₁ ++ (name, .data v a) :: m₂)) :
    o.index.find name = some (Creation.props m₁).length ∧ o.accessors.find name = none := by
  obtain ⟨h₁, h₂⟩ := notMem_of_nodup h.nodup
  constructor
  · have hnot : name ∉ (Creation.props m₁).map Prod.fst := fun hmem => h₁ ((sublist_props m₁).subset hmem)
    rw [h.index name, props_append, props_data, List.map_append, List.map_cons,
      idxOf?_append_self hnot, List.length_map]
  · rw [h.accessors.find_eq_scan, AccessorsFit.scan_eq, h.keys_entries, entriesFrom_append]
    refine idxOf?_eq_none fun hmem => ?_
    rcases List.mem_append.mp (List.map_append ▸ hmem) with hmem | hmem
    · exact h₁ ((sublist_entriesFrom _ _).subset hmem)
    · exact h₂ ((sublist_entriesFrom _ _).subset hmem)

theorem find_accessor {g s : ν} {a : UInt8}
    (h : Represents o (m₁ ++ (name, .accessor g s a) :: m₂)) :
    o.index.find name = none ∧ o.accessors.find name = some (entriesFrom 0 m₁).length := by
  obtain ⟨h₁, h₂⟩ := notMem_of_nodup h.nodup
  constructor
  · rw [h.index name, props_append, props_accessor, List.map_append]
    refine idxOf?_eq_none fun hmem => ?_
    rcases List.mem_append.mp hmem with hmem | hmem
    · exact h₁ ((sublist_props _).subset hmem)
    · exact h₂ ((sublist_props _).subset hmem)
  · have hnot : name ∉ (entriesFrom 0 m₁).map (·.key) :=
      fun hmem => h₁ ((sublist_entriesFrom _ _).subset hmem)
    rw [h.accessors.find_eq_scan, AccessorsFit.scan_eq, h.keys_entries, entriesFrom_append,
      entriesFrom, List.map_append, List.map_cons, idxOf?_append_self hnot, List.length_map]

theorem find_none (h : Represents o m) (hname : name ∉ m.map Prod.fst) :
    o.index.find name = none ∧ o.accessors.find name = none := by
  rw [h.index name, h.accessors.find_eq_scan, AccessorsFit.scan_eq, h.keys_entries]
  exact ⟨idxOf?_eq_none fun hmem => hname ((sublist_props _).subset hmem),
    idxOf?_eq_none fun hmem => hname ((sublist_entriesFrom _ _).subset hmem)⟩

/-! ### Data properties -/

theorem set_data {v₀ : ν} {a : UInt8} (h : Represents o (m₁ ++ (name, .data v₀ a) :: m₂)) (v : ν) :
    Represents (o.set name v) (m₁ ++ (name, .data v a) :: m₂) := by
  have hprops : o.props.modify (Creation.props m₁).length (fun p => (p.1, v)) =
      Creation.props (m₁ ++ (name, .data v a) :: m₂) := by
    rw [h.props, props_append, props_data, modify_middle, props_append, props_data]
  rw [ObjectObject.set, h.normalise_eq, h.find_data.1]
  exact ⟨by simpa using h.nodup, hprops, by simpa using h.attrs, by simpa using h.index,
    by simpa [entriesFrom] using h.entries, h.accessors, by simpa using h.indexed⟩

theorem set_new (h : Represents o m) (hname : name ∉ m.map Prod.fst) (v : ν) :
    Represents (o.set name v) (m ++ [(name, .data v attrDefault)]) := by
  have hnot : name ∉ (Creation.props m).map Prod.fst :=
    fun hmem => hname ((sublist_props _).subset hmem)
  have hindex := h.index.emplace hnot
  rw [ObjectObject.set, h.normalise_eq, (h.find_none hname).1]
  refine ⟨nodup_append_new h.nodup hname _, ?_, ?_, ?_, ?_, h.accessors, ?_⟩
  · simp [h.props]
  · simpa using h.attrs.append
  · simpa [h.props] using hindex
  · simpa [entriesFrom] using h.entries
  · exact indexed_append h.indexed _

theorem setAttrs {v : ν} {a₀ : UInt8} (h : Represents o (m₁ ++ (name, .data v a₀) :: m₂))
    (a : UInt8) : Represents (o.setAttrs name a) (m₁ ++ (name, .data v a) :: m₂) := by
  have hlength : o.props.length = (dataAttrs (m₁ ++ (name, .data v a₀) :: m₂)).length := by
    rw [h.props, length_dataAttrs]
  have hset := h.attrs.set (Creation.props m₁).length a
  have hfull : (dataAttrs (m₁ ++ (name, .data v a₀) :: m₂)).set (Creation.props m₁).length a =
      dataAttrs (m₁ ++ (name, .data v a) :: m₂) := by
    rw [dataAttrs_append, dataAttrs_data, ← length_dataAttrs m₁, set_middle, dataAttrs_append,
      dataAttrs_data]
  rw [hfull, ← hlength] at hset
  rw [ObjectObject.setAttrs, h.find_data.1]
  dsimp only
  rw [ObjectObject.setAttrsAt]
  split_ifs at hset ⊢
  all_goals exact ⟨by simpa using h.nodup, by simpa using h.props, hset, by simpa using h.index,
    by simpa [entriesFrom] using h.entries, h.accessors, by simpa using h.indexed⟩

/-- Erasing a data property. -/
theorem erase_data {v : ν} {a : UInt8} (h : Represents o (m₁ ++ (name, .data v a) :: m₂)) :
    Represents (o.erase name).1 (m₁ ++ m₂) := by
  have hnodup : ((m₁ ++ m₂).map Prod.fst).Nodup := by
    have hall := h.nodup
    rw [List.map_append, List.map_cons, List.nodup_middle, List.nodup_cons] at hall
    simpa using hall.2
  have hprops : o.props.eraseIdx (Creation.props m₁).length = Creation.props (m₁ ++ m₂) := by
    rw [h.props, props_append, props_data, eraseIdx_middle, props_append]
  have hattrs := h.attrs.eraseIdx (Creation.props m₁).length
  rw [dataAttrs_append, dataAttrs_data, ← length_dataAttrs m₁, eraseIdx_middle,
    ← dataAttrs_append] at hattrs
  have hindexed : o.indexed = false → ∀ k ∈ (m₁ ++ m₂).map Prod.fst, arrayIndexKey k = none := by
    intro hflag k hk
    refine h.indexed hflag k ?_
    rw [List.map_append, List.mem_append] at hk
    simp only [List.map_append, List.map_cons, List.mem_append, List.mem_cons]
    tauto
  rw [ObjectObject.erase, h.normalise_eq, h.find_data.1]
  refine ⟨hnodup, hprops, ?_, ?_, ?_, h.accessors.congr ?_ rfl rfl, hindexed⟩
  · rw [length_dataAttrs] at hattrs
    exact hattrs
  · dsimp only
    rw [hprops]
    exact indexes_ofKeys (hnodup.sublist (sublist_props _))
  · dsimp only
    rw [h.entries, entriesFrom_append, entriesFrom, List.map_append, Nat.zero_add,
      shift_before, shift_after, entriesFrom_append, Nat.zero_add]
  · dsimp only
    rw [List.map_map]
    refine List.map_congr_left fun entry _ => ?_
    simp only [Function.comp_apply]
    split <;> rfl

theorem erase_none (h : Represents o m) (hname : o.index.find name = none) :
    (o.erase name).1 = o := by
  rw [ObjectObject.erase, h.normalise_eq, hname]

/-! ### Accessors -/

theorem note (h : Represents o m) (flag : Bool) :
    Represents { o with indexed := o.indexed || flag } m :=
  ⟨h.nodup, h.props, h.attrs, h.index, h.entries, h.accessors,
    fun hflag => h.indexed (Bool.or_eq_false_iff.mp hflag).1⟩

/-- An accessor takes the place of a data property. -/
theorem defineAccessor_data {isUndefined : ν → Bool} {v : ν} {a₀ : UInt8}
    (h : Represents o (m₁ ++ (name, .data v a₀) :: m₂)) (g s : ν) (a : UInt8) :
    Represents (o.defineAccessor isUndefined name g s a) (m₁ ++ (name, .accessor g s a) :: m₂) := by
  have hnoted := h.note (arrayIndexKey name).isSome
  have herased := hnoted.erase_data
  have hslot : ((o.accessors.entries.findIdx? fun entry =>
      entry.after > (Creation.props m₁).length).getD o.accessors.entries.length) =
        (entriesFrom 0 m₁).length := by
    rw [h.entries, entriesFrom_append, entriesFrom, Nat.zero_add]
    exact getD_findIdx?_after ..
  have hlength : (entriesFrom 0 m₁).length ≤ (entriesFrom 0 (m₁ ++ m₂)).length := by
    rw [entriesFrom_append, List.length_append]
    exact Nat.le_add_right ..
  have hentries : (entriesFrom 0 (m₁ ++ m₂)).insertIdx (entriesFrom 0 m₁).length
      ⟨name, g, s, (Creation.props m₁).length, a⟩ =
        entriesFrom 0 (m₁ ++ (name, .accessor g s a) :: m₂) := by
    rw [entriesFrom_append, insertIdx_middle, entriesFrom_append, entriesFrom, Nat.zero_add]
  have hnodup : ((m₁ ++ (name, Slot.accessor g s a) :: m₂).map Prod.fst).Nodup := by
    simpa using h.nodup
  rw [ObjectObject.defineAccessor, h.find_data.1, h.find_data.2]
  dsimp only
  rw [hslot]
  refine ⟨hnodup, ?_, ?_, ?_, ?_, ?_, ?_⟩
  · simpa using herased.props
  · simpa using herased.attrs
  · simpa using herased.index
  · simp only [AccessorTable.insert, AccessorTable.reindex]
    rw [herased.entries, Nat.min_eq_left hlength, hentries]
  · refine AccessorsFit.reindex ?_ ?_
    · dsimp only
      rw [herased.entries, Nat.min_eq_left hlength, hentries]
      exact hnodup.sublist (sublist_entriesFrom _ _)
    · dsimp only
      rw [herased.entries, Nat.min_eq_left hlength, hentries, entriesFrom_append, entriesFrom]
      simp
  · have hkeys : (m₁ ++ (name, Slot.accessor g s a) :: m₂).map Prod.fst =
        (m₁ ++ (name, Slot.data v a₀) :: m₂).map Prod.fst := by simp
    rw [hkeys]
    rw [ObjectObject.erase, hnoted.normalise_eq, hnoted.find_data.1]
    exact hnoted.indexed

theorem defineAccessor_accessor {isUndefined : ν → Bool} {g₀ s₀ : ν} {a₀ : UInt8}
    (h : Represents o (m₁ ++ (name, .accessor g₀ s₀ a₀) :: m₂)) (g s : ν) (a : UInt8) :
    Represents (o.defineAccessor isUndefined name g s a)
      (m₁ ++ (name, .accessor (if isUndefined g then g₀ else g) (if isUndefined s then s₀ else s) a)
        :: m₂) := by
  have hnoted := h.note (arrayIndexKey name).isSome
  have hentries : (entriesFrom 0 (m₁ ++ (name, .accessor g₀ s₀ a₀) :: m₂)).modify
      (entriesFrom 0 m₁).length (fun existing =>
        { existing with
          getter := if isUndefined g then existing.getter else g
          setter := if isUndefined s then existing.setter else s
          attrs := a }) =
        entriesFrom 0 (m₁ ++ (name, .accessor (if isUndefined g then g₀ else g)
          (if isUndefined s then s₀ else s) a) :: m₂) := by
    rw [entriesFrom_append, entriesFrom, modify_middle, entriesFrom_append, entriesFrom]
  rw [ObjectObject.defineAccessor, h.find_accessor.1, hnoted.erase_none h.find_accessor.1]
  dsimp only
  rw [AccessorTable.define, h.find_accessor.2]
  refine ⟨by simpa using h.nodup, by simpa using h.props, by simpa using h.attrs,
    by simpa using h.index, ?_, h.accessors.congr ?_ rfl rfl, by simpa using hnoted.indexed⟩
  · dsimp only
    rw [h.entries, hentries]
  · dsimp only
    rw [h.entries, hentries, entriesFrom_append, entriesFrom_append, entriesFrom, entriesFrom]
    simp

theorem defineAccessor_new {isUndefined : ν → Bool} (h : Represents o m)
    (hname : name ∉ m.map Prod.fst) (g s : ν) (a : UInt8) :
    Represents (o.defineAccessor isUndefined name g s a) (m ++ [(name, .accessor g s a)]) := by
  have hnoted := h.note (arrayIndexKey name).isSome
  have hnot : name ∉ o.accessors.entries.map (·.key) := by
    rw [h.keys_entries]
    exact fun hmem => hname ((sublist_entriesFrom _ _).subset hmem)
  obtain ⟨hfit, hentries⟩ := @AccessorsFit.define_new ν isUndefined _ h.accessors _ hnot g s
    o.props.length a
  rw [ObjectObject.defineAccessor, (h.find_none hname).1, hnoted.erase_none (h.find_none hname).1]
  dsimp only
  refine ⟨nodup_append_new h.nodup hname _, by simpa using h.props, by simpa using h.attrs,
    by simpa using h.index, ?_, hfit, indexed_append h.indexed _⟩
  dsimp only
  rw [hentries, entriesFrom_append, entriesFrom, entriesFrom, h.entries, h.props, Nat.zero_add]

theorem nodup_without {slot : Slot ν} (h : ((m₁ ++ (name, slot) :: m₂).map Prod.fst).Nodup) :
    ((m₁ ++ m₂).map Prod.fst).Nodup := by
  rw [List.map_append, List.map_cons, List.nodup_middle, List.nodup_cons] at h
  simpa using h.2

theorem indexed_without {slot : Slot ν} {indexed : Bool}
    (h : indexed = false → ∀ k ∈ (m₁ ++ (name, slot) :: m₂).map Prod.fst, arrayIndexKey k = none) :
    indexed = false → ∀ k ∈ (m₁ ++ m₂).map Prod.fst, arrayIndexKey k = none := by
  intro hflag k hk
  refine h hflag k ?_
  rw [List.map_append, List.mem_append] at hk
  simp only [List.map_append, List.map_cons, List.mem_append, List.mem_cons]
  tauto

theorem erase_fits {t : AccessorTable ν} {E₁ E₂ : List (AccessorEntry ν)} {entry : AccessorEntry ν}
    (hentries : t.entries = E₁ ++ entry :: E₂) (hnodup : (t.entries.map (·.key)).Nodup) :
    AccessorsFit (t.erase entry.key).1 ∧ (t.erase entry.key).1.entries = E₁ ++ E₂ := by
  have hall := hnodup
  rw [hentries, List.map_append, List.map_cons, List.nodup_middle, List.nodup_cons,
    List.mem_append, not_or] at hall
  have hscan : t.scan entry.key = some E₁.length := by
    rw [AccessorsFit.scan_eq, hentries, List.map_append, List.map_cons,
      idxOf?_append_self hall.1.1, List.length_map]
  have herased : t.entries.eraseIdx E₁.length = E₁ ++ E₂ := by
    rw [hentries, eraseIdx_middle]
  rw [AccessorTable.erase, hscan]
  refine ⟨AccessorsFit.reindex ?_ rfl, herased⟩
  dsimp only
  rw [herased, List.map_append]
  exact hall.2

theorem eraseAccessor_accessor {g s : ν} {a : UInt8}
    (h : Represents o (m₁ ++ (name, .accessor g s a) :: m₂)) :
    Represents (o.eraseAccessor name).1 (m₁ ++ m₂) := by
  have hentries : o.accessors.entries = entriesFrom 0 m₁ ++
      ⟨name, g, s, (Creation.props m₁).length, a⟩ ::
        entriesFrom (Creation.props m₁).length m₂ := by
    rw [h.entries, entriesFrom_append, entriesFrom, Nat.zero_add]
  obtain ⟨hfit, herased⟩ := erase_fits hentries h.accessors.nodup
  rw [ObjectObject.eraseAccessor]
  refine ⟨nodup_without h.nodup, by simpa using h.props, by simpa using h.attrs,
    by simpa using h.index, ?_, hfit, indexed_without h.indexed⟩
  exact herased.trans (by rw [entriesFrom_append, Nat.zero_add])

theorem eraseAccessor_none (h : Represents o m) (hname : o.accessors.find name = none) :
    (o.eraseAccessor name).1 = o := by
  rw [h.accessors.find_eq_scan] at hname
  rw [ObjectObject.eraseAccessor, AccessorTable.erase, hname]

theorem insert_data {g s : ν} {a₀ : UInt8} (h : Represents o (m₁ ++ (name, .accessor g s a₀) :: m₂))
    (v : ν) {t : AccessorTable ν} (hfit : AccessorsFit t)
    (hentries : t.entries = entriesFrom 0 (m₁ ++ (name, .data v attrDefault) :: m₂)) :
    Represents
      { o with
        props := o.props.insertIdx (Creation.props m₁).length (name, v)
        attrs := if o.attrs.isEmpty then []
          else o.attrs.insertIdx (Creation.props m₁).length attrDefault
        accessors := t
        index := FlatMap.ofKeys
          ((o.props.insertIdx (Creation.props m₁).length (name, v)).map Prod.fst) }
      (m₁ ++ (name, .data v attrDefault) :: m₂) := by
  have hnodup : ((m₁ ++ (name, Slot.data v attrDefault) :: m₂).map Prod.fst).Nodup := by
    simpa using h.nodup
  have hprops : o.props.insertIdx (Creation.props m₁).length (name, v) =
      Creation.props (m₁ ++ (name, .data v attrDefault) :: m₂) := by
    rw [h.props, props_append, props_accessor, insertIdx_middle, props_append, props_data]
  have hattrs := h.attrs.insertIdx (i := (Creation.props m₁).length) (by simp)
  rw [dataAttrs_append, dataAttrs_accessor, ← length_dataAttrs m₁, insertIdx_middle,
    ← dataAttrs_data name v, ← dataAttrs_append, length_dataAttrs] at hattrs
  refine ⟨hnodup, hprops, hattrs, ?_, hentries, hfit, by simpa using h.indexed⟩
  dsimp only
  rw [hprops]
  exact indexes_ofKeys (hnodup.sublist (sublist_props _))

/-- A data property takes the place of an accessor. -/
theorem defineOverAccessor_accessor {g s : ν} {a₀ : UInt8}
    (h : Represents o (m₁ ++ (name, .accessor g s a₀) :: m₂)) (v : ν) (a : UInt8) :
    Represents (o.defineOverAccessor name v a) (m₁ ++ (name, .data v a) :: m₂) := by
  have hentries : o.accessors.entries = entriesFrom 0 m₁ ++
      ⟨name, g, s, (Creation.props m₁).length, a₀⟩ ::
        entriesFrom (Creation.props m₁).length m₂ := by
    rw [h.entries, entriesFrom_append, entriesFrom, Nat.zero_add]
  have hplace : min ((o.accessors.entries[(entriesFrom 0 m₁).length]?.map (·.after)).getD 0)
      o.props.length = (Creation.props m₁).length := by
    rw [hentries, List.getElem?_append_right le_rfl, Nat.sub_self, h.props, props_append]
    simp
  have hbumped : (o.accessors.entries.mapIdx fun i other =>
      if other.after > (Creation.props m₁).length ∨
        other.after = (Creation.props m₁).length ∧ i > (entriesFrom 0 m₁).length then
        { other with after := other.after + 1 }
      else other) = entriesFrom 0 m₁ ++ ⟨name, g, s, (Creation.props m₁).length, a₀⟩ ::
        entriesFrom ((Creation.props m₁).length + 1) m₂ := by
    rw [hentries]
    exact mapIdx_bump _ _ _ rfl
  have hkeys : (entriesFrom 0 m₁ ++ ⟨name, g, s, (Creation.props m₁).length, a₀⟩ ::
      entriesFrom ((Creation.props m₁).length + 1) m₂).map (·.key) =
        o.accessors.entries.map (·.key) := by
    rw [hentries, entriesFrom_succ]
    simp
  obtain ⟨hfit, herased⟩ := erase_fits
    (t := ⟨_, o.accessors.index, o.accessors.any⟩) rfl (hkeys ▸ h.accessors.nodup)
  have hmid := h.insert_data v hfit (by
    rw [herased, entriesFrom_append, entriesFrom, Nat.zero_add])
  have hset := hmid.setAttrs a
  rw [ObjectObject.setAttrs, hmid.find_data.1] at hset
  rw [ObjectObject.defineOverAccessor, h.find_accessor.2, h.normalise_eq]
  dsimp only
  rw [hplace, hbumped]
  exact hset

/-! ### One operation -/

theorem data_or_new (h : Represents o m) (hname : o.accessors.find name = none) :
    (∃ m₁ v a m₂, m = m₁ ++ (name, .data v a) :: m₂) ∨ name ∉ m.map Prod.fst := by
  by_cases hmem : name ∈ m.map Prod.fst
  · obtain ⟨m₁, slot, m₂, rfl⟩ := exists_eq_append hmem
    cases slot with
    | data v a => exact .inl ⟨m₁, v, a, m₂, rfl⟩
    | accessor g s a => simp [h.find_accessor.2] at hname
  · exact .inr hmem

/-- Every operation on the tables is the operation on the list, a set or define of an accessor's
name apart. -/
theorem apply (isUndefined : ν → Bool) (h : Represents o m) {op : Op ν} (hop : NoAccessor o op) :
    Represents (o.apply isUndefined op) (m.apply isUndefined op) := by
  cases op with
  | set name v =>
    rw [ObjectObject.apply, Creation.apply]
    rcases h.data_or_new hop with ⟨m₁, v₀, a, m₂, rfl⟩ | hname
    · rw [put_eq h.nodup]
      exact h.set_data v
    · rw [put_new hname]
      exact h.set_new hname v
  | define name v a =>
    rw [ObjectObject.apply, Creation.apply, ObjectObject.define]
    rcases h.data_or_new hop with ⟨m₁, v₀, a₀, m₂, rfl⟩ | hname
    · rw [put_eq h.nodup]
      exact (h.set_data v).setAttrs a
    · rw [put_new hname]
      exact (h.set_new hname v).setAttrs a
  | defineAccessor name g s a =>
    rw [ObjectObject.apply, Creation.apply]
    by_cases hname : name ∈ m.map Prod.fst
    · obtain ⟨m₁, slot, m₂, rfl⟩ := exists_eq_append hname
      rw [put_eq h.nodup]
      cases slot with
      | data v a₀ => exact h.defineAccessor_data g s a
      | accessor g₀ s₀ a₀ => exact h.defineAccessor_accessor g s a
    · rw [put_new hname]
      exact h.defineAccessor_new hname g s a
  | defineOverAccessor name v a =>
    rw [ObjectObject.apply, Creation.apply]
    by_cases hname : o.accessors.find name = none
    · rw [ObjectObject.defineOverAccessor, hname]
      dsimp only
      rw [ObjectObject.define]
      rcases h.data_or_new hname with ⟨m₁, v₀, a₀, m₂, rfl⟩ | hname
      · rw [put_eq h.nodup]
        exact (h.set_data v).setAttrs a
      · rw [put_new hname]
        exact (h.set_new hname v).setAttrs a
    · have hmem : name ∈ m.map Prod.fst := by
        by_contra hnot
        exact hname (h.find_none hnot).2
      obtain ⟨m₁, slot, m₂, rfl⟩ := exists_eq_append hmem
      cases slot with
      | data v₀ a₀ => exact absurd h.find_data.2 hname
      | accessor g s a₀ =>
        rw [put_eq h.nodup]
        exact h.defineOverAccessor_accessor v a
  | erase name =>
    rw [ObjectObject.apply, Creation.apply]
    by_cases hname : name ∈ m.map Prod.fst
    · obtain ⟨m₁, slot, m₂, rfl⟩ := exists_eq_append hname
      rw [remove_eq h.nodup]
      cases slot with
      | data v a => exact h.erase_data
      | accessor g s a =>
        rw [h.erase_none h.find_accessor.1]
        exact h
    · rw [remove_of_notMem hname, h.erase_none (h.find_none hname).1]
      exact h
  | eraseAccessor name =>
    rw [ObjectObject.apply, Creation.apply]
    by_cases hname : name ∈ m.map Prod.fst
    · obtain ⟨m₁, slot, m₂, rfl⟩ := exists_eq_append hname
      rw [remove_eq h.nodup]
      cases slot with
      | data v a =>
        rw [h.eraseAccessor_none h.find_data.2]
        exact h
      | accessor g s a => exact h.eraseAccessor_accessor
    · rw [remove_of_notMem hname, h.eraseAccessor_none (h.find_none hname).2]
      exact h

end Represents

end CtBrowser.Script.Objects
