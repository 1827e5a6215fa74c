import CtBrowser.Foundations.Transition

/-!
# Slabs

Storage addressed by handles. A slot keeps a generation, which is odd while an object lives there and
grows whenever one comes or goes; a handle is a slot with the generation it had then. The vacant slots
are threaded into a list through themselves. Both numbers have 32 bits.

A run of a slab keeps a log of what it was asked, from which the abstract store is read: the objects
that were put in and not erased since, under their handles.

## Main definitions

- `Slab.insert`, `Slab.erase`, `Slab.get` — the operations.
- `present` — the abstract store of a log.
- `Lawful` — the slab is the store.

## Main results

- `lawful_of_reachable` — it is in every run in which no counter comes round.
-/

namespace CtBrowser

open Foundations (TransitionSystem)

/-- A reference into a slab; generation 0 is null. -/
structure Handle where
  slot : UInt32
  generation : UInt32
deriving DecidableEq, Repr

namespace Slab

/-- A slot. The list of vacant slots goes through `nextFree`, which is one more than a slot, and 0 at
its end. -/
structure Entry (α : Type) where
  generation : UInt32
  nextFree : UInt32
  -- the object that lives there
  storage : Option α
deriving DecidableEq, Repr

end Slab

open Slab (Entry)

structure Slab (α : Type) where
  slots : List (Entry α)
  -- one more than the first vacant slot, 0 when there is none
  freeHead : UInt32
  live : ℕ
deriving DecidableEq, Repr

namespace Slab

variable {α : Type}

/-! ## The operations -/

def new : Slab α := ⟨[], 0, 0⟩

/-- The slot that a handle is for, unless the handle is null or stale. -/
def find (s : Slab α) (h : Handle) : Option (Entry α) :=
  if h.generation = 0 then none else s.slots[h.slot.toNat]?.filter (·.generation = h.generation)

/-- The storage that a handle refers to. -/
def get (s : Slab α) (h : Handle) : Option (Option α) := (s.find h).map Entry.storage

/-- How the construction of an object ends. -/
inductive Construction (α : Type)
  -- no slot could be added
  | noSlot
  | throws
  | made (v : α)

/-- A vacant slot is taken out of the list, or a new one is added. -/
def takeSlot (s : Slab α) : UInt32 × Slab α :=
  if s.freeHead ≠ 0 then
    (s.freeHead - 1, { s with freeHead := (s.slots[(s.freeHead - 1).toNat]?.map Entry.nextFree).getD 0 })
  else (.ofNat s.slots.length, { s with slots := s.slots ++ [⟨0, 0, none⟩] })

/-- A slot goes back to the front of the list. -/
def release (s : Slab α) (slot : UInt32) : Slab α :=
  { s with
    slots := s.slots.modify slot.toNat fun e => { e with nextFree := s.freeHead }
    freeHead := slot + 1 }

/-- An object is put into a slot. -/
def occupy (s : Slab α) (slot : UInt32) (v : α) : Slab α :=
  { s with
    slots := s.slots.modify slot.toNat fun e => { e with generation := e.generation + 1, storage := some v }
    live := s.live + 1 }

/-- The generation of a slot. -/
def generationOf (s : Slab α) (slot : UInt32) : UInt32 := (s.slots[slot.toNat]?.map Entry.generation).getD 0

/-- An object is constructed in a slot; the handle is missing when that fails. -/
def insert (s : Slab α) (c : Construction α) : Slab α × Option Handle :=
  let (slot, taken) := s.takeSlot
  match c with
  | .made v =>
    let s' := taken.occupy slot v
    (s', some ⟨slot, s'.generationOf slot⟩)
  | .throws => (taken.release slot, none)
  -- adding a slot is the only thing that can fail before the constructor
  | .noSlot => (if s.freeHead ≠ 0 then taken.release slot else s, none)

/-- The object of a slot is destroyed. -/
def vacate (s : Slab α) (h : Handle) : Slab α :=
  { s with
    slots := s.slots.modify h.slot.toNat fun e => { e with generation := h.generation + 1, storage := none }
    live := s.live - 1 }

/-- The object that a handle refers to is destroyed and its slot released. -/
def erase (s : Slab α) (h : Handle) : Slab α := if (s.find h).isSome then (s.vacate h).release h.slot else s

/-! ## Runs and their logs -/

/-- What a slab was asked, as far as it matters to what it holds. -/
inductive Event (α : Type)
  | inserted (h : Handle) (v : α)
  | erased (h : Handle)

/-- The handles that were returned, the last one first. -/
def issued : List (Event α) → List Handle
  | [] => []
  | .inserted h _ :: log => h :: issued log
  | .erased _ :: log => issued log

/-- The objects that were put in and not erased since, with their handles. -/
def present : List (Event α) → List (Handle × α)
  | [] => []
  | .inserted h v :: log => (h, v) :: present log
  | .erased h :: log => (present log).filter fun p => p.1 ≠ h

/-- A slab and the log of what it was asked, the last first. -/
structure Run (α : Type) where
  slab : Slab α
  log : List (Event α)

/-- A call. -/
inductive Op (α : Type)
  | insert (c : Construction α)
  | erase (h : Handle)
  | get (h : Handle)

/-- What an insertion adds to the log. -/
def insertEvents (c : Construction α) (h : Option Handle) : List (Event α) :=
  match c, h with
  | .made v, some h => [.inserted h v]
  | _, _ => []

def Run.perform (r : Run α) : Op α → Run α
  | .insert c => ⟨(r.slab.insert c).1, insertEvents c (r.slab.insert c).2 ++ r.log⟩
  | .erase h => ⟨r.slab.erase h, .erased h :: r.log⟩
  | .get _ => r

/-- The runs of a slab that starts empty. -/
def runs (α : Type) : TransitionSystem (Run α) (Op α) where
  initial r := r = ⟨new, []⟩
  step r op r' := r' = r.perform op

/-! ## The law -/

/-- The generation of a live slot is odd. -/
def isLive (generation : UInt32) : Prop := generation.toNat % 2 = 1

instance (generation : UInt32) : Decidable (isLive generation) := inferInstanceAs (Decidable (_ = _))

/-- A handle that is null or has the generation of a live slot. -/
def Proper (h : Handle) : Prop := h.generation = 0 ∨ isLive h.generation

/-- The slots that are listed from a head on. -/
def Lists (slots : List (Entry α)) : UInt32 → List ℕ → Prop
  | head, [] => head = 0
  | head, i :: l => head.toNat = i + 1 ∧ ∃ e, slots[i]? = some e ∧ Lists slots e.nextFree l

/-- The slots without an object. -/
def Vacant (s : Slab α) (i : ℕ) : Prop := ∃ e, s.slots[i]? = some e ∧ e.storage = none

/-- The slab is the store of its log: a handle finds an object exactly when it was returned for it and
not erased since, no handle is returned twice, the vacant slots are listed, each once, and the size is
the number of objects. -/
structure Lawful (r : Run α) : Prop where
  found : ∀ h v, r.slab.get h = some (some v) ↔ (h, v) ∈ present r.log
  missing : ∀ h, Proper h → (r.slab.get h = none ↔ ∀ v, (h, v) ∉ present r.log)
  fresh : (issued r.log).Nodup
  free : ∃ l, Lists r.slab.slots r.slab.freeHead l ∧ l.Nodup ∧ ∀ i, i ∈ l ↔ r.slab.Vacant i
  size : r.slab.live = (present r.log).length

/-- No counter comes round, and no handle is made up: a slot is only added, and released, while its
number fits, and what a handle of an erased object finds has an odd generation that is not the last. -/
def Fits (r : Run α) : Op α → Prop
  | .insert (.made _) => r.slab.freeHead = 0 → r.slab.slots.length < 2 ^ 32
  | .insert .throws => r.slab.freeHead = 0 → r.slab.slots.length + 1 < 2 ^ 32
  | .erase h => (r.slab.find h).isSome →
      isLive h.generation ∧ h.generation.toNat + 1 < 2 ^ 32 ∧ h.slot.toNat + 1 < 2 ^ 32
  | _ => True

instance (r : Run α) : ∀ op, Decidable (Fits r op)
  | .insert (.made _) => inferInstanceAs (Decidable (_ → _))
  | .insert .throws => inferInstanceAs (Decidable (_ → _))
  | .insert .noSlot => inferInstanceAs (Decidable True)
  | .erase _ => inferInstanceAs (Decidable (_ → _))
  | .get _ => inferInstanceAs (Decidable True)

/-! ## The invariant -/

variable {s : Slab α} {log : List (Event α)} {hole : Option ℕ} {h : Handle} {slot : UInt32} {v : α}

theorem Lists.congr {slots slots' : List (Entry α)} {head : UInt32} {l : List ℕ} (h : Lists slots head l)
    (hsame : ∀ i ∈ l, slots'[i]? = slots[i]?) : Lists slots' head l := by
  induction l generalizing head with
  | nil => exact h
  | cons i l ih =>
    obtain ⟨hhead, e, he, hrest⟩ := h
    exact ⟨hhead, e, (hsame i (by simp)).trans he, ih hrest fun j hj => hsame j (by simp [hj])⟩

/-- What a slab keeps to, one slot apart that is neither listed nor live. -/
structure Holds (s : Slab α) (log : List (Event α)) (hole : Option ℕ) : Prop where
  few : s.slots.length ≤ 2 ^ 32
  parity : ∀ (i : ℕ) e, s.slots[i]? = some e → (e.storage.isSome ↔ isLive e.generation)
  bounded : ∀ h ∈ issued log, isLive h.generation ∧
    ∃ e, s.slots[h.slot.toNat]? = some e ∧ h.generation.toNat ≤ e.generation.toNat
  fresh : (issued log).Nodup
  store : ∀ h v, (h, v) ∈ present log ↔
    ∃ e, s.slots[h.slot.toNat]? = some e ∧ e.generation = h.generation ∧ e.storage = some v
  free : ∃ l, Lists s.slots s.freeHead l ∧ l.Nodup ∧ ∀ i, i ∈ l ↔ s.Vacant i ∧ some i ≠ hole
  size : s.live = (present log).length

theorem holds_new : Holds (new : Slab α) [] none where
  few := by simp [new]
  parity := by simp [new]
  bounded := by simp [issued]
  fresh := List.nodup_nil
  store := by simp [present, new]
  free := ⟨[], rfl, List.nodup_nil, by simp [Vacant, new]⟩
  size := rfl

theorem Holds.not_live (hs : Holds s log hole) {i : ℕ} {e : Entry α} (he : s.slots[i]? = some e)
    (hnone : e.storage = none) : ¬ isLive e.generation := by
  intro hlive
  have hsome := (hs.parity i e he).mpr hlive
  simp [hnone] at hsome

/-- A slot is taken out of the list, or added. -/
theorem Holds.takeSlot (hs : Holds s log none) (hfew : s.freeHead = 0 → s.slots.length < 2 ^ 32) :
    Holds s.takeSlot.2 log (some s.takeSlot.1.toNat) ∧ s.takeSlot.2.Vacant s.takeSlot.1.toNat := by
  obtain ⟨l, hl, hnodup, hfree⟩ := hs.free
  simp only [ne_eq, reduceCtorEq, not_false_eq_true, and_true] at hfree
  by_cases hhead : s.freeHead = 0
  · -- no slot is vacant, so one is added
    have hnil : l = [] := by
      rcases l with _ | ⟨i, l⟩
      · rfl
      · obtain ⟨hi, -⟩ := hl
        simp [hhead] at hi
    subst hnil
    have hlen : (UInt32.ofNat s.slots.length).toNat = s.slots.length := by
      rw [UInt32.toNat_ofNat']
      exact Nat.mod_eq_of_lt (hfew hhead)
    have hold {i : ℕ} {e : Entry α} (he : s.slots[i]? = some e) : (s.slots ++ [⟨0, 0, none⟩])[i]? = some e := by
      rw [List.getElem?_append_left (List.getElem?_eq_some_iff.mp he).1, he]
    have hcases {i : ℕ} {e : Entry α} (he : (s.slots ++ [⟨0, 0, none⟩])[i]? = some e) :
        s.slots[i]? = some e ∨ i = s.slots.length ∧ e = ⟨0, 0, none⟩ := by
      rcases lt_trichotomy i s.slots.length with hlt | rfl | hgt
      · rw [List.getElem?_append_left hlt] at he
        exact .inl he
      · refine .inr ⟨rfl, ?_⟩
        simpa using he.symm
      · rw [List.getElem?_eq_none (by simp; omega)] at he
        cases he
    have htake : s.takeSlot = (.ofNat s.slots.length, { s with slots := s.slots ++ [⟨0, 0, none⟩] }) :=
      if_neg (not_not_intro hhead)
    rw [htake]
    refine ⟨⟨?_, ?_, ?_, hs.fresh, ?_, ⟨[], hl, hnodup, fun i => ?_⟩, hs.size⟩, ⟨⟨0, 0, none⟩, by simp [hlen], rfl⟩⟩
    · have := hfew hhead
      simp only [List.length_append, List.length_singleton]
      omega
    · intro i e he
      rcases hcases he with he | ⟨-, rfl⟩
      · exact hs.parity i e he
      · simp [isLive]
    · intro h hh
      obtain ⟨hlive, e, he, hle⟩ := hs.bounded h hh
      exact ⟨hlive, e, hold he, hle⟩
    · intro h v
      rw [hs.store]
      constructor
      · rintro ⟨e, he, hrest⟩
        exact ⟨e, hold he, hrest⟩
      · rintro ⟨e, he, hgen, hstorage⟩
        rcases hcases he with he | ⟨-, rfl⟩
        · exact ⟨e, he, hgen, hstorage⟩
        · cases hstorage
    · simp only [List.not_mem_nil, false_iff, not_and, not_not, hlen]
      rintro ⟨e, he, hnone⟩
      rcases hcases he with he | ⟨rfl, -⟩
      · exact absurd ((hfree i).mpr ⟨e, he, hnone⟩) (by simp)
      · rfl
  · rcases l with _ | ⟨i, l⟩
    · exact absurd hl hhead
    obtain ⟨hi, e, he, hrest⟩ := hl
    have hslot : (s.freeHead - 1).toNat = i := by
      have hle : (1 : UInt32) ≤ s.freeHead := by
        rw [UInt32.le_iff_toNat_le, hi]
        simp
      rw [UInt32.toNat_sub_of_le _ _ hle, hi]
      simp
    have htake : s.takeSlot = (s.freeHead - 1, { s with freeHead := e.nextFree }) := by
      rw [Slab.takeSlot, if_pos hhead, hslot, he]
      rfl
    obtain ⟨hnotMem, hnodup⟩ := List.nodup_cons.mp hnodup
    rw [htake]
    refine ⟨⟨hs.few, hs.parity, hs.bounded, hs.fresh, hs.store, ⟨l, hrest, hnodup, fun j => ?_⟩, hs.size⟩, ?_⟩
    · have hj := hfree j
      rw [List.mem_cons] at hj
      constructor
      · intro hmem
        refine ⟨hj.mp (.inr hmem), fun heq => ?_⟩
        rw [Option.some_inj, hslot] at heq
        exact hnotMem (heq ▸ hmem)
      · rintro ⟨hvacant, hne⟩
        rw [ne_eq, Option.some_inj, hslot] at hne
        exact (hj.mpr hvacant).resolve_left hne
    · have hvacant := (hfree i).mp (by simp)
      rwa [hslot]

theorem getElem?_changed {slots : List (Entry α)} {i j : ℕ} {f : Entry α → Entry α} {e : Entry α} :
    (slots.modify i f)[j]? = some e ↔ (if i = j then ∃ old, slots[j]? = some old ∧ f old = e else slots[j]? = some e) := by
  rw [List.getElem?_modify]
  split_ifs with hij
  · simp [hij]
  · simp [hij]

/-- The slot goes back to the list. -/
theorem Holds.release (hs : Holds s log (some slot.toNat)) (hvacant : s.Vacant slot.toNat)
    (hfits : slot.toNat + 1 < 2 ^ 32) : Holds (s.release slot) log none := by
  obtain ⟨e₀, he₀, hnone₀⟩ := hvacant
  obtain ⟨l, hl, hnodup, hfree⟩ := hs.free
  have hnotMem : slot.toNat ∉ l := fun hmem => ((hfree _).mp hmem).2 rfl
  -- an entry of the new slots is an old one, apart from its link
  have hback {i : ℕ} {e : Entry α} (he : (s.release slot).slots[i]? = some e) :
      ∃ old, s.slots[i]? = some old ∧ old.generation = e.generation ∧ old.storage = e.storage := by
    rw [Slab.release, getElem?_changed] at he
    split_ifs at he with hij
    · obtain ⟨old, hold, rfl⟩ := he
      exact ⟨old, hold, rfl, rfl⟩
    · exact ⟨e, he, rfl, rfl⟩
  have hforth {i : ℕ} {e : Entry α} (he : s.slots[i]? = some e) :
      ∃ e', (s.release slot).slots[i]? = some e' ∧ e'.generation = e.generation ∧ e'.storage = e.storage := by
    by_cases hij : slot.toNat = i
    · refine ⟨{ e with nextFree := s.freeHead }, ?_, rfl, rfl⟩
      rw [Slab.release, getElem?_changed, if_pos hij]
      exact ⟨e, he, rfl⟩
    · refine ⟨e, ?_, rfl, rfl⟩
      rwa [Slab.release, getElem?_changed, if_neg hij]
  refine ⟨?_, ?_, ?_, hs.fresh, ?_, ⟨slot.toNat :: l, ?_, List.nodup_cons.mpr ⟨hnotMem, hnodup⟩, fun i => ?_⟩, hs.size⟩
  · simpa [Slab.release] using hs.few
  · intro i e he
    obtain ⟨old, hold, hgen, hstorage⟩ := hback he
    rw [← hgen, ← hstorage]
    exact hs.parity i old hold
  · intro h hh
    obtain ⟨hlive, e, he, hle⟩ := hs.bounded h hh
    obtain ⟨e', he', hgen, -⟩ := hforth he
    exact ⟨hlive, e', he', hgen ▸ hle⟩
  · intro h v
    rw [hs.store]
    constructor
    · rintro ⟨e, he, hgen, hstorage⟩
      obtain ⟨e', he', hgen', hstorage'⟩ := hforth he
      exact ⟨e', he', hgen'.trans hgen, hstorage'.trans hstorage⟩
    · rintro ⟨e, he, hgen, hstorage⟩
      obtain ⟨old, hold, hgen', hstorage'⟩ := hback he
      exact ⟨old, hold, hgen'.trans hgen, hstorage'.trans hstorage⟩
  · have hhead : (slot + 1).toNat = slot.toNat + 1 := by
      rw [UInt32.toNat_add]
      exact Nat.mod_eq_of_lt hfits
    refine ⟨hhead, { e₀ with nextFree := s.freeHead }, ?_, hl.congr fun i hi => ?_⟩
    · rw [Slab.release, getElem?_changed, if_pos rfl]
      exact ⟨e₀, he₀, rfl⟩
    · have hne : slot.toNat ≠ i := fun heq => hnotMem (heq ▸ hi)
      simp [Slab.release, hne]
  · have hsame : (s.release slot).Vacant i ↔ s.Vacant i := by
      constructor
      · rintro ⟨e, he, hnone⟩
        obtain ⟨old, hold, -, hstorage⟩ := hback he
        exact ⟨old, hold, hstorage.trans hnone⟩
      · rintro ⟨e, he, hnone⟩
        obtain ⟨e', he', -, hstorage⟩ := hforth he
        exact ⟨e', he', hstorage.trans hnone⟩
    rw [List.mem_cons, hfree, hsame]
    by_cases hi : i = slot.toNat
    · subst hi
      simpa using ⟨e₀, he₀, hnone₀⟩
    · simp [hi]

/-- An object comes into the slot. -/
theorem Holds.occupy (hs : Holds s log (some slot.toNat)) (hvacant : s.Vacant slot.toNat) (v : α) :
    Holds (s.occupy slot v) (.inserted ⟨slot, (s.occupy slot v).generationOf slot⟩ v :: log) none := by
  obtain ⟨e₀, he₀, hnone₀⟩ := hvacant
  have heven := hs.not_live he₀ hnone₀
  rw [isLive] at heven
  have hnext : (e₀.generation + 1).toNat = e₀.generation.toNat + 1 := by
    have hlt := e₀.generation.toNat_lt
    rw [UInt32.toNat_add]
    exact Nat.mod_eq_of_lt (by simp at heven ⊢; omega)
  have hlive : isLive (e₀.generation + 1) := by
    rw [isLive, hnext]
    omega
  have hslot : (s.occupy slot v).slots[slot.toNat]? = some { e₀ with generation := e₀.generation + 1, storage := some v } := by
    rw [Slab.occupy, getElem?_changed, if_pos rfl]
    exact ⟨e₀, he₀, rfl⟩
  have hother {i : ℕ} (hne : i ≠ slot.toNat) : (s.occupy slot v).slots[i]? = s.slots[i]? := by
    simp [Slab.occupy, hne.symm]
  have hgen : (s.occupy slot v).generationOf slot = e₀.generation + 1 := by
    rw [generationOf, hslot]
    rfl
  rw [hgen]
  obtain ⟨l, hl, hnodup, hfree⟩ := hs.free
  refine ⟨?_, ?_, ?_, ?_, ?_, ⟨l, ?_, hnodup, fun i => ?_⟩, ?_⟩
  · simpa [Slab.occupy] using hs.few
  · intro i e he
    by_cases hi : i = slot.toNat
    · subst hi
      rw [hslot, Option.some_inj] at he
      subst he
      simpa using hlive
    · rw [hother hi] at he
      exact hs.parity i e he
  · intro h hh
    rcases List.mem_cons.mp hh with rfl | hh
    · exact ⟨hlive, _, hslot, le_rfl⟩
    · obtain ⟨hodd, e, he, hle⟩ := hs.bounded h hh
      refine ⟨hodd, ?_⟩
      by_cases hi : h.slot.toNat = slot.toNat
      · rw [hi] at he ⊢
        obtain rfl : e₀ = e := Option.some_inj.mp (he₀.symm.trans he)
        exact ⟨_, hslot, hle.trans (by simp only [hnext]; omega)⟩
      · exact ⟨e, (hother hi).trans he, hle⟩
  · -- the generations of the slot so far were smaller
    refine List.nodup_cons.mpr ⟨fun hmem => ?_, hs.fresh⟩
    obtain ⟨-, e, he, hle⟩ := hs.bounded _ hmem
    obtain rfl : e₀ = e := Option.some_inj.mp (he₀.symm.trans he)
    simp only [hnext] at hle
    omega
  · intro h w
    rw [present, List.mem_cons, hs.store]
    constructor
    · rintro (heq | ⟨e, he, hgen, hstorage⟩)
      · obtain ⟨rfl, rfl⟩ := Prod.mk.inj heq
        exact ⟨_, hslot, rfl, rfl⟩
      · have hi : h.slot.toNat ≠ slot.toNat := by
          intro hi
          rw [hi, he₀, Option.some_inj] at he
          rw [← he, hnone₀] at hstorage
          cases hstorage
        exact ⟨e, (hother hi).trans he, hgen, hstorage⟩
    · rintro ⟨e, he, hgen, hstorage⟩
      by_cases hi : h.slot.toNat = slot.toNat
      · rw [hi, hslot, Option.some_inj] at he
        subst he
        have hh : h = ⟨slot, e₀.generation + 1⟩ := by
          rcases h with ⟨hslot, hgeneration⟩
          simp only [Handle.mk.injEq]
          exact ⟨UInt32.toNat_inj.mp hi, hgen.symm⟩
        exact .inl (by rw [hh, Option.some_inj.mp hstorage])
      · exact .inr ⟨e, (hother hi).symm.trans he, hgen, hstorage⟩
  · refine hl.congr fun i hi => hother fun heq => ?_
    exact ((hfree i).mp hi).2 (congrArg some heq)
  · rw [hfree]
    by_cases hi : i = slot.toNat
    · subst hi
      simp [Vacant, hslot]
    · simp [Vacant, hother hi, hi]
  · simp [Slab.occupy, present, hs.size]

theorem find_eq_some {e : Entry α} (h' : s.find h = some e) :
    h.generation ≠ 0 ∧ s.slots[h.slot.toNat]? = some e ∧ e.generation = h.generation := by
  rw [find] at h'
  split_ifs at h' with hzero
  obtain ⟨he, hgen⟩ := Option.filter_eq_some_iff.mp h'
  exact ⟨hzero, he, by simpa using hgen⟩

theorem find_of_slot {e : Entry α} (hzero : h.generation ≠ 0) (he : s.slots[h.slot.toNat]? = some e)
    (hgen : e.generation = h.generation) : s.find h = some e := by
  rw [find, if_neg hzero, he]
  simp [hgen]

theorem isLive_ne_zero {generation : UInt32} (h : isLive generation) : generation ≠ 0 := by
  rintro rfl
  simp [isLive] at h

theorem present_sublist (log : List (Event α)) : ((present log).map Prod.fst).Sublist (issued log) := by
  induction log with
  | nil => exact List.Sublist.slnil
  | cons event log ih =>
    cases event with
    | inserted h v => exact ih.cons₂ h
    | erased h => exact (List.filter_sublist.map Prod.fst).trans ih

theorem length_filter_ne (hfresh : (issued log).Nodup) (hmem : (h, v) ∈ present log) :
    ((present log).filter fun p => p.1 ≠ h).length = (present log).length - 1 := by
  obtain ⟨front, back, hsplit⟩ := List.append_of_mem hmem
  have hnodup := (present_sublist log).nodup hfresh
  rw [hsplit, List.map_append, List.map_cons] at hnodup
  obtain ⟨-, hback, hdisjoint⟩ := List.nodup_append.mp hnodup
  have hfront (p : Handle × α) (hp : p ∈ front) : p.1 ≠ h :=
    hdisjoint _ (List.mem_map_of_mem hp) h (List.mem_cons_self ..)
  have hrest (p : Handle × α) (hp : p ∈ back) : p.1 ≠ h := by
    intro heq
    have hmap := List.mem_map_of_mem (f := Prod.fst) hp
    rw [heq] at hmap
    exact (List.nodup_cons.mp hback).1 hmap
  rw [hsplit, List.filter_append, List.filter_cons_of_neg (by simp),
    List.filter_eq_self.mpr fun p hp => by simpa using hfront p hp,
    List.filter_eq_self.mpr fun p hp => by simpa using hrest p hp]
  simp

/-- An object leaves its slot. -/
theorem Holds.vacate (hs : Holds s log none) (hfind : (s.find h).isSome) (hlive : isLive h.generation)
    (hfits : h.generation.toNat + 1 < 2 ^ 32) :
    Holds (s.vacate h) (.erased h :: log) (some h.slot.toNat) ∧ (s.vacate h).Vacant h.slot.toNat := by
  obtain ⟨e₀, hfind⟩ := Option.isSome_iff_exists.mp hfind
  obtain ⟨-, he₀, hgen₀⟩ := find_eq_some hfind
  obtain ⟨v, hv⟩ := Option.isSome_iff_exists.mp ((hs.parity _ e₀ he₀).mpr (hgen₀ ▸ hlive))
  have hnext : (h.generation + 1).toNat = h.generation.toNat + 1 := by
    rw [UInt32.toNat_add]
    exact Nat.mod_eq_of_lt hfits
  have hslot : (s.vacate h).slots[h.slot.toNat]? = some { e₀ with generation := h.generation + 1, storage := none } := by
    rw [Slab.vacate, getElem?_changed, if_pos rfl]
    exact ⟨e₀, he₀, rfl⟩
  have hother {i : ℕ} (hne : i ≠ h.slot.toNat) : (s.vacate h).slots[i]? = s.slots[i]? := by
    simp [Slab.vacate, hne.symm]
  obtain ⟨l, hl, hnodup, hfree⟩ := hs.free
  simp only [ne_eq, reduceCtorEq, not_false_eq_true, and_true] at hfree
  -- the slot was not listed
  have hnotMem : h.slot.toNat ∉ l := by
    intro hmem
    obtain ⟨e, he, hnone⟩ := (hfree _).mp hmem
    rw [he₀, Option.some_inj] at he
    rw [← he, hv] at hnone
    cases hnone
  refine ⟨⟨?_, ?_, ?_, hs.fresh, ?_, ⟨l, ?_, hnodup, fun i => ?_⟩, ?_⟩, ⟨_, hslot, rfl⟩⟩
  · simpa [Slab.vacate] using hs.few
  · intro i e he
    by_cases hi : i = h.slot.toNat
    · subst hi
      rw [hslot, Option.some_inj] at he
      subst he
      rw [isLive] at hlive
      simp only [Option.isSome_none, Bool.false_eq_true, isLive, hnext, false_iff]
      omega
    · rw [hother hi] at he
      exact hs.parity i e he
  · intro h' hh'
    obtain ⟨hodd, e, he, hle⟩ := hs.bounded h' hh'
    refine ⟨hodd, ?_⟩
    by_cases hi : h'.slot.toNat = h.slot.toNat
    · rw [hi] at he ⊢
      obtain rfl : e₀ = e := Option.some_inj.mp (he₀.symm.trans he)
      rw [hgen₀] at hle
      exact ⟨_, hslot, hle.trans (by simp only [hnext]; omega)⟩
    · exact ⟨e, (hother hi).trans he, hle⟩
  · intro h' w
    rw [present, List.mem_filter, hs.store, decide_eq_true_eq]
    constructor
    · rintro ⟨⟨e, he, hgen, hstorage⟩, hne⟩
      have hi : h'.slot.toNat ≠ h.slot.toNat := by
        intro hi
        rw [hi] at he
        obtain rfl : e₀ = e := Option.some_inj.mp (he₀.symm.trans he)
        refine hne ?_
        rcases h with ⟨slot, generation⟩
        rcases h' with ⟨slot', generation'⟩
        simp only [Handle.mk.injEq]
        exact ⟨UInt32.toNat_inj.mp hi, hgen.symm.trans hgen₀⟩
      exact ⟨e, (hother hi).trans he, hgen, hstorage⟩
    · rintro ⟨e, he, hgen, hstorage⟩
      by_cases hi : h'.slot.toNat = h.slot.toNat
      · rw [hi, hslot, Option.some_inj] at he
        subst he
        cases hstorage
      · refine ⟨⟨e, (hother hi).symm.trans he, hgen, hstorage⟩, ?_⟩
        rintro rfl
        exact hi rfl
  · refine hl.congr fun i hi => hother fun heq => ?_
    exact hnotMem (heq ▸ hi)
  · rw [hfree]
    by_cases hi : i = h.slot.toNat
    · subst hi
      simpa [Vacant, he₀] using fun hnone => by simp [hv] at hnone
    · simp [Vacant, hother hi, hi]
  · -- the handle was there, and once
    have hmem : (h, v) ∈ present log := (hs.store h v).mpr ⟨e₀, he₀, hgen₀, hv⟩
    rw [present, Slab.vacate, hs.size]
    exact (length_filter_ne hs.fresh hmem).symm

/-! ## Runs -/

theorem takeSlot_toNat (s : Slab α) :
    s.takeSlot.1.toNat + 1 < 2 ^ 32 ∨ s.freeHead = 0 ∧ s.takeSlot.1 = .ofNat s.slots.length := by
  by_cases hhead : s.freeHead = 0
  · exact .inr ⟨hhead, by rw [Slab.takeSlot, if_neg (not_not_intro hhead)]⟩
  · have hpos : 1 ≤ s.freeHead.toNat := Nat.one_le_iff_ne_zero.mpr fun h => hhead (UInt32.toNat_inj.mp h)
    have hle : (1 : UInt32) ≤ s.freeHead := UInt32.le_iff_toNat_le.mpr hpos
    have hlt := s.freeHead.toNat_lt
    left
    rw [Slab.takeSlot, if_pos hhead, UInt32.toNat_sub_of_le _ _ hle, UInt32.toNat_one]
    omega

/-- Every call keeps the invariant. -/
theorem Holds.perform {r : Run α} (hr : Holds r.slab r.log none) {op : Op α} (hfits : Fits r op) :
    Holds (r.perform op).slab (r.perform op).log none := by
  cases op with
  | get h => exact hr
  | insert c =>
    cases c with
    | made v =>
      obtain ⟨htaken, hvacant⟩ := hr.takeSlot hfits
      exact htaken.occupy hvacant v
    | throws =>
      have hlength : r.slab.freeHead = 0 → r.slab.slots.length < 2 ^ 32 := fun h => by
        have := hfits h
        omega
      obtain ⟨htaken, hvacant⟩ := hr.takeSlot hlength
      refine htaken.release hvacant ?_
      rcases takeSlot_toNat r.slab with hslot | ⟨hhead, hslot⟩
      · exact hslot
      · have hlt := hfits hhead
        rw [hslot, UInt32.toNat_ofNat', Nat.mod_eq_of_lt (by omega)]
        exact hlt
    | noSlot =>
      change Holds (if r.slab.freeHead ≠ 0 then r.slab.takeSlot.2.release r.slab.takeSlot.1 else r.slab) r.log none
      split_ifs with hhead
      · obtain ⟨htaken, hvacant⟩ := hr.takeSlot fun h => absurd h hhead
        refine htaken.release hvacant ?_
        rcases takeSlot_toNat r.slab with hslot | ⟨hzero, -⟩
        · exact hslot
        · exact absurd hzero hhead
      · exact hr
  | erase h =>
    change Holds (r.slab.erase h) (.erased h :: r.log) none
    rw [Slab.erase]
    split_ifs with hfind
    · obtain ⟨hlive, hgeneration, hslot⟩ := hfits hfind
      obtain ⟨hvacated, hvacant⟩ := hr.vacate hfind hlive hgeneration
      exact hvacated.release hvacant hslot
    · -- nothing is found, so the store had nothing under the handle
      have hnone : ∀ p ∈ present r.log, p.1 ≠ h := by
        rintro ⟨h', v⟩ hp rfl
        obtain ⟨e, he, hgen, hstorage⟩ := (hr.store _ v).mp hp
        have hlive := (hr.parity _ e he).mp (by rw [hstorage]; rfl)
        rw [find_of_slot (isLive_ne_zero (hgen ▸ hlive)) he hgen] at hfind
        exact hfind rfl
      have hpresent : present (.erased h :: r.log) = present r.log :=
        List.filter_eq_self.mpr fun p hp => by simpa using hnone p hp
      refine ⟨hr.few, hr.parity, hr.bounded, hr.fresh, ?_, hr.free, ?_⟩
      · rw [hpresent]
        exact hr.store
      · rw [hpresent]
        exact hr.size

theorem Holds.lawful {r : Run α} (hr : Holds r.slab r.log none) : Lawful r := by
  have hget (h : Handle) (v : α) : r.slab.get h = some (some v) ↔ (h, v) ∈ present r.log := by
    rw [hr.store, get, Option.map_eq_some_iff]
    constructor
    · rintro ⟨e, hfind, hstorage⟩
      obtain ⟨-, he, hgen⟩ := find_eq_some hfind
      exact ⟨e, he, hgen, hstorage⟩
    · rintro ⟨e, he, hgen, hstorage⟩
      have hlive := (hr.parity _ e he).mp (by rw [hstorage]; rfl)
      exact ⟨e, find_of_slot (isLive_ne_zero (hgen ▸ hlive)) he hgen, hstorage⟩
  refine ⟨hget, fun h hproper => ?_, hr.fresh, ?_, hr.size⟩
  · constructor
    · intro hnone v hmem
      rw [← hget, hnone] at hmem
      cases hmem
    · intro hnone
      by_contra hsome
      rw [get, Option.map_eq_none_iff] at hsome
      obtain ⟨e, hfind⟩ := Option.ne_none_iff_exists'.mp hsome
      obtain ⟨hzero, he, hgen⟩ := find_eq_some hfind
      have hlive := hproper.resolve_left hzero
      obtain ⟨v, hv⟩ := Option.isSome_iff_exists.mp ((hr.parity _ e he).mpr (hgen ▸ hlive))
      exact hnone v ((hr.store h v).mpr ⟨e, he, hgen, hv⟩)
  · obtain ⟨l, hl, hnodup, hfree⟩ := hr.free
    simp only [ne_eq, reduceCtorEq, not_false_eq_true, and_true] at hfree
    exact ⟨l, hl, hnodup, hfree⟩

/-- In every run in which no counter comes round the slab is the store of its log. -/
theorem lawful_of_reachable (r : Run α) (hr : (runs α).Reachable Fits r) : Lawful r := by
  have hinitial : ∀ r, (runs α).initial r → Holds r.slab r.log none := by
    rintro r rfl
    exact holds_new
  have hstep : ∀ r op r', Holds r.slab r.log none → Fits r op → (runs α).step r op r' → Holds r'.slab r'.log none := by
    rintro r op r' h hfits rfl
    exact h.perform hfits
  exact Holds.lawful (TransitionSystem.Reachable.invariant hinitial hstep hr)

/-- A run in which a slot is used twice, with a constructor that throws in between. -/
def reusedRun : Run ℕ :=
  [.insert (.made 7), .erase ⟨0, 1⟩, .insert .throws, .insert (.made 8)].foldl Run.perform ⟨new, []⟩

theorem lawful_reusedRun : Lawful reusedRun := by
  have hinitial : (runs ℕ).Reachable Fits ⟨new, []⟩ := .initial rfl
  have hmade := hinitial.step (l := .insert (.made 7)) (by decide) rfl
  have herased := hmade.step (l := .erase ⟨0, 1⟩) (by decide) rfl
  have hthrown := herased.step (l := .insert .throws) (by decide) rfl
  exact lawful_of_reachable reusedRun (hthrown.step (l := .insert (.made 8)) (by decide) rfl)

/-- A slab with one slot, which is vacant. -/
def oneSlot (generation : UInt32) : Slab Unit := ⟨[⟨generation, 0, none⟩], 1, 0⟩

theorem insert_oneSlot (g : UInt32) :
    (oneSlot g).insert (.made ()) = (⟨[⟨g + 1, 0, some ()⟩], 0, 1⟩, some ⟨0, g + 1⟩) := by
  simp [oneSlot, insert, takeSlot, occupy, generationOf]

theorem erase_oneSlot {g : UInt32} (hg : g ≠ 0) :
    (⟨[⟨g, 0, some ()⟩], 0, 1⟩ : Slab Unit).erase ⟨0, g⟩ = oneSlot (g + 1) := by
  simp [oneSlot, erase, find, vacate, release, hg]

/-- After a slot was used a number of times its generation is twice that, and the first handle is
among those that were returned. -/
theorem exists_cycled (n : ℕ) : ∃ log,
    (runs Unit).Reachable (fun _ _ => True) ⟨oneSlot (.ofNat (2 * (n + 1))), log⟩ ∧
      (⟨0, 1⟩ : Handle) ∈ issued log := by
  induction n with
  | zero =>
    have hinitial : (runs Unit).Reachable (fun _ _ => True) ⟨new, []⟩ := .initial rfl
    have hmade := hinitial.step (l := .insert (.made ())) trivial rfl
    exact ⟨[.erased ⟨0, 1⟩, .inserted ⟨0, 1⟩ ()], hmade.step (l := .erase ⟨0, 1⟩) trivial rfl, List.mem_cons_self ..⟩
  | succ n ih =>
    obtain ⟨log, hlog, hmem⟩ := ih
    generalize hg : UInt32.ofNat (2 * (n + 1)) = g at hlog
    have hodd : g + 1 ≠ 0 := by
      intro hzero
      have htoNat := congrArg UInt32.toNat hzero
      rw [← hg, UInt32.toNat_add, UInt32.toNat_ofNat'] at htoNat
      simp at htoNat
      omega
    have hnext : UInt32.ofNat (2 * (n + 1 + 1)) = g + 1 + 1 := by
      rw [← hg, ← UInt32.toNat_inj]
      simp
      omega
    have hmade := hlog.step (l := .insert (.made ())) trivial rfl
    rw [Run.perform, insert_oneSlot] at hmade
    have herased := hmade.step (l := .erase ⟨0, g + 1⟩) trivial rfl
    rw [Run.perform, erase_oneSlot hodd, ← hnext] at herased
    exact ⟨_, herased, List.mem_cons_of_mem _ hmem⟩

/-- When the generation of a slot comes round, the first of its handles is returned again. -/
theorem not_always_lawful : ¬ ∀ r : Run Unit, (runs Unit).Reachable (fun _ _ => True) r → Lawful r := by
  intro hall
  obtain ⟨log, hlog, hmem⟩ := exists_cycled (2 ^ 31 - 1)
  have hround : UInt32.ofNat (2 * (2 ^ 31 - 1 + 1)) = 0 := by decide
  rw [hround] at hlog
  have hmade := hlog.step (l := .insert (.made ())) trivial rfl
  rw [Run.perform, insert_oneSlot] at hmade
  exact (List.nodup_cons.mp (hall _ hmade).fresh).1 hmem

end Slab

end CtBrowser
