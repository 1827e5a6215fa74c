import Mathlib.Data.List.ReduceOption
import Mathlib.Tactic

/-!
# Lists With Emptied Slots

A list that never shrinks, because removing an entry only empties its slot, beside the
compacted list of the entries that are left. A position in the first is a position in the
second: the number of filled slots before it. The lemmas say how each operation on the slots
moves the compacted list and its positions.

## Main definitions

- `place` — the compacted position of a slot position.
- `visit` — the first filled slot at or after a position, and the position after it.

## Main results

- `map_fst_visit`, `place_of_visit` — a visit reads the compacted list and moves on by one.
- `reduceOption_set_none`, `place_set_none` — emptying a slot erases one compacted entry.
-/

namespace CtBrowser.Foundations.SlotList

variable {α : Type*}

/-- The compacted position of slot position `i`: how many filled slots stand before it. -/
def place (slots : List (Option α)) (i : ℕ) : ℕ := (slots.take i).reduceOption.length

/-- The first filled slot of a list whose head has position `i`, and the position after it. -/
def firstFilled : List (Option α) → ℕ → Option (α × ℕ)
  | [], _ => none
  | some a :: _, i => some (a, i + 1)
  | none :: rest, i => firstFilled rest (i + 1)

/-- The first filled slot at or after position `i`, and the position after it. -/
def visit (slots : List (Option α)) (i : ℕ) : Option (α × ℕ) := firstFilled (slots.drop i) i

@[simp]
theorem place_zero (slots : List (Option α)) : place slots 0 = 0 := rfl

@[simp]
theorem place_nil (i : ℕ) : place ([] : List (Option α)) i = 0 := by
  simp [place]

@[simp]
theorem place_none_cons (rest : List (Option α)) (i : ℕ) :
    place (none :: rest) (i + 1) = place rest i := by
  simp [place]

@[simp]
theorem place_some_cons (a : α) (rest : List (Option α)) (i : ℕ) :
    place (some a :: rest) (i + 1) = place rest i + 1 := by
  simp [place]

/-! ### Visiting -/

/-- The first filled slot is the head of the compacted list. -/
theorem map_fst_firstFilled (slots : List (Option α)) (i : ℕ) :
    (firstFilled slots i).map Prod.fst = slots.reduceOption.head? := by
  induction slots generalizing i with
  | nil => rfl
  | cons slot rest ih =>
    cases slot with
    | none => simpa [firstFilled] using ih (i + 1)
    | some a => simp [firstFilled]

/-- The slots up to the position after the first filled one hold exactly that entry. -/
theorem take_of_firstFilled {slots : List (Option α)} {i j : ℕ} {a : α}
    (h : firstFilled slots i = some (a, j)) :
    i < j ∧ j ≤ i + slots.length ∧ (slots.take (j - i)).reduceOption = [a] := by
  induction slots generalizing i with
  | nil => simp [firstFilled] at h
  | cons slot rest ih =>
    cases slot with
    | some b =>
      simp only [firstFilled, Option.some.injEq, Prod.mk.injEq] at h
      obtain ⟨rfl, rfl⟩ := h
      simp
    | none =>
      obtain ⟨hlt, hle, htake⟩ := ih (by simpa [firstFilled] using h)
      have hsub : j - i = j - (i + 1) + 1 := by omega
      refine ⟨by omega, by simpa [Nat.add_assoc, Nat.add_comm, Nat.add_left_comm] using hle, ?_⟩
      rw [hsub, List.take_succ_cons]
      simpa using htake

/-- A visit reads the compacted list at the compacted position. -/
theorem map_fst_visit (slots : List (Option α)) (i : ℕ) :
    (visit slots i).map Prod.fst = slots.reduceOption[place slots i]? := by
  rw [visit, map_fst_firstFilled]
  conv_rhs => rw [← List.take_append_drop i slots, List.reduceOption_append]
  rw [place, List.take_append_drop, List.getElem?_append_right le_rfl, Nat.sub_self,
    List.head?_eq_getElem?]

/-- A visit stays inside the slots and moves the compacted position on by one. -/
theorem place_of_visit {slots : List (Option α)} {i j : ℕ} {a : α}
    (h : visit slots i = some (a, j)) :
    i < j ∧ j ≤ slots.length ∧ place slots j = place slots i + 1 := by
  obtain ⟨hlt, hle, htake⟩ := take_of_firstFilled h
  have hlength : (slots.drop i).length = slots.length - i := List.length_drop
  have hi : i < slots.length := by omega
  refine ⟨hlt, by omega, ?_⟩
  have hsplit : slots.take j = slots.take i ++ (slots.drop i).take (j - i) := by
    rw [← List.take_add]
    congr 1
    omega
  rw [place, hsplit, List.reduceOption_append, List.length_append, htake]
  rfl

/-! ### Operations -/

/-- Filling a new slot at the end moves no position. -/
theorem place_append {slots : List (Option α)} {i : ℕ} (hi : i ≤ slots.length)
    (more : List (Option α)) : place (slots ++ more) i = place slots i := by
  rw [place, List.take_append_of_le_length hi, place]

/-- Where the first filled slot that passes a test stands. -/
def findSlot (p : α → Bool) (slots : List (Option α)) : Option ℕ :=
  slots.findIdx? (Option.any p)

/-- A list around one of its positions. -/
theorem eq_take_cons_drop {slots : List (Option α)} {j : ℕ} {slot : Option α}
    (h : slots[j]? = some slot) : slots = slots.take j ++ slot :: slots.drop (j + 1) := by
  obtain ⟨hj, rfl⟩ := List.getElem?_eq_some_iff.mp h
  rw [← List.drop_eq_getElem_cons hj, List.take_append_drop]

/-- Changing the entry of a filled slot changes one compacted entry. -/
theorem reduceOption_modify {slots : List (Option α)} {j : ℕ} {a : α}
    (h : slots[j]? = some (some a)) (f : α → α) :
    (slots.modify j (Option.map f)).reduceOption = slots.reduceOption.modify (place slots j) f := by
  have hj : j < slots.length := (List.getElem?_eq_some_iff.mp h).1
  have hslot : slots[j] = some a := (List.getElem?_eq_some_iff.mp h).2
  rw [List.modify_eq_take_cons_drop hj, hslot]
  conv_rhs => rw [eq_take_cons_drop h]
  rw [List.modify_eq_take_drop]
  simp [List.reduceOption_append, place, Nat.min_eq_left hj.le]

/-- Emptying a filled slot erases one compacted entry. -/
theorem reduceOption_set_none {slots : List (Option α)} {j : ℕ} {a : α}
    (h : slots[j]? = some (some a)) :
    (slots.set j none).reduceOption = slots.reduceOption.eraseIdx (place slots j) := by
  have hj : j < slots.length := (List.getElem?_eq_some_iff.mp h).1
  rw [List.set_eq_take_append_cons_drop, if_pos hj]
  conv_rhs => rw [eq_take_cons_drop h]
  simp [List.reduceOption_append, place, Nat.min_eq_left hj.le,
    List.eraseIdx_append_of_length_le]

/-- Emptying a filled slot moves the positions after it, and only those, down by one. -/
theorem place_set_none {slots : List (Option α)} {j : ℕ} {a : α}
    (h : slots[j]? = some (some a)) (i : ℕ) :
    place (slots.set j none) i =
      if place slots j < place slots i then place slots i - 1 else place slots i := by
  induction slots generalizing j i with
  | nil => simp
  | cons slot rest ih =>
    cases i with
    | zero => simp
    | succ i =>
      cases j with
      | zero =>
        obtain rfl : slot = some a := by simpa using h
        simp
      | succ j =>
        have hrest := ih (by simpa using h) i
        cases slot with
        | none => simpa using hrest
        | some b =>
          simp only [List.set_cons_succ, place_some_cons, hrest, Nat.add_lt_add_iff_right]
          split <;> omega

/-- Changing an entry moves no position. -/
theorem place_modify (slots : List (Option α)) (j : ℕ) (f : α → α) (i : ℕ) :
    place (slots.modify j (Option.map f)) i = place slots i := by
  induction slots generalizing j i with
  | nil => simp
  | cons slot rest ih =>
    cases i with
    | zero => simp
    | succ i =>
      cases j with
      | zero => cases slot <;> simp
      | succ j => cases slot <;> simp [ih]

/-- A list whose slots are all empty compacts to nothing. -/
theorem reduceOption_map_none (slots : List (Option α)) :
    (slots.map fun _ => (none : Option α)).reduceOption = [] := by
  simp [List.map_const', List.reduceOption_replicate_none]

/-- The first filled slot that passes a test is the first entry that does. -/
theorem map_place_findSlot (p : α → Bool) (slots : List (Option α)) :
    (findSlot p slots).map (place slots) = slots.reduceOption.findIdx? p := by
  induction slots with
  | nil => rfl
  | cons slot rest ih =>
    unfold findSlot at ih ⊢
    cases slot with
    | none =>
      rw [List.reduceOption_cons_of_none, ← ih, List.findIdx?_cons]
      simp [Function.comp_def]
    | some a =>
      rw [List.reduceOption_cons_of_some, List.findIdx?_cons, List.findIdx?_cons, ← ih]
      by_cases ha : p a = true
      · simp [ha]
      · simp [ha, Function.comp_def]

/-- The slot found is filled, by an entry that passes the test. -/
theorem getElem?_of_findSlot {p : α → Bool} {slots : List (Option α)} {j : ℕ}
    (h : findSlot p slots = some j) : ∃ a, slots[j]? = some (some a) ∧ p a = true := by
  obtain ⟨hj, hany, -⟩ := List.findIdx?_eq_some_iff_getElem.mp h
  obtain ⟨a, ha, hp⟩ := (Option.any_eq_true ..).mp hany
  exact ⟨a, List.getElem?_eq_some_iff.mpr ⟨hj, ha⟩, hp⟩

end CtBrowser.Foundations.SlotList
