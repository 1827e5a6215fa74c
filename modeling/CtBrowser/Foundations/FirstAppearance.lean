import Mathlib.Tactic

/-!
# Tables in order of first appearance

A table that lists values in the order in which they first appeared: a value that is there already keeps
its place, another goes to the end. A value's number is its place.

## Main results

- `prefix_enterAll`, `mem_enterAll`, `nodup_enterAll` — what a table holds.
- `enterAll_map` — a table of codes is the table's codes, where the code is injective.
- `enterAll_enterAll_nil` — entering a table's values is entering the values it was made from.
-/

namespace CtBrowser.Foundations.FirstAppearance

variable {α β : Type*} [BEq α] [BEq β]

/-- A value joins a table, unless it is there. -/
def enter (table : List α) (x : α) : List α := if table.contains x then table else table ++ [x]

/-- Values join a table in order. -/
def enterAll (table xs : List α) : List α := xs.foldl enter table

theorem enterAll_append (table xs ys : List α) : enterAll table (xs ++ ys) = enterAll (enterAll table xs) ys :=
  List.foldl_append

variable [LawfulBEq α] [LawfulBEq β] {table xs : List α} {x y : α}

theorem enter_of_mem (h : x ∈ table) : enter table x = table := if_pos (List.contains_iff_mem.mpr h)

theorem enter_of_not_mem (h : x ∉ table) : enter table x = table ++ [x] :=
  if_neg fun hc => h (List.contains_iff_mem.mp hc)

theorem prefix_enter (table : List α) (x : α) : table <+: enter table x := by
  by_cases h : x ∈ table
  · rw [enter_of_mem h]
  · rw [enter_of_not_mem h]
    exact List.prefix_append _ _

theorem mem_enter : y ∈ enter table x ↔ y ∈ table ∨ y = x := by
  by_cases h : x ∈ table
  · rw [enter_of_mem h]
    exact ⟨.inl, fun hy => hy.elim id fun heq => heq ▸ h⟩
  · rw [enter_of_not_mem h, List.mem_append, List.mem_singleton]

theorem nodup_enter (h : table.Nodup) : (enter table x).Nodup := by
  by_cases hx : x ∈ table
  · rwa [enter_of_mem hx]
  · rw [enter_of_not_mem hx]
    exact List.nodup_append.mpr ⟨h, List.nodup_singleton _, by
      rintro a ha b hb rfl
      exact hx (List.mem_singleton.mp hb ▸ ha)⟩

theorem prefix_enterAll (table xs : List α) : table <+: enterAll table xs := by
  induction xs generalizing table with
  | nil => exact List.prefix_rfl
  | cons x xs ih => exact (prefix_enter table x).trans (ih _)

theorem mem_enterAll : y ∈ enterAll table xs ↔ y ∈ table ∨ y ∈ xs := by
  induction xs generalizing table with
  | nil => simp [enterAll]
  | cons x xs ih => rw [enterAll, List.foldl_cons, ← enterAll, ih, mem_enter, List.mem_cons, or_assoc]

theorem nodup_enterAll (h : table.Nodup) : (enterAll table xs).Nodup := by
  induction xs generalizing table with
  | nil => exact h
  | cons x xs ih => exact ih (nodup_enter h)

/-- A value keeps its number. -/
theorem idxOf_enterAll (h : x ∈ table) : (enterAll table xs).idxOf x = table.idxOf x := by
  obtain ⟨new, hnew⟩ := prefix_enterAll table xs
  rw [← hnew, List.idxOf_append_of_mem h]

theorem enterAll_enterAll_nil (table xs : List α) : enterAll table (enterAll [] xs) = enterAll table xs := by
  induction xs using List.reverseRecOn with
  | nil => rfl
  | append_singleton xs x ih =>
    rw [enterAll_append, enterAll_append]
    change enterAll table (enter (enterAll [] xs) x) = enter (enterAll table xs) x
    by_cases hx : x ∈ enterAll [] xs
    · have hlater : x ∈ enterAll table xs := mem_enterAll.mpr (.inr ((mem_enterAll.mp hx).resolve_left (by simp)))
      rw [enter_of_mem hx, ih, enter_of_mem hlater]
    · rw [enter_of_not_mem hx, enterAll_append, ih]
      rfl

/-- Where a code is injective it keeps numbers. -/
theorem idxOf_map {f : α → β} (hf : ∀ y ∈ table, f y = f x → y = x) : (table.map f).idxOf (f x) = table.idxOf x := by
  induction table with
  | nil => rfl
  | cons y table ih =>
    rw [List.map_cons]
    by_cases hyx : y = x
    · subst hyx
      rw [List.idxOf_cons_self, List.idxOf_cons_self]
    · have hne : f y ≠ f x := fun h => hyx (hf y List.mem_cons_self h)
      rw [List.idxOf_cons_ne _ hne, List.idxOf_cons_ne _ hyx, ih fun z hz => hf z (List.mem_cons_of_mem _ hz)]

theorem enterAll_map {f : α → β} {P : α → Prop} (hf : ∀ x y, P x → P y → f x = f y → x = y)
    (htable : ∀ x ∈ table, P x) (hxs : ∀ x ∈ xs, P x) :
    enterAll (table.map f) (xs.map f) = (enterAll table xs).map f := by
  induction xs generalizing table with
  | nil => rfl
  | cons x xs ih =>
    have hx := hxs x List.mem_cons_self
    have hstep : enter (table.map f) (f x) = (enter table x).map f := by
      by_cases hmem : x ∈ table
      · rw [enter_of_mem hmem, enter_of_mem (List.mem_map_of_mem hmem)]
      · have hnot : f x ∉ table.map f := by
          intro h
          obtain ⟨y, hy, heq⟩ := List.mem_map.mp h
          exact hmem (hf y x (htable y hy) hx heq ▸ hy)
        rw [enter_of_not_mem hmem, enter_of_not_mem hnot, List.map_append, List.map_singleton]
    change enterAll (enter (table.map f) (f x)) (xs.map f) = (enterAll (enter table x) xs).map f
    rw [hstep]
    refine ih (fun y hy => ?_) fun y hy => hxs y (List.mem_cons_of_mem _ hy)
    rcases mem_enter.mp hy with hy | rfl
    · exact htable y hy
    · exact hx

end CtBrowser.Foundations.FirstAppearance
