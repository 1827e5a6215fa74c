import Mathlib.Tactic

/-!
# An index of names that shadow

A stack of names, and for each name the positions it stands at, innermost last, so that the innermost
position of a name is found without a search. Names leave the stack from its top only.

## Main definitions

- `ShadowIndex.push`, `ShadowIndex.pop`, `ShadowIndex.unwind` — a name is put on the stack, and names
  are taken off it.
- `ShadowIndex.Indexes` — the index holds the positions of every name.

## Main results

- `ShadowIndex.Indexes.push`, `ShadowIndex.Indexes.unwind` — the operations keep this.
- `ShadowIndex.Indexes.innermost` — the index finds what a search from the top finds.
-/

namespace CtBrowser.Foundations

variable {ν : Type} [DecidableEq ν]

/-- For each name that stands on the stack its positions, innermost last. -/
abbrev ShadowIndex (ν : Type) := ν → Option (List ℕ)

namespace ShadowIndex

/-! ## Operations -/

/-- A position is noted for a name. -/
def push (ix : ShadowIndex ν) (name : ν) (at_ : ℕ) : ShadowIndex ν :=
  Function.update ix name (some ((ix name).getD [] ++ [at_]))

/-- The last position of a name is dropped, and the name with its only one. -/
def pop (ix : ShadowIndex ν) (name : ν) : ShadowIndex ν :=
  match ix name with
  | none => ix
  | some ps => Function.update ix name (if ps.dropLast = [] then none else some ps.dropLast)

/-- The names from `mark` on are dropped, from the top. -/
def unwind (names : List ν) (mark : ℕ) : ℕ → ShadowIndex ν → ShadowIndex ν
  | 0, ix => ix
  | i + 1, ix =>
    if i < mark then ix
    else unwind names mark i (names[i]?.elim ix ix.pop)

/-- The last position of a name. -/
def innermost (ix : ShadowIndex ν) (name : ν) : Option ℕ := (ix name).bind List.getLast?

/-- The same by a search below position `i`, from the top. -/
def scanBack (names : List ν) (name : ν) : ℕ → Option ℕ
  | 0 => none
  | i + 1 => if names[i]? = some name then some i else scanBack names name i

/-! ## Positions -/

variable {names : List ν} {name : ν} {ix : ShadowIndex ν}

/-- The positions of a name below `n`. -/
def positionsBelow (names : List ν) (name : ν) (n : ℕ) : List ℕ :=
  (List.range n).filter fun i => names[i]? = some name

/-- The positions of a name. -/
def positions (names : List ν) (name : ν) : List ℕ := positionsBelow names name names.length

theorem positionsBelow_succ (n : ℕ) : positionsBelow names name (n + 1) =
    positionsBelow names name n ++ if names[n]? = some name then [n] else [] := by
  rw [positionsBelow, List.range_succ, List.filter_append]
  congr 1
  by_cases h : names[n]? = some name <;> simp [h]

theorem positions_concat (last : ν) : positions (names ++ [last]) name =
    positions names name ++ if last = name then [names.length] else [] := by
  rw [positions, List.length_append, List.length_singleton, positionsBelow_succ, List.getElem?_concat_length]
  simp only [Option.some.injEq]
  congr 1
  refine List.filter_congr fun i hi => ?_
  rw [List.getElem?_append_left (List.mem_range.mp hi)]

/-- The last position below `n` is what the search finds. -/
theorem getLast?_positionsBelow (n : ℕ) : (positionsBelow names name n).getLast? = scanBack names name n := by
  induction n with
  | zero => rfl
  | succ n ih =>
    rw [positionsBelow_succ, scanBack]
    by_cases h : names[n]? = some name
    · rw [if_pos h, if_pos h, List.getLast?_concat]
    · rw [if_neg h, if_neg h, List.append_nil, ih]

/-! ## The index of a stack -/

/-- The index holds the positions of every name. -/
def Indexes (ix : ShadowIndex ν) (names : List ν) : Prop :=
  ∀ name, ix name = if positions names name = [] then none else some (positions names name)

theorem Indexes.nil : Indexes (fun _ => none) ([] : List ν) := fun _ => rfl

theorem Indexes.getD (h : ix.Indexes names) : (ix name).getD [] = positions names name := by
  rw [h name]
  split_ifs with hnil
  · exact hnil.symm
  · rfl

theorem Indexes.push (h : ix.Indexes names) (last : ν) : (ix.push last names.length).Indexes (names ++ [last]) := by
  intro name
  rw [ShadowIndex.push, positions_concat]
  by_cases hname : last = name
  · subst hname
    rw [Function.update_self, h.getD, if_pos rfl, if_neg (List.append_ne_nil_of_right_ne_nil _ (List.cons_ne_nil _ _))]
  · rw [Function.update_of_ne (Ne.symm hname), if_neg hname, List.append_nil, h name]

theorem Indexes.pop {last : ν} (h : ix.Indexes (names ++ [last])) : (ix.pop last).Indexes names := by
  have hlast : ix last = some (positions names last ++ [names.length]) := by
    rw [h last, positions_concat, if_pos rfl, if_neg (List.append_ne_nil_of_right_ne_nil _ (List.cons_ne_nil _ _))]
  intro name
  rw [ShadowIndex.pop, hlast]
  by_cases hname : last = name
  · subst hname
    simp only [Function.update_self, List.dropLast_concat]
  · simp only [Function.update_of_ne (Ne.symm hname)]
    rw [h name, positions_concat, if_neg hname, List.append_nil]

/-- Unwinding leaves the index of what stays. -/
theorem Indexes.unwind {mark n : ℕ} (h : ix.Indexes (names.take n)) (hn : n ≤ names.length) :
    (unwind names mark n ix).Indexes (names.take (min mark n)) := by
  induction n generalizing ix with
  | zero => simpa [ShadowIndex.unwind] using h
  | succ n ih =>
    rw [ShadowIndex.unwind]
    by_cases hmark : n < mark
    · rw [if_pos hmark, min_eq_right (by omega : n + 1 ≤ mark)]
      exact h
    have hget : names[n]? = some names[n] := List.getElem?_eq_getElem hn
    rw [List.take_add_one, hget] at h
    have hrest : (ShadowIndex.unwind names mark n (ix.pop names[n])).Indexes (names.take (min mark n)) :=
      ih h.pop (by omega)
    rw [min_eq_left (by omega : mark ≤ n)] at hrest
    rw [if_neg hmark, min_eq_left (by omega : mark ≤ n + 1), hget]
    exact hrest

/-- The index finds what a search from the top finds. -/
theorem Indexes.innermost (h : ix.Indexes names) (name : ν) :
    ix.innermost name = scanBack names name names.length := by
  rw [ShadowIndex.innermost, h name, ← getLast?_positionsBelow, positions]
  split_ifs with hnil
  · rw [hnil]
    rfl
  · rfl

end ShadowIndex

end CtBrowser.Foundations
