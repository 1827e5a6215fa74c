import Mathlib.Data.List.TakeWhile
import Mathlib.Tactic

/-!
# Sorted Association Lists

Entries kept in ascending order of their keys, each key once, and searched by lower bound: every
operation splits the list where the keys stop being below a given one and works at the split. Such
a list is read by membership alone, so each operation is known by what it makes a member.

## Main definitions

- `Sorted` — the keys ascend strictly.
- `lookup`, `put`, `remove`, `splice` — the operations at a lower bound.

## Main results

- `lookup_eq_some_iff` — in a sorted list, lookup is membership.
- `mem_put`, `mem_remove`, `mem_splice` and the `Sorted` lemmas beside them.
- `lookup_put`, `lookup_remove`, `lookup_splice`, `lookup_filter` — what is looked up afterwards.
-/

namespace CtBrowser.Foundations.SortedEntries

variable {κ α : Type*} [LinearOrder κ]

/-- The keys ascend strictly. -/
def Sorted (l : List (κ × α)) : Prop := l.Pairwise fun x y => x.1 < y.1

/-- The entries before the lower bound of a key. -/
def below (k : κ) (l : List (κ × α)) : List (κ × α) := l.takeWhile fun e => e.1 < k

/-- The entries from the lower bound of a key on. -/
def onward (k : κ) (l : List (κ × α)) : List (κ × α) := l.dropWhile fun e => e.1 < k

/-- The value under a key: of the entry at its lower bound, when that entry has the key. -/
def lookup (k : κ) (l : List (κ × α)) : Option α :=
  match onward k l with
  | [] => none
  | e :: _ => if e.1 = k then some e.2 else none

/-- The entries after the key, when the entry at its lower bound has the key. -/
def past (k : κ) (l : List (κ × α)) : List (κ × α) :=
  match onward k l with
  | [] => []
  | e :: rest => if e.1 = k then rest else e :: rest

/-- Sets the value under a key. -/
def put (k : κ) (a : α) (l : List (κ × α)) : List (κ × α) := below k l ++ (k, a) :: past k l

/-- Removes the entry under a key. -/
def remove (k : κ) (l : List (κ × α)) : List (κ × α) := below k l ++ past k l

/-- Inserts a run of entries at the lower bound of a key. -/
def splice (k : κ) (run l : List (κ × α)) : List (κ × α) := below k l ++ run ++ onward k l

theorem below_append_onward (k : κ) (l : List (κ × α)) : below k l ++ onward k l = l :=
  List.takeWhile_append_dropWhile ..

/-! ### The split -/

theorem lt_of_mem_below {k : κ} {l : List (κ × α)} {e : κ × α} (h : e ∈ below k l) : e.1 < k := by
  simpa using List.mem_takeWhile_imp h

/-- From the lower bound on, no key is below. -/
theorem le_of_mem_onward {k : κ} {l : List (κ × α)} (hl : Sorted l) {e : κ × α}
    (h : e ∈ onward k l) : k ≤ e.1 := by
  induction l with
  | nil => simp [onward] at h
  | cons x rest ih =>
    obtain ⟨hx, hrest⟩ := List.pairwise_cons.mp hl
    by_cases hlt : x.1 < k
    · exact ih hrest (by simpa [onward, hlt] using h)
    · have hmem : e ∈ x :: rest := by simpa [onward, hlt] using h
      rcases List.mem_cons.mp hmem with rfl | hmem
      · exact not_lt.mp hlt
      · exact (not_lt.mp hlt).trans (hx e hmem).le

theorem Sorted.below {l : List (κ × α)} (h : Sorted l) (k : κ) : Sorted (below k l) :=
  List.Pairwise.sublist (List.takeWhile_sublist _) h

theorem Sorted.onward {l : List (κ × α)} (h : Sorted l) (k : κ) : Sorted (onward k l) :=
  List.Pairwise.sublist (List.dropWhile_sublist _) h

/-- A member is on one side of the split. -/
theorem mem_iff_below_or_onward (k : κ) (l : List (κ × α)) (e : κ × α) :
    e ∈ l ↔ e ∈ below k l ∨ e ∈ onward k l := by
  conv_lhs => rw [← below_append_onward k l]
  exact List.mem_append

/-- The entries past a key are those above it. -/
theorem mem_past {l : List (κ × α)} (h : Sorted l) {k : κ} {e : κ × α} :
    e ∈ past k l ↔ e ∈ onward k l ∧ e.1 ≠ k := by
  have hsorted := h.onward k
  have hle := fun e (he : e ∈ onward k l) => le_of_mem_onward h he
  rw [past]
  cases honward : onward k l with
  | nil => simp
  | cons x rest =>
    rw [honward] at hsorted hle
    obtain ⟨hx, -⟩ := List.pairwise_cons.mp hsorted
    by_cases hk : x.1 = k
    · have hrest : ∀ e ∈ rest, e.1 ≠ k := fun e he => (hk ▸ hx e he).ne'
      simp only [hk, if_true, List.mem_cons]
      constructor
      · exact fun he => ⟨.inr he, hrest e he⟩
      · rintro ⟨rfl | he, hne⟩
        · exact absurd hk hne
        · exact he
    · have hlt : k < x.1 := lt_of_le_of_ne (hle x List.mem_cons_self) (Ne.symm hk)
      simp only [hk, if_false, List.mem_cons, iff_self_and]
      rintro (rfl | he)
      · exact hk
      · exact (hlt.trans (hx e he)).ne'

theorem Sorted.past {l : List (κ × α)} (h : Sorted l) (k : κ) : Sorted (past k l) := by
  have hsorted := h.onward k
  rw [SortedEntries.past]
  cases honward : SortedEntries.onward k l with
  | nil => exact .nil
  | cons x rest =>
    rw [honward] at hsorted
    dsimp only
    split_ifs
    · exact (List.pairwise_cons.mp hsorted).2
    · exact hsorted

/-! ### Lookup -/

/-- In a sorted list, lookup is membership. -/
theorem lookup_eq_some_iff {l : List (κ × α)} (h : Sorted l) {k : κ} {a : α} :
    lookup k l = some a ↔ (k, a) ∈ l := by
  have hsorted := h.onward k
  have hle := fun e (he : e ∈ onward k l) => le_of_mem_onward h he
  have hbelow : (k, a) ∉ below k l := fun hmem => lt_irrefl _ (lt_of_mem_below hmem)
  rw [mem_iff_below_or_onward k l, or_iff_right hbelow, lookup]
  cases honward : onward k l with
  | nil => simp
  | cons x rest =>
    rw [honward] at hsorted hle
    obtain ⟨hx, -⟩ := List.pairwise_cons.mp hsorted
    have hrest : (k, a) ∉ rest := by
      intro hmem
      exact absurd (hx _ hmem) (not_lt.mpr (hle x List.mem_cons_self))
    rw [List.mem_cons, or_iff_left hrest, Prod.ext_iff]
    by_cases hk : x.1 = k
    · simp [hk, eq_comm]
    · have hk' : ¬ k = x.1 := fun heq => hk heq.symm
      simp [hk, hk']

theorem lookup_eq_none_iff {l : List (κ × α)} (h : Sorted l) {k : κ} :
    lookup k l = none ↔ ∀ a, (k, a) ∉ l := by
  rw [Option.eq_none_iff_forall_ne_some]
  exact forall_congr' fun a => not_congr (lookup_eq_some_iff h)

/-! ### The operations -/

theorem mem_put {l : List (κ × α)} (h : Sorted l) {k : κ} {a : α} {e : κ × α} :
    e ∈ put k a l ↔ e = (k, a) ∨ e ∈ l ∧ e.1 ≠ k := by
  rw [put, List.mem_append, List.mem_cons, mem_past h, mem_iff_below_or_onward k l]
  have hbelow : e ∈ below k l → e.1 ≠ k := fun he => (lt_of_mem_below he).ne
  tauto

theorem mem_remove {l : List (κ × α)} (h : Sorted l) {k : κ} {e : κ × α} :
    e ∈ remove k l ↔ e ∈ l ∧ e.1 ≠ k := by
  rw [remove, List.mem_append, mem_past h, mem_iff_below_or_onward k l]
  have hbelow : e ∈ below k l → e.1 ≠ k := fun he => (lt_of_mem_below he).ne
  tauto

theorem mem_splice {k : κ} {run l : List (κ × α)} {e : κ × α} :
    e ∈ splice k run l ↔ e ∈ run ∨ e ∈ l := by
  rw [splice, List.mem_append, List.mem_append, mem_iff_below_or_onward k l]
  tauto

theorem Sorted.remove {l : List (κ × α)} (h : Sorted l) (k : κ) : Sorted (remove k l) := by
  refine List.pairwise_append.mpr ⟨h.below k, h.past k, fun x hx y hy => ?_⟩
  exact (lt_of_mem_below hx).trans_le (le_of_mem_onward h ((mem_past h).mp hy).1)

theorem Sorted.put {l : List (κ × α)} (h : Sorted l) (k : κ) (a : α) : Sorted (put k a l) := by
  have hpast : ∀ y ∈ SortedEntries.past k l, k < y.1 := by
    intro y hy
    obtain ⟨hmem, hne⟩ := (mem_past h).mp hy
    exact lt_of_le_of_ne (le_of_mem_onward h hmem) (Ne.symm hne)
  refine List.pairwise_append.mpr ⟨h.below k, List.pairwise_cons.mpr ⟨hpast, h.past k⟩, ?_⟩
  intro x hx y hy
  have hlt := lt_of_mem_below hx
  rcases List.mem_cons.mp hy with rfl | hy
  · exact hlt
  · exact hlt.trans (hpast y hy)

/-- A sorted run fits at a lower bound when its keys start there and no key of the list is among
or between them. -/
theorem Sorted.splice {l run : List (κ × α)} (h : Sorted l) (hrun : Sorted run) {k : κ}
    (hlow : ∀ e ∈ run, k ≤ e.1) (hhigh : ∀ x ∈ l, k ≤ x.1 → ∀ e ∈ run, e.1 < x.1) :
    Sorted (splice k run l) := by
  refine List.pairwise_append.mpr ⟨?_, h.onward k, fun x hx y hy => ?_⟩
  · refine List.pairwise_append.mpr ⟨h.below k, hrun, fun x hx y hy => ?_⟩
    exact (lt_of_mem_below hx).trans_le (hlow y hy)
  · have hle := le_of_mem_onward h hy
    rcases List.mem_append.mp hx with hx | hx
    · exact (lt_of_mem_below hx).trans_le hle
    · exact hhigh y ((mem_iff_below_or_onward k l y).mpr (.inr hy)) hle x hx

/-! ### Lookup after an operation -/

theorem lookup_put {l : List (κ × α)} (h : Sorted l) (k i : κ) (a : α) :
    lookup i (put k a l) = if i = k then some a else lookup i l := by
  apply Option.ext
  intro b
  rw [lookup_eq_some_iff (h.put k a), mem_put h, Prod.mk.injEq]
  split_ifs with hik
  · simp [hik, eq_comm]
  · simp [hik, lookup_eq_some_iff h]

theorem lookup_remove {l : List (κ × α)} (h : Sorted l) (k i : κ) :
    lookup i (remove k l) = if i = k then none else lookup i l := by
  apply Option.ext
  intro b
  rw [lookup_eq_some_iff (h.remove k), mem_remove h]
  split_ifs with hik
  · simp [hik]
  · simp [hik, lookup_eq_some_iff h]

/-- A run that fits at a lower bound is looked up in before the list. -/
theorem lookup_splice {l run : List (κ × α)} (h : Sorted l) (hrun : Sorted run) {k : κ}
    (hlow : ∀ e ∈ run, k ≤ e.1) (hhigh : ∀ x ∈ l, k ≤ x.1 → ∀ e ∈ run, e.1 < x.1) (i : κ) :
    lookup i (splice k run l) = (lookup i run).or (lookup i l) := by
  apply Option.ext
  intro b
  rw [lookup_eq_some_iff (h.splice hrun hlow hhigh), mem_splice]
  cases hi : lookup i run with
  | none =>
    have hnot := (lookup_eq_none_iff hrun).mp hi b
    rw [Option.none_or, lookup_eq_some_iff h, or_iff_right hnot]
  | some a =>
    have ha := (lookup_eq_some_iff hrun).mp hi
    have hnot : (i, b) ∉ l := fun hb => lt_irrefl i (hhigh (i, b) hb (hlow (i, a) ha) (i, a) ha)
    rw [Option.some_or, ← hi, lookup_eq_some_iff hrun, or_iff_left hnot]

theorem Sorted.filter {l : List (κ × α)} (h : Sorted l) (p : κ × α → Bool) : Sorted (l.filter p) :=
  List.Pairwise.sublist List.filter_sublist h

/-- A list cut down by its keys. -/
theorem lookup_filter {l : List (κ × α)} (h : Sorted l) (p : κ → Bool) (i : κ) :
    lookup i (l.filter fun e => p e.1) = if p i then lookup i l else none := by
  apply Option.ext
  intro b
  rw [lookup_eq_some_iff (h.filter _), List.mem_filter]
  split_ifs with hi
  · simp [hi, lookup_eq_some_iff h]
  · simp [hi]

end CtBrowser.Foundations.SortedEntries
