import Mathlib.Tactic
import Mathlib.Data.List.Sort

/-!
# Stable Sorts and Last Writes

A list sorted by a total preorder keeps the order of elements that tie. When its elements
are then applied one after the other, and each of them either writes a place or leaves it
alone, the place holds what the last writer wrote: of all writers one that nothing is above,
and of those that tie the last one of the list before it was sorted.

## Main results

- `pairwise_insertionSort_stable` — the order of a sorted list, ties included.
- `foldl_eq_last_writer` — a place holds what the last writer wrote.
- `eq_or_related_of_getLast?` — how the last element of a list stands to the others.
-/

namespace CtBrowser.Foundations.StableOrder

variable {α : Type*}

section Sorting

variable {le R : α → α → Prop}

/-- One element stands before another of a stably sorted list: it is not above it, and if
they tie it stood before it already. -/
def StableBefore (le R : α → α → Prop) (a b : α) : Prop := le a b ∧ (le b a → R a b)

variable [DecidableRel le] {P : α → Prop}

/-- An element that stood before those of a sorted list is inserted where it belongs. -/
theorem pairwise_orderedInsert_stable (htotal : ∀ a b, P a → P b → le a b ∨ le b a)
    (htrans : ∀ a b c, P a → P b → P c → le a b → le b c → le a c) {a : α} {l : List α}
    (hP : ∀ b ∈ a :: l, P b) (hl : l.Pairwise (StableBefore le R)) (ha : ∀ b ∈ l, R a b) :
    (l.orderedInsert le a).Pairwise (StableBefore le R) := by
  induction l with
  | nil => exact List.pairwise_singleton ..
  | cons b l ih =>
    obtain ⟨hb, hrest⟩ := List.pairwise_cons.mp hl
    have hPa := hP a (by simp)
    have hPb := hP b (by simp)
    by_cases hab : le a b
    · rw [List.orderedInsert_cons_of_le le l hab, List.pairwise_cons]
      refine ⟨fun c hc => ?_, hl⟩
      rcases List.mem_cons.mp hc with rfl | hmem
      · exact ⟨hab, fun _ => ha _ (by simp)⟩
      · exact ⟨htrans _ _ _ hPa hPb (hP c (by simp [hmem])) hab (hb c hmem).1, fun _ => ha _ hc⟩
    · have hba := (htotal _ _ hPa hPb).resolve_left hab
      have hPrest : ∀ c ∈ a :: l, P c := by
        intro c hc
        rcases List.mem_cons.mp hc with rfl | hmem
        · exact hPa
        · exact hP c (by simp [hmem])
      rw [List.orderedInsert_of_not_le le l hab, List.pairwise_cons]
      refine ⟨fun c hc => ?_, ih hPrest hrest fun c hc => ha c (by simp [hc])⟩
      rcases (List.mem_orderedInsert le).mp hc with rfl | hmem
      · exact ⟨hba, fun h => absurd h hab⟩
      · exact hb c hmem

/-- Of two elements of a sorted list the first is not above the second, and if they tie it
stood before it already. -/
theorem pairwise_insertionSort_stable (htotal : ∀ a b, P a → P b → le a b ∨ le b a)
    (htrans : ∀ a b c, P a → P b → P c → le a b → le b c → le a c) {l : List α}
    (hP : ∀ a ∈ l, P a) (hl : l.Pairwise R) :
    (l.insertionSort le).Pairwise (StableBefore le R) := by
  induction l with
  | nil => exact .nil
  | cons a l ih =>
    obtain ⟨ha, hrest⟩ := List.pairwise_cons.mp hl
    have hmem : ∀ {b}, b ∈ l.insertionSort le → b ∈ l := (List.perm_insertionSort le l).mem_iff.mp
    apply pairwise_orderedInsert_stable htotal htrans
    · intro b hb
      rcases List.mem_cons.mp hb with rfl | hrest
      · exact hP _ (by simp)
      · exact hP b (by simp [hmem hrest])
    · exact ih (fun b hb => hP b (by simp [hb])) hrest
    · exact fun b hb => ha b (hmem hb)

/-- The same for a comparison that compares keys. -/
theorem pairwise_insertionSort_key {κ : Type*} [LinearOrder κ] {key : α → κ} {l : List α}
    (hle : ∀ a b, P a → P b → (le a b ↔ key a ≤ key b)) (hP : ∀ a ∈ l, P a) (hl : l.Pairwise R) :
    (l.insertionSort le).Pairwise (StableBefore (fun a b => key a ≤ key b) R) := by
  have htotal : ∀ a b, P a → P b → le a b ∨ le b a := by
    intro a b ha hb
    rw [hle a b ha hb, hle b a hb ha]
    exact le_total ..
  have htrans : ∀ a b c, P a → P b → P c → le a b → le b c → le a c := by
    intro a b c ha hb hc
    rw [hle a b ha hb, hle b c hb hc, hle a c ha hc]
    exact le_trans
  have hmem : ∀ {b}, b ∈ l.insertionSort le → P b := fun hb =>
    hP _ ((List.perm_insertionSort le l).mem_iff.mp hb)
  refine (pairwise_insertionSort_stable htotal htrans hP hl).imp_of_mem ?_
  rintro a b ha hb ⟨hab, hties⟩
  exact ⟨(hle a b (hmem ha) (hmem hb)).mp hab,
    fun hba => hties ((hle b a (hmem hb) (hmem ha)).mpr hba)⟩

end Sorting

/-- The last element of a list is the last of any two it is one of. -/
theorem eq_or_related_of_getLast? {R : α → α → Prop} {l : List α} (hl : l.Pairwise R) {c : α}
    (hc : l.getLast? = some c) {w : α} (hw : w ∈ l) : w = c ∨ R w c := by
  obtain ⟨init, rfl⟩ := List.getLast?_eq_some_iff.mp hc
  obtain ⟨-, -, hlast⟩ := List.pairwise_append.mp hl
  rcases List.mem_append.mp hw with hinit | hsame
  · exact .inr (hlast w hinit c (by simp))
  · exact .inl (List.mem_singleton.mp hsame)

/-- A sorted list has what passes a test at its end when whatever follows something that
passes does. -/
theorem eq_filter_append_filter {p : α → Bool} {l : List α}
    (h : l.Pairwise fun a b => p a = true → p b = true) :
    l = l.filter (fun a => !p a) ++ l.filter p := by
  induction l with
  | nil => rfl
  | cons a l ih =>
    obtain ⟨ha, hrest⟩ := List.pairwise_cons.mp h
    cases hp : p a with
    | false =>
      rw [List.filter_cons_of_pos (by simp [hp]), List.filter_cons_of_neg (by simp [hp]),
        List.cons_append, ← ih hrest]
    | true =>
      have hall : ∀ b ∈ l, p b = true := fun b hb => ha b hb hp
      have hnone : l.filter (fun a => !p a) = [] := by simpa using hall
      rw [List.filter_cons_of_neg (by simp [hp]), List.filter_cons_of_pos hp, hnone,
        List.filter_eq_self.mpr hall]
      rfl

section Writing

variable {σ V : Type*} (get : σ → Option V) (step : σ → α → σ) (writes : α → Bool) (value : α → V)

/-- A place holds what the last writer wrote, or what it held before. -/
theorem foldl_eq_last_writer (hwrites : ∀ s x, writes x = true → get (step s x) = some (value x))
    (hkeeps : ∀ s x, writes x = false → get (step s x) = get s) (l : List α) (s : σ) :
    get (l.foldl step s) = ((l.filter writes).getLast?.map value).or (get s) := by
  induction l using List.reverseRecOn generalizing s with
  | nil => rfl
  | append_singleton l x ih =>
    rw [List.foldl_append, List.foldl_cons, List.foldl_nil, List.filter_append]
    cases hx : writes x with
    | true => simp [hwrites _ _ hx, hx]
    | false => simp [hkeeps _ _ hx, hx, ih]

end Writing

end CtBrowser.Foundations.StableOrder
