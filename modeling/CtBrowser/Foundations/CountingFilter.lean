import Mathlib.Tactic

/-!
# Counting Filters

Counters that stop at a cap and are left alone from then on. A counter that has not reached the
cap counts exactly the holders of its slot, so a counter whose slot is held is never zero, however
many holders came and went.

## Main definitions

- `raised`, `lowered` — one counter up or down.
- `Counts` — the counters tell how often every slot is held, up to the cap.

## Main results

- `Counts.raise`, `Counts.lower` — holding slots, and giving them back.
- `Counts.ne_zero_iff` — which counters are not zero.
-/

namespace CtBrowser.Foundations.CountingFilter

variable {ι : Type*} [DecidableEq ι] {cap : ℕ}

/-- One counter up, if it has not reached the cap. -/
def raised (cap : ℕ) (counters : ι → ℕ) (i : ι) : ι → ℕ :=
  if counters i ≠ cap then Function.update counters i (counters i + 1) else counters

/-- One counter down, if it has not reached the cap and is not zero. -/
def lowered (cap : ℕ) (counters : ι → ℕ) (i : ι) : ι → ℕ :=
  if counters i ≠ cap ∧ counters i ≠ 0 then Function.update counters i (counters i - 1) else counters

/-- Every counter is at the cap or counts the holders of its slot. -/
def Counts (cap : ℕ) (counters : ι → ℕ) (held : Multiset ι) : Prop :=
  ∀ i, counters i = cap ∨ counters i = held.count i

theorem counts_zero (cap : ℕ) : Counts cap (fun _ : ι => 0) 0 := fun _ => Or.inr rfl

theorem Counts.raised {counters : ι → ℕ} {held : Multiset ι} (h : Counts cap counters held) (i : ι) :
    Counts cap (raised cap counters i) (i ::ₘ held) := by
  intro j
  rw [CountingFilter.raised]
  by_cases hcap : counters i = cap
  · rw [if_neg (not_not.mpr hcap)]
    rcases eq_or_ne j i with rfl | hne
    · exact Or.inl hcap
    · rw [Multiset.count_cons_of_ne hne]
      exact h j
  · rw [if_pos hcap]
    rcases eq_or_ne j i with rfl | hne
    · have hcount := (h j).resolve_left hcap
      rw [Function.update_self, Multiset.count_cons_self, hcount]
      exact Or.inr rfl
    · rw [Function.update_of_ne hne, Multiset.count_cons_of_ne hne]
      exact h j

theorem Counts.lowered {counters : ι → ℕ} {held : Multiset ι} {i : ι}
    (h : Counts cap counters (i ::ₘ held)) : Counts cap (lowered cap counters i) held := by
  intro j
  rw [CountingFilter.lowered]
  by_cases hcap : counters i = cap
  · rw [if_neg fun hlow => hlow.1 hcap]
    rcases eq_or_ne j i with rfl | hne
    · exact Or.inl hcap
    · have hj := h j
      rwa [Multiset.count_cons_of_ne hne] at hj
  · have hcount : counters i = held.count i + 1 := by
      rw [(h i).resolve_left hcap, Multiset.count_cons_self]
    rw [if_pos ⟨hcap, hcount ▸ Nat.succ_ne_zero _⟩]
    rcases eq_or_ne j i with rfl | hne
    · rw [Function.update_self, hcount]
      exact Or.inr rfl
    · have hj := h j
      rw [Multiset.count_cons_of_ne hne] at hj
      rwa [Function.update_of_ne hne]

/-- Some slots are held from now on. -/
theorem Counts.raise {counters : ι → ℕ} {held : Multiset ι} (h : Counts cap counters held)
    (slots : List ι) : Counts cap (slots.foldl (CountingFilter.raised cap) counters) (slots + held) := by
  induction slots generalizing counters held with
  | nil => simpa using h
  | cons i slots ih =>
    have hnext := ih (h.raised i)
    rwa [Multiset.add_cons, ← Multiset.cons_add, Multiset.cons_coe] at hnext

/-- Some slots that were held are given back. -/
theorem Counts.lower {counters : ι → ℕ} {held : Multiset ι} {slots : List ι}
    (h : Counts cap counters (slots + held)) :
    Counts cap (slots.foldl (CountingFilter.lowered cap) counters) held := by
  induction slots generalizing counters with
  | nil => simpa using h
  | cons i slots ih =>
    rw [← Multiset.cons_coe, Multiset.cons_add] at h
    exact ih h.lowered

/-- A counter is not zero while its slot is held, and none else is, except at the cap. -/
theorem Counts.ne_zero_iff {counters : ι → ℕ} {held : Multiset ι} (h : Counts cap counters held)
    (hcap : cap ≠ 0) (i : ι) : counters i ≠ 0 ↔ counters i = cap ∨ i ∈ held := by
  rcases h i with hi | hi
  · rw [hi]
    exact iff_of_true hcap (Or.inl rfl)
  · rw [← Multiset.count_ne_zero, ← hi]
    refine ⟨Or.inr, fun hor => ?_⟩
    rcases hor with hor | hor
    · rwa [hor]
    · exact hor

end CtBrowser.Foundations.CountingFilter
