import Mathlib.Tactic

/-!
# Range lists and binary search

A set of numbers as a list of inclusive ranges. In the form that sets are kept in, the ranges are in
order and a number at least lies between each and the next, so a number is in the set if the first
range that does not end below it holds it. That range is what a binary search finds.

## Main definitions

- `Covers` — a number is in one of the ranges.
- `Apart` — ranges in order, with gaps between them.
- `lowerBound` — the place where a property stops to hold, found by halving.

## Main results

- `Apart.covers_iff` — the one range that can hold a number.
- `getElem?_lowerBound` — what the halving finds in a list that falls into two parts.
-/

namespace CtBrowser.Foundations

/-! ## Ranges -/

/-- A number is in one of the ranges. -/
def Covers (ranges : List (ℕ × ℕ)) (n : ℕ) : Prop := ∃ r ∈ ranges, r.1 ≤ n ∧ n ≤ r.2

@[simp]
theorem covers_nil (n : ℕ) : ¬ Covers [] n := fun ⟨_, h, _⟩ => List.not_mem_nil h

@[simp]
theorem covers_cons (r : ℕ × ℕ) (ranges : List (ℕ × ℕ)) (n : ℕ) :
    Covers (r :: ranges) n ↔ (r.1 ≤ n ∧ n ≤ r.2) ∨ Covers ranges n := by
  simp [Covers]

@[simp]
theorem covers_append (front back : List (ℕ × ℕ)) (n : ℕ) :
    Covers (front ++ back) n ↔ Covers front n ∨ Covers back n := by
  simp [Covers, or_and_right, exists_or]

/-- The order of the ranges makes no difference. -/
theorem covers_of_perm {l l' : List (ℕ × ℕ)} (h : l.Perm l') (n : ℕ) : Covers l n ↔ Covers l' n :=
  exists_congr fun _ => and_congr_left fun _ => h.mem_iff

/-- Ranges in order, each with a gap before the next. -/
structure Apart (ranges : List (ℕ × ℕ)) : Prop where
  proper : ∀ r ∈ ranges, r.1 ≤ r.2
  gaps : ranges.Pairwise fun a b => a.2 + 1 < b.1

theorem apart_nil : Apart [] := ⟨fun _ h => absurd h List.not_mem_nil, List.Pairwise.nil⟩

theorem apart_cons {r : ℕ × ℕ} {ranges : List (ℕ × ℕ)} :
    Apart (r :: ranges) ↔ r.1 ≤ r.2 ∧ (∀ s ∈ ranges, r.2 + 1 < s.1) ∧ Apart ranges := by
  constructor
  · intro h
    obtain ⟨hr, hranges⟩ := List.forall_mem_cons.mp h.proper
    obtain ⟨hgap, hgaps⟩ := List.pairwise_cons.mp h.gaps
    exact ⟨hr, hgap, hranges, hgaps⟩
  · rintro ⟨hr, hgap, h⟩
    exact ⟨List.forall_mem_cons.mpr ⟨hr, h.proper⟩, List.pairwise_cons.mpr ⟨hgap, h.gaps⟩⟩

theorem apart_snoc {r : ℕ × ℕ} {ranges : List (ℕ × ℕ)} :
    Apart (ranges ++ [r]) ↔ Apart ranges ∧ r.1 ≤ r.2 ∧ ∀ s ∈ ranges, s.2 + 1 < r.1 := by
  constructor
  · intro h
    obtain ⟨hranges, hr⟩ := List.forall_mem_append.mp h.proper
    obtain ⟨hgaps, -, hgap⟩ := List.pairwise_append.mp h.gaps
    have hlast := List.mem_singleton.mpr (rfl : r = r)
    exact ⟨⟨hranges, hgaps⟩, hr r hlast, fun s hs => hgap s hs r hlast⟩
  · rintro ⟨h, hr, hgap⟩
    exact ⟨List.forall_mem_append.mpr ⟨h.proper, List.forall_mem_singleton.mpr hr⟩,
      List.pairwise_append.mpr ⟨h.gaps, List.pairwise_singleton .., fun s hs =>
        List.forall_mem_singleton.mpr (hgap s hs)⟩⟩

/-- Of the ranges that are apart, those that end below a number come first. -/
theorem Apart.below_first {ranges : List (ℕ × ℕ)} (h : Apart ranges) (n : ℕ) :
    ranges.Pairwise fun a b => decide (b.2 < n) = true → decide (a.2 < n) = true := by
  refine h.gaps.imp_of_mem fun {a b} _ hb hgap hbelow => ?_
  have hproper := h.proper b hb
  rw [decide_eq_true_eq] at hbelow ⊢
  omega

/-- The first range that does not end below a number is the only one that can hold it. -/
theorem Apart.covers_iff {ranges : List (ℕ × ℕ)} (h : Apart ranges) (n : ℕ) :
    Covers ranges n ↔ ∃ r, ranges.find? (fun r => !decide (r.2 < n)) = some r ∧ r.1 ≤ n := by
  induction ranges with
  | nil => simp
  | cons r ranges ih =>
    obtain ⟨-, hgap, hranges⟩ := apart_cons.mp h
    rw [covers_cons, ih hranges, List.find?_cons]
    by_cases hbelow : r.2 < n
    · simp [hbelow, not_le.mpr hbelow]
    · have hnone : ¬ ∃ s, ranges.find? (fun s => !decide (s.2 < n)) = some s ∧ s.1 ≤ n := by
        rintro ⟨s, hs, hle⟩
        have := hgap s (List.mem_of_find?_eq_some hs)
        omega
      simp [hbelow, not_lt.mp hbelow, hnone]

/-! ## Binary search -/

section LowerBound

variable {α : Type*} (below : α → Bool) (l : List α)

/-- `std::lower_bound` in `len` elements from the index `first` on: the half that cannot hold the
place is left out. -/
def lowerBoundFrom (first len : ℕ) : ℕ :=
  if len = 0 then first
  else if (l[first + len / 2]?).any below then lowerBoundFrom (first + len / 2 + 1) (len - len / 2 - 1)
  else lowerBoundFrom first (len / 2)
termination_by len

/-- The place of the first element that the property does not hold of. -/
def lowerBound : ℕ := lowerBoundFrom below l 0 l.length

variable {below l}

/-- What is before the part that is searched has the property, and what is after it has not. -/
theorem lowerBoundFrom_spec (h : l.Pairwise fun a b => below b = true → below a = true) {first len : ℕ}
    (hlen : first + len ≤ l.length) (hfront : ∀ a ∈ l.take first, below a = true)
    (hback : ∀ a ∈ l.drop (first + len), below a = false) :
    (∀ a ∈ l.take (lowerBoundFrom below l first len), below a = true) ∧
      ∀ a ∈ l.drop (lowerBoundFrom below l first len), below a = false := by
  induction first, len using lowerBoundFrom.induct below l with
  | case1 first =>
    rw [lowerBoundFrom, if_pos rfl]
    exact ⟨hfront, hback⟩
  | case2 first len hne hmid ih =>
    have hlt : first + len / 2 < l.length := by omega
    rw [lowerBoundFrom, if_neg hne, if_pos hmid]
    rw [List.getElem?_eq_getElem hlt, Option.any_some] at hmid
    refine ih (by omega) (fun a ha => ?_) ?_
    · obtain ⟨i, hi, rfl⟩ := List.mem_take_iff_getElem.mp ha
      rcases Nat.lt_or_eq_of_le (show i ≤ first + len / 2 by omega) with hlt' | rfl
      · exact List.pairwise_iff_getElem.mp h i (first + len / 2) (by omega) hlt hlt' hmid
      · exact hmid
    · rwa [show first + len / 2 + 1 + (len - len / 2 - 1) = first + len by omega]
  | case3 first len hne hmid ih =>
    rw [lowerBoundFrom, if_neg hne, if_neg hmid]
    have hlt : first + len / 2 < l.length := by omega
    refine ih (by omega) hfront fun a ha => ?_
    obtain ⟨i, hi, rfl⟩ := List.mem_drop_iff_getElem.mp ha
    have hmid' : below l[first + len / 2] = false := by
      simpa [List.getElem?_eq_getElem hlt] using hmid
    rcases Nat.eq_zero_or_pos i with rfl | hpos
    · exact hmid'
    · refine Bool.eq_false_iff.mpr fun hbelow => Bool.eq_false_iff.mp hmid' ?_
      exact List.pairwise_iff_getElem.mp h _ _ hlt (by omega) (by omega) hbelow

/-- The halving finds what a search from the front finds. -/
theorem getElem?_lowerBound (h : l.Pairwise fun a b => below b = true → below a = true) :
    l[lowerBound below l]? = l.find? fun a => !below a := by
  obtain ⟨hfront, hback⟩ := lowerBoundFrom_spec h (by omega : 0 + l.length ≤ l.length) (by simp) (by simp)
  rw [lowerBound, ← List.head?_drop]
  generalize lowerBoundFrom below l 0 l.length = i at hfront hback ⊢
  have hnone : (l.take i).find? (fun a => !below a) = none :=
    List.find?_eq_none.mpr fun a ha => by simp [hfront a ha]
  conv_rhs => rw [← List.take_append_drop i l, List.find?_append, hnone, Option.none_or]
  cases hdrop : l.drop i with
  | nil => rfl
  | cons a rest =>
    rw [List.head?_cons, List.find?_cons, hback a (by rw [hdrop]; exact List.mem_cons_self ..)]
    rfl

end LowerBound

end CtBrowser.Foundations
