import Mathlib.Tactic
import Mathlib.Data.List.Nodup

/-!
# Two Lists that Agree on What They Share

The elements that two lists have in common stand in both in the same order, and each of them
once. What happens to one list or to both, an element taken out, an element put in, an element
renamed, is followed by a rule that says when the agreement stays.

## Main definitions

- `SharedOrder` — the agreement.

## Main results

- `SharedOrder.sublist` — what is left of the two lists agrees.
- `SharedOrder.append` — lists joined end to end agree when their parts do not cross.
- `SharedOrder.split_left`, `SharedOrder.split_right` — nothing crosses a shared element.
-/

namespace CtBrowser.Foundations

variable {α : Type} [DecidableEq α]

/-- The elements that two lists share stand in both in one order, each of them once. -/
def SharedOrder (m l : List α) : Prop :=
  m.filter (· ∈ l) = l.filter (· ∈ m) ∧ (m.filter (· ∈ l)).Nodup

namespace SharedOrder

variable {m l m' l' m₁ m₂ l₁ l₂ : List α} {x y z : α}

theorem symm (h : SharedOrder m l) : SharedOrder l m := ⟨h.1.symm, h.1 ▸ h.2⟩

theorem nil_right (m : List α) : SharedOrder m [] := by simp [SharedOrder]

theorem nil_left (l : List α) : SharedOrder [] l := (nil_right l).symm

theorem sublist_right (h : SharedOrder m l) (hl : l'.Sublist l) : SharedOrder m l' := by
  have hshared : (m.filter (· ∈ l')).Sublist (m.filter (· ∈ l)) :=
    List.monotone_filter_right m fun x hx => by simpa using hl.subset (by simpa using hx)
  have hkept : (l'.filter (· ∈ m)).Sublist (m.filter (· ∈ l)) := h.1 ▸ hl.filter _
  have hnodup := h.2
  refine ⟨(List.Nodup.perm_iff_eq_of_sublist hnodup hshared hkept).mp ?_, hnodup.sublist hshared⟩
  rw [List.perm_ext_iff_of_nodup (hnodup.sublist hshared) (hnodup.sublist hkept)]
  intro x
  simp [and_comm]

/-- What is left of two lists that agree agrees. -/
theorem sublist (h : SharedOrder m l) (hm : m'.Sublist m) (hl : l'.Sublist l) :
    SharedOrder m' l' :=
  ((h.sublist_right hl).symm.sublist_right hm).symm

/-- Two pairs of lists joined end to end, when nothing of one pair is on the other side of the
other. -/
theorem append (h₁ : SharedOrder m₁ l₁) (h₂ : SharedOrder m₂ l₂) (hd : m₁.Disjoint l₂)
    (hd' : m₂.Disjoint l₁) : SharedOrder (m₁ ++ m₂) (l₁ ++ l₂) := by
  have hm₁ : m₁.filter (· ∈ l₁ ++ l₂) = m₁.filter (· ∈ l₁) :=
    List.filter_congr fun x hx => by simpa using fun hx' => absurd hx' (hd hx)
  have hm₂ : m₂.filter (· ∈ l₁ ++ l₂) = m₂.filter (· ∈ l₂) :=
    List.filter_congr fun x hx => by simpa using fun hx' => absurd hx' (hd' hx)
  have hl₁ : l₁.filter (· ∈ m₁ ++ m₂) = l₁.filter (· ∈ m₁) :=
    List.filter_congr fun x hx => by simpa using fun hx' => absurd hx (hd' hx')
  have hl₂ : l₂.filter (· ∈ m₁ ++ m₂) = l₂.filter (· ∈ m₂) :=
    List.filter_congr fun x hx => by simpa using fun hx' => absurd hx (hd hx')
  constructor
  · rw [List.filter_append, List.filter_append, hm₁, hm₂, hl₁, hl₂, h₁.1, h₂.1]
  · rw [List.filter_append, hm₁, hm₂]
    refine List.Nodup.append h₁.2 h₂.2 fun x hx hx' => ?_
    simp only [List.mem_filter, decide_eq_true_eq] at hx hx'
    exact hd hx.1 hx'.2

/-- An element put at the end of one list that the other does not have. -/
theorem concat_right (h : SharedOrder m l) (hx : x ∉ m) : SharedOrder m (l ++ [x]) := by
  have hjoined := h.append (nil_left [x]) (by simpa using hx) (by simp)
  rwa [List.append_nil] at hjoined

theorem singleton (x : α) : SharedOrder [x] [x] := by simp [SharedOrder]

/-- A new element put at the end of both lists. -/
theorem concat (h : SharedOrder m l) (hm : x ∉ m) (hl : x ∉ l) :
    SharedOrder (m ++ [x]) (l ++ [x]) :=
  h.append (singleton x) (by simpa using hm) (by simpa using hl)

omit [DecidableEq α] in
/-- Two shared elements, one before the other, in what a list shares. -/
theorem pair_sublist {q : α → Bool} (hx : x ∈ m₁) (hy : y ∈ m₂) (hqx : q x) (hqy : q y) :
    [x, y].Sublist ((m₁ ++ m₂).filter q) := by
  have hpair : [x, y].Sublist (m₁ ++ m₂) :=
    (List.singleton_sublist.mpr hx).append (List.singleton_sublist.mpr hy)
  simpa [hqx, hqy] using hpair.filter q

/-- What stands before a shared element in one list does not stand after it in the other. -/
theorem split_left (h : SharedOrder (m₁ ++ x :: m₂) (l₁ ++ x :: l₂)) : m₁.Disjoint (x :: l₂) := by
  intro y hy hy'
  have hyx : [y, x].Sublist ((m₁ ++ x :: m₂).filter (· ∈ l₁ ++ x :: l₂)) :=
    pair_sublist hy List.mem_cons_self (by simpa using Or.inr (List.mem_cons.mp hy')) (by simp)
  have hne : y ≠ x := by simpa using h.2.sublist hyx
  have hyl : y ∈ l₂ := (List.mem_cons.mp hy').resolve_left hne
  -- the other list has the two the other way round
  have hxy : [x, y].Sublist ((l₁ ++ x :: l₂).filter (· ∈ m₁ ++ x :: m₂)) := by
    rw [List.append_cons l₁ x l₂]
    exact pair_sublist (by simp) hyl (by simp) (by simp [hy])
  rw [← h.1] at hxy
  have heq := (List.Nodup.perm_iff_eq_of_sublist h.2 hyx hxy).mp (List.Perm.swap x y [])
  exact hne (List.cons.inj heq).1

/-- What stands after a shared element in one list does not stand before it in the other. -/
theorem split_right (h : SharedOrder (m₁ ++ x :: m₂) (l₁ ++ x :: l₂)) :
    m₂.Disjoint (l₁ ++ [x]) := by
  intro y hy hy'
  rcases List.mem_append.mp hy' with hyl | hyx
  · exact h.symm.split_left hyl (List.mem_cons_of_mem x hy)
  · -- the element would be shared twice
    obtain rfl := List.mem_singleton.mp hyx
    have htwice : [y, y].Sublist ((m₁ ++ y :: m₂).filter (· ∈ l₁ ++ y :: l₂)) := by
      rw [List.append_cons m₁ y m₂]
      exact pair_sublist (by simp) hy (by simp) (by simp)
    simpa using h.2.sublist htwice

/-- A shared element renamed in both lists. -/
theorem rename (h : SharedOrder (m₁ ++ x :: m₂) (l₁ ++ x :: l₂)) (hm : y ∉ m₁ ++ m₂)
    (hl : y ∉ l₁ ++ l₂) : SharedOrder (m₁ ++ y :: m₂) (l₁ ++ y :: l₂) := by
  simp only [List.mem_append, not_or] at hm hl
  have hfront : SharedOrder m₁ l₁ :=
    h.sublist (List.sublist_append_left _ _) (List.sublist_append_left _ _)
  have hback : SharedOrder m₂ l₂ :=
    h.sublist ((List.sublist_cons_self x m₂).trans (List.sublist_append_right _ _))
      ((List.sublist_cons_self x l₂).trans (List.sublist_append_right _ _))
  have hafter : SharedOrder (y :: m₂) (y :: l₂) :=
    (singleton y).append hback (by simpa using hl.2) (by simpa using hm.2)
  refine hfront.append hafter ?_ ?_
  · exact List.disjoint_cons_right.mpr ⟨hm.1, fun z hz hz' => h.split_left hz (.tail _ hz')⟩
  · exact List.disjoint_cons_left.mpr
      ⟨hl.1, fun z hz hz' => h.split_right hz (List.mem_append_left _ hz')⟩

/-- A new element put into both lists where nothing crosses, after one that only the second list
has. -/
theorem insert_after (h : SharedOrder (m₁ ++ m₂) (l₁ ++ z :: l₂)) (hd : m₁.Disjoint l₂)
    (hd' : m₂.Disjoint l₁) (hz : z ∉ m₁ ++ m₂) (hm : y ∉ m₁ ++ m₂) (hl : y ∉ l₁ ++ z :: l₂) :
    SharedOrder (m₁ ++ y :: m₂) (l₁ ++ z :: y :: l₂) := by
  simp only [List.mem_append, List.mem_cons, not_or] at hz hm hl
  have hfront : SharedOrder m₁ (l₁ ++ [z]) :=
    (h.sublist (List.sublist_append_left _ _) (List.sublist_append_left _ _)).concat_right hz.1
  have hback : SharedOrder m₂ l₂ :=
    h.sublist (List.sublist_append_right _ _)
      ((List.sublist_cons_self z l₂).trans (List.sublist_append_right _ _))
  have hafter : SharedOrder (y :: m₂) (y :: l₂) :=
    (singleton y).append hback (by simpa using hl.2.2) (by simpa using hm.2)
  rw [List.append_cons l₁ z]
  refine hfront.append hafter (List.disjoint_cons_right.mpr ⟨hm.1, hd⟩) ?_
  rw [List.disjoint_cons_left, List.disjoint_append_right, List.disjoint_singleton]
  exact ⟨by simpa using ⟨hl.1, hl.2.1⟩, hd', hz.2⟩

end SharedOrder

end CtBrowser.Foundations
