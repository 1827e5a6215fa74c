import Mathlib.Tactic

/-!
# Acyclic Relations

A relation with no cycle, and the one way to add an edge to it: from a point that the
edge's target does not reach.

## Main definitions

- `Acyclic` — no point is related to itself by a chain.
- `withEdge` — a relation with one more edge.

## Main results

- `Acyclic.withEdge` — adding an edge whose target does not reach its source makes no cycle.
-/

namespace CtBrowser.Foundations

open Relation

variable {α : Type*} {r s : α → α → Prop}

/-- No point is related to itself by a chain of one edge or more. -/
def Acyclic (r : α → α → Prop) : Prop := ∀ a, ¬ TransGen r a a

/-- A relation with one more edge. -/
def withEdge (r : α → α → Prop) (a b : α) (x y : α) : Prop := r x y ∨ (x = a ∧ y = b)

/-- Removing edges makes no cycle. -/
theorem Acyclic.mono (h : Acyclic s) (hle : ∀ x y, r x y → s x y) : Acyclic r :=
  fun a hcycle => h a (TransGen.mono hle _ _ hcycle)

/-- What a point reaches lies in every set that holds the point and is closed under the
relation. -/
theorem mem_of_reflTransGen {S : Set α} (hclosed : ∀ x y, x ∈ S → r x y → y ∈ S) {a b : α}
    (ha : a ∈ S) (h : ReflTransGen r a b) : b ∈ S := by
  induction h with
  | refl => exact ha
  | tail _ hstep ih => exact hclosed _ _ ih hstep

/-- An edge that starts out of reach of its target extends no chain from that target. -/
theorem reflTransGen_of_withEdge {a b z : α} (hab : ¬ ReflTransGen r b a)
    (h : ReflTransGen (withEdge r a b) b z) : ReflTransGen r b z := by
  induction h with
  | refl => exact .refl
  | tail _ hstep ih =>
    rcases hstep with hr | ⟨rfl, rfl⟩
    · exact ih.tail hr
    · exact absurd ih hab

/-- A chain with the new edge is one without it, or goes to the edge's source and on from
its target. -/
theorem transGen_withEdge {a b x z : α} (hab : ¬ ReflTransGen r b a)
    (h : TransGen (withEdge r a b) x z) :
    TransGen r x z ∨ (ReflTransGen r x a ∧ ReflTransGen r b z) := by
  induction h with
  | single hstep =>
    rcases hstep with hr | ⟨rfl, rfl⟩
    · exact .inl (.single hr)
    · exact .inr ⟨.refl, .refl⟩
  | tail _ hstep ih =>
    rcases hstep with hr | ⟨rfl, rfl⟩
    · exact ih.imp (fun h => h.tail hr) fun h => ⟨h.1, h.2.tail hr⟩
    · rcases ih with h | h
      · exact .inr ⟨h.to_reflTransGen, .refl⟩
      · exact absurd h.2 hab

/-- Adding an edge whose target does not reach its source makes no cycle. -/
theorem Acyclic.withEdge (h : Acyclic r) {a b : α} (hab : ¬ ReflTransGen r b a) :
    Acyclic (withEdge r a b) := by
  intro x hcycle
  rcases transGen_withEdge hab hcycle with hold | ⟨hxa, hbx⟩
  · exact h x hold
  · exact hab (hbx.trans hxa)

end CtBrowser.Foundations
