import Mathlib.Tactic

/-!
# Marking

Marking a graph from some of its elements with a worklist: an element gets its mark when it is put
on the list, and its edges are followed when it is taken off. When the list is empty, what has a
mark is what had one before and what can be reached from the elements that were marked.

## Main definitions

- `Marking` — the marks and the worklist.
- `Marking.push`, `Marking.drain`, `Marking.markAll` — the steps, the loop, and marking from roots.
- `Reaches` — the paths of the graph.

## Main results

- `Marking.drain_work` — the loop ends.
- `Marking.markAll_spec` — what has a mark once roots have been marked.
-/

namespace CtBrowser.Foundations

/-- What has a mark, and whose edges are still to be followed. -/
structure Marking (α : Type) where
  marked : α → Bool
  work : List α

section Graph

variable {α : Type} (edges : α → List α)

/-- A path along the edges. -/
def Reaches : α → α → Prop := Relation.ReflTransGen fun a b => b ∈ edges a

/-- A set that no edge leaves. -/
def Closed (P : α → Prop) : Prop := ∀ a, P a → ∀ b ∈ edges a, P b

variable {edges}

/-- No path leaves such a set. -/
theorem Closed.of_reaches {P : α → Prop} (hP : Closed edges P) {a b : α} (h : Reaches edges a b) (ha : P a) :
    P b := by
  induction h with
  | refl => exact ha
  | tail _ hedge ih => exact hP _ ih _ hedge

/-- What can be reached from one of some elements. -/
def ReachedFrom (edges : α → List α) (roots : List α) (x : α) : Prop := ∃ a ∈ roots, Reaches edges a x

theorem closed_reachedFrom (edges : α → List α) (roots : List α) : Closed edges (ReachedFrom edges roots) := by
  rintro a ⟨r, hr, ha⟩ b hb
  exact ⟨r, hr, ha.tail hb⟩

end Graph

namespace Marking

variable {α : Type} [DecidableEq α] {edges : α → List α} {nodes : List α}

/-- An element put on the list with its mark, unless it has one. -/
def push (m : Marking α) (a : α) : Marking α :=
  if m.marked a then m else ⟨Function.update m.marked a true, a :: m.work⟩

/-- Elements put on the list one after the other. -/
def pushAll (m : Marking α) (as : List α) : Marking α := as.foldl push m

/-- The loop: an element is taken off, and those its edges lead to are put on. -/
def drain (edges : α → List α) : ℕ → Marking α → Marking α
  | 0, m => m
  | fuel + 1, m =>
    match m.work with
    | [] => m
    | a :: rest => drain edges fuel (pushAll ⟨m.marked, rest⟩ (edges a))

/-- An element marked with all it leads to. -/
def mark (edges : α → List α) (fuel : ℕ) (m : Marking α) (a : α) : Marking α := drain edges fuel (m.push a)

/-- Elements marked one after the other. -/
def markAll (edges : α → List α) (fuel : ℕ) (m : Marking α) (as : List α) : Marking α :=
  as.foldl (mark edges fuel) m

/-! ## One step -/

@[simp]
theorem push_marked (m : Marking α) (a x : α) :
    (m.push a).marked x = true ↔ m.marked x = true ∨ x = a := by
  rw [push]
  split_ifs with h
  · exact ⟨Or.inl, fun hx => hx.elim id fun hx => hx ▸ h⟩
  · by_cases hx : x = a
    · subst hx
      simp
    · simp [hx]

/-- What is on the list after a push: what was, or the element it put there. -/
theorem mem_push_work (m : Marking α) (a x : α) :
    x ∈ (m.push a).work ↔ x ∈ m.work ∨ (x = a ∧ m.marked a = false) := by
  rw [push]
  split_ifs with h
  · simp [h]
  · simp [h, or_comm]

theorem pushAll_marked (m : Marking α) (as : List α) (x : α) :
    (m.pushAll as).marked x = true ↔ m.marked x = true ∨ x ∈ as := by
  induction as generalizing m with
  | nil => simp [pushAll]
  | cons a as ih =>
    rw [pushAll, List.foldl_cons, ← pushAll, ih, push_marked, List.mem_cons]
    tauto

theorem pushAll_work_of_mem (m : Marking α) (as : List α) {x : α} (h : x ∈ m.work) : x ∈ (m.pushAll as).work := by
  induction as generalizing m with
  | nil => exact h
  | cons a as ih => exact ih (m.push a) ((mem_push_work m a x).mpr (Or.inl h))

/-- What is on the list is what was, or what was put there. -/
theorem mem_of_pushAll_work (m : Marking α) (as : List α) {x : α} (h : x ∈ (m.pushAll as).work) :
    x ∈ m.work ∨ x ∈ as := by
  induction as generalizing m with
  | nil => exact Or.inl h
  | cons a as ih =>
    rcases ih (m.push a) h with hx | hx
    · exact ((mem_push_work m a x).mp hx).imp_right fun h => List.mem_cons.mpr (Or.inl h.1)
    · exact Or.inr (List.mem_cons_of_mem a hx)

/-- What a push marks it puts on the list. -/
theorem pushAll_work (m : Marking α) (as : List α) (x : α) (h : (m.pushAll as).marked x = true) :
    m.marked x = true ∨ x ∈ (m.pushAll as).work := by
  induction as generalizing m with
  | nil => exact Or.inl h
  | cons a as ih =>
    rcases ih (m.push a) h with hx | hx
    · rcases (push_marked m a x).mp hx with hx | rfl
      · exact Or.inl hx
      · cases hm : m.marked x with
        | true => exact Or.inl rfl
        | false => exact Or.inr (pushAll_work_of_mem _ as ((mem_push_work m x x).mpr (Or.inr ⟨rfl, hm⟩)))
    · exact Or.inr hx

/-! ## The loop ends -/

/-- How far the loop has to go yet: an unmarked element may still be put on the list, and what is on
it taken off. -/
def left (nodes : List α) (m : Marking α) : ℕ := 2 * (nodes.filter fun a => !m.marked a).length + m.work.length

theorem left_push {m : Marking α} {a : α} (ha : a ∈ nodes) : left nodes (m.push a) ≤ left nodes m := by
  rw [push]
  split_ifs with h
  · exact le_rfl
  · -- one element fewer is unmarked
    have hfewer : (nodes.filter fun x => !Function.update m.marked a true x).length <
        (nodes.filter fun x => !m.marked x).length := by
      have hsplit : (nodes.filter fun x => !Function.update m.marked a true x) =
          (nodes.filter fun x => !m.marked x).filter fun x => x ≠ a := by
        rw [List.filter_filter]
        refine List.filter_congr fun x _ => ?_
        by_cases hx : x = a
        · subst hx
          simp
        · simp [hx]
      rw [hsplit]
      refine List.length_filter_lt_length_iff_exists.mpr ⟨a, List.mem_filter.mpr ⟨ha, ?_⟩, ?_⟩
      · simp [h]
      · simp
    rw [left, left, List.length_cons]
    dsimp only
    omega

theorem left_pushAll {m : Marking α} {as : List α} (has : ∀ a ∈ as, a ∈ nodes) :
    left nodes (m.pushAll as) ≤ left nodes m := by
  induction as generalizing m with
  | nil => exact le_rfl
  | cons a as ih =>
    obtain ⟨ha, has⟩ := List.forall_mem_cons.mp has
    exact (ih has).trans (left_push ha)

/-- Marks and a list within the elements. -/
def Within (nodes : List α) (m : Marking α) : Prop := ∀ x, m.marked x = true ∨ x ∈ m.work → x ∈ nodes

theorem Within.push {m : Marking α} (h : Within nodes m) {a : α} (ha : a ∈ nodes) : Within nodes (m.push a) := by
  rintro x (hx | hx)
  · rcases (push_marked m a x).mp hx with hx | rfl
    · exact h x (Or.inl hx)
    · exact ha
  · rcases (mem_push_work m a x).mp hx with hx | ⟨rfl, -⟩
    · exact h x (Or.inr hx)
    · exact ha

theorem Within.pushAll {m : Marking α} (h : Within nodes m) {as : List α} (has : ∀ a ∈ as, a ∈ nodes) :
    Within nodes (m.pushAll as) := by
  induction as generalizing m with
  | nil => exact h
  | cons a as ih =>
    obtain ⟨ha, has⟩ := List.forall_mem_cons.mp has
    exact ih (h.push ha) has

/-- The loop ends once it has been given one turn for each it has left. -/
theorem drain_work (hedges : ∀ a ∈ nodes, ∀ b ∈ edges a, b ∈ nodes) {fuel : ℕ} {m : Marking α}
    (hm : Within nodes m) (hfuel : left nodes m < fuel) :
    (drain edges fuel m).work = [] ∧ Within nodes (drain edges fuel m) := by
  induction fuel generalizing m with
  | zero => omega
  | succ fuel ih =>
    rw [drain]
    cases hwork : m.work with
    | nil => exact ⟨hwork, hm⟩
    | cons a rest =>
      have ha : a ∈ nodes := hm a (Or.inr (hwork ▸ List.mem_cons_self ..))
      have hrest : Within nodes ⟨m.marked, rest⟩ := fun x hx =>
        hm x (hx.imp_right fun hx => hwork ▸ List.mem_cons_of_mem a hx)
      have hless : left nodes ⟨m.marked, rest⟩ < left nodes m := by
        rw [left, left, hwork, List.length_cons]
        exact Nat.lt_succ_self _
      refine ih (hrest.pushAll (hedges a ha)) ?_
      exact (left_pushAll (hedges a ha)).trans_lt (hless.trans_le (Nat.le_of_lt_succ hfuel))

/-! ## What has a mark -/

/-- What has a mark is on the list, or all it leads to has one. -/
def Frontier (edges : α → List α) (m : Marking α) : Prop :=
  ∀ a, m.marked a = true → a ∈ m.work ∨ ∀ b ∈ edges a, m.marked b = true

theorem Frontier.push {m : Marking α} (h : Frontier edges m) (a : α) : Frontier edges (m.push a) := by
  intro x hx
  rcases (push_marked m a x).mp hx with hx' | rfl
  · rcases h x hx' with hwork | hall
    · exact Or.inl ((mem_push_work m a x).mpr (Or.inl hwork))
    · exact Or.inr fun b hb => (push_marked m a b).mpr (Or.inl (hall b hb))
  · cases hm : m.marked x with
    | false => exact Or.inl ((mem_push_work m x x).mpr (Or.inr ⟨rfl, hm⟩))
    | true =>
      rcases h x hm with hwork | hall
      · exact Or.inl ((mem_push_work m x x).mpr (Or.inl hwork))
      · exact Or.inr fun b hb => (push_marked m x b).mpr (Or.inl (hall b hb))

/-- Taking an element off the list and putting on what it leads to. -/
theorem Frontier.step {m : Marking α} (h : Frontier edges m) {a : α} {rest : List α} (hwork : m.work = a :: rest) :
    Frontier edges (pushAll ⟨m.marked, rest⟩ (edges a)) := by
  intro x hx
  rcases pushAll_work _ _ x hx with hold | hnew
  · rcases h x hold with hx' | hall
    · rw [hwork] at hx'
      rcases List.mem_cons.mp hx' with rfl | hx'
      · exact Or.inr fun b hb => (pushAll_marked _ _ b).mpr (Or.inr hb)
      · exact Or.inl (pushAll_work_of_mem _ _ hx')
    · exact Or.inr fun b hb => (pushAll_marked _ _ b).mpr (Or.inl (hall b hb))
  · exact Or.inl hnew

/-- The loop leaves that so, takes no mark away, and puts none outside a set no edge leaves. -/
theorem drain_spec (fuel : ℕ) {m : Marking α} (h : Frontier edges m) :
    Frontier edges (drain edges fuel m) ∧ (∀ x, m.marked x = true → (drain edges fuel m).marked x = true) ∧
      ∀ P : α → Prop, Closed edges P → (∀ x, m.marked x = true ∨ x ∈ m.work → P x) →
        ∀ x, (drain edges fuel m).marked x = true → P x := by
  induction fuel generalizing m with
  | zero => exact ⟨h, fun _ => id, fun _ _ hm x hx => hm x (Or.inl hx)⟩
  | succ fuel ih =>
    rw [drain]
    cases hwork : m.work with
    | nil => exact ⟨h, fun _ => id, fun _ _ hm x hx => hm x (Or.inl hx)⟩
    | cons a rest =>
      obtain ⟨hfrontier, hmono, hsound⟩ := ih (h.step hwork)
      refine ⟨hfrontier, fun x hx => hmono x ((pushAll_marked _ _ x).mpr (Or.inl hx)), fun P hP hm => ?_⟩
      have ha : P a := hm a (Or.inr (List.mem_cons_self ..))
      refine hsound P hP fun x hx => ?_
      rcases hx with hx | hx
      · rcases (pushAll_marked _ _ x).mp hx with hx | hx
        · exact hm x (Or.inl hx)
        · exact hP a ha x hx
      · rcases mem_of_pushAll_work _ _ hx with hx | hx
        · exact hm x (Or.inr (List.mem_cons_of_mem a hx))
        · exact hP a ha x hx

/-! ## Marking from roots -/

/-- Nothing is left on the list, and all that a mark leads to has one. -/
structure Settled (edges : α → List α) (m : Marking α) : Prop where
  work : m.work = []
  closed : Closed edges fun a => m.marked a = true

omit [DecidableEq α] in
theorem Settled.frontier {m : Marking α} (h : Settled edges m) : Frontier edges m :=
  fun a ha => Or.inr (h.closed a ha)

/-- The turns that are enough for marking one element. -/
def enough (nodes : List α) : ℕ := 2 * nodes.length + 1

/-- Marking one element ends, and marks it and what can be reached from it. -/
theorem mark_spec (hedges : ∀ a ∈ nodes, ∀ b ∈ edges a, b ∈ nodes) {m : Marking α} (hm : Settled edges m)
    (hin : Within nodes m) {a : α} (ha : a ∈ nodes) :
    Settled edges (mark edges (enough nodes) m a) ∧ Within nodes (mark edges (enough nodes) m a) ∧
      ∀ x, (mark edges (enough nodes) m a).marked x = true ↔ m.marked x = true ∨ Reaches edges a x := by
  have hleft : left nodes (m.push a) < enough nodes := by
    refine (left_push ha).trans_lt ?_
    have := List.length_filter_le (fun a => !m.marked a) nodes
    rw [left, enough, hm.work, List.length_nil]
    omega
  obtain ⟨hwork, hwithin⟩ := drain_work hedges (hin.push ha) hleft
  obtain ⟨hfrontier, hmono, hsound⟩ := drain_spec (enough nodes) (hm.frontier.push a)
  have hclosed : Closed edges fun x => (mark edges (enough nodes) m a).marked x = true := by
    intro x hx
    refine (hfrontier x hx).resolve_left fun h => ?_
    rw [hwork] at h
    exact List.not_mem_nil h
  refine ⟨⟨hwork, hclosed⟩, hwithin, fun x => ⟨hsound (fun x => m.marked x = true ∨ Reaches edges a x) ?_ ?_ x, ?_⟩⟩
  · rintro x (hx | hx) b hb
    · exact Or.inl (hm.closed x hx b hb)
    · exact Or.inr (hx.tail hb)
  · rintro x (hx | hx)
    · rcases (push_marked m a x).mp hx with hx | rfl
      · exact Or.inl hx
      · exact Or.inr Relation.ReflTransGen.refl
    · rcases (mem_push_work m a x).mp hx with hx | ⟨rfl, -⟩
      · rw [hm.work] at hx
        exact absurd hx List.not_mem_nil
      · exact Or.inr Relation.ReflTransGen.refl
  · rintro (hx | hx)
    · exact hmono x ((push_marked m a x).mpr (Or.inl hx))
    · exact hclosed.of_reaches hx (hmono a ((push_marked m a a).mpr (Or.inr rfl)))

/-- Marking from roots ends, and marks what can be reached from one of them. -/
theorem markAll_spec (hedges : ∀ a ∈ nodes, ∀ b ∈ edges a, b ∈ nodes) {roots : List α}
    (hroots : ∀ a ∈ roots, a ∈ nodes) {m : Marking α} (hm : Settled edges m) (hin : Within nodes m) :
    Settled edges (markAll edges (enough nodes) m roots) ∧
      ∀ x, (markAll edges (enough nodes) m roots).marked x = true ↔
        m.marked x = true ∨ ReachedFrom edges roots x := by
  induction roots generalizing m with
  | nil =>
    refine ⟨hm, fun x => ⟨Or.inl, ?_⟩⟩
    rintro (hx | ⟨a, ha, -⟩)
    · exact hx
    · exact absurd ha List.not_mem_nil
  | cons a roots ih =>
    obtain ⟨ha, hroots⟩ := List.forall_mem_cons.mp hroots
    obtain ⟨hsettled, hwithin, hmarked⟩ := mark_spec hedges hm hin ha
    obtain ⟨hdone, hall⟩ := ih hroots hsettled hwithin
    refine ⟨hdone, fun x => (hall x).trans ?_⟩
    rw [hmarked, or_assoc]
    refine or_congr_right ?_
    simp only [ReachedFrom, List.mem_cons, exists_eq_or_imp]

end Marking

end CtBrowser.Foundations
