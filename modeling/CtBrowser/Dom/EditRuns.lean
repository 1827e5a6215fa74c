import CtBrowser.Dom.EditLog

/-!
# Writes as Runs of Edits

The document's own writes, once accepted, are runs of logged edits: a move is a removal and an
insertion, and a new document element is a removal, the old one's leaving and the placing.

## Main results

- `exists_edits_of_writes` — a run of writes is a run of admissible edits, and keeps the tree well formed.
-/

namespace CtBrowser.Dom.Document

open Relation

theorem parentChain_detach (d : Document) (child : NodeId) (fuel : ℕ) (id x : NodeId)
    (h : x ∈ (d.detach child).parentChain fuel id) : x ∈ d.parentChain fuel id := by
  induction fuel generalizing id with
  | zero => exact h
  | succ fuel ih =>
    rw [parentChain, List.mem_cons] at h ⊢
    refine h.imp_right fun h => ?_
    cases hparent : (d.detach child).parentOf id with
    | none => simp [hparent] at h
    | some p =>
      rw [parentOf_of_detach hparent]
      exact ih p (by simpa [hparent] using h)

theorem parentOf_detach_self {d : Document} (h : d.WellFormed) (child : NodeId) :
    (d.detach child).parentOf child = none := by
  cases hparent : d.parentOf child with
  | none => simp [detach, hparent]
  | some p => rw [h.parentOf_detach hparent, if_pos rfl]

theorem mayHold_detach {d : Document} (h : d.WellFormed) (child x : NodeId) :
    (d.detach child).mayHold x = d.mayHold x := by
  cases hparent : d.parentOf child with
  | none => simp [detach, hparent]
  | some p => exact h.mayHold_detach hparent x

theorem isSome_find_detach {d : Document} (child x : NodeId) :
    ((d.detach child).find x).isSome = (d.find x).isSome := by
  rw [Bool.eq_iff_iff]
  simp [find, isSome_getElem?]

theorem allAdmissible_move {d : Document} (h : d.WellFormed) {parent child : NodeId} {index : ℕ}
    (hok : d.insertionError parent child = none) (hholds : d.mayHold parent)
    (hplace : ¬(child = d.root ∧ parent = d.documentNode))
    (hindex : index ≤ ((d.detach child).childrenOf parent).length) :
    d.AllAdmissible [.remove child, .insert parent child index] ∧
      (d.detach child).attach parent child index =
        d.applyAll [.remove child, .insert parent child index] := by
  have hsides := sides_detach d child
  simp only [sides, Prod.mk.injEq] at hsides
  obtain ⟨hroot, hnode, -, -⟩ := hsides
  have hthere := (lt_of_insertionError hok).2
  have habove : child ∉ d.inclusiveAncestors parent := by
    intro hmem
    rw [insertionError] at hok
    split_ifs at hok
  refine ⟨⟨trivial, ⟨?_, ?_, parentOf_detach_self h child, ?_, ?_, hindex⟩, trivial⟩, rfl⟩
  · show ((d.detach child).find child).isSome
    rw [isSome_find_detach]
    simpa [find] using hthere
  · show (d.detach child).mayHold parent
    rwa [mayHold_detach h]
  · show ¬(child = (d.detach child).root ∧ parent = (d.detach child).documentNode)
    rwa [hroot, hnode]
  · show child ∉ (d.detach child).inclusiveAncestors parent
    rw [inclusiveAncestors, length_nodes_detach]
    intro hmem
    exact habove (parentChain_detach d child _ parent child hmem)

theorem exists_edits_appendChild {d d' : Document} (h : d.WellFormed) {parent child : NodeId}
    (hok : d.appendChild parent child = .ok d') (hholds : d.mayHold parent)
    (hplace : ¬(child = d.root ∧ parent = d.documentNode)) :
    ∃ edits, d.AllAdmissible edits ∧ d' = d.applyAll edits := by
  rw [appendChild] at hok
  split at hok
  · cases hok
  · next hnone =>
    obtain rfl := Except.ok.inj hok
    obtain ⟨hadm, heq⟩ := allAdmissible_move h hnone hholds hplace le_rfl
    exact ⟨_, hadm, heq⟩

theorem exists_edits_insertBefore {d d' : Document} (h : d.WellFormed) {parent child : NodeId}
    {before : Option NodeId} (hok : d.insertBefore parent child before = .ok d')
    (hholds : d.mayHold parent) (hplace : ¬(child = d.root ∧ parent = d.documentNode)) :
    ∃ edits, d.AllAdmissible edits ∧ d' = d.applyAll edits := by
  rw [insertBefore] at hok
  split at hok
  · cases hok
  · next hnone =>
    obtain rfl := Except.ok.inj hok
    refine ⟨_, allAdmissible_move h hnone hholds hplace ?_⟩
    generalize (if before = some child then following (d.childrenOf parent) child
      else before) = reference
    cases reference with
    | none => exact le_rfl
    | some one => exact List.idxOf_le_length

theorem set_idxOf {items : List NodeId} (hnodup : items.Nodup) {old : NodeId} (id : NodeId)
    (hold : old ∈ items) :
    items.set (items.idxOf old) id =
      (items.filter (· ≠ old)).insertIdx (items.idxOf old) id := by
  induction items with
  | nil => simp at hold
  | cons item rest ih =>
    obtain ⟨hitem, hrest⟩ := List.nodup_cons.mp hnodup
    by_cases heq : item = old
    · subst heq
      have hall : rest.filter (· ≠ item) = rest := by
        refine List.filter_eq_self.mpr fun x hx => ?_
        simp only [decide_eq_true_eq]
        rintro rfl
        exact hitem hx
      simp only [List.idxOf_cons_self, List.set_cons_zero, List.insertIdx_zero]
      rw [List.filter_cons_of_neg (by simp), hall]
    · have hmem : old ∈ rest := by
        rcases List.mem_cons.mp hold with rfl | hmem
        · exact absurd rfl heq
        · exact hmem
      rw [List.idxOf_cons_ne _ heq, List.filter_cons_of_pos (by simpa using heq),
        List.set_cons_succ, List.insertIdx_succ_cons, ih hrest hmem]

theorem detach_with_root (d : Document) (child id : NodeId) :
    ({ d with root := id } : Document).detach child = { d.detach child with root := id } := by
  have hparentOf : ({ d with root := id } : Document).parentOf child = d.parentOf child := rfl
  have hfind : ∀ x, ({ d with root := id } : Document).find x = d.find x := fun _ => rfl
  cases hparent : d.parentOf child with
  | none => simp only [detach, hparentOf, hparent]
  | some p =>
    cases hp : d.find p with
    | none => simp only [detach, hparentOf, hparent, hfind, hp]
    | some n =>
      simp only [detach, hparentOf, hparent, hfind, hp, noteEdit]
      split <;> rfl

theorem modify_congr {nodes : List Node} {id : NodeId} {n : Node} (hn : nodes[id]? = some n)
    {f g : Node → Node} (hfg : f n = g n) : nodes.modify id f = nodes.modify id g := by
  apply List.ext_getElem?
  intro i
  rw [List.getElem?_modify, List.getElem?_modify]
  by_cases hi : id = i
  · subst hi
    simp [hn, hfg]
  · simp [hi]

/-- Taking the place of the document element, of a document whose child list the element is
not in. -/
theorem exists_edits_takePlace {d : Document} (h : d.WellFormed) {id : NodeId}
    (before : Option NodeId) (hthere : (d.find id).isSome) (hid : id ≠ d.documentNode)
    (hroot : id ≠ d.root) (hnone : d.parentOf id = none) :
    ∃ edits, d.AllAdmissible edits ∧
      ({ d with root := id } : Document).takePlace d.root id before = d.applyAll edits := by
  have hfresh : id ∉ d.childrenOf d.documentNode := by
    intro hmem
    rcases h.parentOf_of_mem hmem with hp | hp
    · simp [hnone] at hp
    · exact hroot hp.1
  have hitems : (({ d with root := id } : Document).childrenOf d.documentNode).filter (· ≠ id) =
      d.childrenOf d.documentNode := by
    refine List.filter_eq_self.mpr fun x hx => ?_
    simp only [decide_eq_true_eq]
    rintro rfl
    exact hfresh hx
  obtain ⟨n, hn, -⟩ := isSome_find_of_mayHold h.documentNode
  by_cases hne : d.root = d.documentNode
  · have hmem : d.root ∉ d.childrenOf d.documentNode := by
      intro hmem
      rcases (h.mem_childrenOf_documentNode _).mp hmem with hp | hp
      · exact h.parentOf_documentNode (hne ▸ hp)
      · exact hp.2 hne
    have hindex : before.elim (d.childrenOf d.documentNode).length
        (d.childrenOf d.documentNode).idxOf ≤ (d.childrenOf d.documentNode).length := by
      cases before with
      | none => exact le_rfl
      | some one => exact List.idxOf_le_length
    refine ⟨[.placeDocumentElement id (before.elim (d.childrenOf d.documentNode).length
      (d.childrenOf d.documentNode).idxOf)], ⟨⟨hne, hthere, hid, hnone, hindex⟩, trivial⟩, ?_⟩
    simp only [takePlace, hitems, if_neg hmem]
    show _ = d.placeDocumentElement _ _
    simp only [placeDocumentElement, modify]
    rw [modify_congr hn]
    simp [childrenOf_eq hn]
  · refine ⟨[.removeDocumentElement, .placeDocumentElement id
      ((d.childrenOf d.documentNode).idxOf d.root)], ?_, ?_⟩
    · have hd := h.removeDocumentElement_eq hne
      have hfind := h.find_removeDocumentElement hne
      have hnode : (d.apply .removeDocumentElement).documentNode = d.documentNode := by
        rw [apply, hd, noteEdit]
        split <;> rfl
      have hchildren : (d.apply .removeDocumentElement).childrenOf d.documentNode =
          (d.childrenOf d.documentNode).filter (· ≠ d.root) := by
        rw [childrenOf, apply, hfind, hn]
        simp
      refine ⟨trivial, ⟨?_, ?_, ?_, ?_, ?_⟩, trivial⟩
      · rw [hnode, apply, hd]
      · rw [apply, hfind]
        simpa using hthere
      · rwa [hnode]
      · rw [parentOf, apply, hfind]
        rw [parentOf] at hnone
        cases hx : d.find id with
        | none => rfl
        | some m => simpa [hx] using hnone
      · rw [hnode, hchildren, length_filter_ne (h.nodup _) (h.root_mem hne)]
        have hlt := List.idxOf_lt_length_of_mem (h.root_mem hne)
        omega
    · simp only [takePlace, hitems, if_pos (h.root_mem hne),
        set_idxOf (h.nodup _) id (h.root_mem hne)]
      show _ = d.removeDocumentElement.placeDocumentElement _ _
      rw [h.removeDocumentElement_eq hne]
      let items := (d.childrenOf d.documentNode).filter (· ≠ d.root)
      have hnodes : ∀ index,
          d.nodes.modify d.documentNode (fun n => { n with children := items.insertIdx index id }) =
            (d.nodes.modify d.documentNode fun n =>
              { n with children := n.children.filter (· ≠ d.root) }).modify d.documentNode fun n =>
                { n with children := n.children.insertIdx index id } := by
        intro index
        rw [List.modify_modify_eq]
        apply modify_congr hn
        simp [items, childrenOf_eq hn]
      cases hlog : d.logWrites with
      | true =>
        simp only [noteEdit, modify, placeDocumentElement, hlog, if_true]
        rw [← hnodes]
      | false =>
        simp only [noteEdit, modify, placeDocumentElement, hlog, Bool.false_eq_true, if_false]
        rw [← hnodes]

theorem exists_edits_setDocumentElement {d : Document} (h : d.WellFormed) {id : NodeId}
    (before : Option NodeId) (hthere : (d.find id).isSome) (hid : id ≠ d.documentNode)
    (hroot : id ≠ d.root) :
    ∃ edits, d.AllAdmissible edits ∧ d.setDocumentElement id before = d.applyAll edits := by
  have hsides := sides_detach d id
  simp only [sides, Prod.mk.injEq] at hsides
  obtain ⟨hdroot, hdnode, -, -⟩ := hsides
  have hguard : ¬((d.find d.documentNode).isNone ∨ id = d.documentNode ∨ id = d.root) := by
    obtain ⟨m, hm, -⟩ := isSome_find_of_mayHold h.documentNode
    simp [hm, hid, hroot]
  obtain ⟨edits, hadm, heq⟩ := exists_edits_takePlace (h.detach id) before
    (by rwa [isSome_find_detach]) (by rwa [hdnode]) (by rwa [hdroot]) (parentOf_detach_self h id)
  refine ⟨.remove id :: edits, ⟨trivial, hadm⟩, ?_⟩
  rw [setDocumentElement, if_neg hguard, detach_with_root, ← hdroot]
  exact heq

/-- The writes of a document that go through. Their callers see to it that the parent may hold children, and that
the document element is not put into the document's list a second time. -/
inductive Writes (d : Document) : Document → Prop
  | create {kind ns localName text} : Writes d (d.create kind ns localName text).1
  | appendChild {parent child d'} (hok : d.appendChild parent child = .ok d') (hholds : d.mayHold parent)
      (hplace : ¬(child = d.root ∧ parent = d.documentNode)) : Writes d d'
  | insertBefore {parent child before d'} (hok : d.insertBefore parent child before = .ok d')
      (hholds : d.mayHold parent) (hplace : ¬(child = d.root ∧ parent = d.documentNode)) : Writes d d'
  | removeChild {child d'} (hok : d.removeChild child = .ok d') : Writes d d'
  | setDocumentElement {id before} (hthere : (d.find id).isSome) (hid : id ≠ d.documentNode) (hroot : id ≠ d.root) :
      Writes d (d.setDocumentElement id before)
  | setText {id value edit d'} (hok : d.setText id value edit = .ok d')
      (hadm : d.Admissible (.replaceData id value edit)) : Writes d d'

theorem Writes.exists_edits {d d' : Document} (hw : d.Writes d') (h : d.WellFormed) :
    ∃ edits, d.AllAdmissible edits ∧ d' = d.applyAll edits := by
  cases hw with
  | create => exact ⟨[.create _ _ _ _], ⟨trivial, trivial⟩, rfl⟩
  | appendChild hok hholds hplace => exact exists_edits_appendChild h hok hholds hplace
  | insertBefore hok hholds hplace => exact exists_edits_insertBefore h hok hholds hplace
  | @removeChild child _ hok =>
    rw [Document.removeChild] at hok
    split_ifs at hok
    exact ⟨[.remove child], ⟨trivial, trivial⟩, (Except.ok.inj hok).symm⟩
  | setDocumentElement hthere hid hroot => exact exists_edits_setDocumentElement h _ hthere hid hroot
  | setText hok hadm => exact ⟨[.replaceData _ _ _], ⟨hadm, trivial⟩, by simp [applyAll, apply, hok, Except.toOption]⟩

theorem allAdmissible_append {edits more : List Edit} {d : Document} (h : d.AllAdmissible edits)
    (hmore : (d.applyAll edits).AllAdmissible more) : d.AllAdmissible (edits ++ more) := by
  induction edits generalizing d with
  | nil => exact hmore
  | cons edit rest ih => exact ⟨h.1, ih h.2 hmore⟩

end CtBrowser.Dom.Document
