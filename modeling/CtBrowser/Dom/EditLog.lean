import CtBrowser.Dom.LoggedEdits

/-!
# What an Edit Logs

An edit appends at most one write to the log. The write names places within its node, and says
how long the node is afterwards.

## Main results

- `writesLog_apply` — an edit appends what it logs.
- `fits_logged` — a logged write names places within its node.
- `lengthAfter_le` — a node is at least as long afterwards as the write says.
-/

namespace CtBrowser.Dom.Document

/-! ### What an edit logs -/

theorem writesLog_noteEdit {d : Document} (hlog : d.logWrites = true) (note : WriteNote) :
    (d.noteEdit note).writesLog = d.writesLog ++ [note] ∧
      (d.noteEdit note).logWrites = true := by
  simp [noteEdit, hlog]

/-- While the log is kept, an edit appends what it logs. -/
theorem writesLog_apply {d : Document} (h : d.WellFormed) (hlog : d.logWrites = true) {edit : Edit}
    (hadm : d.Admissible edit) :
    (d.apply edit).writesLog = d.writesLog ++ (d.logged edit).toList ∧
      (d.apply edit).logWrites = true := by
  cases edit with
  | create kind ns localName text => simp [apply, create, logged, hlog]
  | remove child =>
    cases hparent : d.parentOf child with
    | none => simp [apply, logged, detach, hparent, hlog]
    | some parent =>
      obtain ⟨n, hn, -⟩ := isSome_find_of_mayHold (h.mayHold_parentOf hparent)
      have hnote := writesLog_noteEdit hlog (.removed parent child (n.children.idxOf child))
      simpa [apply, logged, detach, hparent, hn, childrenOf, modify] using hnote
  | insert parent child index =>
    rw [apply, attach]
    exact writesLog_noteEdit (by exact hlog) (.inserted parent child index)
  | removeDocumentElement =>
    by_cases hne : d.root = d.documentNode
    · simp [apply, logged, removeDocumentElement, hne, hlog]
    · rw [apply, h.removeDocumentElement_eq hne, logged, if_neg hne]
      exact writesLog_noteEdit hlog _
  | placeDocumentElement id index =>
    rw [apply, placeDocumentElement]
    exact writesLog_noteEdit (by exact hlog) (.inserted d.documentNode id index)
  | replaceData id value edit =>
    obtain ⟨n, hn⟩ := Option.isSome_iff_exists.mp (WellFormed.isSome_find_of_replaceData hadm)
    have hedit : d.dataEdit id value edit =
        edit.getD ⟨0, unitsLength n.text, unitsLength value⟩ := by
      simp [dataEdit, hn]
    simp only [apply, logged, setText, hn, Except.toOption, Option.getD_some, hedit]
    exact writesLog_noteEdit (by exact hlog) _

/-! ### Lengths -/

theorem lengthOf_of_relist {d d' : Document} {x : NodeId} {items : List NodeId}
    {h : Option NodeId → Option NodeId} (hholds : d.mayHold x)
    (hfind : d'.find x = (d.find x).map fun n =>
      { n with children := items, parent := h n.parent }) :
    d'.lengthOf x = items.length := by
  obtain ⟨n, hn, hkind⟩ := isSome_find_of_mayHold hholds
  simp [lengthOf, hfind, hn, Node.length, hkind]

theorem length_filter_ne {items : List NodeId} (hnodup : items.Nodup) {x : NodeId}
    (hx : x ∈ items) : (items.filter (· ≠ x)).length = items.length - 1 := by
  have heq : items.filter (· ≠ x) = items.filter (· != x) :=
    List.filter_congr fun y _ => by simp [bne, Bool.beq_eq_decide_eq]
  rw [heq, ← hnodup.erase_eq_filter, List.length_erase_of_mem hx]

theorem Node.length_of_isCharacterData {n : Node} (h : n.kind.isCharacterData) :
    n.length = unitsLength n.text := by
  rw [Node.length]
  cases hkind : n.kind <;> simp_all [NodeKind.isCharacterData, NodeKind.holdsChildren]

theorem lengthOf_of_replaceData {d : Document} {id : NodeId} {value : Text}
    {edit : Option DataEdit} (hadm : d.Admissible (.replaceData id value edit)) :
    d.lengthOf id = unitsLength (((d.find id).map Node.text).getD []) := by
  obtain ⟨hkind, -⟩ := hadm
  cases hfind : d.find id with
  | none => simp [hfind] at hkind
  | some n =>
    have hdata : n.kind.isCharacterData := by simpa [hfind] using hkind
    simp [lengthOf, hfind, Node.length_of_isCharacterData hdata]

/-- What an edit logs names places within its node. -/
theorem fits_logged {d : Document} (h : d.WellFormed) {edit : Edit} (hadm : d.Admissible edit)
    {note : WriteNote} (hnote : d.logged edit = some note) : d.Fits note := by
  cases edit with
  | create kind ns localName text => simp [logged] at hnote
  | remove child =>
    obtain ⟨parent, hparent, rfl⟩ := Option.map_eq_some_iff.mp hnote
    rw [Fits, lengthOf_of_mayHold (h.mayHold_parentOf hparent)]
    exact List.idxOf_lt_length_of_mem (h.mem_childrenOf hparent)
  | insert parent child index =>
    obtain rfl := Option.some.inj hnote
    rw [Fits, lengthOf_of_mayHold hadm.2.1]
    exact hadm.2.2.2.2.2
  | removeDocumentElement =>
    rw [logged] at hnote
    split_ifs at hnote with hroot
    obtain rfl := Option.some.inj hnote
    rw [Fits, lengthOf_of_mayHold h.documentNode]
    exact List.idxOf_lt_length_of_mem (h.root_mem hroot)
  | placeDocumentElement id index =>
    obtain rfl := Option.some.inj hnote
    rw [Fits, lengthOf_of_mayHold h.documentNode]
    exact hadm.2.2.2.2
  | replaceData id value edit =>
    obtain rfl := Option.some.inj hnote
    rw [Fits, lengthOf_of_replaceData hadm]
    exact hadm.2.1

/-- A node is at least as long after an edit as the logged write says. -/
theorem lengthAfter_le {d : Document} (h : d.WellFormed) {edit : Edit} (hadm : d.Admissible edit)
    (x : NodeId) :
    (d.logged edit).elim (d.lengthOf x) (fun note => note.lengthAfter x (d.lengthOf x)) ≤
      (d.apply edit).lengthOf x := by
  cases edit with
  | create kind ns localName text =>
    show d.lengthOf x ≤ _
    by_cases hx : x < d.nodes.length
    · simp [lengthOf, apply, create, find, List.getElem?_append_left hx]
    · simp [lengthOf, find, List.getElem?_eq_none (not_lt.mp hx)]
  | remove child =>
    cases hparent : d.parentOf child with
    | none =>
      have hsame : d.apply (.remove child) = d := by simp [apply, detach, hparent]
      simp [logged, hparent, hsame]
    | some parent =>
      have hfind := h.find_detach hparent x
      simp only [logged, hparent, Option.map_some, Option.elim_some, WriteNote.lengthAfter]
      split
      · next hx =>
        subst hx
        have hholds := h.mayHold_parentOf hparent
        obtain ⟨n, hn, -⟩ := isSome_find_of_mayHold hholds
        have hlength : (d.detach child).lengthOf x =
            ((d.childrenOf x).filter (· ≠ child)).length := by
          apply lengthOf_of_relist (h := fun p => if x = child then none else p) hholds
          rw [hfind, hn]
          simp [childrenOf_eq hn]
        rw [apply, hlength, length_filter_ne (h.nodup x) (h.mem_childrenOf hparent),
          lengthOf_of_mayHold hholds]
      · next hx =>
        simp only [hx, if_false] at hfind
        exact (lengthOf_of_find (h := fun p => if x = child then none else p) hfind).ge
  | insert parent child index =>
    have hfind := find_attach d parent child index x
    show (WriteNote.inserted parent child index).lengthAfter x _ ≤ (d.attach _ _ _).lengthOf x
    rw [WriteNote.lengthAfter]
    split
    · next hx =>
      subst hx
      have hholds := hadm.2.1
      obtain ⟨n, hn, -⟩ := isSome_find_of_mayHold hholds
      have hlength : (d.attach x child index).lengthOf x =
          ((d.childrenOf x).insertIdx index child).length := by
        apply lengthOf_of_relist (h := fun p => if x = child then some x else p) hholds
        rw [hfind, hn]
        simp [childrenOf_eq hn]
      rw [hlength, List.length_insertIdx_of_le_length hadm.2.2.2.2.2,
        lengthOf_of_mayHold hholds]
    · next hx =>
      simp only [hx, if_false] at hfind
      exact (lengthOf_of_find (h := fun p => if x = child then some parent else p) hfind).ge
  | removeDocumentElement =>
    by_cases hne : d.root = d.documentNode
    · have hsame : d.apply .removeDocumentElement = d := by
        simp [apply, removeDocumentElement, hne]
      simp [logged, hne, hsame]
    · have hfind := h.find_removeDocumentElement hne x
      simp only [logged, hne, if_false, Option.elim_some, WriteNote.lengthAfter, apply]
      split
      · next hx =>
        subst hx
        simp only [if_true] at hfind
        rw [lengthOf_of_relist (h := id) h.documentNode hfind,
          length_filter_ne (h.nodup _) (h.root_mem hne), lengthOf_of_mayHold h.documentNode]
      · next hx =>
        simp only [hx, if_false] at hfind
        exact (lengthOf_of_find (h := id) hfind).ge
  | placeDocumentElement id index =>
    have hfind := WellFormed.find_placeDocumentElement d id index x
    show (WriteNote.inserted d.documentNode id index).lengthAfter x _ ≤
      (d.placeDocumentElement id index).lengthOf x
    rw [WriteNote.lengthAfter]
    split
    · next hx =>
      subst hx
      simp only [if_true] at hfind
      rw [lengthOf_of_relist (h := fun p => p) h.documentNode hfind,
        List.length_insertIdx_of_le_length hadm.2.2.2.2, lengthOf_of_mayHold h.documentNode]
    · next hx =>
      simp only [hx, if_false] at hfind
      exact (lengthOf_of_find (h := fun p => p) hfind).ge
  | replaceData id value edit =>
    have hok : d.setText id value edit = .ok (d.apply (.replaceData id value edit)) :=
      setText_eq_apply (WellFormed.isSome_find_of_replaceData hadm)
    have hfind := find_setText hok x
    simp only [logged, Option.elim_some, WriteNote.lengthAfter]
    split
    · next hx =>
      subst hx
      obtain ⟨hkind, hwithin, hcount⟩ := hadm
      cases hn : d.find x with
      | none => simp [hn] at hkind
      | some n =>
        have hdata : n.kind.isCharacterData := by simpa [hn] using hkind
        have hnew : (d.apply (.replaceData x value edit)).lengthOf x = unitsLength value := by
          simp only [lengthOf, hfind, hn, Option.map_some, Option.getD_some, if_true]
          exact Node.length_of_isCharacterData (n := { n with text := value }) hdata
        have hold : d.lengthOf x = unitsLength n.text := by
          simp [lengthOf, hn, Node.length_of_isCharacterData hdata]
        simp only [hn, Option.map_some, Option.getD_some] at hwithin hcount
        omega
    · next hx =>
      have hsame : (d.apply (.replaceData id value edit)).find x = d.find x := by
        rw [hfind]
        simp [hx]
      simp [lengthOf, hsame]

end CtBrowser.Dom.Document
