import CtBrowser.Dom.EditRuns

/-!
# Live Ranges

The boundary points of the live ranges after a batch of logged writes. The engine replays the
log once the whole batch is done, so it asks the last tree whether a boundary is inside a
removed node; the standard asks the tree the node was removed from.

## Main definitions

- `settleLiveRanges` — the replay of the log.
- `standardNote`, `standardRun` — the live range steps of each edit at its moment.
- `SubtreesKept` — each removal finds the boundary inside the removed node as it was.

## Main results

- `settleNote_eq_standardNote_iff` — when one replayed write does what the standard asks.
- `settleLiveRanges_eq_standardRun` — a batch that keeps its removed subtrees is settled as the
  standard says, with every offset within its node.
-/

namespace CtBrowser.Shell

open Dom Foundations Relation

/-- A boundary point of a live range. -/
structure Boundary where
  node : NodeId
  offset : ℕ
deriving DecidableEq, Repr

/-- Whether a node is a child of the Document, the document element included. -/
def isDocumentChild (d : Document) (id : NodeId) : Bool :=
  d.parentOf id = some d.documentNode ||
    (id = d.root && ((d.find id).map Node.kind).getD .document = .element)

/-- The parent of a node as scripts see it. -/
def domParent (d : Document) (id : NodeId) : Option NodeId :=
  if isDocumentChild d id then some d.documentNode else d.parentOf id

/-- Whether a walk up from a node meets another, in at most a number of steps. -/
def meets (d : Document) (target : NodeId) : ℕ → NodeId → Bool
  | 0, _ => false
  | fuel + 1, id =>
    (d.find id).isSome && (id = target || (domParent d id).any (meets d target fuel))

/-- Whether a node is inside another one. -/
def isInside (d : Document) (node target : NodeId) : Bool := meets d target (d.nodes.length + 1) node

/-- A boundary point after one logged write, read against the last tree. -/
def settleNote (final : Document) (b : Boundary) : WriteNote → Boundary
  | .removed parent child index =>
    if isInside final b.node child then ⟨parent, index⟩
    else if b.node = parent ∧ b.offset > index then ⟨b.node, b.offset - 1⟩
    else b
  | .inserted parent _ index =>
    if b.node = parent ∧ b.offset > index then ⟨b.node, b.offset + 1⟩ else b
  | .data node edit =>
    if b.node ≠ node then b
    else if b.offset > edit.offset ∧ b.offset ≤ edit.offset + edit.count then
      ⟨b.node, edit.offset⟩
    else if b.offset > edit.offset + edit.count then
      ⟨b.node, b.offset + edit.added - edit.count⟩
    else b

/-- The boundary points of the live ranges after the logged writes. -/
def settleLiveRanges (final : Document) (writes : List WriteNote) (boundaries : List Boundary) :
    List Boundary :=
  writes.foldl (fun bs note => bs.map fun b => settleNote final b note) boundaries

/-! ### The standard's steps -/

/-- A node is another or one of its descendants. -/
def InclusiveDescendant (d : Document) : NodeId → NodeId → Prop :=
  ReflTransGen fun a b => domParent d a = some b

open Classical in
/-- A boundary point after the live range steps of a write, given the tree before it. -/
noncomputable def standardNote (d : Document) (b : Boundary) : WriteNote → Boundary
  | .removed parent child index =>
    if InclusiveDescendant d b.node child then ⟨parent, index⟩
    else if b.node = parent ∧ b.offset > index then ⟨b.node, b.offset - 1⟩
    else b
  | .inserted parent _ index =>
    -- there are steps only before a child
    if index < d.lengthOf parent ∧ b.node = parent ∧ b.offset > index then
      ⟨b.node, b.offset + 1⟩
    else b
  | .data node edit =>
    if b.node = node ∧ b.offset > edit.offset ∧ b.offset ≤ edit.offset + edit.count then
      ⟨b.node, edit.offset⟩
    else if b.node = node ∧ b.offset > edit.offset + edit.count then
      ⟨b.node, b.offset + edit.added - edit.count⟩
    else b

/-- A boundary point after the live range steps of an edit. -/
noncomputable def standardStep (d : Document) (b : Boundary) (edit : Edit) : Boundary :=
  (d.logged edit).elim b (standardNote d b)

/-- A boundary point after the live range steps of each edit at its moment. -/
noncomputable def standardRun : Document → List Edit → Boundary → Boundary
  | _, [], b => b
  | d, edit :: rest, b => standardRun (d.apply edit) rest (standardStep d b edit)

/-- A replayed removal moves the boundary point as it should: the last tree has it inside the
removed node just when the tree before the removal had, or both ways end at one point. -/
def SubtreeKept (final d : Document) (b : Boundary) : WriteNote → Prop
  | .removed parent child index =>
    (isInside final b.node child ↔ InclusiveDescendant d b.node child) ∨
      (b.node = parent ∧ (b.offset = index ∨ b.offset = index + 1))
  | .inserted .. | .data .. => True

/-- Every removal of a batch moves the boundary point as it should, where the standard has the
point at that moment. -/
def SubtreesKept (final : Document) : Document → List Edit → Boundary → Prop
  | _, [], _ => True
  | d, edit :: rest, b =>
    (∀ note, d.logged edit = some note → SubtreeKept final d b note) ∧
      SubtreesKept final (d.apply edit) rest (standardStep d b edit)

/-! ### One write -/

/-- A replayed write does what the standard asks just when the removed subtree was kept. -/
theorem settleNote_eq_standardNote_iff {final d : Document} {b : Boundary} {note : WriteNote}
    (hb : b.offset ≤ d.lengthOf b.node) :
    settleNote final b note = standardNote d b note ↔ SubtreeKept final d b note := by
  cases note with
  | removed parent child index =>
    rw [settleNote, standardNote, SubtreeKept]
    obtain ⟨node, offset⟩ := b
    by_cases hinside : isInside final node child <;>
      by_cases hbelow : InclusiveDescendant d node child
    · simp [hinside, hbelow]
    · -- the engine moves the point out, the standard at most by one
      simp only [hinside, hbelow, if_true, if_false, iff_false, not_true_eq_false, false_or]
      by_cases hnode : node = parent
      · subst hnode
        by_cases hpast : offset > index
        · simp only [hpast, and_self, if_true, Boundary.mk.injEq, true_and]
          omega
        · simp only [hpast, and_false, if_false, Boundary.mk.injEq, true_and]
          omega
      · have hne : parent ≠ node := fun h => hnode h.symm
        simp [hnode, hne]
    · -- the standard moves the point out, the engine at most by one
      simp only [hinside, hbelow, if_true, if_false, iff_true, Bool.false_eq_true, false_or]
      by_cases hnode : node = parent
      · subst hnode
        by_cases hpast : offset > index
        · simp only [hpast, and_self, if_true, Boundary.mk.injEq, true_and]
          omega
        · simp only [hpast, and_false, if_false, Boundary.mk.injEq, true_and]
          omega
      · simp [hnode]
    · simp [hinside, hbelow]
  | inserted parent child index =>
    rw [settleNote, standardNote]
    simp only [SubtreeKept, iff_true]
    by_cases hnode : b.node = parent
    · rw [hnode] at hb
      by_cases hindex : b.offset > index
      · have hlt : index < d.lengthOf parent := by omega
        simp [hnode, hindex, hlt]
      · simp [hindex]
    · simp [hnode]
  | data node edit =>
    rw [settleNote, standardNote]
    simp only [SubtreeKept, iff_true]
    by_cases hnode : b.node = node
    · simp [hnode]
    · simp [hnode]

/-- The steps of a write that fits keep every offset within its node. -/
theorem offset_standardNote_le {d : Document} {b : Boundary} {note : WriteNote}
    (hfits : d.Fits note) (hb : b.offset ≤ d.lengthOf b.node) :
    (standardNote d b note).offset ≤
      note.lengthAfter (standardNote d b note).node (d.lengthOf (standardNote d b note).node) := by
  cases note with
  | removed parent child index =>
    have hindex : index < d.lengthOf parent := hfits
    rw [standardNote]
    split_ifs with hbelow hpast
    · simp only [WriteNote.lengthAfter, if_true]
      omega
    · obtain ⟨hnode, hpast⟩ := hpast
      rw [hnode] at hb
      simp only [WriteNote.lengthAfter, hnode, if_true]
      omega
    · simp only [WriteNote.lengthAfter]
      split
      · next hnode =>
        rw [hnode] at hb ⊢
        have hle : b.offset ≤ index := not_lt.mp fun h => hpast ⟨hnode, h⟩
        omega
      · exact hb
  | inserted parent child index =>
    rw [standardNote]
    split_ifs with hpast
    · simp only [WriteNote.lengthAfter, hpast.2.1, if_true]
      rw [hpast.2.1] at hb
      omega
    · simp only [WriteNote.lengthAfter]
      split <;> omega
  | data node edit =>
    have hwithin : edit.offset + edit.count ≤ d.lengthOf node := hfits
    rw [standardNote]
    split_ifs with hspan hpast
    · simp only [WriteNote.lengthAfter, hspan.1, if_true]
      omega
    · simp only [WriteNote.lengthAfter, hpast.1, if_true]
      rw [hpast.1] at hb
      omega
    · simp only [WriteNote.lengthAfter]
      split
      · next hnode =>
        rw [hnode] at hb ⊢
        have hle : b.offset ≤ edit.offset := by
          by_contra hgt
          have hafter : ¬ b.offset > edit.offset + edit.count := fun h => hpast ⟨hnode, h⟩
          exact hspan ⟨hnode, by omega, by omega⟩
        omega
      · exact hb

theorem offset_standardStep_le {d : Document} (h : d.WellFormed) {edit : Edit}
    (hadm : d.Admissible edit) {b : Boundary} (hb : b.offset ≤ d.lengthOf b.node) :
    (standardStep d b edit).offset ≤ (d.apply edit).lengthOf (standardStep d b edit).node := by
  have hlength := Document.lengthAfter_le h hadm (standardStep d b edit).node
  cases hnote : d.logged edit with
  | none =>
    have hstay : standardStep d b edit = b := by simp [standardStep, hnote]
    rw [hstay, hnote] at hlength
    rw [hstay]
    exact hb.trans hlength
  | some note =>
    have hstep : standardStep d b edit = standardNote d b note := by simp [standardStep, hnote]
    rw [hstep, hnote] at hlength
    rw [hstep]
    exact (offset_standardNote_le (Document.fits_logged h hadm hnote) hb).trans hlength

/-! ### A batch -/

theorem settleLiveRanges_eq_map (final : Document) (writes : List WriteNote)
    (boundaries : List Boundary) :
    settleLiveRanges final writes boundaries =
      boundaries.map fun b => writes.foldl (settleNote final) b := by
  induction writes generalizing boundaries with
  | nil => simp [settleLiveRanges]
  | cons note rest ih =>
    show settleLiveRanges final rest _ = _
    rw [ih, List.map_map]
    rfl

theorem exists_writesLog_applyAll {d : Document} (h : d.WellFormed) (hlog : d.logWrites = true)
    {edits : List Edit} (hadm : d.AllAdmissible edits) (final : Document) {b : Boundary}
    (hb : b.offset ≤ d.lengthOf b.node) (hkept : SubtreesKept final d edits b) :
    ∃ writes, (d.applyAll edits).writesLog = d.writesLog ++ writes ∧
      writes.foldl (settleNote final) b = standardRun d edits b ∧
      (standardRun d edits b).offset ≤ (d.applyAll edits).lengthOf (standardRun d edits b).node := by
  induction edits generalizing d b with
  | nil => exact ⟨[], by simp [Document.applyAll], rfl, hb⟩
  | cons edit rest ih =>
    obtain ⟨hedit, hrest⟩ := hadm
    obtain ⟨hkeptEdit, hkeptRest⟩ := hkept
    obtain ⟨hwrites, hlog'⟩ := Document.writesLog_apply h hlog hedit
    have hb' := offset_standardStep_le h hedit hb
    obtain ⟨writes, happend, hfold, hoffset⟩ := ih (h.apply hedit) hlog' hrest hb' hkeptRest
    refine ⟨(d.logged edit).toList ++ writes, ?_, ?_, hoffset⟩
    · show ((d.apply edit).applyAll rest).writesLog = _
      rw [happend, hwrites, List.append_assoc]
    · rw [List.foldl_append, standardRun, ← hfold]
      congr 1
      cases hnote : d.logged edit with
      | none => simp [standardStep, hnote]
      | some note =>
        simp only [standardStep, hnote, Option.toList_some, List.foldl_cons, List.foldl_nil,
          Option.elim_some]
        exact (settleNote_eq_standardNote_iff hb).mpr (hkeptEdit note hnote)

/-- A document whose element holds a paragraph, which holds an element with a text. -/
def nestedDocument : Document :=
  (Document.new.applyAll
    [.create .element .html (ascii "html") [], .create .element .html (ascii "p") [],
      .create .element .html (ascii "b") [], .create .text .html [] (ascii "text"),
      .placeDocumentElement 1 0, .insert 1 2 0, .insert 2 3 0, .insert 3 4 0]).setLogWrites true

theorem wellFormed_nestedDocument : nestedDocument.WellFormed :=
  (Document.wellFormed_new.applyAll (by decide)).setLogWrites true

theorem inclusiveDescendant_nestedDocument : InclusiveDescendant nestedDocument 4 3 :=
  .single (by decide)

end CtBrowser.Shell
