import CtBrowser.Dom.HostTree

/-!
# Logged Edits

The changes of a document one at a time, each logging at most one write: a removal, an
insertion, the document element leaving or taking its place, and a replacement of character
data. The document's writes are runs of these.

## Main definitions

- `removeDocumentElement`, `setDocumentElement` — the writes of the document element's place.
- `Edit`, `Document.apply`, `Document.logged` — an edit, what it makes and what it logs.
- `Document.Admissible` — what the callers of a write have made sure of.
- `Document.WellFormed` — parent pointers and child lists agree.

## Main results

- `WellFormed.apply`, `WellFormed.applyAll` — admissible edits keep them in agreement.
-/

namespace CtBrowser.Dom

/-- Whether a node of this kind may have children. -/
def NodeKind.holdsChildren : NodeKind → Bool
  | .document | .element | .documentFragment => true
  | .text | .comment | .documentType | .processingInstruction | .cdataSection => false

/-- Whether a node of this kind is character data. -/
def NodeKind.isCharacterData : NodeKind → Bool
  | .text | .comment | .processingInstruction | .cdataSection => true
  | .document | .element | .documentFragment | .documentType => false

/-- The length of a node: its children, or its code units. -/
def Node.length (n : Node) : ℕ :=
  if n.kind.holdsChildren then n.children.length
  else if n.kind.isCharacterData then unitsLength n.text
  else 0

/-- The length of a node after a logged write, from the one before. -/
def WriteNote.lengthAfter (note : WriteNote) (id : NodeId) (length : ℕ) : ℕ :=
  match note with
  | .data node edit => if id = node then length - edit.count + edit.added else length
  | .inserted parent _ _ => if id = parent then length + 1 else length
  | .removed parent _ _ => if id = parent then length - 1 else length

namespace Document

/-- The length of the node of a handle. -/
def lengthOf (d : Document) (id : NodeId) : ℕ := ((d.find id).map Node.length).getD 0

/-- Whether a node may have children. -/
def mayHold (d : Document) (id : NodeId) : Bool := (d.find id).any fun n => n.kind.holdsChildren

/-- Takes the document element out of its place. -/
def removeDocumentElement (d : Document) : Document :=
  if d.root = d.documentNode ∨ (d.find d.documentNode).isNone then d
  else
    let items := d.childrenOf d.documentNode
    let noted :=
      if d.root ∈ items then d.noteEdit (.removed d.documentNode d.root (items.idxOf d.root))
      else d
    { noted.modify d.documentNode fun n => { n with children := n.children.filter (· ≠ d.root) }
      with root := d.documentNode }

/-- Puts a parentless element into the Document's child list as the document element, which
keeps no parent pointer. -/
def placeDocumentElement (d : Document) (id : NodeId) (index : ℕ) : Document :=
  ({ d with root := id }.modify d.documentNode fun n =>
    { n with children := n.children.insertIdx index id }).noteEdit
      (.inserted d.documentNode id index)

/-- Gives an element with no parent the place of the previous document element, else one
before a child of the Document, else the last. -/
def takePlace (d : Document) (previous id : NodeId) (before : Option NodeId) : Document :=
  let items := (d.childrenOf d.documentNode).filter (· ≠ id)
  if previous ∈ items then
    let slot := items.idxOf previous
    ((d.modify d.documentNode fun n => { n with children := items.set slot id }).noteEdit
      (.removed d.documentNode previous slot)).noteEdit (.inserted d.documentNode id slot)
  else
    let index := before.elim items.length items.idxOf
    (d.modify d.documentNode fun n => { n with children := items.insertIdx index id }).noteEdit
      (.inserted d.documentNode id index)

/-- Makes an element the document element. -/
def setDocumentElement (d : Document) (id : NodeId) (before : Option NodeId) : Document :=
  let rooted := { d with root := id }
  if (d.find d.documentNode).isNone ∨ id = d.documentNode ∨ id = d.root then rooted
  else (rooted.detach id).takePlace d.root id before

end Document

/-- One change of a document. -/
inductive Edit
  | create (kind : NodeKind) (ns : NodeNs) (localName text : Text)
  | remove (child : NodeId)
  | insert (parent child : NodeId) (index : ℕ)
  | removeDocumentElement
  | placeDocumentElement (id : NodeId) (index : ℕ)
  | replaceData (id : NodeId) (value : Text) (edit : Option DataEdit)
deriving DecidableEq, Repr

namespace Document

/-- The document after an edit. -/
def apply (d : Document) : Edit → Document
  | .create kind ns localName text => (d.create kind ns localName text).1
  | .remove child => d.detach child
  | .insert parent child index => d.attach parent child index
  | .removeDocumentElement => d.removeDocumentElement
  | .placeDocumentElement id index => d.placeDocumentElement id index
  | .replaceData id value edit => (d.setText id value edit).toOption.getD d

/-- The document after a list of edits. -/
def applyAll (d : Document) (edits : List Edit) : Document := edits.foldl apply d

/-- The part of a node's data that is replaced: the whole of it unless the caller said. -/
def dataEdit (d : Document) (id : NodeId) (value : Text) (edit : Option DataEdit) : DataEdit :=
  edit.getD ⟨0, unitsLength (((d.find id).map Node.text).getD []), unitsLength value⟩

/-- What an edit logs. -/
def logged (d : Document) : Edit → Option WriteNote
  | .create .. => none
  | .remove child =>
    (d.parentOf child).map fun parent =>
      .removed parent child ((d.childrenOf parent).idxOf child)
  | .insert parent child index => some (.inserted parent child index)
  | .removeDocumentElement =>
    if d.root = d.documentNode then none
    else some (.removed d.documentNode d.root ((d.childrenOf d.documentNode).idxOf d.root))
  | .placeDocumentElement id index => some (.inserted d.documentNode id index)
  | .replaceData id value edit => some (.data id (d.dataEdit id value edit))

/-- What the callers of a write have made sure of when an edit is made. -/
def Admissible (d : Document) : Edit → Prop
  | .create .. | .remove _ | .removeDocumentElement => True
  | .insert parent child index =>
    (d.find child).isSome ∧ d.mayHold parent ∧ d.parentOf child = none ∧
      ¬(child = d.root ∧ parent = d.documentNode) ∧ child ∉ d.inclusiveAncestors parent ∧
      index ≤ (d.childrenOf parent).length
  | .placeDocumentElement id index =>
    d.root = d.documentNode ∧ (d.find id).isSome ∧ id ≠ d.documentNode ∧ d.parentOf id = none ∧
      index ≤ (d.childrenOf d.documentNode).length
  | .replaceData id value edit =>
    let old := unitsLength (((d.find id).map Node.text).getD [])
    let replaced := d.dataEdit id value edit
    (d.find id).any (fun n => n.kind.isCharacterData) ∧ replaced.offset + replaced.count ≤ old ∧
      unitsLength value + replaced.count = old + replaced.added

instance (d : Document) (edit : Edit) : Decidable (d.Admissible edit) := by
  cases edit <;> unfold Admissible <;> infer_instance

/-- A logged write names places within its node. -/
def Fits (d : Document) : WriteNote → Prop
  | .data node edit => edit.offset + edit.count ≤ d.lengthOf node
  | .inserted parent _ index => index ≤ d.lengthOf parent
  | .removed parent _ index => index < d.lengthOf parent

/-- Every edit of a list is admissible when it is made. -/
def AllAdmissible : Document → List Edit → Prop
  | _, [] => True
  | d, edit :: rest => d.Admissible edit ∧ AllAdmissible (d.apply edit) rest

instance (d : Document) (edits : List Edit) : Decidable (d.AllAdmissible edits) := by
  induction edits generalizing d with
  | nil => exact isTrue trivial
  | cons edit rest ih =>
    unfold AllAdmissible
    infer_instance

/-- Turns the log of writes on or off. -/
def setLogWrites (d : Document) (on : Bool) : Document :=
  { d with logWrites := on, writesLog := if on then d.writesLog else [] }

/-- Parent pointers and child lists agree, the document element apart. -/
structure WellFormed (d : Document) : Prop where
  mem_childrenOf : ∀ {child parent : NodeId}, d.parentOf child = some parent →
    child ∈ d.childrenOf parent
  parentOf_of_mem : ∀ {child parent : NodeId}, child ∈ d.childrenOf parent →
    d.parentOf child = some parent ∨
      (child = d.root ∧ parent = d.documentNode ∧ d.root ≠ d.documentNode)
  nodup : ∀ parent, (d.childrenOf parent).Nodup
  mayHold : ∀ {child parent : NodeId}, child ∈ d.childrenOf parent → d.mayHold parent
  root_mem : d.root ≠ d.documentNode → d.root ∈ d.childrenOf d.documentNode
  parentOf_root : d.root ≠ d.documentNode → d.parentOf d.root ≠ some d.documentNode
  documentNode : d.mayHold d.documentNode
  parentOf_documentNode : d.parentOf d.documentNode ≠ some d.documentNode

/-! ### What one edit changes -/

theorem childrenOf_eq {d : Document} {id : NodeId} {n : Node} (h : d.find id = some n) :
    d.childrenOf id = n.children := by
  simp [childrenOf, h]

theorem isSome_find_of_mayHold {d : Document} {id : NodeId} (h : d.mayHold id) :
    ∃ n, d.find id = some n ∧ n.kind.holdsChildren := by
  cases hfind : d.find id with
  | none => simp [Document.mayHold, hfind] at h
  | some n => exact ⟨n, rfl, by simpa [Document.mayHold, hfind] using h⟩

theorem lengthOf_of_mayHold {d : Document} {id : NodeId} (h : d.mayHold id) :
    d.lengthOf id = (d.childrenOf id).length := by
  obtain ⟨n, hfind, hkind⟩ := isSome_find_of_mayHold h
  simp [lengthOf, childrenOf, hfind, Node.length, hkind]

theorem mem_parentChain_self (d : Document) (fuel : ℕ) (id : NodeId) :
    id ∈ d.parentChain fuel id := by
  cases fuel <;> simp [parentChain]

theorem find_detach {d : Document} {child parent : NodeId} (hparent : d.parentOf child = some parent)
    (hfind : (d.find parent).isSome) (x : NodeId) :
    (d.detach child).find x = (d.find x).map fun n =>
      { n with
        children := if x = parent then n.children.filter (· ≠ child) else n.children
        parent := if x = child then none else n.parent } := by
  obtain ⟨p, hp⟩ := Option.isSome_iff_exists.mp hfind
  simp only [detach, hparent, hp, find_modify, find_noteEdit]
  cases hx : d.find x with
  | none => simp
  | some n =>
    simp only [Option.map_some]
    split_ifs <;> rfl

theorem find_attach (d : Document) (parent child : NodeId) (index : ℕ) (x : NodeId) :
    (d.attach parent child index).find x = (d.find x).map fun n =>
      { n with
        children := if x = parent then n.children.insertIdx index child else n.children
        parent := if x = child then some parent else n.parent } := by
  simp only [attach, find_modify, find_noteEdit]
  cases hx : d.find x with
  | none => simp
  | some n =>
    simp only [Option.map_some]
    split_ifs <;> rfl

theorem mayHold_of_find {d d' : Document} {g : List NodeId → List NodeId}
    {h : Option NodeId → Option NodeId} {x : NodeId}
    (hfind : d'.find x = (d.find x).map fun n =>
      { n with children := g n.children, parent := h n.parent }) :
    d'.mayHold x = d.mayHold x := by
  simp [Document.mayHold, hfind, Option.any_map]

theorem lengthOf_of_find {d d' : Document} {h : Option NodeId → Option NodeId} {x : NodeId}
    (hfind : d'.find x = (d.find x).map fun n =>
      { n with children := n.children, parent := h n.parent }) :
    d'.lengthOf x = d.lengthOf x := by
  cases hx : d.find x with
  | none => simp [lengthOf, hfind, hx]
  | some n => simp [lengthOf, hfind, hx, Node.length]

namespace WellFormed

variable {d : Document}

theorem mayHold_parentOf (h : d.WellFormed) {child parent : NodeId}
    (hparent : d.parentOf child = some parent) : d.mayHold parent :=
  h.mayHold (h.mem_childrenOf hparent)

theorem find_detach (h : d.WellFormed) {child parent : NodeId}
    (hparent : d.parentOf child = some parent) (x : NodeId) :
    (d.detach child).find x = (d.find x).map fun n =>
      { n with
        children := if x = parent then n.children.filter (· ≠ child) else n.children
        parent := if x = child then none else n.parent } := by
  obtain ⟨n, hfind, -⟩ := isSome_find_of_mayHold (h.mayHold_parentOf hparent)
  exact Document.find_detach hparent (by simp [hfind]) x

theorem parentOf_detach (h : d.WellFormed) {child parent : NodeId}
    (hparent : d.parentOf child = some parent) (x : NodeId) :
    (d.detach child).parentOf x = if x = child then none else d.parentOf x := by
  rw [parentOf, h.find_detach hparent, parentOf]
  cases d.find x with
  | none => simp
  | some n => simp

theorem childrenOf_detach (h : d.WellFormed) {child parent : NodeId}
    (hparent : d.parentOf child = some parent) (x : NodeId) :
    (d.detach child).childrenOf x =
      if x = parent then (d.childrenOf x).filter (· ≠ child) else d.childrenOf x := by
  rw [childrenOf, h.find_detach hparent, childrenOf]
  cases d.find x with
  | none => simp
  | some n => simp

theorem mayHold_detach (h : d.WellFormed) {child parent : NodeId}
    (hparent : d.parentOf child = some parent) (x : NodeId) :
    (d.detach child).mayHold x = d.mayHold x := by
  apply mayHold_of_find (g := fun l => if x = parent then l.filter (· ≠ child) else l)
    (h := fun p => if x = child then none else p)
  exact h.find_detach hparent x

/-- A removal keeps pointers and lists in agreement. -/
theorem detach (h : d.WellFormed) (child : NodeId) : (d.detach child).WellFormed := by
  cases hparent : d.parentOf child with
  | none =>
    have hsame : d.detach child = d := by simp [Document.detach, hparent]
    rwa [hsame]
  | some parent =>
    have hsides := sides_detach d child
    simp only [sides, Prod.mk.injEq] at hsides
    obtain ⟨hroot, hnode, -, -⟩ := hsides
    have hmem : ∀ {c p : NodeId}, c ∈ (d.detach child).childrenOf p →
        c ∈ d.childrenOf p ∧ ¬(p = parent ∧ c = child) := by
      intro c p hc
      rw [h.childrenOf_detach hparent] at hc
      split at hc
      · next hp =>
        rw [List.mem_filter] at hc
        exact ⟨hc.1, by simpa [hp] using hc.2⟩
      · next hp => exact ⟨hc, by simp [hp]⟩
    constructor
    · intro c p hc
      rw [h.parentOf_detach hparent] at hc
      split at hc
      · cases hc
      · next hne =>
        rw [h.childrenOf_detach hparent]
        split
        · exact List.mem_filter.mpr ⟨h.mem_childrenOf hc, by simpa using hne⟩
        · exact h.mem_childrenOf hc
    · intro c p hc
      obtain ⟨hc, hne⟩ := hmem hc
      rw [h.parentOf_detach hparent, hroot, hnode]
      rcases h.parentOf_of_mem hc with hp | hp
      · split
        · next heq =>
          subst heq
          exact absurd ⟨Option.some.inj (hp.symm.trans hparent), rfl⟩ hne
        · exact .inl hp
      · exact .inr hp
    · intro p
      rw [h.childrenOf_detach hparent]
      split
      · exact (h.nodup p).filter _
      · exact h.nodup p
    · intro c p hc
      rw [h.mayHold_detach hparent]
      exact h.mayHold (hmem hc).1
    · rw [hroot, hnode]
      intro hne
      rw [h.childrenOf_detach hparent]
      split
      · next hdoc =>
        refine List.mem_filter.mpr ⟨h.root_mem hne, ?_⟩
        simp only [decide_eq_true_eq]
        rintro rfl
        exact h.parentOf_root hne (hdoc ▸ hparent)
      · exact h.root_mem hne
    · rw [hroot, hnode]
      intro hne
      rw [h.parentOf_detach hparent]
      split
      · simp
      · exact h.parentOf_root hne
    · rw [hnode, h.mayHold_detach hparent]
      exact h.documentNode
    · rw [hnode, h.parentOf_detach hparent]
      split
      · simp
      · exact h.parentOf_documentNode

/-- An insertion keeps pointers and lists in agreement. -/
theorem attach (h : d.WellFormed) {parent child : NodeId} {index : ℕ}
    (hadm : d.Admissible (.insert parent child index)) :
    (d.attach parent child index).WellFormed := by
  obtain ⟨hthere, hholds, hnone, hroot', habove, hindex⟩ := hadm
  have hfresh : child ∉ d.childrenOf parent := by
    intro hmem
    rcases h.parentOf_of_mem hmem with hp | hp
    · simp [hnone] at hp
    · exact hroot' ⟨hp.1, hp.2.1⟩
  have hsides := sides_attach d parent child index
  simp only [sides, Prod.mk.injEq] at hsides
  obtain ⟨hroot, hnode, -, -⟩ := hsides
  have hparentOf : ∀ x, (d.attach parent child index).parentOf x =
      if x = child then some parent else d.parentOf x := by
    intro x
    rw [parentOf, find_attach, parentOf]
    cases hx : d.find x with
    | none =>
      have hne : x ≠ child := by
        rintro rfl
        simp [hx] at hthere
      simp [hne]
    | some n => simp
  have hchildren : ∀ x, (d.attach parent child index).childrenOf x =
      if x = parent then (d.childrenOf x).insertIdx index child else d.childrenOf x := by
    intro x
    obtain ⟨n, hn, -⟩ := isSome_find_of_mayHold hholds
    rw [childrenOf, find_attach, childrenOf]
    cases hx : d.find x with
    | none =>
      have hne : x ≠ parent := by
        rintro rfl
        simp [hx] at hn
      simp [hne]
    | some n => simp
  have hmayHold : ∀ x, (d.attach parent child index).mayHold x = d.mayHold x := by
    intro x
    apply mayHold_of_find (g := fun l => if x = parent then l.insertIdx index child else l)
      (h := fun p => if x = child then some parent else p)
    exact find_attach d parent child index x
  have hmem : ∀ {c p : NodeId}, c ∈ (d.attach parent child index).childrenOf p →
      (c = child ∧ p = parent) ∨ c ∈ d.childrenOf p := by
    intro c p hc
    rw [hchildren] at hc
    split at hc
    · next hp =>
      rcases List.eq_or_mem_of_mem_insertIdx hc with hc | hc
      · exact .inl ⟨hc, hp⟩
      · exact .inr hc
    · exact .inr hc
  have hkept : ∀ {c p : NodeId}, c ∈ d.childrenOf p →
      c ∈ (d.attach parent child index).childrenOf p := by
    intro c p hc
    rw [hchildren]
    split
    · next hp =>
      subst hp
      exact (List.mem_insertIdx hindex).mpr (.inr hc)
    · exact hc
  constructor
  · intro c p hc
    rw [hparentOf] at hc
    split at hc
    · next heq =>
      obtain rfl := Option.some.inj hc
      rw [hchildren, if_pos rfl, heq]
      exact (List.mem_insertIdx hindex).mpr (.inl rfl)
    · exact hkept (h.mem_childrenOf hc)
  · intro c p hc
    rw [hparentOf, hroot, hnode]
    rcases hmem hc with ⟨rfl, rfl⟩ | hold
    · simp
    · split
      · next heq =>
        subst heq
        rcases h.parentOf_of_mem hold with hp | hp
        · simp [hnone] at hp
        · exact .inr hp
      · exact h.parentOf_of_mem hold
  · intro p
    rw [hchildren]
    split
    · next hp =>
      subst hp
      exact ((List.perm_insertIdx child _ hindex).nodup_iff).mpr
        (List.nodup_cons.mpr ⟨hfresh, h.nodup p⟩)
    · exact h.nodup p
  · intro c p hc
    rw [hmayHold]
    rcases hmem hc with ⟨rfl, rfl⟩ | hc
    · exact hholds
    · exact h.mayHold hc
  · rw [hroot, hnode]
    intro hne
    exact hkept (h.root_mem hne)
  · rw [hroot, hnode, hparentOf]
    intro hne
    split
    · next heq =>
      rintro hp
      exact hroot' ⟨heq.symm, Option.some.inj hp⟩
    · exact h.parentOf_root hne
  · rw [hnode, hmayHold]
    exact h.documentNode
  · rw [hnode, hparentOf]
    split
    · next heq =>
      intro hp
      obtain rfl := Option.some.inj hp
      subst heq
      apply habove
      rw [inclusiveAncestors]
      exact mem_parentChain_self d _ _
    · exact h.parentOf_documentNode

/-- Rewriting the Document's child list and the document element keeps pointers and lists in
agreement when the new list holds the Document's children and the document element. -/
theorem relist (h : d.WellFormed) {d' : Document} {items : List NodeId}
    (hfind : ∀ x, d'.find x = (d.find x).map fun n =>
      { n with children := if x = d.documentNode then items else n.children })
    (hnode : d'.documentNode = d.documentNode) (hnodup : items.Nodup)
    (hmem : ∀ c, c ∈ items ↔ d.parentOf c = some d.documentNode ∨
      (c = d'.root ∧ d'.root ≠ d.documentNode))
    (hroot : d'.root ≠ d.documentNode → d.parentOf d'.root ≠ some d.documentNode) :
    d'.WellFormed := by
  have hparentOf : ∀ x, d'.parentOf x = d.parentOf x := by
    intro x
    rw [parentOf, hfind, parentOf]
    cases d.find x with
    | none => rfl
    | some n => rfl
  have hchildren : ∀ x, d'.childrenOf x = if x = d.documentNode then items else d.childrenOf x := by
    intro x
    obtain ⟨n, hn, -⟩ := isSome_find_of_mayHold h.documentNode
    rw [childrenOf, hfind, childrenOf]
    cases hx : d.find x with
    | none =>
      have hne : x ≠ d.documentNode := by
        rintro rfl
        simp [hx] at hn
      simp [hne]
    | some n => simp
  have hmayHold : ∀ x, d'.mayHold x = d.mayHold x := by
    intro x
    apply mayHold_of_find (g := fun l => if x = d.documentNode then items else l) (h := id)
    exact hfind x
  constructor
  · intro c p hc
    rw [hparentOf] at hc
    rw [hchildren]
    split
    · next hp => exact (hmem c).mpr (.inl (hp ▸ hc))
    · exact h.mem_childrenOf hc
  · intro c p hc
    rw [hchildren] at hc
    rw [hparentOf, hnode]
    split at hc
    · next hp =>
      rcases (hmem c).mp hc with hpar | hpar
      · exact .inl (hp ▸ hpar)
      · exact .inr ⟨hpar.1, hp, hpar.2⟩
    · next hp =>
      rcases h.parentOf_of_mem hc with hpar | hpar
      · exact .inl hpar
      · exact absurd hpar.2.1 hp
  · intro p
    rw [hchildren]
    split
    · exact hnodup
    · exact h.nodup p
  · intro c p hc
    rw [hmayHold]
    rw [hchildren] at hc
    split at hc
    · next hp => exact hp ▸ h.documentNode
    · exact h.mayHold hc
  · rw [hnode, hchildren, if_pos rfl]
    intro hne
    exact (hmem d'.root).mpr (.inr ⟨rfl, hne⟩)
  · rw [hnode, hparentOf]
    exact hroot
  · rw [hnode, hmayHold]
    exact h.documentNode
  · rw [hnode, hparentOf]
    exact h.parentOf_documentNode

theorem mem_childrenOf_documentNode (h : d.WellFormed) (c : NodeId) :
    c ∈ d.childrenOf d.documentNode ↔ d.parentOf c = some d.documentNode ∨
      (c = d.root ∧ d.root ≠ d.documentNode) := by
  constructor
  · intro hc
    rcases h.parentOf_of_mem hc with hp | ⟨hp, -, hne⟩
    · exact .inl hp
    · exact .inr ⟨hp, hne⟩
  · rintro (hp | ⟨rfl, hne⟩)
    · exact h.mem_childrenOf hp
    · exact h.root_mem hne

theorem removeDocumentElement_eq (h : d.WellFormed) (hne : d.root ≠ d.documentNode) :
    d.removeDocumentElement =
      { (d.noteEdit (.removed d.documentNode d.root
          ((d.childrenOf d.documentNode).idxOf d.root))).modify d.documentNode fun n =>
            { n with children := n.children.filter (· ≠ d.root) }
        with root := d.documentNode } := by
  obtain ⟨n, hn, -⟩ := isSome_find_of_mayHold h.documentNode
  have hdoc : ¬(d.root = d.documentNode ∨ (d.find d.documentNode).isNone) := by
    simp [hne, hn]
  rw [Document.removeDocumentElement, if_neg hdoc]
  simp only [if_pos (h.root_mem hne)]

theorem find_removeDocumentElement (h : d.WellFormed) (hne : d.root ≠ d.documentNode)
    (x : NodeId) : d.removeDocumentElement.find x = (d.find x).map fun n =>
      { n with
        children := if x = d.documentNode then
          (d.childrenOf d.documentNode).filter (· ≠ d.root) else n.children } := by
  rw [h.removeDocumentElement_eq hne]
  show ((d.noteEdit _).modify _ _).find x = _
  rw [find_modify, find_noteEdit]
  split
  · next hx =>
    subst hx
    cases hfind : d.find d.documentNode with
    | none => rfl
    | some n => simp [childrenOf_eq hfind]
  · cases d.find x <;> rfl

/-- The document element's leaving keeps pointers and lists in agreement. -/
theorem removeDocumentElement (h : d.WellFormed) : d.removeDocumentElement.WellFormed := by
  by_cases hne : d.root = d.documentNode
  · have hsame : d.removeDocumentElement = d := by simp [Document.removeDocumentElement, hne]
    rwa [hsame]
  · have heq := h.removeDocumentElement_eq hne
    have hroot : d.removeDocumentElement.root = d.documentNode := by rw [heq]
    have hnode : d.removeDocumentElement.documentNode = d.documentNode := by
      rw [heq, noteEdit]
      split <;> rfl
    apply h.relist (h.find_removeDocumentElement hne) hnode ((h.nodup _).filter _)
    · intro c
      rw [List.mem_filter, h.mem_childrenOf_documentNode, hroot]
      simp only [decide_eq_true_eq]
      constructor
      · rintro ⟨hp | hp, hc⟩
        · exact .inl hp
        · exact absurd hp.1 hc
      · rintro (hp | hp)
        · refine ⟨.inl hp, ?_⟩
          rintro rfl
          exact h.parentOf_root hne hp
        · exact absurd rfl hp.2
    · intro hne'
      exact absurd hroot hne'

theorem find_placeDocumentElement (d : Document) (id : NodeId) (index : ℕ) (x : NodeId) :
    (d.placeDocumentElement id index).find x = (d.find x).map fun n =>
      { n with
        children := if x = d.documentNode then
          (d.childrenOf d.documentNode).insertIdx index id else n.children } := by
  rw [Document.placeDocumentElement, find_noteEdit, find_modify]
  show (if x = d.documentNode then (d.find x).map _ else d.find x) = _
  split
  · next hx =>
    subst hx
    cases hfind : d.find d.documentNode with
    | none => rfl
    | some n => simp [childrenOf_eq hfind]
  · cases d.find x <;> rfl

theorem placeDocumentElement (h : d.WellFormed) {id : NodeId} {index : ℕ}
    (hadm : d.Admissible (.placeDocumentElement id index)) :
    (d.placeDocumentElement id index).WellFormed := by
  obtain ⟨hroot, -, hid, hnone, hindex⟩ := hadm
  have hfresh : id ∉ d.childrenOf d.documentNode := by
    intro hmem
    rcases (h.mem_childrenOf_documentNode id).mp hmem with hp | hp
    · simp [hnone] at hp
    · exact hp.2 hroot
  have hsides : (d.placeDocumentElement id index).root = id ∧
      (d.placeDocumentElement id index).documentNode = d.documentNode := by
    rw [Document.placeDocumentElement, noteEdit]
    split <;> exact ⟨rfl, rfl⟩
  apply h.relist (find_placeDocumentElement d id index) hsides.2
  · exact ((List.perm_insertIdx id _ hindex).nodup_iff).mpr
      (List.nodup_cons.mpr ⟨hfresh, h.nodup _⟩)
  · intro c
    rw [List.mem_insertIdx hindex, h.mem_childrenOf_documentNode, hsides.1]
    constructor
    · rintro (hc | hp | hp)
      · exact .inr ⟨hc, hid⟩
      · exact .inl hp
      · exact absurd hroot hp.2
    · rintro (hp | hp)
      · exact .inr (.inl hp)
      · exact .inl hp.1
  · rw [hsides.1, hnone]
    intro _
    simp

theorem congr (h : d.WellFormed) {d' : Document} (hparentOf : ∀ x, d'.parentOf x = d.parentOf x)
    (hchildren : ∀ x, d'.childrenOf x = d.childrenOf x)
    (hmayHold : ∀ x, d.mayHold x → d'.mayHold x) (hroot : d'.root = d.root)
    (hnode : d'.documentNode = d.documentNode) : d'.WellFormed := by
  constructor
  · intro c p hc
    rw [hparentOf] at hc
    rw [hchildren]
    exact h.mem_childrenOf hc
  · intro c p hc
    rw [hchildren] at hc
    rw [hparentOf, hroot, hnode]
    exact h.parentOf_of_mem hc
  · intro p
    rw [hchildren]
    exact h.nodup p
  · intro c p hc
    rw [hchildren] at hc
    exact hmayHold p (h.mayHold hc)
  · rw [hroot, hnode, hchildren]
    exact h.root_mem
  · rw [hroot, hnode, hparentOf]
    exact h.parentOf_root
  · rw [hnode]
    exact hmayHold _ h.documentNode
  · rw [hnode, hparentOf]
    exact h.parentOf_documentNode

theorem create (h : d.WellFormed) (kind : NodeKind) (ns : NodeNs) (localName text : Text) :
    (d.create kind ns localName text).1.WellFormed := by
  have hfind : ∀ x, x ≠ d.nodes.length →
      (d.create kind ns localName text).1.find x = d.find x := by
    intro x hx
    rcases Nat.lt_or_gt_of_ne hx with hlt | hgt
    · simp [Document.create, find, List.getElem?_append_left hlt]
    · have hout : d.nodes.length + 1 ≤ x := hgt
      simp [Document.create, find, List.getElem?_eq_none, hout, hgt.le]
  have hnew : d.find d.nodes.length = none := by simp [find]
  apply h.congr (parentOf_create d kind ns localName text) ?_ ?_ rfl rfl
  · intro x
    by_cases hx : x = d.nodes.length
    · subst hx
      simp [childrenOf, Document.create, find]
    · rw [childrenOf, hfind x hx, childrenOf]
  · intro x hholds
    by_cases hx : x = d.nodes.length
    · subst hx
      simp [Document.mayHold, hnew] at hholds
    · rwa [Document.mayHold, hfind x hx]

end WellFormed

theorem find_setText {d d' : Document} {id : NodeId} {value : Text} {edit : Option DataEdit}
    (hok : d.setText id value edit = .ok d') (x : NodeId) :
    d'.find x = (d.find x).map fun n => { n with
      text := if x = id then value else n.text
      attributes := if x = id then updatePiAttributes n value else n.attributes } := by
  rw [setText] at hok
  split at hok
  · cases hok
  · obtain rfl := Except.ok.inj hok
    rw [find_noteEdit, find_modify]
    split
    · next hx => simp
    · cases d.find x <;> rfl

theorem sides_setText {d d' : Document} {id : NodeId} {value : Text} {edit : Option DataEdit}
    (hok : d.setText id value edit = .ok d') : d'.sides = d.sides := by
  rw [setText] at hok
  split at hok
  · cases hok
  · obtain rfl := Except.ok.inj hok
    simp

theorem setText_eq_apply {d : Document} {id : NodeId} {value : Text} {edit : Option DataEdit}
    (h : (d.find id).isSome) :
    d.setText id value edit = .ok (d.apply (.replaceData id value edit)) := by
  obtain ⟨n, hn⟩ := Option.isSome_iff_exists.mp h
  simp [apply, setText, hn, Except.toOption]

namespace WellFormed

variable {d : Document}

theorem setText (h : d.WellFormed) {d' : Document} {id : NodeId} {value : Text}
    {edit : Option DataEdit} (hok : d.setText id value edit = .ok d') : d'.WellFormed := by
  have hsides := sides_setText hok
  simp only [sides, Prod.mk.injEq] at hsides
  apply h.congr ?_ ?_ ?_ hsides.1 hsides.2.1
  · intro x
    rw [parentOf, find_setText hok, parentOf]
    cases d.find x <;> rfl
  · intro x
    rw [childrenOf, find_setText hok, childrenOf]
    cases d.find x <;> rfl
  · intro x hx
    rw [Document.mayHold, find_setText hok]
    simpa [Document.mayHold, Option.any_map] using hx

theorem isSome_find_of_replaceData {id : NodeId} {value : Text} {edit : Option DataEdit}
    (hadm : d.Admissible (.replaceData id value edit)) : (d.find id).isSome := by
  obtain ⟨hkind, -⟩ := hadm
  cases hfind : d.find id with
  | none => simp [hfind] at hkind
  | some n => rfl

theorem apply (h : d.WellFormed) {edit : Edit} (hadm : d.Admissible edit) :
    (d.apply edit).WellFormed := by
  cases edit with
  | create kind ns localName text => exact h.create kind ns localName text
  | remove child => exact h.detach child
  | insert parent child index => exact h.attach hadm
  | removeDocumentElement => exact h.removeDocumentElement
  | placeDocumentElement id index => exact h.placeDocumentElement hadm
  | replaceData id value edit =>
    exact h.setText (setText_eq_apply (isSome_find_of_replaceData hadm))

theorem applyAll (h : d.WellFormed) {edits : List Edit} (hadm : d.AllAdmissible edits) :
    (d.applyAll edits).WellFormed := by
  induction edits generalizing d with
  | nil => exact h
  | cons edit rest ih => exact ih (h.apply hadm.1) hadm.2

theorem setLogWrites (h : d.WellFormed) (on : Bool) : (d.setLogWrites on).WellFormed :=
  h.congr (fun _ => rfl) (fun _ => rfl) (fun _ hx => hx) rfl rfl

end WellFormed

theorem wellFormed_new : new.WellFormed := by
  have hparentOf : ∀ x, new.parentOf x = none := by
    intro x
    rcases x with _ | x <;> simp [parentOf, find, new]
  have hchildren : ∀ x, new.childrenOf x = [] := by
    intro x
    rcases x with _ | x <;> simp [childrenOf, find, new]
  constructor
  · intro c p hp
    simp [hparentOf] at hp
  · intro c p hc
    simp [hchildren] at hc
  · intro p
    simp [hchildren]
  · intro c p hc
    simp [hchildren] at hc
  · exact fun h => absurd rfl h
  · exact fun h => absurd rfl h
  · decide
  · simp [hparentOf]

end Document

end CtBrowser.Dom
