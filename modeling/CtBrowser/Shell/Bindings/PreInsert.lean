import CtBrowser.Dom.HostTree
import CtBrowser.Foundations.Transition

/-!
# Pre-Insertion Validity

The check every script insertion makes before it moves a node, and the insertion itself. The
check walks parent pointers only, so a node may go below its own shadow root or below the
contents of a template it is: after that the walks over hosts run in a circle.

## Main definitions

- `preInsertValid` — the check, with the exception it throws.
- `insertNode` — the insertion, which moves the children of a fragment.
- `treeSystem` — documents under the tree operations of a script.
- `MovesBelowHosts` — no moved node is above its new parent, hosts counted as parents.

## Main results

- `acyclic_hostAbove_of_reachable` — runs whose moves go below hosts make no cycle.
-/

namespace CtBrowser.Shell

open Dom Foundations Relation

/-- A script value given where a node is asked for. -/
inductive NodeArgument
  | node (id : NodeId)
  -- the document object of any document
  | aDocument
  -- a node of another document
  | foreign
  | nullish
  | other
deriving DecidableEq, Repr

/-- The handle of a value: that of one of the document's own nodes. -/
def NodeArgument.handle : NodeArgument → Option NodeId
  | node id => some id
  | _ => none

/-- An exception for the script. -/
structure DomException where
  name : String
  message : String
deriving DecidableEq, Repr

/-- A node's kind, or an element's for a handle of none. -/
def kindOrElement (d : Document) (id : NodeId) : NodeKind :=
  ((d.find id).map Node.kind).getD .element

/-- The nodes an insertion moves: the children of a fragment, else the node itself. -/
def moving (d : Document) (child : NodeId) : List NodeId :=
  if kindOrElement d child = .documentFragment then d.childrenOf child else [child]

/-- Ensures that `node` may be inserted into `parent` before `reference`. -/
def preInsertValid (d : Document) (parent : Option NodeId) (node reference : NodeArgument) :
    Except DomException Unit :=
  if node.handle = none ∧ node ≠ .aDocument then
    .error ⟨"TypeError", "the argument is not a Node"⟩
  else
    match parent with
    | none => .error ⟨"TypeError", "the receiver is not a Node"⟩
    | some parent =>
      let parentKind := kindOrElement d parent
      if parentKind ≠ .document ∧ parentKind ≠ .documentFragment ∧ parentKind ≠ .element then
        .error ⟨"HierarchyRequestError", "the parent cannot have children"⟩
      else if node.handle.any (· ∈ d.inclusiveAncestors parent) then
        .error ⟨"HierarchyRequestError",
          "the node is an ancestor of the parent it would go into"⟩
      else if reference = .other then
        .error ⟨"TypeError", "the reference node is not a Node"⟩
      else if reference ≠ .nullish ∧ reference.handle.bind d.parentOf ≠ some parent then
        .error ⟨"NotFoundError", "the reference node is not a child of the parent"⟩
      else
        match node.handle with
        | none => .error ⟨"HierarchyRequestError", "a Document cannot be inserted"⟩
        | some child =>
          if kindOrElement d child = .document then
            .error ⟨"HierarchyRequestError", "a Document cannot be inserted"⟩
          else if kindOrElement d child = .documentType then
            .error ⟨"HierarchyRequestError",
              "a DocumentType can only be inserted into a Document"⟩
          else if (moving d child).any (d.tooDeep parent) then
            .error ⟨"HierarchyRequestError",
              "the tree would be deeper than the engine allows"⟩
          else .ok ()

/-- Moves one node; a write the document refuses leaves it alone. -/
def moveInto (parent : NodeId) (before : Option NodeId) (d : Document) (one : NodeId) :
    Document :=
  match before with
  | some reference => (d.insertBefore parent one (some reference)).toOption.getD d
  | none => (d.appendChild parent one).toOption.getD d

/-- Inserts a node, or the children of a fragment one by one. -/
def insertNode (d : Document) (parent child : NodeId) (before : Option NodeId) : Document :=
  (moving d child).foldl (moveInto parent before) d

/-- What a script does to the tree. -/
inductive TreeOperation
  | create (kind : NodeKind) (ns : NodeNs) (localName text : Text)
  | appendChild (parent child : NodeId)
  | insertBefore (parent child : NodeId) (reference : Option NodeId)
  | removeChild (child : NodeId)
  | attachShadow (host : NodeId)
  | setTemplateContent (element fragment : NodeId)
deriving DecidableEq, Repr

/-- The document after an operation that is not refused. A script's handles name nodes that
are there. -/
def perform (d : Document) : TreeOperation → Option Document
  | .create kind ns localName text => some (d.create kind ns localName text).1
  | .appendChild parent child =>
    (preInsertValid d (some parent) (.node child) .nullish).toOption.map fun _ =>
      insertNode d parent child none
  | .insertBefore parent child reference =>
    let argument := reference.elim .nullish .node
    (preInsertValid d (some parent) (.node child) argument).toOption.map fun _ =>
      insertNode d parent child reference
  | .removeChild child => (d.removeChild child).toOption
  | .attachShadow host => ((d.attachShadow host).toOption).map Prod.fst
  | .setTemplateContent element fragment =>
    if element < d.nodes.length ∧ fragment < d.nodes.length then
      some (d.setTemplateContent element fragment)
    else none

/-- Every edge of the tree ends at a node that is there. -/
def EdgesWithin (d : Document) : Prop := ∀ a b, d.HostAbove a b → b < d.nodes.length

/-- Documents without a cycle, under the tree operations of a script. -/
def treeSystem : TransitionSystem Document TreeOperation where
  initial d := Acyclic d.HostAbove ∧ EdgesWithin d
  step d operation d' := perform d operation = some d'

/-- No moved node is above its new parent, and no fragment above the template it becomes the
contents of, hosts counted as parents. -/
def MovesBelowHosts (d : Document) : TreeOperation → Prop
  | .appendChild parent child | .insertBefore parent child _ =>
    ∀ one ∈ moving d child, ¬ ReflTransGen d.HostAbove parent one
  | .setTemplateContent element fragment => ¬ ReflTransGen d.HostAbove element fragment
  | .create .. | .removeChild _ | .attachShadow _ => True

/-! ### What an operation keeps -/

/-- The tree has no cycle and every edge of it ends at a node that is there. -/
structure HostTree (d : Document) : Prop where
  acyclic : Acyclic d.HostAbove
  within : EdgesWithin d

theorem HostTree.withEdge {d d' : Document} (h : HostTree d) {a b : NodeId}
    (hle : ∀ x y, d'.HostAbove x y → Foundations.withEdge d.HostAbove a b x y)
    (hlength : d.nodes.length ≤ d'.nodes.length) (hb : b < d.nodes.length)
    (hab : ¬ ReflTransGen d.HostAbove b a) : HostTree d' := by
  refine ⟨(h.acyclic.withEdge hab).mono hle, fun x y hxy => ?_⟩
  rcases hle x y hxy with hold | ⟨-, rfl⟩
  · exact (h.within x y hold).trans_le hlength
  · exact hb.trans_le hlength

theorem moveInto_eq (parent : NodeId) (before : Option NodeId) (d : Document) (one : NodeId) :
    moveInto parent before d one = d ∨ (parent < d.nodes.length ∧
      ∃ index, moveInto parent before d one = (d.detach one).attach parent one index) := by
  cases before with
  | some reference =>
    cases hok : d.insertBefore parent one (some reference) with
    | error e => exact .inl (by simp [moveInto, hok, Except.toOption])
    | ok d' =>
      obtain ⟨hparent, -, index, rfl⟩ := Document.insertBefore_eq_ok hok
      exact .inr ⟨hparent, index, by simp [moveInto, hok, Except.toOption]⟩
  | none =>
    cases hok : d.appendChild parent one with
    | error e => exact .inl (by simp [moveInto, hok, Except.toOption])
    | ok d' =>
      obtain ⟨hparent, -, index, rfl⟩ := Document.appendChild_eq_ok hok
      exact .inr ⟨hparent, index, by simp [moveInto, hok, Except.toOption]⟩

theorem HostTree.moveInto {d : Document} (h : HostTree d) {parent one : NodeId}
    (before : Option NodeId) (hone : ¬ ReflTransGen d.HostAbove parent one) :
    HostTree (Shell.moveInto parent before d one) ∧
      ∀ other, ReflTransGen (Shell.moveInto parent before d one).HostAbove parent other →
        ReflTransGen d.HostAbove parent other := by
  rcases moveInto_eq parent before d one with heq | ⟨hparent, index, heq⟩
  · rw [heq]
    exact ⟨h, fun other hother => hother⟩
  · rw [heq]
    have hle : ∀ x y, ((d.detach one).attach parent one index).HostAbove x y →
        Foundations.withEdge d.HostAbove one parent x y :=
      fun x y hxy => Document.hostAbove_of_move hxy
    refine ⟨h.withEdge hle (by simp) hparent hone, fun other hother => ?_⟩
    exact reflTransGen_of_withEdge hone (ReflTransGen.mono hle _ _ hother)

theorem HostTree.foldl_moveInto {parent : NodeId} (before : Option NodeId) (ones : List NodeId)
    {d : Document} (h : HostTree d)
    (hones : ∀ one ∈ ones, ¬ ReflTransGen d.HostAbove parent one) :
    HostTree (ones.foldl (Shell.moveInto parent before) d) := by
  induction ones generalizing d with
  | nil => exact h
  | cons one rest ih =>
    obtain ⟨hnext, hreach⟩ := h.moveInto before (hones one (by simp))
    apply ih hnext
    intro other hother hcycle
    exact hones other (by simp [hother]) (hreach other hcycle)

theorem HostTree.create {d : Document} (h : HostTree d) (kind : NodeKind) (ns : NodeNs)
    (localName text : Text) : HostTree (d.create kind ns localName text).1 := by
  have hle : ∀ x y, (d.create kind ns localName text).1.HostAbove x y → d.HostAbove x y := by
    intro x y hxy
    have hsides : (d.create kind ns localName text).1.sides = d.sides := rfl
    rcases hxy.of_sides hsides with hparent | hold
    · rw [Document.parentOf_create] at hparent
      exact .parent hparent
    · exact hold
  refine ⟨h.acyclic.mono hle, fun x y hxy => ?_⟩
  have hlength : (d.create kind ns localName text).1.nodes.length = d.nodes.length + 1 := by
    simp [Document.create]
  rw [hlength]
  exact Nat.lt_succ_of_lt (h.within x y (hle x y hxy))

theorem HostTree.detach {d : Document} (h : HostTree d) (child : NodeId) :
    HostTree (d.detach child) := by
  have hle : ∀ x y, (d.detach child).HostAbove x y → d.HostAbove x y := by
    intro x y hxy
    rcases hxy.of_sides (Document.sides_detach d child) with hparent | hold
    · exact .parent (Document.parentOf_of_detach hparent)
    · exact hold
  refine ⟨h.acyclic.mono hle, fun x y hxy => ?_⟩
  rw [Document.length_nodes_detach]
  exact h.within x y (hle x y hxy)

theorem HostTree.attachShadow {d d' : Document} (h : HostTree d) {host root : NodeId}
    (hok : d.attachShadow host = .ok (d', root)) : HostTree d' := by
  obtain ⟨hhost, rfl, hlength⟩ := Document.attachShadow_eq_ok hok
  refine h.withEdge (fun x y hxy => Document.hostAbove_of_attachShadow hok hxy) (by omega) hhost ?_
  intro hreach
  have hwithin : d.nodes.length ∈ Set.Iio d.nodes.length :=
    mem_of_reflTransGen (fun x y _ hxy => h.within x y hxy) hhost hreach
  simp at hwithin

/-- An allowed operation keeps the tree. -/
theorem HostTree.perform {d d' : Document} (h : HostTree d) {operation : TreeOperation}
    (hallowed : MovesBelowHosts d operation) (hd' : Shell.perform d operation = some d') :
    HostTree d' := by
  cases operation with
  | create kind ns localName text =>
    obtain rfl := Option.some.inj hd'
    exact h.create kind ns localName text
  | appendChild parent child =>
    obtain ⟨-, -, rfl⟩ := Option.map_eq_some_iff.mp hd'
    exact h.foldl_moveInto none _ hallowed
  | insertBefore parent child reference =>
    obtain ⟨-, -, rfl⟩ := Option.map_eq_some_iff.mp hd'
    exact h.foldl_moveInto reference _ hallowed
  | removeChild child =>
    rw [Shell.perform] at hd'
    cases hok : d.removeChild child with
    | error e => simp [hok, Except.toOption] at hd'
    | ok removed =>
      obtain rfl : removed = d' := by simpa [hok, Except.toOption] using hd'
      rw [Document.removeChild_eq_ok hok]
      exact h.detach child
  | attachShadow host =>
    rw [Shell.perform] at hd'
    cases hok : d.attachShadow host with
    | error e => simp [hok, Except.toOption] at hd'
    | ok made =>
      obtain rfl : made.1 = d' := by simpa [hok, Except.toOption] using hd'
      exact h.attachShadow hok
  | setTemplateContent element fragment =>
    rw [Shell.perform] at hd'
    split at hd'
    · next hthere =>
      obtain rfl := Option.some.inj hd'
      exact h.withEdge (fun x y hxy => Document.hostAbove_of_setTemplateContent hxy) (by simp)
        hthere.1 hallowed
    · cases hd'

/-- In every run whose moves go below hosts, no node is above itself. -/
theorem acyclic_hostAbove_of_reachable {d : Document}
    (h : treeSystem.Reachable MovesBelowHosts d) : Acyclic d.HostAbove := by
  have htree : HostTree d := by
    refine h.invariant (fun d hd => ⟨hd.1, hd.2⟩) ?_
    intro d operation d' htree hallowed hstep
    exact htree.perform hallowed hstep
  exact htree.acyclic

theorem initial_new : treeSystem.initial Document.new := by
  constructor
  · intro a hcycle
    obtain ⟨b, hab, -⟩ := TransGen.head'_iff.mp hcycle
    exact Document.not_hostAbove_new a b hab
  · intro a b hab
    exact absurd hab (Document.not_hostAbove_new a b)

/-- A document with one element, which hosts a shadow root. -/
def hostDocument : Document :=
  { Document.new with
    nodes := [⟨.document, .html, [], [], [], none, []⟩, ⟨.element, .html, ascii "div", [], [], none, []⟩,
      ⟨.documentFragment, .html, [], [], [], none, []⟩]
    shadows := [(1, 2)] }

theorem reachable_hostDocument : treeSystem.Reachable MovesBelowHosts hostDocument := by
  have hcreate : treeSystem.Reachable MovesBelowHosts
      (Document.new.create .element .html (ascii "div") []).1 :=
    .step (l := .create .element .html (ascii "div") []) (.initial initial_new) trivial rfl
  refine .step (l := .attachShadow 1) hcreate trivial ?_
  show perform _ _ = some hostDocument
  decide

/-- The same document with a second element in the shadow root. -/
def shadowDocument : Document :=
  { hostDocument with
    nodes := [⟨.document, .html, [], [], [], none, []⟩, ⟨.element, .html, ascii "div", [], [], none, []⟩,
      ⟨.documentFragment, .html, [], [], [], none, [3]⟩,
      ⟨.element, .html, ascii "span", [], [], some 2, []⟩] }

theorem not_reflTransGen_hostDocument : ¬ ReflTransGen
    (hostDocument.create .element .html (ascii "span") []).1.HostAbove 2 3 := by
  intro hreach
  have hclosed : ∀ a b, a ∈ ({1, 2} : Set ℕ) →
      (hostDocument.create .element .html (ascii "span") []).1.HostAbove a b →
        b ∈ ({1, 2} : Set ℕ) := by
    rintro a b ha (h | h | h | h)
    · rw [Document.parentOf_create] at h
      rcases ha with rfl | rfl <;> simp [Document.parentOf, Document.find, hostDocument] at h
    · exact absurd rfl h
    · simp only [Document.create, hostDocument, List.mem_singleton, Prod.mk.injEq] at h
      simp [h.1]
    · simp [Document.create, hostDocument, Document.new] at h
  have hmem := mem_of_reflTransGen hclosed (by simp) hreach
  simp at hmem

theorem acyclic_hostAbove_of_reachable_shadowDocument : Acyclic shadowDocument.HostAbove := by
  have hcreate : treeSystem.Reachable MovesBelowHosts
      (hostDocument.create .element .html (ascii "span") []).1 :=
    .step (l := .create .element .html (ascii "span") []) reachable_hostDocument trivial rfl
  apply acyclic_hostAbove_of_reachable
  refine .step (l := .appendChild 2 3) hcreate ?_ ?_
  · intro one hone
    obtain rfl : one = 3 := by
      have hmoving : moving (hostDocument.create .element .html (ascii "span") []).1 3 = [3] := by
        decide
      simpa [hmoving] using hone
    exact not_reflTransGen_hostDocument
  · show perform _ _ = some shadowDocument
    decide

/-- The same document with the element below its own shadow root. -/
def circularDocument : Document :=
  { hostDocument with
    nodes := [⟨.document, .html, [], [], [], none, []⟩,
      ⟨.element, .html, ascii "div", [], [], some 2, []⟩,
      ⟨.documentFragment, .html, [], [], [], none, [1]⟩] }

/-- An element goes below its own shadow root. -/
theorem not_acyclic_hostAbove_of_reachable :
    ¬ ∀ d : Document, treeSystem.Reachable (fun _ _ => True) d → Acyclic d.HostAbove := by
  intro h
  have hpasses : perform hostDocument (.appendChild 2 1) = some circularDocument := by
    decide
  have hreach : treeSystem.Reachable (fun _ _ => True) circularDocument :=
    .step (l := .appendChild 2 1) (reachable_hostDocument.mono fun _ _ _ => trivial) trivial
      hpasses
  have hparent : circularDocument.HostAbove 1 2 := .parent (by decide)
  have hhost : circularDocument.HostAbove 2 1 := .shadow (by decide)
  exact h circularDocument hreach 1 (.tail (.single hparent) hhost)

end CtBrowser.Shell
