import CtBrowser.Dom.AttributeRoundTrip
import CtBrowser.Dom.Document
import CtBrowser.Foundations.Transition

/-!
# Processing instructions in step

A processing instruction has its data and, beside it, its attributes. A write of the data is followed
by a write of the attributes, and the other way round. Only the removal of an attribute by its
namespace and local name leaves the data behind.

## Main definitions

- `DataStep`, `dataRuns` — the writes of data and attributes, in any order, and which came last.
- `InStep` — the side that was written last determines the other one.
- `KeepsData` — a step that is no such removal.

## Main results

- `inStep_of_reachable` — a run of such steps keeps every processing instruction in step.
- `removeAttributeNs_out_of_step` — a removal puts one out of step.
-/

namespace CtBrowser.Dom

open Foundations PseudoAttributes

/-- A write of data or attributes. -/
inductive DataStep
  | setText (id : NodeId) (value : Text) (edit : Option DataEdit)
  | setAttribute (id : NodeId) (name value : Text)
  | removeAttribute (id : NodeId) (name : Text)
  | removeAttributeNs (id : NodeId) (ns localName : Text)
deriving DecidableEq, Repr

namespace DataStep

/-- The node that is written. -/
def node : DataStep → NodeId
  | setText id _ _ | setAttribute id _ _ | removeAttribute id _ | removeAttributeNs id _ _ => id

/-- The document after the write, unless it is refused. -/
def perform (d : Document) : DataStep → Except DomError Document
  | setText id value edit => d.setText id value edit
  | setAttribute id name value => d.setAttribute id name value
  | removeAttribute id name => d.removeAttribute id name
  | removeAttributeNs id ns localName => d.removeAttributeNs id ns localName

/-- Whether a node has an attribute of some kind. -/
def holds (d : Document) (id : NodeId) (p : Attribute → Bool) : Bool :=
  (d.find id).any fun n => n.attributes.any p

/-- Whether a write changes the attributes. -/
def changesAttributes (d : Document) : DataStep → Bool
  | setText _ _ _ => false
  | setAttribute _ _ _ => true
  | removeAttribute id name => holds d id fun a => a.name = name
  | removeAttributeNs id ns localName => holds d id fun a => attributeIs a ns localName

/-- Whether a write changes the data. -/
def changesData : DataStep → Bool
  | setText _ _ _ => true
  | _ => false

end DataStep

/-- A document, and the nodes whose attributes were written after their data. -/
structure DataRun where
  document : Document
  attributesLast : NodeId → Bool

/-- A processing instruction whose attributes are those of its data. -/
def FromData (n : Node) : Prop := n.attributes = (parsePseudoAttributes n.text).getD []

/-- A processing instruction whose data is that of its attributes. -/
def FromAttributes (n : Node) : Prop := n.text = serializePseudoAttributes n.attributes

/-- In each processing instruction, the side that was written last determines the other one. -/
def InStep (r : DataRun) : Prop :=
  ∀ id n, r.document.find id = some n → n.kind = .processingInstruction →
    if r.attributesLast id then FromAttributes n else FromData n

/-- The writes of data and attributes, in any order, from a document whose processing instructions are as
they were made. -/
def dataRuns : TransitionSystem DataRun DataStep where
  initial r := (∀ id, r.attributesLast id = false) ∧
    ∀ id n, r.document.find id = some n → n.kind = .processingInstruction → FromData n
  step r s r' := s.perform r.document = .ok r'.document ∧
    r'.attributesLast = Function.update r.attributesLast s.node
      (s.changesAttributes r.document || r.attributesLast s.node && !s.changesData)

/-- A step that removes no attribute of a processing instruction by its namespace and local name. -/
def KeepsData (r : DataRun) : DataStep → Prop
  | .removeAttributeNs id ns localName =>
    ∀ n, r.document.find id = some n → n.kind = .processingInstruction →
      n.attributes.any (fun a => attributeIs a ns localName) = false
  | _ => True

namespace Document

variable {d d' : Document} {id x : NodeId} {n : Node}

theorem fromData_createProcessingInstruction (d : Document) (target data : Text) :
    ∃ n, (d.createProcessingInstruction target data).1.find (d.createProcessingInstruction target data).2 = some n ∧
      n.kind = .processingInstruction ∧ n.text = data ∧ FromData n := by
  refine ⟨⟨.processingInstruction, .html, target, data, (parsePseudoAttributes data).getD [], none, []⟩, ?_, rfl, rfl,
    rfl⟩
  simp [createProcessingInstruction, create, find, updatePiAttributes, modify]

theorem find_updatePiData (d : Document) (id : NodeId) (n : Node) (x : NodeId) :
    (d.updatePiData id n).find x = if n.kind = .processingInstruction ∧ x = id then
      (d.find x).map fun n => { n with text := serializePseudoAttributes n.attributes } else d.find x := by
  rw [updatePiData]
  by_cases hkind : n.kind = .processingInstruction
  · rw [if_neg (not_not.mpr hkind), find_noteEdit, find_modify]
    simp [hkind]
  · rw [if_pos hkind, if_neg fun h => hkind h.1]

/-- Another node stays as it is. -/
theorem find_perform_of_ne {s : DataStep} (h : s.perform d = .ok d') (hx : x ≠ s.node) : d'.find x = d.find x := by
  cases s with
  | setText id value edit =>
    rw [DataStep.perform, setText] at h
    split at h
    · cases h
    · cases h
      rw [find_noteEdit, find_modify]
      exact if_neg hx
  | setAttribute id name value =>
    rw [DataStep.perform, setAttribute] at h
    split at h
    · cases h
    · split_ifs at h
      all_goals
        cases h
        rw [find_updatePiData, if_neg fun h => hx h.2, find_modify]
        exact if_neg hx
  | removeAttribute id name =>
    rw [DataStep.perform, removeAttribute] at h
    split at h
    · cases h
    · split_ifs at h
      · cases h
        rw [find_updatePiData, if_neg fun h => hx h.2, find_modify]
        exact if_neg hx
      · cases h
        rfl
  | removeAttributeNs id ns localName =>
    rw [DataStep.perform, removeAttributeNs] at h
    split at h
    · cases h
    · split_ifs at h
      · cases h
        rw [find_modify]
        exact if_neg hx
      · cases h
        rfl

theorem fromData_setText {value : Text} {edit : Option DataEdit} (h : d.setText id value edit = .ok d')
    (hn : d'.find id = some n) (hkind : n.kind = .processingInstruction) : n.text = value ∧ FromData n := by
  rw [setText] at h
  split at h
  · cases h
  · cases h
    rw [find_noteEdit, find_modify, if_pos rfl] at hn
    obtain ⟨old, -, rfl⟩ := Option.map_eq_some_iff.mp hn
    exact ⟨rfl, if_pos hkind⟩

theorem fromAttributes_updatePiData {old : Node} {f : Node → Node} (hold : d.find id = some old)
    (hf : (f old).kind = old.kind) (hn : ((d.modify id f).updatePiData id old).find id = some n)
    (hkind : n.kind = .processingInstruction) : FromAttributes n := by
  rw [find_updatePiData, find_modify, if_pos rfl, hold] at hn
  split_ifs at hn with hpi
  · obtain ⟨m, -, rfl⟩ := Option.map_eq_some_iff.mp hn
    rfl
  · -- the node is no processing instruction after all
    cases hn
    exact absurd ⟨hf.symm.trans hkind, rfl⟩ hpi

theorem fromAttributes_setAttribute {name value : Text} (h : d.setAttribute id name value = .ok d')
    (hn : d'.find id = some n) (hkind : n.kind = .processingInstruction) : FromAttributes n := by
  rw [setAttribute] at h
  split at h
  · cases h
  · next old hold =>
    split_ifs at h
    all_goals
      cases h
      exact fromAttributes_updatePiData hold rfl hn hkind

theorem fromAttributes_removeAttribute {name : Text} (h : d.removeAttribute id name = .ok d')
    (hholds : DataStep.holds d id (fun a => a.name = name) = true) (hn : d'.find id = some n)
    (hkind : n.kind = .processingInstruction) : FromAttributes n := by
  rw [removeAttribute] at h
  split at h
  · cases h
  · next old hold =>
    rw [DataStep.holds, hold, Option.any_some] at hholds
    rw [if_pos hholds] at h
    cases h
    exact fromAttributes_updatePiData hold rfl hn hkind

theorem removeAttribute_eq_self {name : Text} (h : d.removeAttribute id name = .ok d')
    (hholds : DataStep.holds d id (fun a => a.name = name) = false) : d' = d := by
  rw [removeAttribute] at h
  split at h
  · cases h
  · next old hold =>
    rw [DataStep.holds, hold, Option.any_some] at hholds
    rw [hholds] at h
    exact (Except.ok.inj h).symm

theorem removeAttributeNs_eq_self {ns localName : Text} (h : d.removeAttributeNs id ns localName = .ok d')
    (hholds : DataStep.holds d id (fun a => attributeIs a ns localName) = false) : d' = d := by
  rw [removeAttributeNs] at h
  split at h
  · cases h
  · next old hold =>
    rw [DataStep.holds, hold, Option.any_some] at hholds
    rw [hholds] at h
    exact (Except.ok.inj h).symm

theorem find_removeAttributeNs {ns localName : Text} (h : d.removeAttributeNs id ns localName = .ok d')
    (hn : d.find id = some n) (hholds : n.attributes.any (fun a => attributeIs a ns localName) = true) :
    d'.find id = some { n with attributes := n.attributes.eraseP fun a => attributeIs a ns localName } := by
  rw [removeAttributeNs, hn] at h
  dsimp only at h
  rw [if_pos hholds] at h
  cases h
  rw [find_modify, if_pos rfl, hn]
  rfl

end Document

open Document

/-- A step that is no such removal keeps every processing instruction in step. -/
theorem InStep.step {r r' : DataRun} {s : DataStep} (h : InStep r) (hkeeps : KeepsData r s)
    (hstep : dataRuns.step r s r') : InStep r' := by
  obtain ⟨hok, hlast⟩ := hstep
  intro id n hn hkind
  by_cases hid : id = s.node
  · subst hid
    rw [hlast, Function.update_self]
    cases s with
    | setText id value edit =>
      have hnew := (fromData_setText hok hn hkind).2
      simpa [DataStep.changesAttributes, DataStep.changesData] using hnew
    | setAttribute id name value =>
      have hnew := fromAttributes_setAttribute hok hn hkind
      simpa [DataStep.changesAttributes] using hnew
    | removeAttribute id name =>
      cases hholds : DataStep.holds r.document id (fun a => a.name = name) with
      | true =>
        have hnew := fromAttributes_removeAttribute hok hholds hn hkind
        simpa [DataStep.changesAttributes, hholds] using hnew
      | false =>
        rw [removeAttribute_eq_self hok hholds] at hn
        simpa [DataStep.changesAttributes, hholds, DataStep.changesData] using h _ n hn hkind
    | removeAttributeNs id ns localName =>
      have hholds : DataStep.holds r.document id (fun a => attributeIs a ns localName) = false := by
        cases hold : r.document.find id with
        | none => rw [DataStep.holds, hold, Option.any_none]
        | some old =>
          rw [DataStep.holds, hold, Option.any_some]
          by_contra hany
          have hnew := find_removeAttributeNs hok hold (Bool.not_eq_false _ ▸ hany)
          obtain rfl := Option.some.inj (hnew.symm.trans hn)
          exact hany (hkeeps old hold hkind)
      rw [removeAttributeNs_eq_self hok hholds] at hn
      simpa [DataStep.changesAttributes, hholds, DataStep.changesData] using h _ n hn hkind
  · rw [find_perform_of_ne hok hid] at hn
    rw [hlast, Function.update_of_ne hid]
    exact h id n hn hkind

/-- Every run of such steps keeps every processing instruction in step, and attributes with distinct XML names
are read back from their data. -/
theorem inStep_of_reachable (r : DataRun) (attributes : List Attribute) :
    (dataRuns.Reachable KeepsData r → InStep r) ∧
      (Nameable attributes → parsePseudoAttributes (serializePseudoAttributes attributes) = some attributes) := by
  refine ⟨fun hr => hr.invariant (fun r hinitial id n hn hkind => ?_) fun r s r' h hkeeps => h.step hkeeps,
    parse_serializePseudoAttributes⟩
  rw [hinitial.1 id]
  exact hinitial.2 id n hn hkind

/-- The removal of an attribute by its namespace and local name puts a processing instruction that is in step
out of step. -/
theorem removeAttributeNs_out_of_step {r r' : DataRun} {id : NodeId} {ns localName : Text} {n : Node} (h : InStep r)
    (hn : r.document.find id = some n) (hkind : n.kind = .processingInstruction)
    (hholds : n.attributes.any (fun a => attributeIs a ns localName) = true)
    (hstep : dataRuns.step r (.removeAttributeNs id ns localName) r') : ¬ InStep r' := by
  obtain ⟨hok, hlast⟩ := hstep
  have hnew := find_removeAttributeNs hok hn hholds
  have hlast' : r'.attributesLast id = true := by
    rw [hlast]
    simp [DataStep.node, DataStep.changesAttributes, DataStep.holds, hn, hholds]
  intro hinstep
  have hafter := hinstep id _ hnew hkind
  have hbefore := h id n hn hkind
  rw [hlast'] at hafter
  have htext : n.text = serializePseudoAttributes (n.attributes.eraseP fun a => attributeIs a ns localName) := hafter
  have hsame := serialize_eraseP_ne hholds
  split_ifs at hbefore
  · exact hsame (htext.symm.trans hbefore)
  · -- the data would stand for the attributes with and without the one that is removed
    cases hparse : parsePseudoAttributes n.text with
    | none =>
      rw [FromData, hparse] at hbefore
      rw [hbefore] at hholds
      cases hholds
    | some attributes =>
      rw [FromData, hparse, Option.getD_some] at hbefore
      have hall := nameable_of_parse hparse
      have hsub : (attributes.eraseP fun a => attributeIs a ns localName).Sublist attributes := List.eraseP_sublist
      have hfewer : Nameable (attributes.eraseP fun a => attributeIs a ns localName) :=
        ⟨fun a ha => hall.name a (hsub.subset ha), fun a ha => hall.ns a (hsub.subset ha),
          hall.nodup.sublist (hsub.map _)⟩
      rw [hbefore] at htext hsame
      rw [htext, parse_serializePseudoAttributes hfewer] at hparse
      exact hsame (congrArg serializePseudoAttributes (Option.some.inj hparse))

/-! ## A processing instruction with one attribute -/

/-- A document with a processing instruction that has no data. -/
def piRun : DataRun := ⟨(Document.new.createProcessingInstruction (ascii "pi") []).1, fun _ => false⟩

/-- The same once an attribute is set. -/
def namedRun : DataRun where
  document := { Document.new with
    nodes := [⟨.document, .html, [], [], [], none, []⟩,
      ⟨.processingInstruction, .html, ascii "pi", ascii "a=\"1\"", [{ name := ascii "a", value := ascii "1" }], none, []⟩] }
  attributesLast := Function.update (fun _ => false) 1 true

theorem piRun_initial : dataRuns.initial piRun := by
  refine ⟨fun _ => rfl, fun id n hn hkind => ?_⟩
  rcases id with - | - | id
  · cases hn
    cases hkind
  · cases hn
    rfl
  · cases hn

theorem namedRun_step : dataRuns.step piRun (.setAttribute 1 (ascii "a") (ascii "1")) namedRun :=
  ⟨by decide +kernel, rfl⟩

/-- A run that sets an attribute ends in step, and the attribute is read back from the data. -/
theorem inStep_namedRun : InStep namedRun ∧
    parsePseudoAttributes (serializePseudoAttributes [{ name := ascii "a", value := ascii "1" }]) =
      some [{ name := ascii "a", value := ascii "1" }] := by
  have hkeeps : KeepsData piRun (.setAttribute 1 (ascii "a") (ascii "1")) := trivial
  obtain ⟨hreachable, hparse⟩ := inStep_of_reachable namedRun [{ name := ascii "a", value := ascii "1" }]
  exact ⟨hreachable (.step (.initial piRun_initial) hkeeps namedRun_step),
    hparse ⟨by decide +kernel, by decide, by decide⟩⟩

/-- Not every run keeps processing instructions in step. -/
theorem not_always_inStep : ¬ ∀ r, dataRuns.Reachable (fun _ _ => True) r → InStep r := by
  intro h
  have hnamed : dataRuns.Reachable (fun _ _ => True) namedRun := .step (.initial piRun_initial) trivial namedRun_step
  obtain ⟨d, hd⟩ : ∃ d, namedRun.document.removeAttributeNs 1 [] (ascii "a") = .ok d := ⟨_, rfl⟩
  have hstep : dataRuns.step namedRun (.removeAttributeNs 1 [] (ascii "a")) ⟨d, _⟩ := ⟨hd, rfl⟩
  exact removeAttributeNs_out_of_step (h _ hnamed) rfl rfl (by decide) hstep (h _ (.step hnamed trivial hstep))

end CtBrowser.Dom
