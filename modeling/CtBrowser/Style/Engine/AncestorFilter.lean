import CtBrowser.Dom.Document
import CtBrowser.Foundations.CountingFilter
import CtBrowser.Style.Css.Sheet

/-!
# The Ancestor Filter

The counting filter over the names of the ancestors that a descendant combinator asks before it
walks them. Every ancestor's tag, id and classes go in when the descent enters it and out when it
leaves it. No id and no class of an ancestor is ever denied. The tag asked for is the folded one,
and what went in is the element's own, so a name with capitals in foreign content can be denied.

## Main definitions

- `AncestorFilter`, `push`, `pop`, `mayMatch` — the filter.
- `compoundMatches` — what a compound asks of an element.
- `Descends` — the filters a descent reaches, with the ancestors it is in.
- `TagHeld` — the counters of a compound's folded tag are held.

## Main results

- `mayContain_iff` — what the filter answers in any descent.
- `mayMatch_iff_tagHeld` — exactly when the filter lets an ancestor's compound through.
-/

namespace CtBrowser.Style.Engine

open Css Foundations
open Dom (NodeNs)

/-! ## The filter -/

/-- The number of counters. -/
abbrev filterSlots : ℕ := 4096

/-- The largest value of a counter. -/
def counterCap : ℕ := 0xFF

/-- The counters. -/
abbrev AncestorFilter := Fin filterSlots → ℕ

/-- A filter no name is in. -/
def AncestorFilter.empty : AncestorFilter := fun _ => 0

/-- An atom that is not the empty one. -/
def present (a : Atom) : Prop := a.id ≠ 0

instance (a : Atom) : Decidable (present a) := inferInstanceAs (Decidable (_ ≠ _))

/-- The two counters of a name: two probes over its 32-bit id. -/
def hash (key : Atom) : Fin filterSlots × Fin filterSlots :=
  let k := key.id * 2654435761 % 2 ^ 32
  (Fin.ofNat filterSlots (k >>> 4), Fin.ofNat filterSlots ((k >>> 18) ^^^ (k * 40503 % 2 ^ 32)))

/-- The names of an element, with a probe for each. The empty tag and id are none. -/
def slotsOf (tag id : Atom) (classes : List Atom) : List (Fin filterSlots) :=
  ([tag, id].filter (present ·) ++ classes).flatMap fun name => [(hash name).1, (hash name).2]

namespace AncestorFilter

/-- An ancestor is entered. -/
def push (f : AncestorFilter) (tag id : Atom) (classes : List Atom) : AncestorFilter :=
  (slotsOf tag id classes).foldl (CountingFilter.raised counterCap) f

/-- An ancestor is left. -/
def pop (f : AncestorFilter) (tag id : Atom) (classes : List Atom) : AncestorFilter :=
  (slotsOf tag id classes).foldl (CountingFilter.lowered counterCap) f

/-- Whether some ancestor may have a name. -/
def mayContain (f : AncestorFilter) (key : Atom) : Bool :=
  !present key || (f (hash key).1 != 0 && f (hash key).2 != 0)

/-- Whether some ancestor may satisfy a compound's id, tag and classes. -/
def mayMatch (f : AncestorFilter) (c : Compound) : Bool :=
  if present c.id ∧ ¬ f.mayContain c.id then false
  else if present c.tag ∧ ¬ f.mayContain c.tag then false
  else c.classes.all (f.mayContain ·)

end AncestorFilter

/-! ## Matching -/

/-- What matching reads of an element's names and states. -/
structure ElementFacts where
  tag : Atom
  id : Atom
  classes : List Atom
  states : ℕ

/-- An element on the way to the subject. -/
structure Ancestor where
  facts : ElementFacts
  ns : NodeNs

/-- Whether an element is in the namespace a selector names. -/
def nsFits (atoms : AtomTable) (uri : Atom) (ns : NodeNs) : Bool :=
  (ns = .html ∧ atoms.text uri = ascii "http://www.w3.org/1999/xhtml") ∨
    (ns = .svg ∧ atoms.text uri = ascii "http://www.w3.org/2000/svg")

/-- Whether an element is what a compound asks for. Names fold only against an HTML element. The
structural requirements, the attributes and the pseudo-classes are `others`. -/
def compoundMatches (atoms : AtomTable) (others : Compound → Ancestor → Bool) (c : Compound)
    (e : Ancestor) : Bool :=
  if c.neverMatches then false
  else if present c.tag ∧ (if e.ns = .html then c.tag else c.tagExact) ≠ e.facts.tag then false
  else if present c.nsUri ∧ ¬ nsFits atoms c.nsUri e.ns then false
  else if present c.id ∧ c.id ≠ e.facts.id then false
  else if ¬ ∀ want ∈ c.classes, want ∈ e.facts.classes then false
  else if c.states &&& e.facts.states ≠ c.states then false
  else others c e

/-! ## Descents -/

/-- The counters an ancestor holds. -/
def Ancestor.slots (e : Ancestor) : List (Fin filterSlots) :=
  slotsOf e.facts.tag e.facts.id e.facts.classes

/-- The filter, and the ancestors on the way to the element the descent is at. -/
inductive Descends : AncestorFilter → List Ancestor → Prop
  | start : Descends .empty []
  | enter {f : AncestorFilter} {chain : List Ancestor} (e : Ancestor) (h : Descends f chain) :
    Descends (f.push e.facts.tag e.facts.id e.facts.classes) (e :: chain)
  | leave {f : AncestorFilter} {chain : List Ancestor} {e : Ancestor} (h : Descends f (e :: chain)) :
    Descends (f.pop e.facts.tag e.facts.id e.facts.classes) chain

/-- A counter is stuck at the cap or held by an ancestor. -/
def Held (f : AncestorFilter) (chain : List Ancestor) (i : Fin filterSlots) : Prop :=
  f i = counterCap ∨ ∃ e ∈ chain, i ∈ e.slots

/-- A compound has no tag, or both counters of its folded tag are held. -/
def TagHeld (f : AncestorFilter) (chain : List Ancestor) (c : Compound) : Prop :=
  present c.tag → Held f chain (hash c.tag).1 ∧ Held f chain (hash c.tag).2

section Descent

variable {f : AncestorFilter} {chain : List Ancestor} {e : Ancestor} {c : Compound}

theorem Descends.counts (h : Descends f chain) :
    CountingFilter.Counts counterCap f (chain.flatMap Ancestor.slots : Multiset _) := by
  induction h with
  | start => exact CountingFilter.counts_zero counterCap
  | enter e h ih =>
    rw [List.flatMap_cons, ← Multiset.coe_add]
    exact ih.raise _
  | leave h ih =>
    rw [List.flatMap_cons, ← Multiset.coe_add] at ih
    exact ih.lower

/-- What the filter answers. -/
theorem mayContain_iff (h : Descends f chain) (key : Atom) : f.mayContain key = true ↔
    (present key → Held f chain (hash key).1 ∧ Held f chain (hash key).2) := by
  have hheld (i : Fin filterSlots) : f i ≠ 0 ↔ Held f chain i := by
    rw [h.counts.ne_zero_iff (by decide), Held, Multiset.mem_coe, List.mem_flatMap]
  simp [AncestorFilter.mayContain, ← hheld, imp_iff_not_or]

theorem mem_slotsOf {tag id name : Atom} {classes : List Atom}
    (hname : name ∈ [tag, id].filter (present ·) ++ classes) :
    (hash name).1 ∈ slotsOf tag id classes ∧ (hash name).2 ∈ slotsOf tag id classes := by
  constructor <;> exact List.mem_flatMap.mpr ⟨name, hname, by simp⟩

theorem mayContain_of_mem (h : Descends f chain) (he : e ∈ chain) {name : Atom}
    (hname : present name → name ∈ [e.facts.tag, e.facts.id].filter (present ·) ++ e.facts.classes) :
    f.mayContain name = true := by
  refine (mayContain_iff h name).mpr fun hpresent => ?_
  obtain ⟨hfirst, hsecond⟩ := mem_slotsOf (hname hpresent)
  exact ⟨Or.inr ⟨e, he, hfirst⟩, Or.inr ⟨e, he, hsecond⟩⟩

theorem names_of_compoundMatches {atoms : AtomTable} {others : Compound → Ancestor → Bool}
    (h : compoundMatches atoms others c e = true) :
    (present c.tag → (if e.ns = .html then c.tag else c.tagExact) = e.facts.tag) ∧
      (present c.id → c.id = e.facts.id) ∧ ∀ want ∈ c.classes, want ∈ e.facts.classes := by
  simp only [compoundMatches, Bool.if_false_left, Bool.and_eq_true, Bool.not_eq_true',
    decide_eq_false_iff_not] at h
  obtain ⟨-, htag, -, hid, hclasses, -⟩ := h
  refine ⟨fun hpresent => ?_, fun hpresent => ?_, not_not.mp hclasses⟩
  · by_contra hne
    exact htag ⟨hpresent, hne⟩
  · by_contra hne
    exact hid ⟨hpresent, hne⟩

/-- For an ancestor that a compound matches, the filter lets the compound through exactly when the
counters of the folded tag are held. -/
theorem mayMatch_iff_tagHeld {atoms : AtomTable} {others : Compound → Ancestor → Bool}
    (h : Descends f chain) (he : e ∈ chain) (hmatch : compoundMatches atoms others c e = true) :
    f.mayMatch c = true ↔ TagHeld f chain c := by
  obtain ⟨-, hid, hclasses⟩ := names_of_compoundMatches hmatch
  have hidHeld : f.mayContain c.id = true := by
    refine mayContain_of_mem h he fun hpresent => List.mem_append_left _ ?_
    rw [List.mem_filter, decide_eq_true_iff, hid hpresent]
    exact ⟨by simp, hid hpresent ▸ hpresent⟩
  have hclassesHeld : c.classes.all (f.mayContain ·) = true := by
    refine List.all_eq_true.mpr fun want hwant => ?_
    exact mayContain_of_mem h he fun _ => List.mem_append_right _ (hclasses want hwant)
  rw [AncestorFilter.mayMatch, if_neg fun hdenied => hdenied.2 hidHeld, TagHeld,
    ← mayContain_iff h c.tag, hclassesHeld]
  by_cases htag : f.mayContain c.tag = true
  · rw [if_neg fun hdenied => hdenied.2 htag, htag]
  · have hpresent : present c.tag := by
      by_contra hnone
      exact htag ((mayContain_iff h c.tag).mpr fun hpresent => absurd hpresent hnone)
    rw [if_pos ⟨hpresent, htag⟩]
    exact iff_of_false (by decide) htag

end Descent

/-! ## Capitals -/

/-- A type selector, as the parser compiles it. -/
def typeSelector (tag tagExact : Atom) : Compound :=
  ⟨tag, tagExact, ⟨0⟩, [], [], 0, 0, 0, 0, [], .unset, ⟨0⟩, ⟨0⟩, ⟨0⟩, false, false, false⟩

/-- The names in a sheet with a rule for `div p` and one for `linearGradient stop`. -/
def gradientAtoms : AtomTable :=
  ⟨[[], ascii "div", ascii "lineargradient", ascii "linearGradient"], rfl, by decide⟩

/-- An element without id and classes. -/
def plainElement (tag : Atom) (ns : NodeNs) : Ancestor := ⟨⟨tag, ⟨0⟩, [], 0⟩, ns⟩

theorem mayMatch_iff_tagHeld_div :
    (AncestorFilter.empty.push ⟨1⟩ ⟨0⟩ []).mayMatch (typeSelector ⟨1⟩ ⟨1⟩) = true ↔
      TagHeld (AncestorFilter.empty.push ⟨1⟩ ⟨0⟩ []) [plainElement ⟨1⟩ .html]
        (typeSelector ⟨1⟩ ⟨1⟩) := by
  have hmatch : compoundMatches gradientAtoms (fun _ _ => true) (typeSelector ⟨1⟩ ⟨1⟩)
      (plainElement ⟨1⟩ .html) = true := by decide
  exact mayMatch_iff_tagHeld (Descends.enter (plainElement ⟨1⟩ .html) .start) List.mem_cons_self hmatch

/-- `linearGradient` matches the gradient an SVG document holds, and the filter denies it. -/
theorem mayMatch_linearGradient :
    let gradient := plainElement ⟨3⟩ .svg
    let filter := AncestorFilter.empty.push ⟨3⟩ ⟨0⟩ []
    (gradientAtoms.intern (ascii "linearGradient")).1 = ⟨3⟩ ∧
      (gradientAtoms.intern ((ascii "linearGradient").map asciiLower)).1 = ⟨2⟩ ∧
      Descends filter [gradient] ∧
      compoundMatches gradientAtoms (fun _ _ => true) (typeSelector ⟨2⟩ ⟨3⟩) gradient = true ∧
      filter.mayMatch (typeSelector ⟨2⟩ ⟨3⟩) = false :=
  ⟨by decide, by decide, .enter (plainElement ⟨3⟩ .svg) .start, by decide, by decide⟩

end CtBrowser.Style.Engine
