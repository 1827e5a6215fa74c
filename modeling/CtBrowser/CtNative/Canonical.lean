import CtBrowser.CtNative.Lattice

/-!
# Canonical Native Types

The types that the meet makes out of those of values: alternatives are sorted, no two of them
are of one family, an optional is outermost, and no set is past its cap.

An alternative is a head, which says its family and where it stands in it, over element types.

## Main definitions

- `family` — the family of a type.
- `Head`, `CtType.head`, `CtType.children` — an alternative taken apart.
- `Canonical` — canonical types.
- `CtType.members`, `unionOf` — a type as the union of its alternatives, and back.

## Main results

- `build_head` — an alternative is its head over its element types.
- `Canonical.unionOf_members` — a canonical type is the union of its alternatives.
-/

namespace CtBrowser.CtNative

open Foundations.SortedUnion

/-! ## Families -/

/-- The families: two types of one family have a wider one, others make a union. -/
inductive Family
  | nominal (n : Nominal)
  | num
  | str
  | callable
  | wrapper (w : Wrapper)
  | tuple (arity : ℕ)
  | map
  | pointer
  | other
deriving DecidableEq, Repr

/-- The family of a type. -/
def family : CtType → Family
  | .nominal n => .nominal n
  | .num _ => .num
  | .str _ | .strview _ => .str
  -- `boxed` among alternatives is what callables become past their cap
  | .closure _ | .closureSet _ | .boxed => .callable
  | .wrapper w _ => .wrapper w
  | .tuple elements => .tuple elements.length
  | .map _ _ => .map
  | .owned _ | .shared _ => .pointer
  | .bottom | .json | .opt _ | .variant _ | .classTag _ => .other

/-- Whether a type may stand in a union. -/
def CtType.isMember : CtType → Bool
  | .nominal _ | .num _ | .str _ | .strview _ | .closure _ | .closureSet _ | .wrapper _ _
  | .tuple _ | .map _ _ | .owned _ | .shared _ => true
  | .bottom | .boxed | .json | .opt _ | .variant _ | .classTag _ => false

/-! ## Heads -/

/-- What an alternative is besides its element types. -/
inductive Head
  | nominal (n : Nominal)
  | num (kind : NumKind)
  | str (owning : Bool) (encoding : StrEncoding)
  | callable (targets : List Text)
  | wrapper (w : Wrapper)
  | tuple
  | map
  | pointer (shared : Bool)
deriving DecidableEq, Repr

/-- The head of an alternative. -/
def CtType.head : CtType → Head
  | .num kind => .num kind
  | .str encoding => .str true encoding
  | .strview encoding => .str false encoding
  | .closure target => .callable [target]
  | .closureSet targets => .callable targets
  | .wrapper w _ => .wrapper w
  | .tuple _ => .tuple
  | .map _ _ => .map
  | .owned _ => .pointer false
  | .shared _ => .pointer true
  | .nominal n => .nominal n
  | .bottom | .boxed | .json | .opt _ | .variant _ | .classTag _ => .nominal .bool

/-- The element types of an alternative. -/
def CtType.children : CtType → List CtType
  | .wrapper _ element => [element]
  | .tuple elements => elements
  | .map key value => [key, value]
  | .owned pointee | .shared pointee => [pointee]
  | _ => []

/-- The alternative with a head and element types. -/
def Head.build : Head → List CtType → CtType
  | .nominal n, _ => .nominal n
  | .num kind, _ => .num kind
  | .str true encoding, _ => .str encoding
  | .str false encoding, _ => .strview encoding
  | .callable [target], _ => .closure target
  | .callable targets, _ => .closureSet targets
  | .wrapper w, [element] => .wrapper w element
  | .tuple, elements => .tuple elements
  | .map, [key, value] => .map key value
  | .pointer false, [pointee] => .owned pointee
  | .pointer true, [pointee] => .shared pointee
  | _, _ => .bottom

/-- The wider of two heads of one family. -/
def Head.join : Head → Head → Head
  | .num x, .num y => .num (x.widerOf y)
  | .str o x, .str p y => .str (o || p) (x.widerOf y)
  | .callable xs, .callable ys => .callable (sortUnique codes (xs ++ ys))
  | .pointer s, .pointer t => .pointer (s || t)
  | h, _ => h

/-- The targets that an alternative calls. -/
def Head.targets : Head → List Text
  | .callable targets => targets
  | _ => []

/-- How many element types a head stands over. -/
def Head.fits : Head → ℕ → Bool
  | .wrapper _, n | .pointer _, n => n = 1
  | .map, n => n = 2
  | .tuple, n => 2 ≤ n
  | .nominal _, n | .num _, n | .str _ _, n | .callable _, n => n = 0

/-- The family of an alternative, by its head and the number of its element types. -/
def Head.family : Head → ℕ → Family
  | .nominal n, _ => .nominal n
  | .num _, _ => .num
  | .str _ _, _ => .str
  | .callable _, _ => .callable
  | .wrapper w, _ => .wrapper w
  | .tuple, n => .tuple n
  | .map, _ => .map
  | .pointer _, _ => .pointer

/-- A head whose targets are a set within the cap. -/
def Head.Valid : Head → Prop
  | .callable targets => Ascending codes targets ∧ targets ≠ [] ∧
      targets.length ≤ kMaxClosureSetTargets
  | _ => True

theorem family_of_isMember {x : CtType} (h : x.isMember = true) :
    family x = x.head.family x.children.length := by
  cases x <;> first | rfl | cases h

section Build

variable {h : Head} {es : List CtType}

/-- A head with the right number of element types makes an alternative with these parts. -/
theorem build_parts (hfits : h.fits es.length = true) :
    (h.build es).isMember = true ∧ (h.build es).head = h ∧ (h.build es).children = es := by
  have hcases : es = [] ∨ (∃ e, es = [e]) ∨ ∃ k v rest, es = k :: v :: rest := by
    match es with
    | [] => exact .inl rfl
    | [e] => exact .inr (.inl ⟨e, rfl⟩)
    | k :: v :: rest => exact .inr (.inr ⟨k, v, rest, rfl⟩)
  cases h with
  | tuple => exact ⟨rfl, rfl, rfl⟩
  | map =>
    obtain ⟨k, v, rfl⟩ := List.length_eq_two.mp (by simpa [Head.fits] using hfits)
    exact ⟨rfl, rfl, rfl⟩
  | wrapper w =>
    obtain ⟨e, rfl⟩ := List.length_eq_one_iff.mp (by simpa [Head.fits] using hfits)
    exact ⟨rfl, rfl, rfl⟩
  | pointer s =>
    obtain ⟨e, rfl⟩ := List.length_eq_one_iff.mp (by simpa [Head.fits] using hfits)
    cases s <;> exact ⟨rfl, rfl, rfl⟩
  | str o encoding =>
    obtain rfl := List.length_eq_zero_iff.mp (by simpa [Head.fits] using hfits)
    cases o <;> exact ⟨rfl, rfl, rfl⟩
  | callable targets =>
    obtain rfl := List.length_eq_zero_iff.mp (by simpa [Head.fits] using hfits)
    match targets with
    | [] => exact ⟨rfl, rfl, rfl⟩
    | [target] => exact ⟨rfl, rfl, rfl⟩
    | f :: g :: rest => exact ⟨rfl, rfl, rfl⟩
  | nominal n | num kind =>
    obtain rfl := List.length_eq_zero_iff.mp (by simpa [Head.fits] using hfits)
    exact ⟨rfl, rfl, rfl⟩

end Build

/-! ## Canonical types -/

section Canonical

variable {κ : Type} [LinearOrder κ] (printedForm : CtType → κ)

/-- Whether a type already holds the absent case, or never can. -/
def CtType.isOptional : CtType → Bool
  | .opt _ | .boxed | .json | .classTag _ => true
  | _ => false

/-- A canonical type. -/
inductive Canonical : CtType → Prop
  | bottom : Canonical .bottom
  | boxed : Canonical .boxed
  | json : Canonical .json
  | nominal (n : Nominal) : Canonical (.nominal n)
  | num (kind : NumKind) : Canonical (.num kind)
  | str (encoding : StrEncoding) : Canonical (.str encoding)
  | strview (encoding : StrEncoding) : Canonical (.strview encoding)
  | opt {element : CtType} (h : Canonical element) (helement : element.isOptional = false) :
      Canonical (.opt element)
  | variant {alternatives : List CtType} (h : ∀ t ∈ alternatives, Canonical t)
      (hmembers : ∀ t ∈ alternatives, t.isMember = true)
      (hfamilies : Distinct family alternatives) (hsorted : Ascending printedForm alternatives)
      (htwo : 2 ≤ alternatives.length) (hcap : alternatives.length ≤ kMaxVariantAlternatives) :
      Canonical (.variant alternatives)
  | wrapper {w : Wrapper} {element : CtType} (h : Canonical element) :
      Canonical (.wrapper w element)
  | tuple {elements : List CtType} (h : ∀ t ∈ elements, Canonical t)
      (htwo : 2 ≤ elements.length) : Canonical (.tuple elements)
  | map {key value : CtType} (hkey : Canonical key) (hvalue : Canonical value) :
      Canonical (.map key value)
  | closure (target : Text) : Canonical (.closure target)
  | closureSet {targets : List Text} (hsorted : Ascending codes targets)
      (htwo : 2 ≤ targets.length) (hcap : targets.length ≤ kMaxClosureSetTargets) :
      Canonical (.closureSet targets)
  | classTag (className : Text) : Canonical (.classTag className)
  | owned {pointee : CtType} (h : Canonical pointee) : Canonical (.owned pointee)
  | shared {pointee : CtType} (h : Canonical pointee) : Canonical (.shared pointee)

variable {printedForm}

theorem Canonical.parts {x : CtType} (hx : Canonical printedForm x) (hmember : x.isMember = true) :
    x.head.Valid ∧ x.head.fits x.children.length = true ∧ x.head.build x.children = x ∧
      ∀ c ∈ x.children, Canonical printedForm c := by
  cases hx with
  | bottom | boxed | json | opt | variant | classTag => cases hmember
  | nominal | num | str | strview => exact ⟨trivial, rfl, rfl, by simp [CtType.children]⟩
  | wrapper h | owned h | shared h =>
    exact ⟨trivial, rfl, rfl, by simpa [CtType.children] using h⟩
  | tuple h htwo => exact ⟨trivial, by simpa [CtType.head, CtType.children, Head.fits] using htwo, rfl, h⟩
  | map hkey hvalue => exact ⟨trivial, rfl, rfl, by simp [CtType.children, hkey, hvalue]⟩
  | closure target =>
    exact ⟨⟨List.pairwise_singleton .., by simp, by simp [kMaxClosureSetTargets]⟩, rfl, rfl,
      by simp [CtType.children]⟩
  | @closureSet targets hsorted htwo hcap =>
    match targets, htwo with
    | f :: g :: rest, _ => exact ⟨⟨hsorted, by simp, hcap⟩, rfl, rfl, by simp [CtType.children]⟩

theorem canonical_build {h : Head} {es : List CtType} (hvalid : h.Valid)
    (hfits : h.fits es.length = true) (hes : ∀ e ∈ es, Canonical printedForm e) :
    Canonical printedForm (h.build es) := by
  cases h with
  | tuple => exact .tuple hes (by simpa [Head.fits] using hfits)
  | map =>
    obtain ⟨k, v, rfl⟩ := List.length_eq_two.mp (by simpa [Head.fits] using hfits)
    exact .map (hes k (by simp)) (hes v (by simp))
  | wrapper w =>
    obtain ⟨e, rfl⟩ := List.length_eq_one_iff.mp (by simpa [Head.fits] using hfits)
    exact .wrapper (hes e (by simp))
  | pointer s =>
    obtain ⟨e, rfl⟩ := List.length_eq_one_iff.mp (by simpa [Head.fits] using hfits)
    cases s
    · exact .owned (hes e (by simp))
    · exact .shared (hes e (by simp))
  | str o encoding =>
    cases o
    · exact .strview encoding
    · exact .str encoding
  | callable targets =>
    obtain ⟨hsorted, hne, hcap⟩ := hvalid
    match targets with
    | [] => exact absurd rfl hne
    | [target] => exact .closure target
    | f :: g :: rest => exact .closureSet hsorted (by simp) hcap
  | nominal n => exact .nominal n
  | num kind => exact .num kind

end Canonical

/-! ## A type as a union -/

/-- Whether a type is optional. -/
def CtType.nullable : CtType → Bool
  | .opt _ => true
  | _ => false

/-- The alternatives of a type. -/
def CtType.members : CtType → List CtType
  | .bottom | .opt .bottom => []
  | .variant alternatives | .opt (.variant alternatives) => alternatives
  | .opt element => [element]
  | t => [t]

/-- The union of alternatives. -/
def unionOf (nullable : Bool) (members : List CtType) : CtType :=
  let result : CtType :=
    match members with
    | [] => .bottom
    | [member] => member
    | members => .variant members
  if nullable then .opt result else result

/-- Whether a type is a union of alternatives: nothing absorbs it. -/
def CtType.isUnion : CtType → Bool
  | .boxed | .json | .classTag _ => false
  | _ => true

section Members

variable {κ : Type} [LinearOrder κ] {printedForm : CtType → κ}

/-- A list of alternatives of a canonical type. -/
structure CanonicalMembers (printedForm : CtType → κ) (ms : List CtType) : Prop where
  canonical : ∀ x ∈ ms, Canonical printedForm x
  isMember : ∀ x ∈ ms, x.isMember = true
  distinct : Distinct family ms
  ascending : Ascending printedForm ms
  length_le : ms.length ≤ kMaxVariantAlternatives

theorem canonicalMembers_singleton {x : CtType} (hx : Canonical printedForm x)
    (hmember : x.isMember = true) : CanonicalMembers printedForm [x] where
  canonical := by simpa using hx
  isMember := by simpa using hmember
  distinct := List.pairwise_singleton ..
  ascending := List.pairwise_singleton ..
  length_le := by simp [kMaxVariantAlternatives]

theorem canonicalMembers_nil : CanonicalMembers printedForm [] :=
  ⟨by simp, by simp, .nil, .nil, by simp⟩

theorem Canonical.members {t : CtType} (ht : Canonical printedForm t) (hunion : t.isUnion = true) :
    CanonicalMembers printedForm t.members ∧ unionOf t.nullable t.members = t := by
  cases ht with
  | boxed | json | classTag => cases hunion
  | bottom => exact ⟨canonicalMembers_nil, rfl⟩
  | @variant es h hmembers hfamilies hsorted htwo hcap =>
    refine ⟨⟨h, hmembers, hfamilies, hsorted, hcap⟩, ?_⟩
    match es, htwo with
    | x :: y :: rest, _ => rfl
  | @opt e h helement =>
    cases h with
    | boxed | json | classTag | opt => cases helement
    | bottom => exact ⟨canonicalMembers_nil, rfl⟩
    | @variant es h hmembers hfamilies hsorted htwo hcap =>
      refine ⟨⟨h, hmembers, hfamilies, hsorted, hcap⟩, ?_⟩
      match es, htwo with
      | x :: y :: rest, _ => rfl
    | nominal | num | str | strview | wrapper | tuple | map | closure | closureSet | owned
    | shared => exact ⟨canonicalMembers_singleton (by constructor <;> assumption) rfl, rfl⟩
  | nominal | num | str | strview | wrapper | tuple | map | closure | closureSet | owned
  | shared => exact ⟨canonicalMembers_singleton (by constructor <;> assumption) rfl, rfl⟩

/-- The union of alternatives is canonical and has these alternatives. -/
theorem CanonicalMembers.unionOf {ms : List CtType} (h : CanonicalMembers printedForm ms)
    (n : Bool) :
    Canonical printedForm (unionOf n ms) ∧ (unionOf n ms).isUnion = true ∧
      (unionOf n ms).members = ms ∧ (unionOf n ms).nullable = n := by
  match ms with
  | [] =>
    cases n
    · exact ⟨.bottom, rfl, rfl, rfl⟩
    · exact ⟨.opt .bottom rfl, rfl, rfl, rfl⟩
  | x :: y :: rest =>
    have hvariant := Canonical.variant h.canonical h.isMember h.distinct h.ascending (by simp)
      h.length_le
    cases n
    · exact ⟨hvariant, rfl, rfl, rfl⟩
    · exact ⟨.opt hvariant rfl, rfl, rfl, rfl⟩
  | [x] =>
    have hx := h.canonical x (by simp)
    have hmember := h.isMember x (by simp)
    cases n
    · refine ⟨hx, ?_, ?_, ?_⟩ <;> cases x <;> first | rfl | cases hmember
    · refine ⟨.opt hx ?_, ?_, ?_, ?_⟩ <;> cases x <;> first | rfl | cases hmember

end Members

end CtBrowser.CtNative
