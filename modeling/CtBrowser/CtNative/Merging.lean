import CtBrowser.CtNative.Canonical

/-!
# Merging Native Types

Two alternatives of one family merge: their heads join and their element types meet. Callables
join to the set of their targets, or to `boxed` past the cap.

## Main definitions

- `Head.merge` — the merge of two heads over element types.
- `Joins` — what the meet of element types is asked for.

## Main results

- `mergeSameFamily_eq` — two alternatives merge as their heads do.
- `families_mergeSameFamily` — how merging stands to the families.
-/

namespace CtBrowser.CtNative

open Foundations.SortedUnion

/-! ## Joining heads -/

theorem NumKind.widerOf_comm (a b : NumKind) : a.widerOf b = b.widerOf a := by
  cases a <;> cases b <;> rfl

theorem NumKind.widerOf_assoc (a b c : NumKind) :
    (a.widerOf b).widerOf c = a.widerOf (b.widerOf c) := by
  cases a <;> cases b <;> cases c <;> rfl

theorem NumKind.widerOf_self (a : NumKind) : a.widerOf a = a := by cases a <;> rfl

theorem StrEncoding.widerOf_comm (a b : StrEncoding) : a.widerOf b = b.widerOf a := by
  cases a <;> cases b <;> rfl

theorem StrEncoding.widerOf_assoc (a b c : StrEncoding) :
    (a.widerOf b).widerOf c = a.widerOf (b.widerOf c) := by
  cases a <;> cases b <;> cases c <;> rfl

theorem StrEncoding.widerOf_self (a : StrEncoding) : a.widerOf a = a := by cases a <;> rfl

theorem sortUnique_append_comm (xs ys : List Text) :
    sortUnique codes (xs ++ ys) = sortUnique codes (ys ++ xs) := by
  refine (ascending_sortUnique codes_injective _).eq_of_mem_iff
    (ascending_sortUnique codes_injective _) fun x => ?_
  simp only [mem_sortUnique, List.mem_append]
  exact or_comm

theorem sortUnique_append_assoc (xs ys zs : List Text) :
    sortUnique codes (sortUnique codes (xs ++ ys) ++ zs) =
      sortUnique codes (xs ++ sortUnique codes (ys ++ zs)) := by
  refine (ascending_sortUnique codes_injective _).eq_of_mem_iff
    (ascending_sortUnique codes_injective _) fun x => ?_
  simp only [mem_sortUnique, List.mem_append]
  exact or_assoc

theorem sortUnique_append_self {xs : List Text} (h : Ascending codes xs) :
    sortUnique codes (xs ++ xs) = xs := by
  refine (ascending_sortUnique codes_injective _).eq_of_mem_iff h fun x => ?_
  simp only [mem_sortUnique, List.mem_append, or_self]

namespace Head

variable {h h' h'' : Head} {n : ℕ}

theorem join_self (hvalid : h.Valid) : h.join h = h := by
  cases h with
  | num kind => exact congrArg num kind.widerOf_self
  | str o encoding => rw [join, Bool.or_self, encoding.widerOf_self]
  | callable targets => rw [join, sortUnique_append_self hvalid.1]
  | pointer s => rw [join, Bool.or_self]
  | nominal | wrapper | tuple | map => rfl

theorem join_comm (hfam : h.family n = h'.family n) : h.join h' = h'.join h := by
  cases h <;> cases h' <;> cases hfam
  case nominal => rfl
  case wrapper => rfl
  case tuple => rfl
  case map => rfl
  case num x y => exact congrArg num (x.widerOf_comm y)
  case str o x p y => rw [join, join, x.widerOf_comm, Bool.or_comm]
  case callable xs ys => rw [join, join, sortUnique_append_comm]
  case pointer s t => rw [join, join, Bool.or_comm]

theorem join_assoc (hfam : h.family n = h'.family n) (hfam' : h'.family n = h''.family n) :
    (h.join h').join h'' = h.join (h'.join h'') := by
  cases h <;> cases h' <;> cases hfam
  case nominal => cases h'' <;> cases hfam' ; rfl
  case wrapper => cases h'' <;> cases hfam' ; rfl
  case tuple => cases h'' <;> cases hfam' ; rfl
  case map => cases h'' <;> cases hfam' ; rfl
  case num x y =>
    cases h'' <;> cases hfam'
    case num z => exact congrArg num (x.widerOf_assoc y z)
  case str o x p y =>
    cases h'' <;> cases hfam'
    case str q z => rw [join, join, join, join, x.widerOf_assoc, Bool.or_assoc]
  case callable xs ys =>
    cases h'' <;> cases hfam'
    case callable zs => rw [join, join, join, join, sortUnique_append_assoc]
  case pointer s t =>
    cases h'' <;> cases hfam'
    case pointer u => rw [join, join, join, join, Bool.or_assoc]

theorem family_join (hfam : h.family n = h'.family n) : (h.join h').family n = h.family n := by
  cases h <;> cases h' <;> cases hfam
  all_goals rfl

theorem fits_join (hfam : h.family n = h'.family n) : (h.join h').fits n = h.fits n := by
  cases h <;> cases h' <;> cases hfam
  all_goals rfl

theorem mem_targets_join (hfam : h.family n = h'.family n) {f : Text} :
    f ∈ (h.join h').targets ↔ f ∈ h.targets ∨ f ∈ h'.targets := by
  cases h <;> cases h' <;> cases hfam
  case callable xs ys => simp [join, targets]
  all_goals simp [join, targets]

theorem valid_join (hfam : h.family n = h'.family n) (hvalid : h.Valid)
    (hcap : (h.join h').targets.length ≤ kMaxClosureSetTargets) : (h.join h').Valid := by
  cases h <;> cases h' <;> cases hfam
  case callable xs ys =>
    refine ⟨ascending_sortUnique codes_injective _, fun hnil => ?_, hcap⟩
    obtain ⟨x, hx⟩ := List.exists_mem_of_ne_nil xs hvalid.2.1
    have hmem : x ∈ sortUnique codes (xs ++ ys) :=
      (mem_sortUnique codes).mpr (List.mem_append_left ys hx)
    rw [hnil] at hmem
    cases hmem
  all_goals trivial

theorem family_of_cap (hfam : h.family n = h'.family n)
    (hcap : kMaxClosureSetTargets < (h.join h').targets.length) : h.family n = .callable := by
  cases h <;> cases h' <;> cases hfam
  case callable => rfl
  all_goals exact absurd hcap (Nat.not_lt_zero _)

/-- The merge of two heads over their element types. -/
def merge (meet : CtType → CtType → CtType) (h h' : Head) (es es' : List CtType) : CtType :=
  if kMaxClosureSetTargets < (h.join h').targets.length then .boxed
  else (h.join h').build (List.zipWith meet es es')

end Head

/-! ## Merging alternatives -/

theorem mergeSameFamily_of_family_ne (meet : CtType → CtType → CtType) {x y : CtType}
    (h : family x ≠ family y) : mergeSameFamily meet x y = none := by
  have hne : x ≠ y := fun heq => h (congrArg family heq)
  rw [mergeSameFamily.eq_def, if_neg hne]
  cases x <;> cases y <;> first | rfl | exact absurd rfl h | skip
  case wrapper.wrapper v x w y => exact if_neg fun heq => h (congrArg Family.wrapper heq)
  case tuple.tuple xs ys => exact if_neg fun heq => h (congrArg Family.tuple heq)

variable {κ : Type} [LinearOrder κ] {printedForm : CtType → κ}
  {meet : CtType → CtType → CtType}

theorem Head.merge_self {h : Head} {es : List CtType} (hvalid : h.Valid)
    (hself : ∀ e ∈ es, meet e e = e) : h.merge meet h es es = h.build es := by
  have hzip : List.zipWith meet es es = es := by
    rw [List.zipWith_self]
    exact (List.map_congr_left hself).trans (List.map_id' es)
  have hcap : ¬ kMaxClosureSetTargets < h.targets.length := by
    cases h with
    | callable targets => exact Nat.not_lt.mpr hvalid.2.2
    | _ => exact Nat.not_lt_zero _
  rw [Head.merge, Head.join_self hvalid, if_neg hcap, hzip]

theorem mergeCallables_eq {xs ys : List Text} (hxs : Ascending codes xs) (hys : Ascending codes ys)
    (hx : xs ≠ []) (hy : ys ≠ []) (hne : xs ≠ ys) :
    mergeCallables xs ys = Head.merge meet (.callable xs) (.callable ys) [] [] := by
  rw [mergeCallables, Head.merge]
  split_ifs with h h' h'
  · rfl
  · exact absurd h h'
  · exact absurd h' h
  · have hmem : ∀ f, f ∈ sortUnique codes (xs ++ ys) ↔ f ∈ xs ∨ f ∈ ys :=
      fun f => by rw [mem_sortUnique, List.mem_append]
    rw [Head.join]
    generalize sortUnique codes (xs ++ ys) = targets at *
    match targets with
    | [] => rfl
    | f :: g :: rest => rfl
    | [f] =>
      -- both would be the one target
      have hone : ∀ zs, Ascending codes zs → zs ≠ [] → (∀ g ∈ zs, g = f) → zs = [f] := by
        intro zs hzs hzne hall
        refine hzs.eq_of_mem_iff (List.pairwise_singleton ..) fun g => ?_
        obtain ⟨g', hg'⟩ := List.exists_mem_of_ne_nil zs hzne
        rw [List.mem_singleton]
        exact ⟨hall g, fun hg => hg ▸ hall g' hg' ▸ hg'⟩
      have hxf := hone xs hxs hx fun g hg => List.mem_singleton.mp ((hmem g).mpr (.inl hg))
      have hyf := hone ys hys hy fun g hg => List.mem_singleton.mp ((hmem g).mpr (.inr hg))
      exact absurd (hxf.trans hyf.symm) hne

/-- Two alternatives of one family merge as their heads do. -/
theorem mergeSameFamily_eq {x y : CtType} (hx : Canonical printedForm x)
    (hy : Canonical printedForm y) (hmx : x.isMember = true) (hmy : y.isMember = true)
    (hfam : family x = family y) (hself : ∀ c ∈ x.children, meet c c = c) :
    mergeSameFamily meet x y =
      some (Head.merge meet x.head y.head x.children y.children) := by
  obtain ⟨hvx, hfx, hbx, -⟩ := hx.parts hmx
  obtain ⟨hvy, hfy, hby, -⟩ := hy.parts hmy
  by_cases hxy : x = y
  · subst hxy
    rw [mergeSameFamily.eq_def, if_pos rfl, Head.merge_self hvx hself, hbx]
  · have hnx : ¬ x.isMember = false := by simp [hmx]
    have hny : ¬ y.isMember = false := by simp [hmy]
    rw [mergeSameFamily.eq_def, if_neg hxy]
    -- what is left after this are the pairs of one family
    cases x <;> first | exact absurd rfl hnx | skip
    all_goals cases y <;> first | exact absurd rfl hny | (cases hfam; done) | skip
    case nominal.nominal => exact absurd (congrArg CtType.nominal (Family.nominal.inj hfam)) hxy
    case closure.closure => exact congrArg some (mergeCallables_eq hvx.1 hvy.1 hvx.2.1 hvy.2.1
      fun heq => hxy (congrArg CtType.closure (List.cons.inj heq).1))
    case closure.closureSet f ys =>
      refine congrArg some (mergeCallables_eq hvx.1 hvy.1 hvx.2.1 hvy.2.1 fun heq => ?_)
      subst heq
      cases hby
    case closureSet.closure =>
      refine congrArg some (mergeCallables_eq hvx.1 hvy.1 hvx.2.1 hvy.2.1 fun heq => ?_)
      subst heq
      cases hbx
    case closureSet.closureSet => exact congrArg some (mergeCallables_eq hvx.1 hvy.1 hvx.2.1
      hvy.2.1 fun heq => hxy (congrArg CtType.closureSet heq))
    case wrapper.wrapper => exact if_pos (Family.wrapper.inj hfam)
    case tuple.tuple => exact if_pos (Family.tuple.inj hfam)
    all_goals rfl

/-! ## Alternatives over a set of element types -/

/-- A meet of element types: on a set of canonical types that it stays in, it is commutative
and gives a type with itself. -/
structure Joins (printedForm : CtType → κ) (D : CtType → Prop) (meet : CtType → CtType → CtType) :
    Prop where
  canonical : ∀ {a}, D a → Canonical printedForm a
  closed : ∀ {a b}, D a → D b → D (meet a b)
  comm : ∀ {a b}, D a → D b → meet a b = meet b a
  self : ∀ {a}, D a → meet a a = a

/-- A canonical alternative whose element types are in a set. -/
structure Alternative (printedForm : CtType → κ) (D : CtType → Prop) (x : CtType) : Prop where
  canonical : Canonical printedForm x
  isMember : x.isMember = true
  children : ∀ c ∈ x.children, D c

variable {D : CtType → Prop}

theorem length_children_eq {x y : CtType} (hx : Canonical printedForm x)
    (hy : Canonical printedForm y) (hmx : x.isMember = true) (hmy : y.isMember = true)
    (hfam : family x = family y) : x.children.length = y.children.length := by
  have hfx := (hx.parts hmx).2.1
  have hfy := (hy.parts hmy).2.1
  rw [family_of_isMember hmx, family_of_isMember hmy] at hfam
  generalize x.head = h at hfam hfx
  generalize y.head = h' at hfam hfy
  generalize x.children.length = n at hfam hfx ⊢
  generalize y.children.length = n' at hfam hfy ⊢
  cases h <;> cases h' <;> cases hfam <;> simp_all [Head.fits]

theorem family_head_eq {x y : CtType} (hx : Canonical printedForm x)
    (hy : Canonical printedForm y) (hmx : x.isMember = true) (hmy : y.isMember = true)
    (hfam : family x = family y) :
    x.head.family x.children.length = y.head.family x.children.length := by
  rw [← family_of_isMember hmx, hfam, family_of_isMember hmy,
    length_children_eq hx hy hmx hmy hfam]

theorem zipWith_congr_of {f g : CtType → CtType → CtType} {xs ys : List CtType}
    (h : ∀ x ∈ xs, ∀ y ∈ ys, f x y = g x y) : List.zipWith f xs ys = List.zipWith g xs ys := by
  refine List.ext_getElem (by simp) fun i hf hg => ?_
  rw [List.getElem_zipWith, List.getElem_zipWith]
  exact h _ (List.getElem_mem _) _ (List.getElem_mem _)

theorem zipWith_comm_of {f : CtType → CtType → CtType} {xs ys : List CtType}
    (h : ∀ x ∈ xs, ∀ y ∈ ys, f x y = f y x) : List.zipWith f xs ys = List.zipWith f ys xs := by
  rw [List.zipWith_comm]
  exact zipWith_congr_of fun y hy x hx => h x hx y hy

theorem forall_mem_zipWith {P : CtType → Prop} {f : CtType → CtType → CtType}
    {xs ys : List CtType} (h : ∀ x ∈ xs, ∀ y ∈ ys, P (f x y)) :
    ∀ z ∈ List.zipWith f xs ys, P z := by
  intro z hz
  obtain ⟨i, hi, rfl⟩ := List.mem_iff_getElem.mp hz
  rw [List.getElem_zipWith]
  exact h _ (List.getElem_mem _) _ (List.getElem_mem _)

namespace Alternative

variable {x y : CtType}

theorem mergeSameFamily_eq (hx : Alternative printedForm D x) (hy : Alternative printedForm D y)
    (hjoins : Joins printedForm D meet) (hfam : family x = family y) :
    mergeSameFamily meet x y =
      some (Head.merge meet x.head y.head x.children y.children) :=
  CtNative.mergeSameFamily_eq hx.canonical hy.canonical hx.isMember hy.isMember hfam
    fun c hc => hjoins.self (hx.children c hc)

theorem merge (hx : Alternative printedForm D x) (hy : Alternative printedForm D y)
    (hjoins : Joins printedForm D meet) (hfam : family x = family y)
    (hcap : (x.head.join y.head).targets.length ≤ kMaxClosureSetTargets) :
    let z := (x.head.join y.head).build (List.zipWith meet x.children y.children)
    Head.merge meet x.head y.head x.children y.children = z ∧ Alternative printedForm D z ∧
      family z = family x ∧ z.head = x.head.join y.head ∧
      z.children = List.zipWith meet x.children y.children := by
  intro z
  have hheads := family_head_eq hx.canonical hy.canonical hx.isMember hy.isMember hfam
  have hlength := length_children_eq hx.canonical hy.canonical hx.isMember hy.isMember hfam
  obtain ⟨hvx, hfx, -, -⟩ := hx.canonical.parts hx.isMember
  have hzip : (List.zipWith meet x.children y.children).length = x.children.length := by
    rw [List.length_zipWith, hlength, min_self]
  have hchildren : ∀ c ∈ List.zipWith meet x.children y.children, D c :=
    forall_mem_zipWith fun c hc c' hc' => hjoins.closed (hx.children c hc) (hy.children c' hc')
  have hfits : (x.head.join y.head).fits
      (List.zipWith meet x.children y.children).length = true := by
    rw [hzip, Head.fits_join hheads, hfx]
  obtain ⟨hmember, hhead, hparts⟩ := build_parts hfits
  refine ⟨?_, ⟨?_, hmember, ?_⟩, ?_, hhead, hparts⟩
  · rw [Head.merge, if_neg (Nat.not_lt.mpr hcap)]
  · exact canonical_build (Head.valid_join hheads hvx hcap) hfits fun c hc =>
      hjoins.canonical (hchildren c hc)
  · rw [hparts]
    exact hchildren
  · rw [family_of_isMember hmember, hhead, hparts, hzip, Head.family_join hheads,
      family_of_isMember hx.isMember]

end Alternative

/-- How merging alternatives stands to their families. -/
theorem families_mergeSameFamily (hjoins : Joins printedForm D meet) :
    Families family (mergeSameFamily meet) (Alternative printedForm D)
      fun x => Alternative printedForm D x ∨ x = .boxed where
  weaken := .inl
  apart _ _ := mergeSameFamily_of_family_ne meet
  self _ := by rw [mergeSameFamily.eq_def, if_pos rfl]
  merges {x y} hx hy hfam := by
    refine ⟨_, hx.mergeSameFamily_eq hy hjoins hfam, ?_⟩
    by_cases hcap : (x.head.join y.head).targets.length ≤ kMaxClosureSetTargets
    · obtain ⟨hmerge, hz, hfamz, -⟩ := hx.merge hy hjoins hfam hcap
      rw [hmerge]
      exact ⟨.inl hz, hfamz⟩
    · rw [Head.merge, if_pos (Nat.lt_of_not_le hcap)]
      refine ⟨.inr rfl, ?_⟩
      rw [family_of_isMember hx.isMember]
      exact (Head.family_of_cap (family_head_eq hx.canonical hy.canonical hx.isMember hy.isMember
        hfam) (Nat.lt_of_not_le hcap)).symm
  comm {x y} hx hy hfam := by
    rw [hx.mergeSameFamily_eq hy hjoins hfam, hy.mergeSameFamily_eq hx hjoins hfam.symm,
      Head.merge, Head.merge,
      Head.join_comm (family_head_eq hx.canonical hy.canonical hx.isMember hy.isMember hfam),
      zipWith_comm_of fun c hc c' hc' => hjoins.comm (hx.children c hc) (hy.children c' hc')]

end CtBrowser.CtNative
