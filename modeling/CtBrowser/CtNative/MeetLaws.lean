import CtBrowser.CtNative.Merging

/-!
# Laws of the Meet

The meet of two unions holds, of each family, the merge of what the two hold. From this it is
commutative, gives a type with itself, and stays canonical, one level of element types after
the other; and the fuel does not matter.

## Main definitions

- `Fits` — a canonical type over a set of element types.
- `IsMeet` — the alternatives of the meet of two unions.
- `Within` — a canonical type that nests less deep than a number.

## Main results

- `exists_isMeet` — the meet of two unions has these alternatives.
- `Joins.meetWith` — the laws go from the element types to the types over them.
- `joins_meet` — the laws of the meet.
- `meet_eq` — the meet is its own meet of element types.
-/

namespace CtBrowser.CtNative

open Foundations.SortedUnion

variable {κ : Type} [LinearOrder κ] {printedForm : CtType → κ}
  {meet : CtType → CtType → CtType} {D : CtType → Prop}

/-! ## Collecting -/

theorem collect_of_isMember {x : CtType} (hx : x.isMember = true) (into : Alternatives) :
    collect x into = { into with members := into.members ++ [x] } := by
  cases x <;> first | rfl | cases hx

theorem collectAll_of_isMember {xs : List CtType} (hxs : ∀ x ∈ xs, x.isMember = true)
    (into : Alternatives) :
    collectAll xs into = { into with members := into.members ++ xs } := by
  induction xs generalizing into with
  | nil => rw [collectAll, List.append_nil]
  | cons x xs ih =>
    rw [collectAll, collect_of_isMember (hxs x List.mem_cons_self),
      ih fun y hy => hxs y (List.mem_cons_of_mem x hy), List.append_assoc]
    rfl

theorem Canonical.collect {t : CtType} (ht : Canonical printedForm t) (hunion : t.isUnion = true)
    (into : Alternatives) :
    collect t into = { into with
      members := into.members ++ t.members
      nullable := into.nullable || t.nullable } := by
  cases ht with
  | boxed | json | classTag => cases hunion
  | bottom => simp [CtNative.collect, CtType.members, CtType.nullable]
  | variant h hmembers =>
    rw [CtNative.collect, collectAll_of_isMember hmembers]
    simp [CtType.members, CtType.nullable]
  | opt h helement =>
    rw [CtNative.collect]
    cases h with
    | boxed | json | classTag | opt => cases helement
    | bottom => simp [CtNative.collect, CtType.members, CtType.nullable]
    | variant h hmembers =>
      rw [CtNative.collect, collectAll_of_isMember hmembers]
      simp [CtType.members, CtType.nullable]
    | nominal | num | str | strview | wrapper | tuple | map | closure | closureSet | owned
    | shared => simp [CtNative.collect, CtType.members, CtType.nullable]
  | nominal | num | str | strview | wrapper | tuple | map | closure | closureSet | owned
  | shared => simp [CtNative.collect, CtType.members, CtType.nullable]

/-! ## The meet of two unions -/

/-- The type with some alternatives, `boxed` among them or too many of them included. -/
def finish (nullable : Bool) (members : List CtType) : CtType :=
  if .boxed ∈ members then .boxed
  else if kMaxVariantAlternatives < members.length then .json
  else unionOf nullable members

theorem finishUnion_eq {members ms : List CtType} (nullable : Bool)
    (hms : sortUnique printedForm (mergeAll (mergeSameFamily meet)
      (sortUnique printedForm members).length (sortUnique printedForm members)) = ms)
    (hjson : .json ∉ ms) :
    finishUnion printedForm meet ⟨members, nullable, false, false⟩ = finish nullable ms := by
  simp only [finishUnion, finish, hms, Bool.false_eq_true, if_false]
  by_cases hboxed : .boxed ∈ ms
  · rw [if_pos hboxed, if_pos hboxed]
  rw [if_neg hboxed, if_neg hboxed]
  match ms with
  | [] => cases nullable <;> rfl
  | [x] =>
    have hx : ¬ (x = .boxed ∨ x = .json) := by
      rintro (rfl | rfl)
      · exact hboxed (List.mem_singleton_self _)
      · exact hjson (List.mem_singleton_self _)
    cases nullable
    · rfl
    · dsimp only
      rw [if_neg (by simp), if_neg hx]
      rfl
  | x :: y :: rest =>
    by_cases hcap : kMaxVariantAlternatives < (x :: y :: rest).length
    · simp only [if_pos hcap]
      cases nullable <;> simp
    · simp only [if_neg hcap]
      cases nullable <;> simp [unionOf]

/-- A canonical type over a set of element types. -/
structure Fits (printedForm : CtType → κ) (D : CtType → Prop) (t : CtType) : Prop where
  canonical : Canonical printedForm t
  children : ∀ x ∈ t.members, ∀ c ∈ x.children, D c

/-- The alternatives of the meet of two unions. -/
structure IsMeet (printedForm : CtType → κ) (D : CtType → Prop)
    (meet : CtType → CtType → CtType) (a b : CtType) (ms : List CtType) : Prop where
  ascending : Ascending printedForm ms
  distinct : Distinct family ms
  all : ∀ x ∈ ms, Alternative printedForm D x ∨ x = .boxed
  families : ∀ k, inFamily family k ms =
    joinAt (mergeSameFamily meet) (inFamily family k a.members) (inFamily family k b.members)

theorem IsMeet.unique {a b : CtType} {D' : CtType → Prop} {meet' : CtType → CtType → CtType}
    {ms ms' : List CtType} (h : IsMeet printedForm D meet a b ms)
    (h' : IsMeet printedForm D' meet' a b ms')
    (hsame : ∀ k, joinAt (mergeSameFamily meet) (inFamily family k a.members)
        (inFamily family k b.members) =
      joinAt (mergeSameFamily meet') (inFamily family k a.members)
        (inFamily family k b.members)) : ms = ms' := by
  refine h.ascending.eq_of_mem_iff h'.ascending fun x => ?_
  have hx := inFamily_eq_some h.distinct (k := family x) (x := x)
  have hx' := inFamily_eq_some h'.distinct (k := family x) (x := x)
  rw [h.families, hsame, ← h'.families, hx'] at hx
  simpa using hx.symm

theorem inFamily_singleton {k : Family} {x : CtType} :
    inFamily family k [x] = if family x = k then some x else none := by
  rw [inFamily, List.find?_cons]
  by_cases h : family x = k <;> simp [h]

theorem CanonicalMembers.finish {ms : List CtType} (h : CanonicalMembers printedForm ms)
    (n : Bool) : finish n ms = CtNative.unionOf n ms := by
  have hboxed : .boxed ∉ ms := fun hmem => by simpa [CtType.isMember] using h.isMember _ hmem
  rw [CtNative.finish, if_neg hboxed, if_neg (Nat.not_lt.mpr h.length_le)]

theorem isMember_of_mergeSameFamily {a b m : CtType} (hne : a ≠ b)
    (h : mergeSameFamily meet a b = some m) : a.isMember = true ∧ b.isMember = true := by
  rw [mergeSameFamily.eq_def, if_neg hne] at h
  cases a <;> cases b <;> first | exact ⟨rfl, rfl⟩ | cases h

theorem members_of_isMember {x : CtType} (h : x.isMember = true) :
    x.members = [x] ∧ x.nullable = false := by
  cases x <;> first | exact ⟨rfl, rfl⟩ | cases h

section Meets

variable (hprinted : Function.Injective printedForm) (hjoins : Joins printedForm D meet)

theorem Fits.alternatives {t : CtType} (ht : Fits printedForm D t) (hunion : t.isUnion = true) :
    ∀ x ∈ t.members, Alternative printedForm D x := by
  obtain ⟨hmembers, -⟩ := ht.canonical.members hunion
  exact fun x hx => ⟨hmembers.canonical x hx, hmembers.isMember x hx, ht.children x hx⟩

theorem Fits.isMeet {t a b : CtType} (ht : Fits printedForm D t) (hunion : t.isUnion = true)
    (hsame : ∀ k, inFamily family k t.members = joinAt (mergeSameFamily meet)
      (inFamily family k a.members) (inFamily family k b.members)) :
    IsMeet printedForm D meet a b t.members := by
  obtain ⟨hmembers, -⟩ := ht.canonical.members hunion
  exact ⟨hmembers.ascending, hmembers.distinct, fun x hx => .inl (ht.alternatives hunion x hx),
    hsame⟩

theorem Canonical.finish_members {t : CtType} (ht : Canonical printedForm t)
    (hunion : t.isUnion = true) : finish t.nullable t.members = t := by
  obtain ⟨hmembers, hsame⟩ := ht.members hunion
  rw [hmembers.finish, hsame]

include hprinted hjoins

theorem isMeet_mergeAll {a b : CtType} (ha : Fits printedForm D a) (hb : Fits printedForm D b)
    (hua : a.isUnion = true) (hub : b.isUnion = true) :
    IsMeet printedForm D meet a b (sortUnique printedForm (mergeAll (mergeSameFamily meet)
      (sortUnique printedForm (a.members ++ b.members)).length
      (sortUnique printedForm (a.members ++ b.members)))) := by
  obtain ⟨hma, -⟩ := ha.canonical.members hua
  obtain ⟨hmb, -⟩ := hb.canonical.members hub
  obtain ⟨hdistinct, hall, hfamilies⟩ := inFamily_mergeAll (families_mergeSameFamily hjoins)
    (ha.alternatives hua) (hb.alternatives hub) hma.distinct hmb.distinct
    (ascending_sortUnique hprinted (a.members ++ b.members)).nodup
    (fun x => by rw [mem_sortUnique, List.mem_append])
  generalize mergeAll (mergeSameFamily meet) _ _ = ms at hdistinct hall hfamilies ⊢
  have hsorted := ascending_sortUnique hprinted ms
  have hmem : ∀ x, x ∈ sortUnique printedForm ms ↔ x ∈ ms := fun x => mem_sortUnique printedForm
  have hdistinct' := hdistinct.of_subset hsorted.nodup fun x => (hmem x).mp
  exact ⟨hsorted, hdistinct', fun x hx => hall x ((hmem x).mp hx),
    fun k => (inFamily_congr hdistinct' hdistinct hmem k).trans (hfamilies k)⟩

omit hprinted in
theorem isMeet_of_mergeSameFamily {a b m : CtType} (ha : Fits printedForm D a)
    (hb : Fits printedForm D b) (hne : a ≠ b) (hm : mergeSameFamily meet a b = some m) :
    IsMeet printedForm D meet a b [m] ∧ m = finish (a.nullable || b.nullable) [m] := by
  obtain ⟨hma, hmb⟩ := isMember_of_mergeSameFamily hne hm
  obtain ⟨hmembersa, hna⟩ := members_of_isMember hma
  obtain ⟨hmembersb, hnb⟩ := members_of_isMember hmb
  have hxa : Alternative printedForm D a := ⟨ha.canonical, hma, ha.children a (by simp [hmembersa])⟩
  have hxb : Alternative printedForm D b := ⟨hb.canonical, hmb, hb.children b (by simp [hmembersb])⟩
  have hfam : family a = family b := by
    by_contra hfam
    simp [mergeSameFamily_of_family_ne meet hfam] at hm
  obtain ⟨m', hm', hall, hfamm⟩ := (families_mergeSameFamily hjoins).merges hxa hxb hfam
  obtain rfl : m = m' := Option.some.inj (hm.symm.trans hm')
  refine ⟨⟨List.pairwise_singleton .., List.pairwise_singleton .., by simpa using hall, ?_⟩, ?_⟩
  · intro k
    rw [hmembersa, hmembersb, inFamily_singleton, inFamily_singleton, inFamily_singleton, hfamm,
      ← hfam]
    split_ifs
    · exact hm.symm
    · rfl
  · rw [hna, hnb, finish]
    split_ifs with hboxed hcap
    · exact (List.mem_singleton.mp hboxed).symm
    · exact absurd hcap (by simp [kMaxVariantAlternatives])
    · rfl

/-- The meet of two unions has the merges of their alternatives as its own. -/
theorem exists_isMeet {a b : CtType} (ha : Fits printedForm D a) (hb : Fits printedForm D b)
    (hua : a.isUnion = true) (hub : b.isUnion = true) :
    ∃ ms, IsMeet printedForm D meet a b ms ∧
      meetWith printedForm meet a b = finish (a.nullable || b.nullable) ms := by
  by_cases hab : a = b
  · subst hab
    refine ⟨a.members, ha.isMeet hua fun k => ?_, ?_⟩
    · cases inFamily family k a.members with
      | none => rfl
      | some x => rw [joinAt, mergeSameFamily.eq_def, if_pos rfl]
    · rw [meetWith, if_pos rfl, Bool.or_self, ha.canonical.finish_members hua]
  by_cases hbottom : a = .bottom
  · subst hbottom
    refine ⟨b.members, hb.isMeet hub fun k => rfl, ?_⟩
    rw [meetWith, if_neg hab, if_pos rfl]
    exact (hb.canonical.finish_members hub).symm
  by_cases hbottom' : b = .bottom
  · subst hbottom'
    refine ⟨a.members, ha.isMeet hua fun k => ?_, ?_⟩
    · cases inFamily family k a.members <;> rfl
    · rw [meetWith, if_neg hab, if_neg hbottom, if_pos rfl]
      exact ((congrArg (finish · a.members) (Bool.or_false _)).trans
        (ha.canonical.finish_members hua)).symm
  -- nothing absorbs the two
  have hboxed : ¬ (a = .boxed ∨ b = .boxed) := by rintro (rfl | rfl) <;> contradiction
  have htag : ¬ (a.isClassTag ∨ b.isClassTag) := by
    rintro (h | h)
    · cases a <;> first | (cases hua; done) | cases h
    · cases b <;> first | (cases hub; done) | cases h
  have hjson : ¬ (a = .json ∨ b = .json) := by rintro (rfl | rfl) <;> contradiction
  rw [meetWith, if_neg hab, if_neg hbottom, if_neg hbottom', if_neg hboxed, if_neg htag,
    if_neg hjson]
  cases hm : mergeSameFamily meet a b with
  | some m => exact ⟨[m], isMeet_of_mergeSameFamily hjoins ha hb hab hm⟩
  | none =>
    have hmeet := isMeet_mergeAll hprinted hjoins ha hb hua hub
    refine ⟨_, hmeet, ?_⟩
    dsimp only
    rw [ha.canonical.collect hua, hb.canonical.collect hub]
    refine finishUnion_eq _ rfl fun hmem => ?_
    rcases hmeet.all _ hmem with h | h
    · cases h.isMember
    · cases h

end Meets

/-! ## What absorbs -/

section Absorbing

theorem CtType.kinds (t : CtType) :
    t = .boxed ∨ t = .json ∨ t.isClassTag = true ∨ t.isUnion = true := by
  cases t <;> simp [isClassTag, isUnion]

theorem meetWith_self (a : CtType) : meetWith printedForm meet a a = a := by
  rw [meetWith, if_pos rfl]

theorem meetWith_boxed_left (b : CtType) : meetWith printedForm meet .boxed b = .boxed := by
  rw [meetWith]
  split_ifs <;> simp_all

theorem meetWith_boxed_right (a : CtType) : meetWith printedForm meet a .boxed = .boxed := by
  rw [meetWith]
  split_ifs <;> simp_all

theorem meetWith_classTag {a b : CtType} (h : a.isClassTag = true ∨ b.isClassTag = true) :
    meetWith printedForm meet a b =
      if a = b then a else if a = .bottom then b else if b = .bottom then a else .boxed := by
  rw [meetWith]
  split_ifs <;> simp_all

theorem meetWith_json {a b : CtType} (ha : a = .json ∨ a.isUnion = true)
    (hb : b = .json ∨ b.isUnion = true) (h : a = .json ∨ b = .json) :
    meetWith printedForm meet a b = .json := by
  have hboxed : ¬ (a = .boxed ∨ b = .boxed) := by
    rintro (rfl | rfl)
    · exact ha.elim (fun heq => by cases heq) (fun heq => by cases heq)
    · exact hb.elim (fun heq => by cases heq) (fun heq => by cases heq)
  have htag : ∀ t : CtType, t = .json ∨ t.isUnion = true → ¬ t.isClassTag = true := by
    rintro t (rfl | ht) htag
    · cases htag
    · cases t <;> first | (cases ht; done) | cases htag
  have htags : ¬ (a.isClassTag = true ∨ b.isClassTag = true) :=
    fun hor => hor.elim (htag a ha) (htag b hb)
  rw [meetWith, if_neg hboxed, if_neg htags, if_pos h]
  split_ifs with hab hbottom hbottom'
  · subst hab
    exact h.elim id id
  · subst hbottom
    exact h.resolve_left fun heq => by cases heq
  · subst hbottom'
    exact h.resolve_right fun heq => by cases heq
  · rfl

theorem meetWith_cases (a b : CtType) :
    (a.isUnion = true ∧ b.isUnion = true) ∨ meetWith printedForm meet a b = a ∨
      meetWith printedForm meet a b = b ∨ meetWith printedForm meet a b = .boxed := by
  have hjson : ∀ {a b : CtType}, a = .json ∨ a.isUnion = true → b = .json ∨ b.isUnion = true →
      (a = .json ∨ b = .json) → meetWith printedForm meet a b = a ∨
        meetWith printedForm meet a b = b := by
    intro a b ha hb h
    rw [meetWith_json ha hb h]
    exact h.imp Eq.symm Eq.symm
  have htag : (a.isClassTag = true ∨ b.isClassTag = true) →
      meetWith printedForm meet a b = a ∨ meetWith printedForm meet a b = b ∨
        meetWith printedForm meet a b = .boxed := by
    intro h
    rw [meetWith_classTag h]
    split_ifs <;> simp
  rcases a.kinds with rfl | ha | ha | ha
  · exact .inr (.inl (meetWith_boxed_left b))
  all_goals rcases b.kinds with rfl | hb | hb | hb
  all_goals first
    | exact .inr (.inr (.inl (meetWith_boxed_right a)))
    | exact .inr (htag (.inl ‹_›))
    | exact .inr (htag (.inr ‹_›))
    | exact .inl ⟨ha, hb⟩
    | skip
  · exact .inr ((hjson (.inl ha) (.inl hb) (.inl ha)).imp_right .inl)
  · exact .inr ((hjson (.inl ha) (.inr hb) (.inl ha)).imp_right .inl)
  · exact .inr ((hjson (.inr ha) (.inl hb) (.inr hb)).imp_right .inl)

end Absorbing

/-! ## The laws, level by level -/

section Levels

variable (hprinted : Function.Injective printedForm)

theorem IsMeet.fits {a b : CtType} {ms : List CtType}
    (h : IsMeet printedForm D meet a b ms) (n : Bool) :
    Fits printedForm D (finish n ms) := by
  rw [finish]
  split_ifs with hboxed hcap
  · exact ⟨.boxed, by simp [CtType.members, CtType.children]⟩
  · exact ⟨.json, by simp [CtType.members, CtType.children]⟩
  · have hall : ∀ x ∈ ms, Alternative printedForm D x :=
      fun x hx => (h.all x hx).resolve_right fun heq => hboxed (heq ▸ hx)
    have hmembers : CanonicalMembers printedForm ms :=
      ⟨fun x hx => (hall x hx).canonical, fun x hx => (hall x hx).isMember, h.distinct,
        h.ascending, Nat.le_of_not_lt hcap⟩
    obtain ⟨hcanonical, -, hsame, -⟩ := hmembers.unionOf n
    exact ⟨hcanonical, by rw [hsame]; exact fun x hx => (hall x hx).children⟩

include hprinted

/-- The laws go from the element types to the types over them. -/
theorem Joins.meetWith (hjoins : Joins printedForm D meet) :
    Joins printedForm (Fits printedForm D) (meetWith printedForm meet) where
  canonical := Fits.canonical
  self _ := meetWith_self _
  closed {a b} ha hb := by
    rcases @meetWith_cases κ _ printedForm meet a b with ⟨hua, hub⟩ | heq | heq | heq
    · obtain ⟨ms, hms, heq⟩ := exists_isMeet hprinted hjoins ha hb hua hub
      rw [heq]
      exact hms.fits _
    · rw [heq]
      exact ha
    · rw [heq]
      exact hb
    · rw [heq]
      exact ⟨.boxed, by simp [CtType.members, CtType.children]⟩
  comm {a b} ha hb := by
    have htag : (a.isClassTag = true ∨ b.isClassTag = true) →
        CtNative.meetWith printedForm meet a b = CtNative.meetWith printedForm meet b a := by
      intro h
      rw [meetWith_classTag h, meetWith_classTag h.symm]
      by_cases hab : a = b
      · rw [hab]
      rw [if_neg hab, if_neg (Ne.symm hab)]
      by_cases hbottom : a = .bottom
      · rw [if_pos hbottom, if_pos hbottom, if_neg fun h => hab (hbottom.trans h.symm)]
      · rw [if_neg hbottom, if_neg hbottom]
    have hjson : a = .json ∨ a.isUnion = true → b = .json ∨ b.isUnion = true →
        (a = .json ∨ b = .json) →
        CtNative.meetWith printedForm meet a b = CtNative.meetWith printedForm meet b a :=
      fun ha hb h => by rw [meetWith_json ha hb h, meetWith_json hb ha h.symm]
    rcases a.kinds with rfl | hka | hka | hka
    · rw [meetWith_boxed_left, meetWith_boxed_right]
    all_goals rcases b.kinds with rfl | hkb | hkb | hkb
    all_goals first
      | rw [meetWith_boxed_left, meetWith_boxed_right]
      | exact htag (.inl ‹_›)
      | exact htag (.inr ‹_›)
      | skip
    · exact hjson (.inl hka) (.inl hkb) (.inl hka)
    · exact hjson (.inl hka) (.inr hkb) (.inl hka)
    · exact hjson (.inr hka) (.inl hkb) (.inr hkb)
    · obtain ⟨ms, hms, heq⟩ := exists_isMeet hprinted hjoins ha hb hka hkb
      obtain ⟨ms', hms', heq'⟩ := exists_isMeet hprinted hjoins hb ha hkb hka
      have hsame : ∀ k, joinAt (mergeSameFamily meet) (inFamily family k b.members)
          (inFamily family k a.members) = joinAt (mergeSameFamily meet)
            (inFamily family k a.members) (inFamily family k b.members) :=
        joinAt_comm (families_mergeSameFamily hjoins) (hb.alternatives hkb) (ha.alternatives hka)
          (hb.canonical.members hkb).1.distinct (ha.canonical.members hka).1.distinct
      have hswap : IsMeet printedForm D meet a b ms' :=
        { hms' with families := fun k => (hms'.families k).trans (hsame k) }
      rw [heq, heq', hms.unique hswap fun k => rfl, Bool.or_comm]

/-- The meet depends on the meet of element types there only. -/
theorem meetWith_congr {D' : CtType → Prop} {meet' : CtType → CtType → CtType}
    (hjoins : Joins printedForm D meet) (hjoins' : Joins printedForm D' meet') {a b : CtType}
    (ha : Fits printedForm D a) (hb : Fits printedForm D b) (ha' : Fits printedForm D' a)
    (hb' : Fits printedForm D' b)
    (hsame : ∀ c c', D c → D' c → D c' → D' c' → meet c c' = meet' c c') :
    meetWith printedForm meet a b = meetWith printedForm meet' a b := by
  rcases a.kinds with rfl | hka | hka | hka
  · rw [meetWith_boxed_left, meetWith_boxed_left]
  all_goals rcases b.kinds with rfl | hkb | hkb | hkb
  all_goals first
    | rw [meetWith_boxed_right, meetWith_boxed_right]
    | rw [meetWith_classTag (.inl ‹_›), meetWith_classTag (.inl ‹_›)]
    | rw [meetWith_classTag (.inr ‹_›), meetWith_classTag (.inr ‹_›)]
    | skip
  · rw [meetWith_json (.inl hka) (.inl hkb) (.inl hka), meetWith_json (.inl hka) (.inl hkb) (.inl hka)]
  · rw [meetWith_json (.inl hka) (.inr hkb) (.inl hka), meetWith_json (.inl hka) (.inr hkb) (.inl hka)]
  · rw [meetWith_json (.inr hka) (.inl hkb) (.inr hkb), meetWith_json (.inr hka) (.inl hkb) (.inr hkb)]
  · obtain ⟨ms, hms, heq⟩ := exists_isMeet hprinted hjoins ha hb hka hkb
    obtain ⟨ms', hms', heq'⟩ := exists_isMeet hprinted hjoins' ha' hb' hka hkb
    rw [heq, heq', hms.unique hms' fun k => ?_]
    cases hx : inFamily family k a.members with
    | none => rfl
    | some x =>
      cases hy : inFamily family k b.members with
      | none => rfl
      | some y =>
        obtain ⟨hxa, hxk⟩ := (inFamily_eq_some (ha.canonical.members hka).1.distinct).mp hx
        obtain ⟨hyb, hyk⟩ := (inFamily_eq_some (hb.canonical.members hkb).1.distinct).mp hy
        have hx := ha.alternatives hka x hxa
        have hy := hb.alternatives hkb y hyb
        have hx' := ha'.alternatives hka x hxa
        have hy' := hb'.alternatives hkb y hyb
        have hfam := hxk.trans hyk.symm
        rw [joinAt, joinAt, hx.mergeSameFamily_eq hy hjoins hfam,
          hx'.mergeSameFamily_eq hy' hjoins' hfam, Head.merge, Head.merge,
          zipWith_congr_of fun c hc c' hc' => hsame c c' (hx.children c hc) (hx'.children c hc)
            (hy.children c' hc') (hy'.children c' hc')]

end Levels

/-- A canonical type whose element types nest less deep than a number. -/
def Within (printedForm : CtType → κ) : ℕ → CtType → Prop
  | 0 => fun _ => False
  | n + 1 => Fits printedForm (Within printedForm n)

theorem joins_meetFuel (hprinted : Function.Injective printedForm) (n : ℕ) :
    Joins printedForm (Within printedForm n) (meetFuel printedForm n) := by
  induction n with
  | zero => exact ⟨False.elim, fun h => h.elim, fun h => h.elim, fun h => h.elim⟩
  | succ n ih => exact ih.meetWith hprinted

theorem meetFuel_congr (hprinted : Function.Injective printedForm) {n n' : ℕ} {a b : CtType}
    (ha : Within printedForm n a) (hb : Within printedForm n b) (ha' : Within printedForm n' a)
    (hb' : Within printedForm n' b) : meetFuel printedForm n a b = meetFuel printedForm n' a b := by
  induction n generalizing n' a b with
  | zero => exact ha.elim
  | succ n ih =>
    cases n' with
    | zero => exact ha'.elim
    | succ n' =>
      exact meetWith_congr hprinted (joins_meetFuel hprinted n) (joins_meetFuel hprinted n')
        ha hb ha' hb' fun c c' hc hc' hd hd' => ih hc hd hc' hd'

theorem depth_le_depthAll {x : CtType} {xs : List CtType} (hx : x ∈ xs) :
    x.depth ≤ depthAll xs := by
  induction xs with
  | nil => cases hx
  | cons y ys ih =>
    rw [depthAll]
    rcases List.mem_cons.mp hx with rfl | hx
    · exact le_max_left _ _
    · exact (ih hx).trans (le_max_right _ _)

theorem depth_lt_of_mem_children {x c : CtType} (hc : c ∈ x.children) : c.depth < x.depth := by
  cases x with
  | wrapper | owned | shared =>
    rw [List.mem_singleton.mp hc]
    exact Nat.lt_succ_self _
  | tuple es => exact Nat.lt_succ_of_le (depth_le_depthAll hc)
  | map k v =>
    rcases List.mem_cons.mp hc with rfl | hc
    · exact Nat.lt_succ_of_le (le_max_left _ _)
    · rw [List.mem_singleton.mp hc]
      exact Nat.lt_succ_of_le (le_max_right _ _)
  | _ => cases hc

theorem depth_le_of_mem_members {t x : CtType} (hx : x ∈ t.members) : x.depth ≤ t.depth := by
  have hone : ∀ {t : CtType}, x ∈ [t] → x.depth ≤ t.depth :=
    fun h => (congrArg CtType.depth (List.mem_singleton.mp h)).le
  cases t with
  | bottom => cases hx
  | variant xs => exact depth_le_depthAll hx
  | opt element =>
    -- an optional is no deeper than what it is of
    rw [CtType.depth]
    cases element with
    | bottom => cases hx
    | variant xs => exact depth_le_depthAll hx
    | _ => exact hone hx
  | _ => exact hone hx

theorem Canonical.children {t x c : CtType} (ht : Canonical printedForm t) (hx : x ∈ t.members)
    (hc : c ∈ x.children) : Canonical printedForm c := by
  have hunion : t.isUnion = true := by
    by_contra hunion
    -- what is no union has no element types
    cases t <;> first | exact absurd rfl hunion | skip
    all_goals
      rw [List.mem_singleton.mp hx] at hc
      cases hc
  obtain ⟨hmembers, -⟩ := ht.members hunion
  exact ((hmembers.canonical x hx).parts (hmembers.isMember x hx)).2.2.2 c hc

theorem Canonical.fits {t : CtType} (ht : Canonical printedForm t) :
    Fits printedForm (Canonical printedForm) t :=
  ⟨ht, fun _ hx _ hc => ht.children hx hc⟩

theorem Canonical.within {t : CtType} (ht : Canonical printedForm t) {n : ℕ} (hn : t.depth < n) :
    Within printedForm n t := by
  induction n generalizing t with
  | zero => exact absurd hn (Nat.not_lt_zero _)
  | succ n ih =>
    refine ⟨ht, fun x hx c hc => ih (ht.children hx hc) ?_⟩
    have hchild := depth_lt_of_mem_children hc
    have hmember := depth_le_of_mem_members hx
    omega

section Meet

variable (hprinted : Function.Injective printedForm)
include hprinted

theorem meet_eq_meetFuel {a b : CtType} (ha : Canonical printedForm a)
    (hb : Canonical printedForm b) {n : ℕ} (hna : a.depth < n) (hnb : b.depth < n) :
    CtNative.meet printedForm a b = meetFuel printedForm n a b :=
  meetFuel_congr hprinted (ha.within (Nat.lt_succ_of_le (le_max_left _ _)))
    (hb.within (Nat.lt_succ_of_le (le_max_right _ _))) (ha.within hna) (hb.within hnb)

/-- The meet is commutative, gives a type with itself, and stays canonical. -/
theorem joins_meet :
    Joins printedForm (Canonical printedForm) (CtNative.meet printedForm) where
  canonical := id
  closed {a b} ha hb :=
    have hjoins := joins_meetFuel hprinted (max a.depth b.depth + 1)
    hjoins.canonical (hjoins.closed (ha.within (Nat.lt_succ_of_le (le_max_left _ _)))
      (hb.within (Nat.lt_succ_of_le (le_max_right _ _))))
  comm {a b} ha hb := by
    have hna : a.depth < max a.depth b.depth + 1 := Nat.lt_succ_of_le (le_max_left _ _)
    have hnb : b.depth < max a.depth b.depth + 1 := Nat.lt_succ_of_le (le_max_right _ _)
    rw [meet_eq_meetFuel hprinted ha hb hna hnb, meet_eq_meetFuel hprinted hb ha hnb hna]
    exact (joins_meetFuel hprinted _).comm (ha.within hna) (hb.within hnb)
  self {a} ha := (joins_meetFuel hprinted _).self
    (ha.within (Nat.lt_succ_of_le (le_max_left a.depth a.depth)))

/-- The meet is its own meet of element types. -/
theorem meet_eq {a b : CtType} (ha : Canonical printedForm a) (hb : Canonical printedForm b) :
    CtNative.meet printedForm a b =
      CtNative.meetWith printedForm (CtNative.meet printedForm) a b := by
  have hna : a.depth < max a.depth b.depth + 1 := Nat.lt_succ_of_le (le_max_left _ _)
  have hnb : b.depth < max a.depth b.depth + 1 := Nat.lt_succ_of_le (le_max_right _ _)
  refine meetWith_congr hprinted (joins_meetFuel hprinted _) (joins_meet hprinted)
    (ha.within hna) (hb.within hnb) ha.fits hb.fits fun c c' hc hd hc' hd' => ?_
  exact meetFuel_congr hprinted hc hc' (hd.within (Nat.lt_succ_of_le (le_max_left _ _)))
    (hd'.within (Nat.lt_succ_of_le (le_max_right _ _)))

end Meet

end CtBrowser.CtNative
