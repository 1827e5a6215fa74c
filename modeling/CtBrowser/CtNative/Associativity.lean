import CtBrowser.CtNative.MeetLaws

/-!
# Associativity of the Meet

Two meets of three types may differ in one way: all the callables of the three are past their
cap, which is `boxed`, but one of the two inner meets is already `json`, which forgets its
callables. Otherwise the two are one type, with what the three hold of each family.

## Main definitions

- `CtType.targets`, `CtType.families` — what a type says against the two caps.
- `Clash` — the three types of which the two meets differ.

## Main results

- `meet_step` — what the meet of two types is.
- `meet_assoc_iff` — when the meet is associative.
- `meet_laws_iff` — when the laws of a join semilattice hold.
-/

namespace CtBrowser.CtNative

open Foundations.SortedUnion

/-! ## The two caps -/

/-- The alternative of a type that is called. -/
def CtType.callable (t : CtType) : Option CtType := inFamily family .callable t.members

/-- The targets of an alternative that is called, if there is one. -/
def callees (callable : Option CtType) : Finset Text :=
  callable.elim ∅ fun x => x.head.targets.toFinset

/-- The targets that a type may call. -/
def CtType.targets (t : CtType) : Finset Text := callees t.callable

/-- The families of a type. -/
def CtType.families (t : CtType) : Finset Family := (t.members.map family).toFinset

/-- The meet of two types is `json`, by one of them or by too many families, and not `boxed`. -/
def JsonFirst (a b : CtType) : Prop :=
  (a.targets ∪ b.targets).card ≤ kMaxClosureSetTargets ∧
    (a = .json ∨ b = .json ∨ kMaxVariantAlternatives < (a.families ∪ b.families).card)

/-- A type that callables past their cap absorb. -/
def CtType.IsJsonOrUnion (t : CtType) : Prop := t = .json ∨ t.isUnion = true

/-- The two meets of three types differ. -/
inductive Clash : CtType → CtType → CtType → Prop
  /-- The callables are past their cap, and one of the two inner meets forgets them. -/
  | caps {a b c : CtType} (ha : a.IsJsonOrUnion) (hb : b.IsJsonOrUnion) (hc : c.IsJsonOrUnion)
      (htargets : kMaxClosureSetTargets < (a.targets ∪ b.targets ∪ c.targets).card)
      (hjson : ¬ (JsonFirst a b ↔ JsonFirst b c)) : Clash a b c
  /-- The three make a union, and clash at a place of their alternatives of one family. -/
  | nested {a b c x y z d e f : CtType} {i : ℕ} (ha : a.isUnion = true) (hb : b.isUnion = true)
      (hc : c.isUnion = true)
      (htargets : (a.targets ∪ b.targets ∪ c.targets).card ≤ kMaxClosureSetTargets)
      (hfamilies : (a.families ∪ b.families ∪ c.families).card ≤ kMaxVariantAlternatives)
      (hx : x ∈ a.members) (hy : y ∈ b.members) (hz : z ∈ c.members)
      (hxy : family x = family y) (hyz : family y = family z)
      (hd : x.children[i]? = some d) (he : y.children[i]? = some e) (hf : z.children[i]? = some f)
      (h : Clash d e f) : Clash a b c

theorem JsonFirst.comm {a b : CtType} : JsonFirst a b ↔ JsonFirst b a := by
  rw [JsonFirst, JsonFirst, Finset.union_comm, Finset.union_comm a.families]
  exact and_congr_right fun _ => or_left_comm

section Clash

variable {a b c : CtType}

theorem not_clash_iff_of_targets (ha' : a.IsJsonOrUnion) (hb' : b.IsJsonOrUnion)
    (hc' : c.IsJsonOrUnion)
    (htargets : kMaxClosureSetTargets < (a.targets ∪ b.targets ∪ c.targets).card) :
    ¬ Clash a b c ↔ (JsonFirst a b ↔ JsonFirst b c) := by
  refine ⟨fun h => not_not.mp fun hne => h (.caps ha' hb' hc' htargets hne), fun h hclash => ?_⟩
  cases hclash with
  | caps _ _ _ _ hne => exact hne h
  | nested _ _ _ hle => exact absurd htargets (Nat.not_lt.mpr hle)

theorem not_clash_iff_of_union (hua : a.isUnion = true) (hub : b.isUnion = true)
    (huc : c.isUnion = true)
    (htargets : (a.targets ∪ b.targets ∪ c.targets).card ≤ kMaxClosureSetTargets)
    (hfamilies : (a.families ∪ b.families ∪ c.families).card ≤ kMaxVariantAlternatives) :
    ¬ Clash a b c ↔ ∀ x ∈ a.members, ∀ y ∈ b.members, ∀ z ∈ c.members, family x = family y →
      family y = family z → ∀ (i : ℕ) (d e f : CtType), x.children[i]? = some d →
        y.children[i]? = some e → z.children[i]? = some f → ¬ Clash d e f := by
  constructor
  · intro h x hx y hy z hz hxy hyz i d e f hd he hf hclash
    exact h (.nested hua hub huc htargets hfamilies hx hy hz hxy hyz hd he hf hclash)
  · intro h hclash
    cases hclash with
    | caps _ _ _ hlt => exact absurd hlt (Nat.not_lt.mpr htargets)
    | nested _ _ _ _ _ hx hy hz hxy hyz hd he hf hclash =>
      exact h _ hx _ hy _ hz hxy hyz _ _ _ _ hd he hf hclash

end Clash

namespace Head

variable {h h' : Head} {n : ℕ}

theorem targets_eq_nil (hfam : h.family n ≠ .callable) : h.targets = [] := by
  cases h with
  | callable => exact absurd rfl hfam
  | _ => rfl

theorem length_targets_le (hvalid : h.Valid) : h.targets.length ≤ kMaxClosureSetTargets := by
  cases h with
  | callable => exact hvalid.2.2
  | _ => exact Nat.zero_le _

theorem toFinset_targets_join (hfam : h.family n = h'.family n) :
    (h.join h').targets.toFinset = h.targets.toFinset ∪ h'.targets.toFinset := by
  ext f
  rw [Finset.mem_union, List.mem_toFinset, List.mem_toFinset, List.mem_toFinset,
    mem_targets_join hfam]

theorem length_targets_join (hfam : h.family n = h'.family n) :
    (h.join h').targets.length = (h.targets.toFinset ∪ h'.targets.toFinset).card := by
  rw [← toFinset_targets_join hfam]
  refine (List.toFinset_card_of_nodup ?_).symm
  cases h <;> cases h' <;> cases hfam
  case callable => exact (ascending_sortUnique codes_injective _).nodup
  all_goals exact List.nodup_nil

end Head

section

variable {κ : Type} [LinearOrder κ] {printedForm : CtType → κ}
  {meet : CtType → CtType → CtType} {D : CtType → Prop}

theorem Canonical.targets_subset {t x : CtType} (ht : Canonical printedForm t)
    (hunion : t.isUnion = true) (hx : x ∈ t.members) : x.head.targets.toFinset ⊆ t.targets := by
  obtain ⟨hmembers, -⟩ := ht.members hunion
  by_cases hfam : family x = .callable
  · have hcallable : t.callable = some x := (inFamily_eq_some hmembers.distinct).mpr ⟨hx, hfam⟩
    rw [CtType.targets, hcallable]
    exact subset_rfl
  · rw [family_of_isMember (hmembers.isMember x hx)] at hfam
    rw [Head.targets_eq_nil hfam]
    exact Finset.empty_subset _

theorem Canonical.card_targets_le {t : CtType} (ht : Canonical printedForm t)
    (hunion : t.isUnion = true) : t.targets.card ≤ kMaxClosureSetTargets := by
  obtain ⟨hmembers, -⟩ := ht.members hunion
  rw [CtType.targets]
  cases hcallable : t.callable with
  | none => exact Nat.zero_le _
  | some x =>
    have hx : x ∈ t.members := ((inFamily_eq_some hmembers.distinct).mp hcallable).1
    obtain ⟨hvalid, -⟩ := (hmembers.canonical x hx).parts (hmembers.isMember x hx)
    exact (List.toFinset_card_le _).trans (Head.length_targets_le hvalid)

theorem Canonical.ext_inFamily {t t' : CtType} (ht : Canonical printedForm t)
    (ht' : Canonical printedForm t') (hunion : t.isUnion = true) (hunion' : t'.isUnion = true)
    (hnullable : t.nullable = t'.nullable)
    (h : ∀ k, inFamily family k t.members = inFamily family k t'.members) : t = t' := by
  obtain ⟨hmembers, hsame⟩ := ht.members hunion
  obtain ⟨hmembers', hsame'⟩ := ht'.members hunion'
  have heq : t.members = t'.members := by
    refine hmembers.ascending.eq_of_mem_iff hmembers'.ascending fun x => ?_
    have hx := inFamily_eq_some hmembers.distinct (k := family x) (x := x)
    rw [h, inFamily_eq_some hmembers'.distinct] at hx
    simpa using hx.symm
  rw [← hsame, ← hsame', hnullable, heq]

/-! ## One meet -/

/-- A union that holds of each family what two others hold of it. -/
structure IsUnionOf (printedForm : CtType → κ) (a b u : CtType) : Prop where
  canonical : Canonical printedForm u
  isUnion : u.isUnion = true
  nullable : u.nullable = (a.nullable || b.nullable)
  targets : u.targets = a.targets ∪ b.targets
  families : u.families = a.families ∪ b.families
  lookup : ∀ k, inFamily family k u.members =
    joinAt (mergeSameFamily (CtNative.meet printedForm)) (inFamily family k a.members)
      (inFamily family k b.members)

theorem mem_map_family {ms : List CtType} (h : Distinct family ms) {k : Family} :
    k ∈ ms.map family ↔ ∃ x, inFamily family k ms = some x := by
  rw [List.mem_map]
  exact exists_congr fun x => (inFamily_eq_some h).symm

section Step

variable {a b : CtType} {ms : List CtType} (hjoins : Joins printedForm D meet)
  (ha : Fits printedForm D a) (hb : Fits printedForm D b) (hua : a.isUnion = true)
  (hub : b.isUnion = true)
include hjoins ha hb hua hub

theorem IsMeet.toFinset_map_family (h : IsMeet printedForm D meet a b ms) :
    (ms.map family).toFinset = a.families ∪ b.families := by
  have hda := (ha.canonical.members hua).1.distinct
  have hdb := (hb.canonical.members hub).1.distinct
  ext k
  rw [CtType.families, CtType.families, Finset.mem_union, List.mem_toFinset, List.mem_toFinset,
    List.mem_toFinset, mem_map_family h.distinct, mem_map_family hda, mem_map_family hdb,
    h.families]
  cases hx : inFamily family k a.members with
  | none => simp [joinAt]
  | some x =>
    cases hy : inFamily family k b.members with
    | none => simp [joinAt]
    | some y =>
      -- two of one family merge to something
      obtain ⟨hxa, hxk⟩ := (inFamily_eq_some hda).mp hx
      obtain ⟨hyb, hyk⟩ := (inFamily_eq_some hdb).mp hy
      obtain ⟨m, hm, -⟩ := (families_mergeSameFamily hjoins).merges (ha.alternatives hua x hxa)
        (hb.alternatives hub y hyb) (hxk.trans hyk.symm)
      simp [joinAt, hm]

/-- The callables of a meet are those of the two, or `boxed` past the cap. -/
theorem IsMeet.callable (h : IsMeet printedForm D meet a b ms) :
    kMaxClosureSetTargets < (a.targets ∪ b.targets).card ∧ .boxed ∈ ms ∨
      (a.targets ∪ b.targets).card ≤ kMaxClosureSetTargets ∧ .boxed ∉ ms ∧
        callees (inFamily family .callable ms) = a.targets ∪ b.targets := by
  have hda := (ha.canonical.members hua).1.distinct
  have hdb := (hb.canonical.members hub).1.distinct
  have hcapa := ha.canonical.card_targets_le hua
  have hcapb := hb.canonical.card_targets_le hub
  have hnota : .boxed ∉ a.members := fun hmem => by cases (ha.alternatives hua _ hmem).isMember
  have hnotb : .boxed ∉ b.members := fun hmem => by cases (hb.alternatives hub _ hmem).isMember
  have hlookup := h.families .callable
  have hboxed : .boxed ∈ ms ↔ inFamily family .callable ms = some .boxed := by
    rw [inFamily_eq_some h.distinct]
    exact (and_iff_left rfl).symm
  rw [hboxed]
  change _ = joinAt _ a.callable b.callable at hlookup
  rw [hlookup]
  unfold CtType.targets at hcapa hcapb ⊢
  cases hx : a.callable with
  | none =>
    rw [hx] at hcapa
    have hne : b.callable ≠ some .boxed := fun hy => hnotb ((inFamily_eq_some hdb).mp hy).1
    exact .inr ⟨by simpa [callees] using hcapb, by simpa [joinAt] using hne, by simp [joinAt, callees]⟩
  | some x =>
    obtain ⟨hxa, hxk⟩ := (inFamily_eq_some hda).mp hx
    cases hy : b.callable with
    | none =>
      have hne : x ≠ .boxed := fun heq => hnota (heq ▸ hxa)
      rw [hx] at hcapa
      exact .inr ⟨by simpa [callees] using hcapa, by simpa [joinAt] using hne, by simp [joinAt, callees]⟩
    | some y =>
      obtain ⟨hyb, hyk⟩ := (inFamily_eq_some hdb).mp hy
      have hax := ha.alternatives hua x hxa
      have hby := hb.alternatives hub y hyb
      have hfam := hxk.trans hyk.symm
      have hheads := family_head_eq hax.canonical hby.canonical hax.isMember hby.isMember hfam
      have hlength := Head.length_targets_join hheads
      rw [joinAt, hax.mergeSameFamily_eq hby hjoins hfam]
      by_cases hcap : (x.head.join y.head).targets.length ≤ kMaxClosureSetTargets
      · obtain ⟨hmerge, hz, -, hhead, -⟩ := hax.merge hby hjoins hfam hcap
        refine .inr ⟨hlength ▸ hcap, ?_, ?_⟩
        · rw [hmerge]
          intro heq
          have hmember := hz.isMember
          rw [Option.some.inj heq] at hmember
          cases hmember
        · rw [hmerge, callees, Option.elim_some, hhead, Head.toFinset_targets_join hheads]
          rfl
      · have hlt := Nat.lt_of_not_le hcap
        refine .inl ⟨hlength ▸ hlt, ?_⟩
        rw [Head.merge, if_pos hlt]

end Step

theorem targets_json : CtType.json.targets = ∅ := rfl

theorem meet_boxed_left (c : CtType) : CtNative.meet printedForm .boxed c = .boxed :=
  meetWith_boxed_left c

section Meet

variable (hprinted : Function.Injective printedForm) {a b c : CtType}
  (ha : Canonical printedForm a) (hb : Canonical printedForm b) (hc : Canonical printedForm c)
include hprinted ha hb

/-- The meet of two unions: a union of their families, past a cap `boxed` or `json`. -/
theorem meet_union (hua : a.isUnion = true) (hub : b.isUnion = true) :
    kMaxClosureSetTargets < (a.targets ∪ b.targets).card ∧ CtNative.meet printedForm a b = .boxed ∨
      (a.targets ∪ b.targets).card ≤ kMaxClosureSetTargets ∧
        kMaxVariantAlternatives < (a.families ∪ b.families).card ∧
        CtNative.meet printedForm a b = .json ∨
      (a.targets ∪ b.targets).card ≤ kMaxClosureSetTargets ∧
        (a.families ∪ b.families).card ≤ kMaxVariantAlternatives ∧
        IsUnionOf printedForm a b (CtNative.meet printedForm a b) := by
  have hjoins := joins_meet hprinted
  obtain ⟨ms, hms, heq⟩ := exists_isMeet hprinted hjoins ha.fits hb.fits hua hub
  rw [meet_eq hprinted ha hb, heq]
  have hfamilies := hms.toFinset_map_family hjoins ha.fits hb.fits hua hub
  have hlength : (a.families ∪ b.families).card = ms.length := by
    rw [← hfamilies, List.toFinset_card_of_nodup (List.pairwise_map.mpr hms.distinct),
      List.length_map]
  rcases hms.callable hjoins ha.fits hb.fits hua hub with ⟨hcap, hboxed⟩ | ⟨hcap, hboxed, htargets⟩
  · exact .inl ⟨hcap, if_pos hboxed⟩
  rw [finish, if_neg hboxed, hlength]
  by_cases hlong : kMaxVariantAlternatives < ms.length
  · exact .inr (.inl ⟨hcap, hlong, if_pos hlong⟩)
  · rw [if_neg hlong]
    have hall : ∀ x ∈ ms, Alternative printedForm (Canonical printedForm) x :=
      fun x hx => (hms.all x hx).resolve_right fun heq => hboxed (heq ▸ hx)
    have hmembers : CanonicalMembers printedForm ms :=
      ⟨fun x hx => (hall x hx).canonical, fun x hx => (hall x hx).isMember, hms.distinct,
        hms.ascending, Nat.le_of_not_lt hlong⟩
    obtain ⟨hcanonical, hunion, hsame, hnullable⟩ := hmembers.unionOf (a.nullable || b.nullable)
    refine .inr (.inr ⟨hcap, Nat.le_of_not_lt hlong, hcanonical, hunion, hnullable, ?_, ?_, ?_⟩)
    · rw [CtType.targets, CtType.callable, hsame, htargets]
    · rw [CtType.families, hsame, hfamilies]
    · rw [hsame]
      exact hms.families

/-- The meet of two types that are `json` or a union. -/
theorem meet_step (ha' : a.IsJsonOrUnion) (hb' : b.IsJsonOrUnion) :
    kMaxClosureSetTargets < (a.targets ∪ b.targets).card ∧ CtNative.meet printedForm a b = .boxed ∨
      JsonFirst a b ∧ CtNative.meet printedForm a b = .json ∨
      (a.targets ∪ b.targets).card ≤ kMaxClosureSetTargets ∧ ¬ JsonFirst a b ∧
        a.isUnion = true ∧ b.isUnion = true ∧
        IsUnionOf printedForm a b (CtNative.meet printedForm a b) := by
  by_cases hjson : a = .json ∨ b = .json
  · -- `json` has no callables, and the other one is within the cap
    have hcap : (a.targets ∪ b.targets).card ≤ kMaxClosureSetTargets := by
      have hone : ∀ {t : CtType}, Canonical printedForm t → t.IsJsonOrUnion →
          t.targets.card ≤ kMaxClosureSetTargets := by
        rintro t ht (rfl | hunion)
        · exact Nat.zero_le _
        · exact ht.card_targets_le hunion
      rcases hjson with rfl | rfl
      · rw [targets_json, Finset.empty_union]
        exact hone hb hb'
      · rw [targets_json, Finset.union_empty]
        exact hone ha ha'
    refine .inr (.inl ⟨⟨hcap, or_assoc.mp (.inl hjson)⟩, ?_⟩)
    rw [meet_eq hprinted ha hb, meetWith_json ha' hb' hjson]
  · have hua := ha'.resolve_left fun h => hjson (.inl h)
    have hub := hb'.resolve_left fun h => hjson (.inr h)
    rcases meet_union hprinted ha hb hua hub with h | ⟨hcap, hlong, heq⟩ | ⟨hcap, hshort, h⟩
    · exact .inl h
    · exact .inr (.inl ⟨⟨hcap, .inr (.inr hlong)⟩, heq⟩)
    · refine .inr (.inr ⟨hcap, ?_, hua, hub, h⟩)
      rintro ⟨-, h | h | h⟩
      · exact hjson (.inl h)
      · exact hjson (.inr h)
      · exact absurd h (Nat.not_lt.mpr hshort)

/-! ## Two meets -/

include hc

theorem meet_meet_of_targets (ha' : a.IsJsonOrUnion) (hb' : b.IsJsonOrUnion)
    (hc' : c.IsJsonOrUnion)
    (htargets : kMaxClosureSetTargets < (a.targets ∪ b.targets ∪ c.targets).card) :
    JsonFirst a b ∧ CtNative.meet printedForm (CtNative.meet printedForm a b) c = .json ∨
      ¬ JsonFirst a b ∧ CtNative.meet printedForm (CtNative.meet printedForm a b) c = .boxed := by
  rcases meet_step hprinted ha hb ha' hb' with ⟨hcap, heq⟩ | ⟨hfirst, heq⟩ | ⟨-, hfirst, -, -, h⟩
  · rw [heq]
    exact .inr ⟨fun h => absurd hcap (Nat.not_lt.mpr h.1), meet_boxed_left c⟩
  · rw [heq, meet_eq hprinted .json hc]
    exact .inl ⟨hfirst, meetWith_json (.inl rfl) hc' (.inl rfl)⟩
  · refine .inr ⟨hfirst, ?_⟩
    rw [← h.targets] at htargets
    rcases meet_step hprinted h.canonical hc (.inr h.isUnion) hc' with
      ⟨-, heq⟩ | ⟨hsecond, -⟩ | ⟨hcap, -⟩
    · exact heq
    · exact absurd htargets (Nat.not_lt.mpr hsecond.1)
    · exact absurd htargets (Nat.not_lt.mpr hcap)

theorem meet_meet_of_json (ha' : a.IsJsonOrUnion) (hb' : b.IsJsonOrUnion)
    (hc' : c.IsJsonOrUnion)
    (htargets : (a.targets ∪ b.targets ∪ c.targets).card ≤ kMaxClosureSetTargets)
    (hjson : a = .json ∨ b = .json ∨ c = .json ∨
      kMaxVariantAlternatives < (a.families ∪ b.families ∪ c.families).card) :
    CtNative.meet printedForm (CtNative.meet printedForm a b) c = .json := by
  rcases meet_step hprinted ha hb ha' hb' with ⟨hcap, -⟩ | ⟨-, heq⟩ | ⟨-, -, hua, hub, h⟩
  · exact absurd ((Finset.card_le_card Finset.subset_union_left).trans htargets)
      (Nat.not_le.mpr hcap)
  · rw [heq, meet_eq hprinted .json hc]
    exact meetWith_json (.inl rfl) hc' (.inl rfl)
  · rw [← h.targets] at htargets
    rw [← h.families] at hjson
    rcases meet_step hprinted h.canonical hc (.inr h.isUnion) hc' with
      ⟨hcap, -⟩ | ⟨-, heq⟩ | ⟨-, hfirst, -, huc, -⟩
    · exact absurd hcap (Nat.not_lt.mpr htargets)
    · exact heq
    · refine absurd ⟨htargets, ?_⟩ hfirst
      rcases hjson with rfl | rfl | hjson
      · cases hua
      · cases hub
      · exact .inr hjson

omit hc in
theorem isUnionOf_meet (hua : a.isUnion = true) (hub : b.isUnion = true)
    (htargets : (a.targets ∪ b.targets).card ≤ kMaxClosureSetTargets)
    (hfamilies : (a.families ∪ b.families).card ≤ kMaxVariantAlternatives) :
    IsUnionOf printedForm a b (CtNative.meet printedForm a b) := by
  rcases meet_union hprinted ha hb hua hub with ⟨h, -⟩ | ⟨-, h, -⟩ | ⟨-, -, h⟩
  · exact absurd h (Nat.not_lt.mpr htargets)
  · exact absurd h (Nat.not_lt.mpr hfamilies)
  · exact h

theorem isUnionOf_meet_meet (hua : a.isUnion = true) (hub : b.isUnion = true)
    (huc : c.isUnion = true)
    (htargets : (a.targets ∪ b.targets ∪ c.targets).card ≤ kMaxClosureSetTargets)
    (hfamilies : (a.families ∪ b.families ∪ c.families).card ≤ kMaxVariantAlternatives) :
    (IsUnionOf printedForm a b (CtNative.meet printedForm a b) ∧
      IsUnionOf printedForm (CtNative.meet printedForm a b) c
        (CtNative.meet printedForm (CtNative.meet printedForm a b) c)) ∧
    IsUnionOf printedForm b c (CtNative.meet printedForm b c) ∧
      IsUnionOf printedForm a (CtNative.meet printedForm b c)
        (CtNative.meet printedForm a (CtNative.meet printedForm b c)) := by
  constructor
  · have hab := isUnionOf_meet hprinted ha hb hua hub
      ((Finset.card_le_card Finset.subset_union_left).trans htargets)
      ((Finset.card_le_card Finset.subset_union_left).trans hfamilies)
    rw [← hab.targets] at htargets
    rw [← hab.families] at hfamilies
    exact ⟨hab, isUnionOf_meet hprinted hab.canonical hc hab.isUnion huc htargets hfamilies⟩
  · rw [Finset.union_assoc] at htargets hfamilies
    have hbc := isUnionOf_meet hprinted hb hc hub huc
      ((Finset.card_le_card Finset.subset_union_right).trans htargets)
      ((Finset.card_le_card Finset.subset_union_right).trans hfamilies)
    rw [← hbc.targets] at htargets
    rw [← hbc.families] at hfamilies
    exact ⟨hbc, isUnionOf_meet hprinted ha hbc.canonical hua hbc.isUnion htargets hfamilies⟩

/-! ## Class tags -/

omit hc in
/-- What is below a class tag is the tag or `bottom`. -/
theorem eq_of_meet_eq {t : CtType} (hmeet : CtNative.meet printedForm a b = t)
    (ht : t = .bottom ∨ t.isClassTag = true) : a = .bottom ∨ a = t := by
  have hne : t ≠ .boxed ∧ t ≠ .json := by
    constructor <;> rintro rfl <;> rcases ht with h | h <;> cases h
  have hstep := hmeet
  rw [meet_eq hprinted ha hb] at hstep
  rcases @meetWith_cases κ _ printedForm (CtNative.meet printedForm) a b with
    ⟨hua, hub⟩ | heq | heq | heq
  · rcases meet_union hprinted ha hb hua hub with ⟨-, h⟩ | ⟨-, -, h⟩ | ⟨-, -, h⟩
    · exact absurd (hmeet.symm.trans h) hne.1
    · exact absurd (hmeet.symm.trans h) hne.2
    · rw [hmeet] at h
      rcases ht with rfl | ht
      · -- a union without alternatives is of such ones
        obtain ⟨-, hsame⟩ := ha.members hua
        obtain ⟨hnullable, -⟩ := Bool.or_eq_false_iff.mp h.nullable.symm
        obtain ⟨hfamilies, -⟩ := Finset.union_eq_empty.mp h.families.symm
        rw [CtType.families, List.toFinset_eq_empty_iff, List.map_eq_nil_iff] at hfamilies
        rw [hnullable, hfamilies] at hsame
        exact .inl hsame.symm
      · have hunion := h.isUnion
        cases t <;> first | (cases ht; done) | cases hunion
  · exact .inr (heq.symm.trans hstep)
  · obtain rfl : b = t := heq.symm.trans hstep
    rcases ht with rfl | ht
    · by_cases h : a = .bottom
      · exact .inl h
      · rw [meetWith, if_neg h, if_neg h, if_pos rfl] at hstep
        exact .inr hstep
    · rw [meetWith_classTag (.inr ht)] at hstep
      split_ifs at hstep with h h' h''
      · exact .inr h
      · exact .inl h'
      · exact .inr hstep
      · exact absurd hstep.symm hne.1
  · exact absurd (hstep.symm.trans heq) hne.1

/-- A class tag that comes first. -/
theorem meet_assoc_of_isClassTag_left (htag : a.isClassTag = true) :
    CtNative.meet printedForm (CtNative.meet printedForm a b) c =
      CtNative.meet printedForm a (CtNative.meet printedForm b c) := by
  have hjoins := joins_meet hprinted
  have hne : a ≠ .bottom := by
    rintro rfl
    cases htag
  have htag' : ∀ {t : CtType}, Canonical printedForm t → CtNative.meet printedForm a t =
      if a = t then a else if t = .bottom then a else .boxed := by
    intro t ht
    rw [meet_eq hprinted ha ht, meetWith_classTag (.inl htag), if_neg hne]
  have hboxed : ∀ t, CtNative.meet printedForm .boxed t = .boxed := meet_boxed_left
  have hbc := hjoins.closed hb hc
  by_cases hab : a = b
  · subst hab
    rw [hjoins.self ha, htag' hc]
    split_ifs with hac hbottom
    · exact (hjoins.self ha).symm
    · exact (hjoins.self ha).symm
    · rw [hjoins.comm ha .boxed, hboxed]
  by_cases hbottom : b = .bottom
  · subst hbottom
    have hsecond : CtNative.meet printedForm .bottom c = c := by
      rw [meet_eq hprinted .bottom hc, meetWith]
      by_cases h : .bottom = c
      · rw [if_pos h, h]
      · rw [if_neg h, if_pos rfl]
    rw [htag' .bottom, if_neg hne, if_pos rfl, hsecond]
  · rw [htag' hb, if_neg hab, if_neg hbottom, hboxed, htag' hbc]
    split_ifs with h h'
    · exact (eq_of_meet_eq hprinted hb hc h.symm (.inr htag)).elim (absurd · hbottom)
        fun heq => absurd heq.symm hab
    · exact (eq_of_meet_eq hprinted hb hc h' (.inl rfl)).elim (absurd · hbottom)
        (absurd · hbottom)
    · rfl

/-- With `boxed` or a class tag the two meets are one. -/
theorem meet_assoc_of_not_isJsonOrUnion
    (h : ¬ (a.IsJsonOrUnion ∧ b.IsJsonOrUnion ∧ c.IsJsonOrUnion)) :
    CtNative.meet printedForm (CtNative.meet printedForm a b) c =
      CtNative.meet printedForm a (CtNative.meet printedForm b c) := by
  have hjoins := joins_meet hprinted
  have hab := hjoins.closed ha hb
  have hbc := hjoins.closed hb hc
  have hboxed : ∀ t, CtNative.meet printedForm .boxed t = .boxed := meet_boxed_left
  have hboxed' : ∀ {t}, Canonical printedForm t → CtNative.meet printedForm t .boxed = .boxed :=
    fun ht => (hjoins.comm ht .boxed).trans (hboxed _)
  have hkinds : ∀ t : CtType, t.IsJsonOrUnion ∨ t = .boxed ∨ t.isClassTag = true := by
    intro t
    rcases t.kinds with h | h | h | h
    · exact .inr (.inl h)
    · exact .inl (.inl h)
    · exact .inr (.inr h)
    · exact .inl (.inr h)
  rcases hkinds a with ha' | rfl | htag
  · rcases hkinds b with hb' | rfl | htag
    · rcases hkinds c with hc' | rfl | htag
      · exact absurd ⟨ha', hb', hc'⟩ h
      · rw [hboxed' hab, hboxed' hb, hboxed' ha]
      · rw [hjoins.comm hab hc, hjoins.comm ha hb, hjoins.comm ha hbc, hjoins.comm hb hc]
        exact (meet_assoc_of_isClassTag_left hprinted hc hb ha htag).symm
    · rw [hboxed' ha, hboxed, hboxed' ha]
    · -- the tag between the two comes first in both
      have hfirst := meet_assoc_of_isClassTag_left hprinted hb ha hc htag
      have hlast := meet_assoc_of_isClassTag_left hprinted hb hc ha htag
      rw [hjoins.comm ha hb, hjoins.comm ha hbc, hfirst, hlast, hjoins.comm ha hc]
  · rw [hboxed, hboxed, hboxed]
  · exact meet_assoc_of_isClassTag_left hprinted ha hb hc htag

/-! ## Alternatives of one family -/

omit [LinearOrder κ] hprinted ha hb hc in
theorem zipWith_assoc_iff {xs ys zs : List CtType} :
    List.zipWith meet (List.zipWith meet xs ys) zs =
        List.zipWith meet xs (List.zipWith meet ys zs) ↔
      ∀ (i : ℕ) (d e f : CtType), xs[i]? = some d → ys[i]? = some e → zs[i]? = some f →
        meet (meet d e) f = meet d (meet e f) := by
  rw [List.ext_getElem?_iff]
  refine forall_congr' fun i => ?_
  simp only [List.getElem?_zipWith]
  cases xs[i]? <;> cases ys[i]? <;> cases zs[i]? <;> simp

omit hprinted ha hb hc in
theorem Alternative.joinAt_eq {x y : CtType} (hx : Alternative printedForm D x)
    (hy : Alternative printedForm D y) (hjoins : Joins printedForm D meet)
    (hfam : family x = family y)
    (hcap : (x.head.join y.head).targets.length ≤ kMaxClosureSetTargets) :
    joinAt (mergeSameFamily meet) (some x) (some y) =
      some ((x.head.join y.head).build (List.zipWith meet x.children y.children)) :=
  (hx.mergeSameFamily_eq hy hjoins hfam).trans
    (congrArg some (hx.merge hy hjoins hfam hcap).1)

omit ha hb hc in
/-- Three alternatives of one family, within the cap, merge in both orders to one alternative
when their element types meet so. -/
theorem merge_assoc_iff {x y z : CtType}
    (hx : Alternative printedForm (Canonical printedForm) x)
    (hy : Alternative printedForm (Canonical printedForm) y)
    (hz : Alternative printedForm (Canonical printedForm) z) (hxy : family x = family y)
    (hyz : family y = family z)
    (hcap : (x.head.targets.toFinset ∪ y.head.targets.toFinset ∪ z.head.targets.toFinset).card ≤
      kMaxClosureSetTargets) :
    (joinAt (mergeSameFamily (CtNative.meet printedForm))
        (joinAt (mergeSameFamily (CtNative.meet printedForm)) (some x) (some y)) (some z) =
      joinAt (mergeSameFamily (CtNative.meet printedForm)) (some x)
        (joinAt (mergeSameFamily (CtNative.meet printedForm)) (some y) (some z))) ↔
      ∀ (i : ℕ) (d e f : CtType), x.children[i]? = some d → y.children[i]? = some e →
        z.children[i]? = some f →
          CtNative.meet printedForm (CtNative.meet printedForm d e) f =
            CtNative.meet printedForm d (CtNative.meet printedForm e f) := by
  have hjoins := joins_meet hprinted
  have hxyheads := family_head_eq hx.canonical hy.canonical hx.isMember hy.isMember hxy
  have hyzheads := family_head_eq hy.canonical hz.canonical hy.isMember hz.isMember hyz
  have hlength := length_children_eq hx.canonical hy.canonical hx.isMember hy.isMember hxy
  rw [← hlength] at hyzheads
  -- the two inner merges are within the cap
  have hcapxy : (x.head.join y.head).targets.length ≤ kMaxClosureSetTargets := by
    rw [Head.length_targets_join hxyheads]
    exact (Finset.card_le_card Finset.subset_union_left).trans hcap
  have hcapyz : (y.head.join z.head).targets.length ≤ kMaxClosureSetTargets := by
    rw [Head.length_targets_join hyzheads]
    rw [Finset.union_assoc] at hcap
    exact (Finset.card_le_card Finset.subset_union_right).trans hcap
  obtain ⟨-, hp, hfamp, hheadp, hchildrenp⟩ := hx.merge hy hjoins hxy hcapxy
  obtain ⟨-, hq, hfamq, hheadq, hchildrenq⟩ := hy.merge hz hjoins hyz hcapyz
  rw [hx.joinAt_eq hy hjoins hxy hcapxy, hy.joinAt_eq hz hjoins hyz hcapyz]
  generalize (x.head.join y.head).build _ = p at hp hfamp hheadp hchildrenp ⊢
  generalize (y.head.join z.head).build _ = q at hq hfamq hheadq hchildrenq ⊢
  -- and so are the two outer ones, which have one head
  have hpz := hfamp.trans (hxy.trans hyz)
  have hxq := hxy.trans hfamq.symm
  have hheads : (x.head.join y.head).family x.children.length =
      z.head.family x.children.length := by
    rw [Head.family_join hxyheads, hxyheads, hyzheads]
  have hcappz : (p.head.join z.head).targets.length ≤ kMaxClosureSetTargets := by
    rw [hheadp, Head.length_targets_join hheads, Head.toFinset_targets_join hxyheads]
    exact hcap
  have hassoc := Head.join_assoc hxyheads hyzheads
  have hcapxq : (x.head.join q.head).targets.length ≤ kMaxClosureSetTargets := by
    rw [hheadq, ← hassoc, ← hheadp]
    exact hcappz
  obtain ⟨-, -, -, -, hchildrenpz⟩ := hp.merge hz hjoins hpz hcappz
  obtain ⟨-, -, -, -, hchildrenxq⟩ := hx.merge hq hjoins hxq hcapxq
  rw [hp.joinAt_eq hz hjoins hpz hcappz, hx.joinAt_eq hq hjoins hxq hcapxq, ← zipWith_assoc_iff,
    ← hchildrenp, ← hchildrenq, Option.some_inj]
  constructor
  · intro heq
    rw [← hchildrenpz, heq, hchildrenxq]
  · intro heq
    rw [heq, hheadp, hheadq, hassoc]

/-! ## The laws -/

/-- What two meets hold of each family is the same when the element types meet so. -/
theorem lookup_assoc_iff (hua : a.isUnion = true) (hub : b.isUnion = true)
    (huc : c.isUnion = true)
    (htargets : (a.targets ∪ b.targets ∪ c.targets).card ≤ kMaxClosureSetTargets) :
    (∀ k, joinAt (mergeSameFamily (CtNative.meet printedForm))
        (joinAt (mergeSameFamily (CtNative.meet printedForm)) (inFamily family k a.members)
          (inFamily family k b.members)) (inFamily family k c.members) =
      joinAt (mergeSameFamily (CtNative.meet printedForm)) (inFamily family k a.members)
        (joinAt (mergeSameFamily (CtNative.meet printedForm)) (inFamily family k b.members)
          (inFamily family k c.members))) ↔
      ∀ x ∈ a.members, ∀ y ∈ b.members, ∀ z ∈ c.members, family x = family y →
        family y = family z → ∀ (i : ℕ) (d e f : CtType), x.children[i]? = some d →
          y.children[i]? = some e → z.children[i]? = some f →
            CtNative.meet printedForm (CtNative.meet printedForm d e) f =
              CtNative.meet printedForm d (CtNative.meet printedForm e f) := by
  have hda := (ha.members hua).1.distinct
  have hdb := (hb.members hub).1.distinct
  have hdc := (hc.members huc).1.distinct
  have hone : ∀ {x y z : CtType}, x ∈ a.members → y ∈ b.members → z ∈ c.members →
      family x = family y → family y = family z → _ := fun hx hy hz hxy hyz =>
    merge_assoc_iff hprinted (ha.fits.alternatives hua _ hx) (hb.fits.alternatives hub _ hy)
      (hc.fits.alternatives huc _ hz) hxy hyz
      ((Finset.card_le_card (Finset.union_subset_union (Finset.union_subset_union
        (ha.targets_subset hua hx) (hb.targets_subset hub hy))
        (hc.targets_subset huc hz))).trans htargets)
  constructor
  · intro h x hx y hy z hz hxy hyz
    have hk := h (family x)
    rw [(inFamily_eq_some hda).mpr ⟨hx, rfl⟩, (inFamily_eq_some hdb).mpr ⟨hy, hxy.symm⟩,
      (inFamily_eq_some hdc).mpr ⟨hz, (hxy.trans hyz).symm⟩] at hk
    exact (hone hx hy hz hxy hyz).mp hk
  · intro h k
    cases hx : inFamily family k a.members with
    | none => rfl
    | some x =>
      cases hy : inFamily family k b.members with
      | none => rfl
      | some y =>
        obtain ⟨hxa, hxk⟩ := (inFamily_eq_some hda).mp hx
        obtain ⟨hyb, hyk⟩ := (inFamily_eq_some hdb).mp hy
        have hxy := hxk.trans hyk.symm
        cases hz : inFamily family k c.members with
        | none =>
          -- two of one family merge to something, and nothing is added to it
          obtain ⟨m, hm, -⟩ := (families_mergeSameFamily (joins_meet hprinted)).merges
            (ha.fits.alternatives hua x hxa) (hb.fits.alternatives hub y hyb) hxy
          simp only [joinAt, hm]
        | some z =>
          obtain ⟨hzc, hzk⟩ := (inFamily_eq_some hdc).mp hz
          have hyz := hyk.trans hzk.symm
          exact (hone hxa hyb hzc hxy hyz).mpr (h x hxa y hyb z hzc hxy hyz)

/-! ## The laws -/

omit ha hb hc in
/-- The meet is associative where the three do not clash. -/
theorem meet_assoc_iff (ha : Canonical printedForm a) (hb : Canonical printedForm b)
    (hc : Canonical printedForm c) :
    CtNative.meet printedForm (CtNative.meet printedForm a b) c =
      CtNative.meet printedForm a (CtNative.meet printedForm b c) ↔ ¬ Clash a b c := by
  -- by depth: element types nest less deep
  induction hn : a.depth using Nat.strong_induction_on generalizing a b c with
  | _ n ih =>
  have hjoins := joins_meet hprinted
  by_cases hkinds : a.IsJsonOrUnion ∧ b.IsJsonOrUnion ∧ c.IsJsonOrUnion
  swap
  · refine iff_of_true (meet_assoc_of_not_isJsonOrUnion hprinted ha hb hc hkinds) fun h => ?_
    cases h with
    | caps ha' hb' hc' => exact hkinds ⟨ha', hb', hc'⟩
    | nested hua hub huc => exact hkinds ⟨.inr hua, .inr hub, .inr huc⟩
  obtain ⟨ha', hb', hc'⟩ := hkinds
  -- the second meet is a first one in the other order
  have hswap : CtNative.meet printedForm a (CtNative.meet printedForm b c) =
      CtNative.meet printedForm (CtNative.meet printedForm c b) a := by
    rw [hjoins.comm ha (hjoins.closed hb hc), hjoins.comm hb hc]
  have htargets' : c.targets ∪ b.targets ∪ a.targets = a.targets ∪ b.targets ∪ c.targets := by
    rw [Finset.union_comm c.targets, Finset.union_comm, Finset.union_assoc]
  have hfamilies' : c.families ∪ b.families ∪ a.families =
      a.families ∪ b.families ∪ c.families := by
    rw [Finset.union_comm c.families, Finset.union_comm, Finset.union_assoc]
  rcases Nat.lt_or_ge kMaxClosureSetTargets (a.targets ∪ b.targets ∪ c.targets).card with
    htargets | htargets
  · rw [not_clash_iff_of_targets ha' hb' hc' htargets, hswap, @JsonFirst.comm b c]
    rcases meet_meet_of_targets hprinted ha hb hc ha' hb' hc' htargets with
      ⟨h, heq⟩ | ⟨h, heq⟩ <;>
    rcases meet_meet_of_targets hprinted hc hb ha hc' hb' ha' (htargets'.symm ▸ htargets) with
      ⟨h', heq'⟩ | ⟨h', heq'⟩ <;>
    simp [heq, heq', h, h']
  by_cases hjson : a = .json ∨ b = .json ∨ c = .json ∨
      kMaxVariantAlternatives < (a.families ∪ b.families ∪ c.families).card
  · have hjson' : c = .json ∨ b = .json ∨ a = .json ∨
        kMaxVariantAlternatives < (c.families ∪ b.families ∪ a.families).card := by
      rw [hfamilies']
      tauto
    rw [hswap, meet_meet_of_json hprinted ha hb hc ha' hb' hc' htargets hjson,
      meet_meet_of_json hprinted hc hb ha hc' hb' ha' (htargets'.symm ▸ htargets) hjson']
    refine iff_of_true rfl fun h => ?_
    cases h with
    | caps _ _ _ hlt => exact absurd hlt (Nat.not_lt.mpr htargets)
    | nested hua hub huc _ hle =>
      rcases hjson with rfl | rfl | rfl | hlt
      · cases hua
      · cases hub
      · cases huc
      · exact absurd hlt (Nat.not_lt.mpr hle)
  obtain ⟨hna, hnb, hnc, hle⟩ : a ≠ .json ∧ b ≠ .json ∧ c ≠ .json ∧
      ¬ kMaxVariantAlternatives < (a.families ∪ b.families ∪ c.families).card := by
    simpa only [not_or] using hjson
  have hua := ha'.resolve_left hna
  have hub := hb'.resolve_left hnb
  have huc := hc'.resolve_left hnc
  have hfamilies := Nat.le_of_not_lt hle
  obtain ⟨⟨hab, habc⟩, hbc, habc'⟩ :=
    isUnionOf_meet_meet hprinted ha hb hc hua hub huc htargets hfamilies
  rw [not_clash_iff_of_union hua hub huc htargets hfamilies]
  -- the element types are compared by the induction
  have hchildren : ∀ x ∈ a.members, ∀ y ∈ b.members, ∀ z ∈ c.members, ∀ (i : ℕ) (d e f : CtType),
      x.children[i]? = some d → y.children[i]? = some e → z.children[i]? = some f →
      (CtNative.meet printedForm (CtNative.meet printedForm d e) f =
        CtNative.meet printedForm d (CtNative.meet printedForm e f) ↔ ¬ Clash d e f) := by
    intro x hx y hy z hz i d e f hd he hf
    have hdepth : d.depth < n := by
      have := depth_lt_of_mem_children (List.mem_of_getElem? hd)
      have := depth_le_of_mem_members hx
      omega
    exact ih d.depth hdepth (ha.children hx (List.mem_of_getElem? hd))
      (hb.children hy (List.mem_of_getElem? he)) (hc.children hz (List.mem_of_getElem? hf)) rfl
  have hlookup := lookup_assoc_iff hprinted ha hb hc hua hub huc htargets
  constructor
  · intro heq x hx y hy z hz hxy hyz i d e f hd he hf
    refine (hchildren x hx y hy z hz i d e f hd he hf).mp ?_
    refine hlookup.mp (fun k => ?_) x hx y hy z hz hxy hyz i d e f hd he hf
    rw [← hab.lookup, ← habc.lookup, heq, habc'.lookup, hbc.lookup]
  · intro h
    refine habc.canonical.ext_inFamily habc'.canonical habc.isUnion habc'.isUnion ?_ fun k => ?_
    · rw [habc.nullable, hab.nullable, habc'.nullable, hbc.nullable, Bool.or_assoc]
    · rw [habc.lookup, hab.lookup, habc'.lookup, hbc.lookup]
      exact hlookup.mpr (fun x hx y hy z hz hxy hyz i d e f hd he hf =>
        (hchildren x hx y hy z hz i d e f hd he hf).mpr
          (h x hx y hy z hz hxy hyz i d e f hd he hf)) k

omit ha hb hc in
/-- The laws of a join semilattice hold where the three do not clash. -/
theorem meet_laws_iff (ha : Canonical printedForm a) (hb : Canonical printedForm b)
    (hc : Canonical printedForm c) :
    (CtNative.meet printedForm a a = a ∧
      CtNative.meet printedForm a b = CtNative.meet printedForm b a ∧
      CtNative.meet printedForm (CtNative.meet printedForm a b) c =
        CtNative.meet printedForm a (CtNative.meet printedForm b c) ∧
      Canonical printedForm (CtNative.meet printedForm a b)) ↔ ¬ Clash a b c := by
  have hjoins := joins_meet hprinted
  rw [← meet_assoc_iff hprinted ha hb hc]
  exact ⟨fun h => h.2.2.1, fun h => ⟨hjoins.self ha, hjoins.comm ha hb, h, hjoins.closed ha hb⟩⟩

end Meet

end

/-! ## On types spelled in numbers -/

/-- Targets named by one byte each. -/
def namedTargets (first count : ℕ) : List Text :=
  (List.range' first count).map fun k => [k.toUInt8]

/-- The laws, of types that do not clash. -/
theorem meet_laws_iff_scalars :
    meet CtType.code (.num .i32) (.num .i32) = .num .i32 ∧
      meet CtType.code (.num .i32) (.str .utf8) = meet CtType.code (.str .utf8) (.num .i32) ∧
      meet CtType.code (meet CtType.code (.num .i32) (.str .utf8)) (.closure [1]) =
        meet CtType.code (.num .i32) (meet CtType.code (.str .utf8) (.closure [1])) ∧
      Canonical CtType.code (meet CtType.code (.num .i32) (.str .utf8)) := by
  refine (meet_laws_iff CtType.code_injective (.num .i32) (.str .utf8) (.closure [1])).mpr
    fun h => ?_
  cases h with
  | caps _ _ _ htargets => exact absurd htargets (by decide)
  | nested _ _ _ _ _ hx _ _ _ _ hd =>
    rw [List.mem_singleton.mp hx] at hd
    cases hd

/-- A union at both caps, a map and a callable: with the map first the union is `json`, and the
callable is forgotten; with the callable first the callables are `boxed`. -/
theorem meet_forgets_callables :
    ¬ ∀ a b c : CtType, Canonical CtType.code a → Canonical CtType.code b →
      Canonical CtType.code c →
      meet CtType.code a a = a ∧ meet CtType.code a b = meet CtType.code b a ∧
        meet CtType.code (meet CtType.code a b) c = meet CtType.code a (meet CtType.code b c) ∧
        Canonical CtType.code (meet CtType.code a b) := by
  intro h
  have hset : Canonical CtType.code (.closureSet (namedTargets 0 16)) :=
    .closureSet (by decide) (by decide) (by decide)
  have hmembers : ∀ t ∈ [.nominal .bool, .closureSet (namedTargets 0 16), .num .f64, .str .utf8],
      Canonical CtType.code t := by
    simp only [List.forall_mem_cons]
    exact ⟨.nominal .bool, hset, .num .f64, .str .utf8, fun _ h => absurd h List.not_mem_nil⟩
  have hunion := Canonical.variant hmembers (by simp [CtType.isMember]) (by decide)
    (by decide) (by decide) (by decide)
  obtain ⟨-, -, hassoc, -⟩ := h _ _ _ hunion (.map (.num .i32) (.num .f64)) (.closure [100])
  revert hassoc
  decide

end CtBrowser.CtNative
