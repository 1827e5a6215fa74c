import CtBrowser.Style.Engine.CascadeFold

/-!
# The Cascade and Its Order

The declaration whose value a property should take is the greatest of those that match: by
importance and origin (normal below important; the user agent below the author when normal
and above it when important), then the style attribute above all rules, then the layer in
the order of its own origin (reversed when important), then specificity, the distance of
the scoping root (nearer is greater), and the order of appearance over all sheets.

The fold of the engine ends with another declaration in three kinds of cases: the style
attribute's important declarations are applied after those of the user agent, one table
orders the layers of both origins, and every sheet numbers its declarations from the start.

## Main definitions

- `Below` — the order of the cascade.
- `Overtakes` — the cases in which the fold disagrees with it.
- `ResolvesToGreatest` — the value left is that of the greatest declaration.

## Main results

- `resolvesToGreatest_iff` — it is exactly when nothing overtakes the greatest.
- `not_resolvesToGreatest` — an important declaration of a style attribute against one of the
  user agent.
-/

namespace CtBrowser.Style

open Foundations.StableOrder

/-! ### The order of the cascade -/

/-- A declaration that matches: of a rule, or of the style attribute. -/
inductive Candidate
  | filed (f : Filed)
  | own (important : Bool) (index : ℕ)
deriving DecidableEq

namespace Candidate

/-- The declaration. -/
def ref : Candidate → DeclarationRef
  | .filed f => .filed f.declaration
  | .own important index => .own important index

/-- Importance and origin; the style attribute is the author's. -/
def level : Candidate → ℕ
  | .filed f => f.level
  | .own important _ => if important then 2 else 1

end Candidate

section Order

variable (sheets : Sheets) (subject : Subject)

/-- The layer of a declaration is below another's, both of one origin and importance. -/
def LayerBelow (f g : Filed) : Prop :=
  if f.important then
    layerBefore (layersOf (· = f.origin) sheets) g.layerName f.layerName = true
  else layerBefore (layersOf (· = f.origin) sheets) f.layerName g.layerName = true

/-- One rule's declaration is below another's, both of one origin and importance. -/
def RuleBelow (f g : Filed) : Prop :=
  LayerBelow sheets f g ∨ f.layerName = g.layerName ∧
    (f.compiled.spec < g.compiled.spec ∨ f.compiled.spec = g.compiled.spec ∧
      (subject.distance g.selector < subject.distance f.selector ∨
        subject.distance f.selector = subject.distance g.selector ∧
          (f.selector.sheet < g.selector.sheet ∨
            f.selector.sheet = g.selector.sheet ∧ f.order < g.order)))

/-- One declaration is below another of its level. -/
def LevelBelow : Candidate → Candidate → Prop
  | .filed f, .filed g => RuleBelow sheets subject f g
  | .filed _, .own _ _ => True
  | .own _ _, .filed _ => False
  | .own _ i, .own _ j => i < j

/-- One declaration is below another in the order of the cascade. -/
def Below (x y : Candidate) : Prop :=
  x.level < y.level ∨ x.level = y.level ∧ LevelBelow sheets subject x y

variable {sheets subject} in
theorem not_below_self (x : Candidate) : ¬ Below sheets subject x x := by
  rintro (hless | ⟨-, hwithin⟩)
  · exact lt_irrefl _ hless
  · cases x with
    | own b i => exact lt_irrefl i hwithin
    | filed f =>
      have hrule : RuleBelow sheets subject f f := hwithin
      simp [RuleBelow, LayerBelow, layerBefore, pathBefore_irrefl] at hrule

variable (own : InlineBlock) (declares : DeclarationRef → Bool)

/-- The declarations of a property that match. -/
def IsCandidate : Candidate → Prop
  | .filed f =>
    f ∈ declaredIn sheets ∧ subject.matches f = true ∧ declares (.filed f.declaration) = true
  | .own important index =>
    .own important index ∈ own.refs important ∧ declares (.own important index) = true

/-- One that matches and that none is above. -/
def Greatest (w : Candidate) : Prop :=
  IsCandidate sheets subject own declares w ∧
    ∀ y, IsCandidate sheets subject own declares y → ¬ Below sheets subject w y

end Order

/-! ### What the code does and what it should -/

/-- What declarations come to, as far as one property goes: those that declare it give it one
plain value, without variables, shorthands or keywords, and no other touches it. -/
structure Declares (declares : DeclarationRef → Bool) (property : Text)
    (value : DeclarationRef → Text) (fills : DeclarationRef → List Declaration → List Fill) :
    Prop where
  plain : ∀ ref, declares ref = true → value ref ∉ wideKeywords
  sets : ∀ ref, declares ref = true → ∀ out, fills ref out = [.put ⟨property, value ref⟩]
  keeps : ∀ ref, declares ref = false → ∀ out, ∀ x ∈ fills ref out, x.property ≠ property

/-- Whatever the declarations say, the value left is that of the greatest one. -/
def ResolvesToGreatest (sheets : Sheets) (subject : Subject) (own : InlineBlock)
    (declares : DeclarationRef → Bool) (property : Text) : Prop :=
  ∀ (parent : Text → Text) (value : DeclarationRef → Text)
    (fills : DeclarationRef → List Declaration → List Fill),
    Declares declares property value fills → ∀ w, Greatest sheets subject own declares w →
      valueOf (resolve (.addSheets sheets) subject own parent fills) property = some (value w.ref)

section Overtaking

variable (sheets : Sheets) (subject : Subject)

/-- A rule is found by a later lookup than another, or by the same from a later sheet. -/
def GatheredAfter (f g : Filed) : Prop :=
  ∃ (k : ℕ) (key : BucketKey), subject.lookups[k]? = some key ∧ key ∈ f.compiled.buckets ∧
    ∀ (j : ℕ) (key' : BucketKey), subject.lookups[j]? = some key' → key' ∈ g.compiled.buckets →
      j < k ∨ j = k ∧ g.selector.sheet < f.selector.sheet

/-- A declaration has the larger number, or the same and is gathered later. -/
def NumberedAfter (f g : Filed) : Prop :=
  g.order < f.order ∨ g.order = f.order ∧ GatheredAfter subject f g

/-- The rank of the layer of one declaration beats that of another. -/
def RankedAbove (f g : Filed) : Prop :=
  if f.important then
    (Engine.addSheets sheets).rankOf (layerIndex sheets f) <
      (Engine.addSheets sheets).rankOf (layerIndex sheets g)
  else
    (Engine.addSheets sheets).rankOf (layerIndex sheets g) <
      (Engine.addSheets sheets).rankOf (layerIndex sheets f)

/-- The first declaration is applied after the second, which is not below it. -/
inductive Overtakes : Candidate → Candidate → Prop
  -- an important declaration of the style attribute, one of the user agent
  | styleAttribute (i : ℕ) {g : Filed} (himportant : g.important = true)
      (horigin : g.origin = .userAgent) : Overtakes (.own true i) (.filed g)
  -- the table of both origins ranks the layers the other way
  | layers {f g : Filed} (hlevel : f.level = g.level)
      (hlayer : layerIndex sheets f ≠ layerIndex sheets g) (hrank : RankedAbove sheets f g) :
      Overtakes (.filed f) (.filed g)
  -- two layers have one index, which takes more layers than 16 bits count
  | aliased {f g : Filed} (hlevel : f.level = g.level) (hname : f.layerName ≠ g.layerName)
      (hlayer : layerIndex sheets f = layerIndex sheets g)
      (hlater : g.compiled.spec < f.compiled.spec ∨ g.compiled.spec = f.compiled.spec ∧
        (subject.distance f.selector < subject.distance g.selector ∨
          subject.distance g.selector = subject.distance f.selector ∧ NumberedAfter subject f g)) :
      Overtakes (.filed f) (.filed g)
  -- an earlier sheet gives the larger number
  | sheets {f g : Filed} (hlevel : f.level = g.level) (hname : f.layerName = g.layerName)
      (hspec : f.compiled.spec = g.compiled.spec)
      (hdistance : subject.distance f.selector = subject.distance g.selector)
      (hsheet : f.selector.sheet < g.selector.sheet) (hnumber : NumberedAfter subject f g) :
      Overtakes (.filed f) (.filed g)

/-- No declaration of the property overtakes the greatest one, whichever of its selectors as
great is taken. -/
def NothingOvertakes (own : InlineBlock) (declares : DeclarationRef → Bool) : Prop :=
  ∀ w, Greatest sheets subject own declares w → ∀ x, IsCandidate sheets subject own declares x →
    ∃ w', Greatest sheets subject own declares w' ∧ w'.ref = w.ref ∧
      ¬ Overtakes sheets subject x w'

end Overtaking

/-! ### The steps of the fold -/

/-- A step of the fold: a visit of a declaration, or a declaration of the style attribute. -/
inductive Step
  | rule (visit : ℕ) (f : Filed)
  | own (important : Bool) (index : ℕ)

/-- The declaration a step applies. -/
def Step.candidate : Step → Candidate
  | .rule _ f => .filed f
  | .own important index => .own important index

/-- The steps for the normal or the important declarations of a style attribute. -/
def InlineBlock.steps (own : InlineBlock) (important : Bool) : List Step :=
  (List.range (if important then own.important else own.normal)).map (.own important)

section Steps

variable (sheets : Sheets) (subject : Subject) (own : InlineBlock)

/-- The steps of the fold, in order. -/
def steps : List Step :=
  ((sortedVisits sheets subject).filter fun x => !x.2.important).map (fun x => .rule x.1 x.2) ++
      own.steps false ++
    (((sortedVisits sheets subject).filter fun x => x.2.important).map (fun x => .rule x.1 x.2) ++
      own.steps true)

/-- A step of the fold comes before another. -/
def StepBefore : Step → Step → Prop
  | .rule j f, .rule k g =>
    StableBefore (fun x y => visitKey sheets subject x ≤ visitKey sheets subject y) VisitedBefore
      (j, f) (k, g)
  | .rule _ f, .own b _ => f.important = true → b = true
  | .own b _, .rule _ g => b = false ∧ g.important = true
  | .own b i, .own c j => b = false ∧ c = true ∨ b = c ∧ i < j

variable {sheets subject own}

theorem mem_steps_rule {k : ℕ} {f : Filed} :
    Step.rule k f ∈ steps sheets subject own ↔ (k, f) ∈ visits sheets subject := by
  cases h : f.important <;>
    simp [steps, InlineBlock.steps, mem_sortedVisits, h]

theorem mem_steps_own {b : Bool} {i : ℕ} :
    Step.own b i ∈ steps sheets subject own ↔ .own b i ∈ own.refs b := by
  cases b <;> simp [steps, InlineBlock.steps, InlineBlock.refs]

theorem level_le_of_visitKey_le {x y : ℕ × Filed}
    (h : visitKey sheets subject x ≤ visitKey sheets subject y) : x.2.level ≤ y.2.level := by
  rw [visitKey, visitKey, sortKey, sortKey, Prod.Lex.toLex_le_toLex] at h
  exact h.elim le_of_lt fun heq => heq.1.le

theorem important_of_visitKey_le {x y : ℕ × Filed}
    (h : visitKey sheets subject x ≤ visitKey sheets subject y) (hx : x.2.important = true) :
    y.2.important = true := by
  have hlevel := level_le_of_visitKey_le h
  by_contra hy
  rw [Bool.not_eq_true] at hy
  rw [Filed.level, Filed.level, hx, hy] at hlevel
  cases hxo : x.2.origin <;> cases hyo : y.2.origin <;> simp [hxo, hyo, Origin.number] at hlevel

theorem sortedVisits_eq_append : sortedVisits sheets subject =
    (sortedVisits sheets subject).filter (fun x => !x.2.important) ++
      (sortedVisits sheets subject).filter fun x => x.2.important :=
  eq_filter_append_filter
    ((pairwise_sortedVisits sheets subject).imp fun h => important_of_visitKey_le h.1)

theorem map_snd_foldOrder : (foldOrder (sortedMatches (.addSheets sheets) subject) own).map Prod.snd =
    (steps sheets subject own).map fun s => s.candidate.ref := by
  rw [sortedMatches_eq, foldOrder, sortedVisits_eq_append, List.map_append, map_snd_foldFrom]
  · simp [steps, InlineBlock.steps, InlineBlock.refs, ruleFor, Step.candidate, Candidate.ref,
      Function.comp_def]
  · intro r hr
    obtain ⟨x, hx, rfl⟩ := List.mem_map.mp hr
    exact (Bool.not_eq_true' _).mp (List.mem_filter.mp hx).2
  · intro r hr
    obtain ⟨x, hx, rfl⟩ := List.mem_map.mp hr
    exact (List.mem_filter.mp hx).2

/-- The steps come in their order. -/
theorem pairwise_steps : (steps sheets subject own).Pairwise (StepBefore sheets subject) := by
  have hrules : ∀ p : ℕ × Filed → Bool,
      (((sortedVisits sheets subject).filter p).map fun x => Step.rule x.1 x.2).Pairwise
        (StepBefore sheets subject) := by
    intro p
    rw [List.pairwise_map]
    exact (pairwise_sortedVisits sheets subject).filter p
  have howns : ∀ b, (own.steps b).Pairwise (StepBefore sheets subject) := by
    intro b
    rw [InlineBlock.steps, List.pairwise_map]
    exact List.pairwise_lt_range.imp fun h => .inr ⟨rfl, h⟩
  rw [steps, List.pairwise_append, List.pairwise_append, List.pairwise_append]
  refine ⟨⟨hrules _, howns _, ?_⟩, ⟨hrules _, howns _, ?_⟩, ?_⟩
  · intro s hs t ht
    obtain ⟨x, hx, rfl⟩ := List.mem_map.mp hs
    obtain ⟨i, -, rfl⟩ := List.mem_map.mp ht
    intro himportant
    simp [himportant] at hx
  · intro s hs t ht
    obtain ⟨x, -, rfl⟩ := List.mem_map.mp hs
    obtain ⟨i, -, rfl⟩ := List.mem_map.mp ht
    exact fun _ => rfl
  · intro s hs t ht
    rcases List.mem_append.mp hs with hs | hs <;> rcases List.mem_append.mp ht with ht | ht
    · obtain ⟨x, hx, rfl⟩ := List.mem_map.mp hs
      obtain ⟨y, hy, rfl⟩ := List.mem_map.mp ht
      have hsorted := pairwise_sortedVisits sheets subject
      rw [sortedVisits_eq_append, List.pairwise_append] at hsorted
      exact hsorted.2.2 x hx y hy
    · obtain ⟨x, -, rfl⟩ := List.mem_map.mp hs
      obtain ⟨i, -, rfl⟩ := List.mem_map.mp ht
      exact fun _ => rfl
    · obtain ⟨i, -, rfl⟩ := List.mem_map.mp hs
      obtain ⟨x, hx, rfl⟩ := List.mem_map.mp ht
      exact ⟨rfl, (List.mem_filter.mp hx).2⟩
    · obtain ⟨i, -, rfl⟩ := List.mem_map.mp hs
      obtain ⟨j, -, rfl⟩ := List.mem_map.mp ht
      exact .inl ⟨rfl, rfl⟩

end Steps

section Value

variable {sheets : Sheets} {subject : Subject} {own : InlineBlock}
variable {declares : DeclarationRef → Bool} {property : Text} {value : DeclarationRef → Text}
variable {fills : DeclarationRef → List Declaration → List Fill}

/-- The last step whose declaration is one of the property's. -/
def lastStep (sheets : Sheets) (subject : Subject) (own : InlineBlock)
    (declares : DeclarationRef → Bool) : Option Step :=
  ((steps sheets subject own).filter fun s => declares s.candidate.ref).getLast?

theorem valueOf_resolve (h : Declares declares property value fills) (parent : Text → Text) :
    valueOf (resolve (.addSheets sheets) subject own parent fills) property =
      (lastStep sheets subject own declares).map fun s => value s.candidate.ref := by
  have hlast := foldl_eq_last_writer (fun st : Folding => valueOf st.out property)
    (applyDeclaration (sortedMatches (.addSheets sheets) subject) parent fills)
    (fun x => declares x.2) (fun x => value x.2) ?_ ?_
    (foldOrder (sortedMatches (.addSheets sheets) subject) own) ⟨[], []⟩
  · have hmap : ∀ l : List (ℕ × DeclarationRef),
        ((l.filter fun x => declares x.2).getLast?.map fun x => value x.2) =
          ((l.map Prod.snd).filter declares).getLast?.map value := by
      intro l
      rw [List.filter_map, List.getLast?_map, Option.map_map]
      rfl
    rw [hmap, map_snd_foldOrder, List.filter_map, List.getLast?_map, Option.map_map] at hlast
    exact hlast.trans (Option.or_none ..)
  · intro st x hx
    rw [applyDeclaration, h.sets _ hx, List.foldl_cons, List.foldl_nil, applyFill]
    exact valueOf_put _ parent st x.1 (h.plain _ hx)
  · intro st x hx
    exact valueOf_foldl_applyFill _ parent x.1 st (h.keeps _ hx st.out)

end Value

/-! ### Comparing keys -/

section Keys

variable {sheets : Sheets} {subject : Subject} {f g : Filed}

/-- The selector, distance and number of one declaration come after those of another. -/
def KeyedAfter (subject : Subject) (f g : Filed) : Prop :=
  g.compiled.spec < f.compiled.spec ∨ g.compiled.spec = f.compiled.spec ∧
    (subject.distance f.selector < subject.distance g.selector ∨
      subject.distance g.selector = subject.distance f.selector ∧ g.order < f.order)

theorem visitKey_lt_iff (hf : f ∈ declaredIn sheets) (hg : g ∈ declaredIn sheets)
    (hlevel : f.level = g.level) (j k : ℕ) :
    visitKey sheets subject (j, g) < visitKey sheets subject (k, f) ↔
      layerIndex sheets f ≠ layerIndex sheets g ∧ RankedAbove sheets f g ∨
        layerIndex sheets f = layerIndex sheets g ∧ KeyedAfter subject f g := by
  rw [visitKey, visitKey, ← precedes_iff (a := ruleFor sheets subject g)
    (b := ruleFor sheets subject f) (layerIndex_lt hg) (layerIndex_lt hf),
    precedes_eq_of_level_eq (a := ruleFor sheets subject g) (b := ruleFor sheets subject f)
      hlevel.symm, ne_comm, eq_comm (a := layerIndex sheets f)]
  rfl

theorem visitKey_eq_iff (hf : f ∈ declaredIn sheets) (hg : g ∈ declaredIn sheets)
    (hlevel : f.level = g.level) (j k : ℕ) :
    visitKey sheets subject (j, g) = visitKey sheets subject (k, f) ↔
      layerIndex sheets f = layerIndex sheets g ∧ g.compiled.spec = f.compiled.spec ∧
        subject.distance g.selector = subject.distance f.selector ∧ g.order = f.order := by
  rw [visitKey, visitKey, sortKey_eq_of_level_eq (a := ruleFor sheets subject g)
    (b := ruleFor sheets subject f) (layerIndex_lt hg) (layerIndex_lt hf) hlevel.symm,
    eq_comm (a := layerIndex sheets f)]
  rfl

/-- Selectors with the same declaration stand in one rule. -/
theorem declared_inj {sheet : Stylesheet} {serial : ℕ} {origin : Origin}
    (hf : f ∈ sheet.declared serial origin) (hg : g ∈ sheet.declared serial origin)
    (horder : f.order = g.order) : f.level = g.level ∧ f.layerName = g.layerName := by
  obtain ⟨raw, sel, d, hraw, -, -, hd, hfe⟩ := mem_declared.mp hf
  obtain ⟨raw', sel', d', hraw', -, -, hd', hge⟩ := mem_declared.mp hg
  have hnumbered := sheet.numbered
  rw [List.pairwise_map, List.pairwise_flatMap] at hnumbered
  obtain ⟨hwithin, hacross⟩ := hnumbered
  rw [hfe, hge] at horder
  dsimp only at horder
  obtain ⟨hi, hraw⟩ := List.getElem?_eq_some_iff.mp hraw
  obtain ⟨hj, hraw'⟩ := List.getElem?_eq_some_iff.mp hraw'
  have hplace := List.pairwise_iff_getElem.mp hacross
  rcases lt_trichotomy f.selector.rule g.selector.rule with hlt | heq | hgt
  · have hless := hplace _ _ hi hj hlt d (hraw ▸ hd) d' (hraw' ▸ hd')
    omega
  · have hsame : raw = raw' := by
      rw [← hraw, ← hraw']
      exact getElem_congr_idx heq
    subst hsame
    have hnumbers := List.pairwise_iff_getElem.mp (hwithin raw (hraw ▸ List.getElem_mem hi))
    obtain ⟨m, hm, rfl⟩ := List.getElem_of_mem hd
    obtain ⟨n, hn, rfl⟩ := List.getElem_of_mem hd'
    obtain rfl : m = n := by
      by_contra hne
      rcases Nat.lt_or_gt_of_ne hne with hlt | hgt
      · have hless := hnumbers _ _ hm hn hlt
        omega
      · have hless := hnumbers _ _ hn hm hgt
        omega
    rw [hfe, hge]
    exact ⟨rfl, rfl⟩
  · have hless := hplace _ _ hj hi hgt d' (hraw' ▸ hd') d (hraw ▸ hd)
    omega

theorem declaredIn_inj (hf : f ∈ declaredIn sheets) (hg : g ∈ declaredIn sheets)
    (hdeclaration : f.declaration = g.declaration) :
    f.level = g.level ∧ f.layerName = g.layerName := by
  obtain ⟨s, hs, hfs⟩ := List.mem_flatMap.mp hf
  obtain ⟨t, ht, hgt⟩ := List.mem_flatMap.mp hg
  obtain ⟨hsheet, horder⟩ := DeclarationPlace.mk.inj hdeclaration
  rw [sheet_of_mem_declared hfs, sheet_of_mem_declared hgt] at hsheet
  have hindex : s.2 = t.2 := by omega
  have hst : s.1 = t.1 := by
    have hsome := List.mem_zipIdx_iff_getElem?.mp hs
    rw [hindex, List.mem_zipIdx_iff_getElem?.mp ht] at hsome
    exact (Option.some.inj hsome).symm
  rw [← hst, ← hindex] at hgt
  exact declared_inj hfs hgt horder

end Keys

/-! ### What is applied last -/

section Last

variable {sheets : Sheets} {subject : Subject} {f g : Filed}

/-- A declaration of a rule that is applied after another, which is not below it, overtakes
it or is the same. -/
theorem overtakes_of_applied_after {k : ℕ} (hf : (k, f) ∈ visits sheets subject)
    (hg : g ∈ declaredIn sheets) (hmatch : subject.matches g = true)
    (hbefore : ∀ j, (j, g) ∈ visits sheets subject →
      StepBefore sheets subject (.rule j g) (.rule k f))
    (hnot : ¬ Below sheets subject (.filed g) (.filed f))
    (hne : g.declaration ≠ f.declaration) : Overtakes sheets subject (.filed f) (.filed g) := by
  obtain ⟨j, hj⟩ := exists_visit hg hmatch
  obtain ⟨key, hkey, hbucket, hfdeclared, -⟩ := mem_visits.mp hf
  have hle := (hbefore j hj).1
  have hlevel : f.level = g.level := by
    have hle := level_le_of_visitKey_le hle
    have hlt : ¬ g.level < f.level := fun h => hnot (.inl h)
    dsimp only at hle
    omega
  by_cases hlayer : layerIndex sheets f = layerIndex sheets g
  · -- with one layer index, the rest of the key decides, and then the order of the visits
    have hlater : g.compiled.spec < f.compiled.spec ∨ g.compiled.spec = f.compiled.spec ∧
        (subject.distance f.selector < subject.distance g.selector ∨
          subject.distance g.selector = subject.distance f.selector ∧
            NumberedAfter subject f g) := by
      rcases lt_or_eq_of_le hle with hlt | heq
      · rcases (visitKey_lt_iff hfdeclared hg hlevel j k).mp hlt with hrank | ⟨-, hkeyed⟩
        · exact absurd hlayer hrank.1
        · rcases hkeyed with hspec | ⟨hspec, hdistance | ⟨hdistance, horder⟩⟩
          · exact .inl hspec
          · exact .inr ⟨hspec, .inl hdistance⟩
          · exact .inr ⟨hspec, .inr ⟨hdistance, .inl horder⟩⟩
      · obtain ⟨-, hspec, hdistance, horder⟩ := (visitKey_eq_iff hfdeclared hg hlevel j k).mp heq
        refine .inr ⟨hspec, .inr ⟨hdistance, .inr ⟨horder, k, key, hkey, hbucket, ?_⟩⟩⟩
        intro i key' hkey' hbucket'
        have hvisit := (hbefore i (mem_visits.mpr ⟨key', hkey', hbucket', hg, hmatch⟩)).2 heq.ge
        rcases hvisit with hlt | ⟨hsame, hsheet⟩
        · exact .inl hlt
        · refine .inr ⟨hsame, lt_of_le_of_ne hsheet fun heq => hne ?_⟩
          exact DeclarationPlace.mk.injEq .. ▸ ⟨heq, horder⟩
    by_cases hname : f.layerName = g.layerName
    · have hnotrule : ¬ RuleBelow sheets subject g f := fun h => hnot (.inr ⟨hlevel.symm, h⟩)
      obtain ⟨hspec, hrest⟩ := hlater.resolve_left fun h => hnotrule (.inr ⟨hname.symm, .inl h⟩)
      obtain ⟨hdistance, hnumber⟩ := hrest.resolve_left fun h =>
        hnotrule (.inr ⟨hname.symm, .inr ⟨hspec, .inl h⟩⟩)
      have hplace : ¬ (g.selector.sheet < f.selector.sheet ∨
          g.selector.sheet = f.selector.sheet ∧ g.order < f.order) := fun h =>
        hnotrule (.inr ⟨hname.symm, .inr ⟨hspec, .inr ⟨hdistance, h⟩⟩⟩)
      have hsheet : f.selector.sheet < g.selector.sheet := by
        by_contra hge
        have hsame : g.selector.sheet = f.selector.sheet := by omega
        rcases hnumber with hlt | ⟨horder, -⟩
        · exact hplace (.inr ⟨hsame, hlt⟩)
        · exact hne (DeclarationPlace.mk.injEq .. ▸ ⟨hsame, horder⟩)
      exact .sheets hlevel hname hspec.symm hdistance.symm hsheet hnumber
    · exact .aliased hlevel hname hlayer hlater
  · have hlt := lt_of_le_of_ne hle fun heq =>
      hlayer ((visitKey_eq_iff hfdeclared hg hlevel j k).mp heq).1
    rcases (visitKey_lt_iff hfdeclared hg hlevel j k).mp hlt with hrank | hsame
    · exact .layers hlevel hlayer hrank.2
    · exact absurd hsame.1 hlayer

/-- A declaration whose visits come before another's is not later in the keys that one layer
index leaves to decide. -/
theorem not_later_of_applied_before {k : ℕ} (hf : f ∈ declaredIn sheets)
    (hmatch : subject.matches f = true) (hg : (k, g) ∈ visits sheets subject)
    (hlevel : f.level = g.level) (hlayer : layerIndex sheets f = layerIndex sheets g)
    (hbefore : ∀ j, (j, f) ∈ visits sheets subject →
      StepBefore sheets subject (.rule j f) (.rule k g)) :
    ¬ (g.compiled.spec < f.compiled.spec ∨ g.compiled.spec = f.compiled.spec ∧
      (subject.distance f.selector < subject.distance g.selector ∨
        subject.distance g.selector = subject.distance f.selector ∧
          NumberedAfter subject f g)) := by
  obtain ⟨key', hkey', hbucket', hgdeclared, -⟩ := mem_visits.mp hg
  have hnot : ¬ KeyedAfter subject f g := by
    intro hkeyed
    obtain ⟨j, hj⟩ := exists_visit hf hmatch
    have hlt := (visitKey_lt_iff hf hgdeclared hlevel k j).mpr (.inr ⟨hlayer, hkeyed⟩)
    exact absurd (hbefore j hj).1 (not_le_of_gt hlt)
  rintro (hspec | ⟨hspec, hdistance | ⟨hdistance, horder | ⟨horder, j, key, hkey, hbucket, hall⟩⟩⟩)
  · exact hnot (.inl hspec)
  · exact hnot (.inr ⟨hspec, .inl hdistance⟩)
  · exact hnot (.inr ⟨hspec, .inr ⟨hdistance, horder⟩⟩)
  · -- a tie: the visits decide, and that of the first comes after
    have hvisit := hbefore j (mem_visits.mpr ⟨key, hkey, hbucket, hf, hmatch⟩)
    have htie := (visitKey_eq_iff hf hgdeclared hlevel k j).mpr ⟨hlayer, hspec, hdistance, horder⟩
    rcases hvisit.2 htie.le with hlt | ⟨hsame, hsheet⟩
    · rcases hall k key' hkey' hbucket' with h | ⟨h, -⟩ <;> dsimp only at hlt <;> omega
    · rcases hall k key' hkey' hbucket' with h | ⟨-, h⟩ <;> dsimp only at hsame hsheet <;> omega

variable {own : InlineBlock} {declares : DeclarationRef → Bool}

/-- What is applied before a step does not overtake it. -/
theorem not_overtakes_of_applied_before {x : Candidate} {c : Step}
    (hc : c ∈ steps sheets subject own) (hx : IsCandidate sheets subject own declares x)
    (hbefore : ∀ s ∈ steps sheets subject own, s.candidate = x → s = c ∨ StepBefore sheets subject s c) :
    ¬ Overtakes sheets subject x c.candidate := by
  intro hovertakes
  cases c with
  | own b i => cases hovertakes
  | rule k g =>
    have hg := mem_steps_rule.mp hc
    obtain ⟨-, -, -, hgdeclared, -⟩ := mem_visits.mp hg
    -- a different declaration of a rule stands before at all its visits
    have hrule : ∀ {f : Filed}, x = .filed f → f ≠ g → ∀ j, (j, f) ∈ visits sheets subject →
        StepBefore sheets subject (.rule j f) (.rule k g) := by
      rintro f rfl hne j hj
      refine (hbefore _ (mem_steps_rule.mpr hj) rfl).resolve_left fun heq => hne ?_
      exact (Step.rule.inj heq).2
    cases hovertakes with
    | styleAttribute i _ _ =>
      rcases hbefore (.own true i) (mem_steps_own.mpr hx.1) rfl with heq | ⟨hfalse, -⟩
      · cases heq
      · cases hfalse
    | @layers f _ hlevel hlayer hrank =>
      have hne : f ≠ g := by
        rintro rfl
        exact hlayer rfl
      obtain ⟨j, hj⟩ := exists_visit hx.1 hx.2.1
      have hlt := (@visitKey_lt_iff sheets subject _ g hx.1 hgdeclared hlevel k j).mpr
        (.inl ⟨hlayer, hrank⟩)
      exact absurd (hrule rfl hne j hj).1 (not_le_of_gt hlt)
    | @aliased f _ hlevel hname hlayer hlater =>
      have hne : f ≠ g := by
        rintro rfl
        exact hname rfl
      exact not_later_of_applied_before hx.1 hx.2.1 hg hlevel hlayer (hrule rfl hne) hlater
    | @sheets f _ hlevel hname hspec hdistance hsheet hnumber =>
      have hne : f ≠ g := by
        rintro rfl
        exact lt_irrefl _ hsheet
      have hlayer : layerIndex sheets f = layerIndex sheets g := by rw [layerIndex, hname, layerIndex]
      exact not_later_of_applied_before hx.1 hx.2.1 hg hlevel hlayer (hrule rfl hne)
        (.inr ⟨hspec.symm, .inr ⟨hdistance.symm, hnumber⟩⟩)

theorem exists_step {x : Candidate} (hx : IsCandidate sheets subject own declares x) :
    ∃ s ∈ steps sheets subject own, s.candidate = x := by
  cases x with
  | filed f =>
    obtain ⟨k, hk⟩ := exists_visit hx.1 hx.2.1
    exact ⟨.rule k f, mem_steps_rule.mpr hk, rfl⟩
  | own b i => exact ⟨.own b i, mem_steps_own.mpr hx.1, rfl⟩

theorem isCandidate_of_mem_steps {s : Step} (hs : s ∈ steps sheets subject own)
    (hdeclares : declares s.candidate.ref = true) :
    IsCandidate sheets subject own declares s.candidate := by
  cases s with
  | rule k f =>
    obtain ⟨-, -, -, hf, hmatch⟩ := mem_visits.mp (mem_steps_rule.mp hs)
    exact ⟨hf, hmatch, hdeclares⟩
  | own b i => exact ⟨mem_steps_own.mp hs, hdeclares⟩

theorem IsCandidate.declares_ref {x : Candidate} (hx : IsCandidate sheets subject own declares x) :
    declares x.ref = true := by
  cases x with
  | filed f => exact hx.2.2
  | own b i => exact hx.2

theorem exists_lastStep {x : Candidate} (hx : IsCandidate sheets subject own declares x) :
    ∃ c, lastStep sheets subject own declares = some c ∧ c ∈ steps sheets subject own ∧
      IsCandidate sheets subject own declares c.candidate ∧
      ∀ y, IsCandidate sheets subject own declares y → ∀ s ∈ steps sheets subject own,
        s.candidate = y → s = c ∨ StepBefore sheets subject s c := by
  obtain ⟨s, hs, rfl⟩ := exists_step hx
  have hmem : ∀ {t}, t ∈ steps sheets subject own → declares t.candidate.ref = true →
      t ∈ (steps sheets subject own).filter fun t => declares t.candidate.ref := fun ht hdeclares =>
    List.mem_filter.mpr ⟨ht, hdeclares⟩
  obtain ⟨c, hc⟩ := Option.ne_none_iff_exists'.mp fun hnone =>
    List.ne_nil_of_mem (hmem hs hx.declares_ref) (List.getLast?_eq_none_iff.mp hnone)
  obtain ⟨hcsteps, hcdeclares⟩ := List.mem_filter.mp (List.mem_of_getLast? hc)
  refine ⟨c, hc, hcsteps, isCandidate_of_mem_steps hcsteps hcdeclares, ?_⟩
  rintro y hy t ht rfl
  exact eq_or_related_of_getLast? (pairwise_steps.filter _) hc (hmem ht hy.declares_ref)

/-- What is applied last is the greatest or overtakes it. -/
theorem ref_eq_of_last {w : Candidate} (hw : Greatest sheets subject own declares w) {c : Step}
    (hc : c ∈ steps sheets subject own) (hcandidate : IsCandidate sheets subject own declares c.candidate)
    (hlast : ∀ s ∈ steps sheets subject own, s.candidate = w → s = c ∨ StepBefore sheets subject s c)
    (hnot : ¬ Overtakes sheets subject c.candidate w) : c.candidate.ref = w.ref := by
  have hbelow := hw.2 _ hcandidate
  by_contra hne
  have hbefore : ∀ s ∈ steps sheets subject own, s.candidate = w → StepBefore sheets subject s c := by
    intro s hs hsw
    refine (hlast s hs hsw).resolve_left ?_
    rintro rfl
    exact hne (by rw [hsw])
  cases w with
  | own b i =>
    have hstep := hbefore (.own b i) (mem_steps_own.mpr hw.1.1) rfl
    cases c with
    | rule k f =>
      -- a normal declaration of the style attribute is below every important one
      obtain ⟨rfl, himportant⟩ := hstep
      apply hbelow
      left
      show 1 < f.level
      rw [Filed.level, himportant]
      cases f.origin <;> decide
    | own b' j =>
      apply hbelow
      rcases hstep with ⟨rfl, rfl⟩ | ⟨rfl, hlt⟩
      · exact .inl Nat.one_lt_two
      · exact .inr ⟨rfl, hlt⟩
  | filed g =>
    cases c with
    | rule k f =>
      apply hnot
      apply overtakes_of_applied_after (mem_steps_rule.mp hc) hw.1.1 hw.1.2.1 _ hbelow
      · intro heq
        exact hne (congrArg DeclarationRef.filed heq.symm)
      · exact fun j hj => hbefore (.rule j g) (mem_steps_rule.mpr hj) rfl
    | own b i =>
      obtain ⟨k, hk⟩ := exists_visit hw.1.1 hw.1.2.1
      have hstep : g.important = true → b = true := hbefore (.rule k g) (mem_steps_rule.mpr hk) rfl
      -- the style attribute is below a declaration of a rule only when that is the user agent's
      cases himportant : g.important with
      | false =>
        apply hbelow
        have hlevel : g.level ≤ (Candidate.own b i).level := by
          rw [Filed.level, himportant]
          cases g.origin <;> cases b <;> simp [Candidate.level, Origin.number]
        rcases lt_or_eq_of_le hlevel with hlt | heq
        · exact .inl hlt
        · exact .inr ⟨heq, trivial⟩
      | true =>
        obtain rfl := hstep himportant
        cases horigin : g.origin with
        | userAgent => exact hnot (.styleAttribute i himportant horigin)
        | author =>
          apply hbelow
          refine .inr ⟨?_, trivial⟩
          show g.level = 2
          rw [Filed.level, himportant, horigin]
          rfl

/-- Two selectors of one declaration that are as specific and as near are below the same. -/
theorem below_of_same (hlevel : f.level = g.level) (hname : f.layerName = g.layerName)
    (hspec : g.compiled.spec = f.compiled.spec)
    (hdistance : subject.distance g.selector = subject.distance f.selector)
    (hplace : f.declaration = g.declaration) {y : Candidate}
    (h : Below sheets subject (.filed f) y) : Below sheets subject (.filed g) y := by
  obtain ⟨himportant, horigin⟩ := level_inj hlevel
  obtain ⟨hsheet, horder⟩ := DeclarationPlace.mk.inj hplace
  have hsame : (Candidate.filed f).level = (Candidate.filed g).level := hlevel
  rcases h with hless | ⟨heq, hwithin⟩
  · exact .inl (hsame ▸ hless)
  · refine .inr ⟨hsame ▸ heq, ?_⟩
    cases y with
    | own b i => trivial
    | filed h =>
      have hrule : RuleBelow sheets subject f h := hwithin
      show RuleBelow sheets subject g h
      simp only [RuleBelow, LayerBelow, himportant, horigin, hname, ← hspec, ← hdistance, hsheet,
        horder] at hrule ⊢
      exact hrule

/-- What is applied last is as great as a greatest declaration that it is one selector of. -/
theorem greatest_of_last {w : Candidate} (hw : Greatest sheets subject own declares w) {c : Step}
    (hcandidate : IsCandidate sheets subject own declares c.candidate)
    (hc : c ∈ steps sheets subject own)
    (hlast : ∀ s ∈ steps sheets subject own, s.candidate = w → s = c ∨ StepBefore sheets subject s c)
    (href : c.candidate.ref = w.ref) : Greatest sheets subject own declares c.candidate := by
  cases c with
  | own b i =>
    cases w with
    | filed g => cases href
    | own b' j =>
      obtain ⟨rfl, rfl⟩ := DeclarationRef.own.inj href
      exact hw
  | rule k f =>
    cases w with
    | own b j => cases href
    | filed g =>
      have hplace := DeclarationRef.filed.inj href
      obtain ⟨hlevel, hname⟩ := declaredIn_inj hcandidate.1 hw.1.1 hplace
      obtain ⟨-, horder⟩ := DeclarationPlace.mk.inj hplace
      obtain ⟨hspec, hdistance⟩ : g.compiled.spec = f.compiled.spec ∧
          subject.distance g.selector = subject.distance f.selector := by
        have hlayer : layerIndex sheets f = layerIndex sheets g := by
          rw [layerIndex, hname, layerIndex]
        obtain ⟨j, hj⟩ := exists_visit hw.1.1 hw.1.2.1
        rcases hlast _ (mem_steps_rule.mpr hj) rfl with heq | hstep
        · rw [(Step.rule.inj heq).2]
          exact ⟨rfl, rfl⟩
        · rcases lt_or_eq_of_le hstep.1 with hlt | heq
          · have hnot : ¬ RuleBelow sheets subject g f := fun h =>
              hw.2 _ hcandidate (.inr ⟨hlevel.symm, h⟩)
            rcases (visitKey_lt_iff hcandidate.1 hw.1.1 hlevel j k).mp hlt with hrank | ⟨-, hkeyed⟩
            · exact absurd hlayer hrank.1
            · rcases hkeyed with hspec | ⟨hspec, hdistance | ⟨-, hless⟩⟩
              · exact absurd (.inr ⟨hname.symm, .inl hspec⟩) hnot
              · exact absurd (.inr ⟨hname.symm, .inr ⟨hspec, .inl hdistance⟩⟩) hnot
              · exact absurd horder hless.ne'
          · obtain ⟨-, hspec, hdistance, -⟩ :=
              (visitKey_eq_iff hcandidate.1 hw.1.1 hlevel j k).mp heq
            exact ⟨hspec, hdistance⟩
      exact ⟨hcandidate, fun y hy hbelow =>
        hw.2 y hy (below_of_same hlevel hname hspec hdistance hplace hbelow)⟩

end Last

/-- Whatever the declarations say, the value left is that of the greatest one if and only if
none overtakes it. -/
theorem resolvesToGreatest_iff (sheets : Sheets) (subject : Subject) (own : InlineBlock)
    (declares : DeclarationRef → Bool) (property : Text) :
    ResolvesToGreatest sheets subject own declares property ↔
      NothingOvertakes sheets subject own declares := by
  constructor
  · intro hresolves w hw x hx
    obtain ⟨c, hlastStep, hc, hcandidate, hlast⟩ := exists_lastStep hw.1
    -- values that tell the greatest declaration from all others
    let value : DeclarationRef → Text := fun ref => if ref = w.ref then ascii "a" else ascii "b"
    let fills : DeclarationRef → List Declaration → List Fill := fun ref _ =>
      if declares ref then [.put ⟨property, value ref⟩] else []
    have hdeclares : Declares declares property value fills := by
      refine ⟨fun ref _ => ?_, fun ref h _ => if_pos h, fun ref h _ y hy => ?_⟩
      · by_cases href : ref = w.ref <;> simp only [value, href, if_true, if_false] <;> decide
      · simp [fills, h] at hy
    have hleft := hresolves (fun _ => []) value fills hdeclares w hw
    rw [valueOf_resolve hdeclares, hlastStep, Option.map_some, Option.some.injEq] at hleft
    have href : c.candidate.ref = w.ref := by
      by_contra hne
      simp only [value, hne, if_true, if_false] at hleft
      revert hleft
      decide
    exact ⟨c.candidate, greatest_of_last hw hcandidate hc (hlast _ hw.1) href, href,
      not_overtakes_of_applied_before hc hx (hlast _ hx)⟩
  · intro hnothing parent value fills hdeclares w hw
    obtain ⟨c, hlastStep, hc, hcandidate, hlast⟩ := exists_lastStep hw.1
    obtain ⟨w', hw', href, hnot⟩ := hnothing w hw _ hcandidate
    rw [valueOf_resolve hdeclares, hlastStep, Option.map_some,
      ref_eq_of_last hw' hc hcandidate (hlast _ hw'.1) hnot, href]

/-- The type selector of the elements below. -/
def paragraphSelector : SheetSelector := ⟨none, [], some 0, none, 1, false⟩

/-- `p { color: red !important }`, with the tag numbered 0. -/
def importantColor : Stylesheet where
  layers := []
  rules := [⟨[paragraphSelector], [⟨0, true⟩], 0⟩]
  closed := by decide
  layer_le := by decide
  numbered := by decide

/-- A paragraph without id and classes. -/
def paragraph : Subject := ⟨none, [], 0, true, fun _ => true, fun _ => 0xFFFF⟩

/-- A user-agent sheet's important colour is above that of `style="color: green !important"`,
which the fold applies last. -/
theorem not_resolvesToGreatest :
    ¬ ∀ (sheets : Sheets) (subject : Subject) (own : InlineBlock) (declares : DeclarationRef → Bool)
      (property : Text), ResolvesToGreatest sheets subject own declares property := by
  intro h
  let value : DeclarationRef → Text := fun ref =>
    if ref = .own true 0 then ascii "green" else ascii "red"
  have hdeclares : Declares (fun _ => true) (ascii "color") value
      (fun ref _ => [.put ⟨ascii "color", value ref⟩]) := by
    refine ⟨fun ref _ => ?_, fun _ _ _ => rfl, fun _ hfalse => by cases hfalse⟩
    by_cases href : ref = .own true 0 <;> simp only [value, href, if_true, if_false] <;> decide
  have hgreatest : Greatest [(.userAgent, importantColor)] paragraph ⟨0, 1⟩ (fun _ => true)
      (.filed ⟨⟨1, 0, 0⟩, paragraphSelector, [], 0, .userAgent, true⟩) := by
    refine ⟨⟨by decide, by decide, rfl⟩, ?_⟩
    rintro (f | ⟨b, i⟩) hcandidate hbelow
    · have hf : f = ⟨⟨1, 0, 0⟩, paragraphSelector, [], 0, .userAgent, true⟩ :=
        List.mem_singleton.mp hcandidate.1
      rw [hf] at hbelow
      exact not_below_self _ hbelow
    · rcases hbelow with hless | ⟨hsame, -⟩ <;> cases b <;>
        simp [Candidate.level, Filed.level, Origin.number] at *
  have hleft := h _ _ _ _ _ (fun _ => []) value _ hdeclares _ hgreatest
  revert hleft
  decide

end CtBrowser.Style
