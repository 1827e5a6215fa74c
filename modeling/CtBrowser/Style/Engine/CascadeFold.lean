import CtBrowser.Style.Engine.Cascade

/-!
# What the Fold Applies

The rules an element's cascade folds are those that match it, each once for every bucket it
is looked up in. They come in the order of a key (importance and origin, the rank of the
layer, specificity, distance and number), and those that tie in the order of the lookups.

## Main results

- `valueOf_put` — a longhand with a plain value takes that value.
- `gather_eq` — what is gathered, lookup by lookup.
- `precedes_iff` — the comparison compares keys.
- `map_snd_foldOrder` — where the style attribute stands in the fold.
-/

namespace CtBrowser.Style

open Foundations.StableOrder

/-! ### Values -/

/-- The keywords that stand for another value of the property. -/
def wideKeywords : List Text :=
  ["inherit", "initial", "unset", "revert", "revert-layer", "revert-rule"].map ascii

theorem valueOf_writeValue_self (out : List Declaration) (d : Declaration) :
    valueOf (writeValue out d) d.property = some d.value := by
  induction out with
  | nil => simp [writeValue, valueOf]
  | cons e rest ih =>
    rw [writeValue]
    split
    · simp [valueOf]
    · next hne =>
      rw [valueOf, List.find?_cons_of_neg (by simpa using hne)]
      exact ih

theorem valueOf_writeValue_of_ne (out : List Declaration) {d : Declaration} {property : Text}
    (h : d.property ≠ property) : valueOf (writeValue out d) property = valueOf out property := by
  induction out with
  | nil => simp [writeValue, valueOf, h]
  | cons e rest ih =>
    rw [writeValue]
    split
    · next heq =>
      have he : e.property ≠ property := fun hsame => h (heq ▸ hsame)
      simp [valueOf, h, he]
    · by_cases he : e.property = property
      · simp [valueOf, he]
      · rw [valueOf, valueOf, List.find?_cons_of_neg (by simpa using he),
          List.find?_cons_of_neg (by simpa using he)]
        exact ih

theorem valueOf_eraseValue_of_ne (out : List Declaration) {erased property : Text}
    (h : erased ≠ property) : valueOf (eraseValue out erased) property = valueOf out property := by
  induction out with
  | nil => rfl
  | cons e rest ih =>
    by_cases hfirst : e.property = erased
    · have he : e.property ≠ property := fun hsame => h (hfirst ▸ hsame)
      simp [eraseValue, valueOf, hfirst, h]
    · rw [eraseValue, List.eraseP_cons_of_neg (by simpa using hfirst)]
      by_cases he : e.property = property
      · simp [valueOf, he]
      · rw [valueOf, valueOf, List.find?_cons_of_neg (by simpa using he),
          List.find?_cons_of_neg (by simpa using he)]
        exact ih

section Put

variable (rules : List Rule) (parent : Text → Text)

theorem rollValue_of_not_mem (applied : List (ℕ × Declaration)) (property : Text)
    (guard at' : ℕ) {value : Text} (h : value ∉ wideKeywords) :
    rollValue rules applied property guard at' value = value := by
  cases guard with
  | zero => rfl
  | succ guard =>
    simp only [wideKeywords, List.map_cons, List.map_nil, List.mem_cons, List.not_mem_nil,
      or_false, not_or] at h
    obtain ⟨-, -, -, hrevert, hlayer, hrule⟩ := h
    rw [rollValue, rollback, if_neg hrevert, if_neg hlayer, if_neg hrule]

/-- A longhand with a plain value takes that value. -/
theorem valueOf_put (st : Folding) (folding : ℕ) {d : Declaration} (h : d.value ∉ wideKeywords) :
    valueOf (put rules parent st folding d).out d.property = some d.value := by
  have hroll := rollValue_of_not_mem rules st.applied d.property 16 folding h
  simp only [wideKeywords, List.map_cons, List.map_nil, List.mem_cons, List.not_mem_nil,
    or_false, not_or] at h
  obtain ⟨hinherit, hinitial, hunset, hrevert, -, -⟩ := h
  simp only [put, hroll, hinherit, hinitial, hunset, hrevert, or_self, and_false, if_false]
  exact valueOf_writeValue_self st.out d

theorem valueOf_applyFill_of_ne (folding : ℕ) (st : Folding) {x : Fill} {property : Text}
    (h : x.property ≠ property) :
    valueOf (applyFill rules parent folding st x).out property = valueOf st.out property := by
  cases x with
  | unset erased => exact valueOf_eraseValue_of_ne st.out h
  | put d =>
    have hwrite : ∀ value, valueOf (writeValue st.out ⟨d.property, value⟩) property =
        valueOf st.out property := fun value => valueOf_writeValue_of_ne st.out h
    rw [applyFill, put]
    dsimp only
    split_ifs with hdisplay
    all_goals first
      | exact hwrite _
      | exact valueOf_eraseValue_of_ne st.out h

theorem valueOf_foldl_applyFill (folding : ℕ) {fills : List Fill} (st : Folding) {property : Text}
    (h : ∀ x ∈ fills, x.property ≠ property) :
    valueOf (fills.foldl (applyFill rules parent folding) st).out property =
      valueOf st.out property := by
  induction fills generalizing st with
  | nil => rfl
  | cons x fills ih =>
    rw [List.foldl_cons, ih _ fun y hy => h y (by simp [hy])]
    exact valueOf_applyFill_of_ne rules parent folding st (h x (by simp))

end Put

/-! ### Gathering -/

/-- The index of a layer in the engine's table, in 16 bits. -/
def layerIndex (sheets : Sheets) (f : Filed) : ℕ := (allLayers sheets).idxOf f.layerName % 2 ^ 16

/-- The rule of a selector and a declaration that match an element. -/
def ruleFor (sheets : Sheets) (subject : Subject) (f : Filed) : Rule :=
  ⟨f, layerIndex sheets f, subject.distance f.selector⟩

/-- What an element's lookups find, each with the number of the lookup. -/
def visits (sheets : Sheets) (subject : Subject) : List (ℕ × Filed) :=
  subject.lookups.zipIdx.flatMap fun key =>
    ((declaredIn sheets).filter fun f => key.1 ∈ f.compiled.buckets && subject.matches f).map
      (key.2, ·)

/-- The rules gathered are those of the visits. -/
theorem gather_eq (sheets : Sheets) (subject : Subject) :
    gather (.addSheets sheets) subject =
      (visits sheets subject).map fun x => ruleFor sheets subject x.2 := by
  have hbucket : ∀ key, ((Engine.addSheets sheets).index key).filterMap subject.consider =
      ((declaredIn sheets).filter fun f => key ∈ f.compiled.buckets && subject.matches f).map
        (ruleFor sheets subject) := by
    intro key
    rw [index_addSheets, List.filterMap_map]
    induction declaredIn sheets with
    | nil => rfl
    | cons f rest ih =>
      rw [List.filter_cons, List.filter_cons]
      by_cases hkey : key ∈ f.compiled.buckets
      · cases hmatch : subject.matches f with
        | true => simp [hkey, hmatch, ih, Subject.consider, Filed.toRuleIn, ruleFor, layerIndex]
        | false => simp [hkey, hmatch, ih, Subject.consider, Filed.toRuleIn]
      · simpa [hkey] using ih
  have hlookups : subject.lookups = subject.lookups.zipIdx.map Prod.fst :=
    (List.zipIdx_map_fst 0 subject.lookups).symm
  rw [gather, visits, List.map_flatMap]
  conv_lhs => rw [hlookups, List.flatMap_map]
  refine List.flatMap_congr fun key _ => ?_
  rw [hbucket, List.map_map]
  rfl

theorem mem_visits {sheets : Sheets} {subject : Subject} {k : ℕ} {f : Filed} :
    (k, f) ∈ visits sheets subject ↔ ∃ key, subject.lookups[k]? = some key ∧
      key ∈ f.compiled.buckets ∧ f ∈ declaredIn sheets ∧ subject.matches f = true := by
  simp only [visits, List.mem_flatMap, List.mem_map, List.mem_filter, Bool.and_eq_true,
    decide_eq_true_eq, Prod.mk.injEq, List.mem_zipIdx_iff_getElem?]
  constructor
  · rintro ⟨key, hkey, f', ⟨hf, hbucket, hmatch⟩, rfl, rfl⟩
    exact ⟨key.1, hkey, hbucket, hf, hmatch⟩
  · rintro ⟨key, hkey, hbucket, hf, hmatch⟩
    exact ⟨(key, k), hkey, f, ⟨hf, hbucket, hmatch⟩, rfl, rfl⟩

theorem exists_lookup {subject : Subject} {sel : SheetSelector}
    (h : subject.keyMatches sel = true) : ∃ key ∈ sel.buckets, key ∈ subject.lookups := by
  obtain ⟨id, classes, tag, tagExact, spec, never⟩ := sel
  simp only [Subject.keyMatches, Bool.and_eq_true, Bool.or_eq_true, beq_iff_eq] at h
  obtain ⟨⟨htag, hid⟩, hclasses⟩ := h
  cases id with
  | some id =>
    refine ⟨.byId id, by simp [SheetSelector.buckets], ?_⟩
    have hsubject : subject.id = some id := (hid.resolve_left (by simp)).symm
    simp [Subject.lookups, hsubject]
  | none =>
    cases classes with
    | cons name rest =>
      refine ⟨.byClass name, by simp [SheetSelector.buckets], ?_⟩
      have hname : name ∈ subject.classes := by simpa using List.all_eq_true.mp hclasses name
      simp [Subject.lookups, hname]
    | nil =>
      cases tag with
      | none => exact ⟨.universal, by simp [SheetSelector.buckets], by simp [Subject.lookups]⟩
      | some tag =>
        refine ⟨.byTag subject.tag, ?_, by simp [Subject.lookups]⟩
        have hspelling := htag.resolve_left (by simp)
        split at hspelling
        · have hsame : tag = subject.tag := by simpa using hspelling
          simp [SheetSelector.buckets, hsame]
        · subst hspelling
          by_cases hsame : subject.tag = tag <;> simp [SheetSelector.buckets, hsame]

theorem exists_visit {sheets : Sheets} {subject : Subject} {f : Filed} (hf : f ∈ declaredIn sheets)
    (hmatch : subject.matches f = true) : ∃ k, (k, f) ∈ visits sheets subject := by
  obtain ⟨key, hbucket, hlookup⟩ := exists_lookup (Bool.and_eq_true_iff.mp hmatch).1
  obtain ⟨k, hk⟩ := List.mem_iff_getElem?.mp hlookup
  exact ⟨k, mem_visits.mpr ⟨key, hk, hbucket, hf, hmatch⟩⟩

theorem sheet_of_mem_declared {sheet : Stylesheet} {serial : ℕ} {origin : Origin} {f : Filed}
    (hf : f ∈ sheet.declared serial origin) : f.selector.sheet = serial := by
  obtain ⟨raw, sel, d, -, -, -, -, heq⟩ := mem_declared.mp hf
  rw [heq]

theorem pairwise_declaredIn (sheets : Sheets) :
    (declaredIn sheets).Pairwise fun f g => f.selector.sheet ≤ g.selector.sheet := by
  rw [declaredIn, List.pairwise_flatMap]
  constructor
  · intro s _
    apply List.pairwise_of_forall_mem_list
    intro f hf g hg
    rw [sheet_of_mem_declared hf, sheet_of_mem_declared hg]
  · refine (List.pairwise_iff_getElem.mpr ?_)
    intro i j hi hj hlt f hf g hg
    rw [sheet_of_mem_declared hf, sheet_of_mem_declared hg]
    simp only [List.getElem_zipIdx]
    omega

/-- One visit comes before another: an earlier lookup, or the same and no later a sheet. -/
def VisitedBefore (x y : ℕ × Filed) : Prop :=
  x.1 < y.1 ∨ x.1 = y.1 ∧ x.2.selector.sheet ≤ y.2.selector.sheet

theorem pairwise_visits (sheets : Sheets) (subject : Subject) :
    (visits sheets subject).Pairwise VisitedBefore := by
  rw [visits, List.pairwise_flatMap]
  constructor
  · intro key _
    rw [List.pairwise_map]
    exact ((pairwise_declaredIn sheets).filter _).imp fun h => .inr ⟨rfl, h⟩
  · refine List.pairwise_iff_getElem.mpr ?_
    intro i j hi hj hlt x hx y hy
    obtain ⟨f, -, rfl⟩ := List.mem_map.mp hx
    obtain ⟨g, -, rfl⟩ := List.mem_map.mp hy
    left
    simpa only [List.getElem_zipIdx, Nat.zero_add] using hlt

/-! ### Sorting -/

/-- Importance and origin in one number: author below user agent when important. -/
def Filed.level (f : Filed) : ℕ :=
  if f.important then 3 - f.origin.number else f.origin.number

/-- What the comparison looks at, in its order. -/
abbrev SortKey := ℕ ×ₗ WithTop ℕ ×ₗ (WithTop ℕ)ᵒᵈ ×ₗ ℕ ×ₗ ℕᵒᵈ ×ₗ ℕ

/-- The key of a rule; the rank of its layer counts down when it is important. -/
def sortKey (e : Engine) (r : Rule) : SortKey :=
  toLex (r.level, toLex (if r.important then 0 else e.rankOf r.layer,
    toLex (OrderDual.toDual (if r.important then e.rankOf r.layer else 0),
      toLex (r.compiled.spec, toLex (OrderDual.toDual r.proximity, r.order)))))

theorem level_inj {f g : Filed} (h : f.level = g.level) :
    f.important = g.important ∧ f.origin = g.origin := by
  simp only [Filed.level] at h
  cases hf : f.important <;> cases hg : g.important <;> cases hfo : f.origin <;>
    cases hgo : g.origin <;> simp_all [Origin.number]

theorem rankOf_inj {sheets : Sheets} {i j : ℕ} (hi : i < (allLayers sheets).length)
    (hj : j < (allLayers sheets).length)
    (h : (Engine.addSheets sheets).rankOf i = (Engine.addSheets sheets).rankOf j) : i = j := by
  have hnodup := nodup_layersOf (fun _ => true) sheets
  have hia : (allLayers sheets).idxOf (allLayers sheets)[i] = i := hnodup.idxOf_getElem i hi
  have hjb : (allLayers sheets).idxOf (allLayers sheets)[j] = j := hnodup.idxOf_getElem j hj
  by_contra hne
  have hdiffer : (allLayers sheets)[i] ≠ (allLayers sheets)[j] := by
    intro heq
    rw [heq, hjb] at hia
    exact hne hia.symm
  rcases layerBefore_or (List.getElem_mem hi) hdiffer with hbefore | hbefore
  · have hlt := (rankOf_lt_rankOf (List.getElem_mem hi) (List.getElem_mem hj)).mpr hbefore
    rw [hia, hjb, h] at hlt
    exact lt_irrefl _ hlt
  · have hlt := (rankOf_lt_rankOf (List.getElem_mem hj) (List.getElem_mem hi)).mpr hbefore
    rw [hia, hjb, h] at hlt
    exact lt_irrefl _ hlt

theorem precedes_eq_of_level_eq {e : Engine} {a b : Rule} (hlevel : a.level = b.level) :
    e.precedes a b = true ↔
      (a.layer ≠ b.layer ∧ if b.important then e.rankOf b.layer < e.rankOf a.layer
        else e.rankOf a.layer < e.rankOf b.layer) ∨
      a.layer = b.layer ∧ (a.compiled.spec < b.compiled.spec ∨ a.compiled.spec = b.compiled.spec ∧
        (b.proximity < a.proximity ∨ a.proximity = b.proximity ∧ a.order < b.order)) := by
  obtain ⟨himportant, horigin⟩ := level_inj hlevel
  rw [Engine.precedes]
  simp only [himportant, horigin, ne_eq, not_true, if_false]
  by_cases hlayer : a.layer = b.layer
  · by_cases hspec : a.compiled.spec = b.compiled.spec
    · by_cases hproximity : a.proximity = b.proximity
      · simp [hlayer, hspec, hproximity]
      · simp [hlayer, hspec, hproximity]
    · simp [hlayer, hspec]
  · cases b.important <;> simp [hlayer]

theorem precedes_of_level_eq {sheets : Sheets} {a b : Rule}
    (ha : a.layer < (allLayers sheets).length) (hb : b.layer < (allLayers sheets).length)
    (hlevel : a.level = b.level) :
    (Engine.addSheets sheets).precedes a b = true ↔
      sortKey (.addSheets sheets) a < sortKey (.addSheets sheets) b := by
  obtain ⟨himportant, -⟩ := level_inj hlevel
  rw [precedes_eq_of_level_eq hlevel]
  simp only [sortKey, Prod.Lex.toLex_lt_toLex, OrderDual.toDual_lt_toDual, OrderDual.toDual_inj,
    hlevel, himportant, lt_irrefl, true_and, false_or]
  by_cases hlayer : a.layer = b.layer
  · simp [hlayer]
  · have hrank : (Engine.addSheets sheets).rankOf a.layer ≠ (Engine.addSheets sheets).rankOf b.layer :=
      fun heq => hlayer (rankOf_inj ha hb heq)
    cases b.important <;> simp [hlayer, hrank]

theorem sortKey_eq_of_level_eq {sheets : Sheets} {a b : Rule}
    (ha : a.layer < (allLayers sheets).length) (hb : b.layer < (allLayers sheets).length)
    (hlevel : a.level = b.level) :
    sortKey (.addSheets sheets) a = sortKey (.addSheets sheets) b ↔
      a.layer = b.layer ∧ a.compiled.spec = b.compiled.spec ∧ a.proximity = b.proximity ∧
        a.order = b.order := by
  obtain ⟨himportant, -⟩ := level_inj hlevel
  have hrank : (Engine.addSheets sheets).rankOf a.layer = (Engine.addSheets sheets).rankOf b.layer ↔
      a.layer = b.layer := ⟨rankOf_inj ha hb, fun h => by rw [h]⟩
  simp only [sortKey, himportant, hlevel, toLex_inj, Prod.mk.injEq, true_and, OrderDual.toDual_inj]
  cases b.important <;> simp [hrank]

theorem precedes_of_level_ne {e : Engine} {a b : Rule} (hlevel : a.level ≠ b.level) :
    e.precedes a b = true ↔ sortKey e a < sortKey e b := by
  have hkey : sortKey e a < sortKey e b ↔ a.level < b.level := by
    rw [sortKey, sortKey, Prod.Lex.toLex_lt_toLex]
    simp [hlevel]
  rw [hkey, Engine.precedes]
  simp only [Filed.level] at hlevel ⊢
  cases ha : a.important <;> cases hb : b.important <;> cases hao : a.origin <;>
    cases hbo : b.origin <;> simp_all [Origin.number]

/-- The comparison compares keys, when the layers are entries of the table. -/
theorem precedes_iff {sheets : Sheets} {a b : Rule} (ha : a.layer < (allLayers sheets).length)
    (hb : b.layer < (allLayers sheets).length) :
    (Engine.addSheets sheets).precedes a b = true ↔
      sortKey (.addSheets sheets) a < sortKey (.addSheets sheets) b := by
  by_cases hlevel : a.level = b.level
  · exact precedes_of_level_eq ha hb hlevel
  · exact precedes_of_level_ne hlevel

/-- The visits in the order in which their rules are sorted. -/
def sortedVisits (sheets : Sheets) (subject : Subject) : List (ℕ × Filed) :=
  (visits sheets subject).insertionSort fun x y =>
    !(Engine.addSheets sheets).precedes (ruleFor sheets subject y.2) (ruleFor sheets subject x.2)

theorem mem_sortedVisits {sheets : Sheets} {subject : Subject} {x : ℕ × Filed} :
    x ∈ sortedVisits sheets subject ↔ x ∈ visits sheets subject := by
  rw [sortedVisits, List.mem_insertionSort]

theorem sortedMatches_eq (sheets : Sheets) (subject : Subject) :
    sortedMatches (.addSheets sheets) subject =
      (sortedVisits sheets subject).map fun x => ruleFor sheets subject x.2 := by
  rw [sortedMatches, gather_eq, sortedVisits]
  symm
  apply List.map_insertionSort
  intro x _ y _
  rfl

theorem layerIndex_lt {sheets : Sheets} {f : Filed} (hf : f ∈ declaredIn sheets) :
    layerIndex sheets f < (allLayers sheets).length :=
  (Nat.mod_le _ _).trans_lt (List.idxOf_lt_length_of_mem (layerName_mem hf))

/-- The key of a visit. -/
def visitKey (sheets : Sheets) (subject : Subject) (x : ℕ × Filed) : SortKey :=
  sortKey (.addSheets sheets) (ruleFor sheets subject x.2)

theorem pairwise_sortedVisits (sheets : Sheets) (subject : Subject) :
    (sortedVisits sheets subject).Pairwise (StableBefore
      (fun x y => visitKey sheets subject x ≤ visitKey sheets subject y) VisitedBefore) := by
  apply pairwise_insertionSort_key (P := fun x => x.2 ∈ declaredIn sheets)
  · intro x y hx hy
    rw [Bool.not_eq_true', ← Bool.not_eq_true,
      precedes_iff (a := ruleFor sheets subject y.2) (b := ruleFor sheets subject x.2)
        (layerIndex_lt hy) (layerIndex_lt hx), not_lt]
    rfl
  · rintro ⟨k, f⟩ hx
    obtain ⟨key, -, -, hf, -⟩ := mem_visits.mp hx
    exact hf
  · exact pairwise_visits sheets subject

/-! ### Folding -/

theorem map_snd_foldFrom_spliced (size i : ℕ) (own : InlineBlock) (rules : List Rule) :
    (foldFrom size own true i rules).map Prod.snd =
      rules.map (fun r => .filed r.declaration) ++ own.refs true := by
  induction rules generalizing i with
  | nil => simp [foldFrom]
  | cons r rest ih => simp [foldFrom, ih]

theorem map_snd_foldFrom (size i : ℕ) (own : InlineBlock) {normal important : List Rule}
    (hnormal : ∀ r ∈ normal, r.important = false)
    (himportant : ∀ r ∈ important, r.important = true) :
    (foldFrom size own false i (normal ++ important)).map Prod.snd =
      normal.map (fun r => .filed r.declaration) ++ own.refs false ++
        (important.map (fun r => .filed r.declaration) ++ own.refs true) := by
  induction normal generalizing i with
  | nil =>
    cases important with
    | nil => simp [foldFrom]
    | cons r rest =>
      have hr := himportant r (by simp)
      simp [foldFrom, hr, map_snd_foldFrom_spliced]
  | cons r rest ih =>
    have hr := hnormal r (by simp)
    have hrest := ih (i + 1) fun s hs => hnormal s (by simp [hs])
    simp [foldFrom, hr, hrest]

end CtBrowser.Style
