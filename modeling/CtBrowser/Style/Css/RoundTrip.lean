import CtBrowser.Style.Css.Flattening

/-!
# Compiled Stylesheets, There And Back

A stylesheet that is compiled and rebuilt with the same table of atoms is the stylesheet it
was, and every slice and range that compiling wrote lies inside its table.

## Main definitions

- `Rebuilds` — a step of the rebuilder that interns nothing new.
- `CompiledSheetData.Inside` — every slice and range lies inside its table.

## Main results

- `materialize_compile` — the round trip.
-/

namespace CtBrowser.Style.Css

open CtBrowser.Foundations.ReservedSlots

/-! ## Rebuilding what an entry stands for -/

/-- A step gives a value, and leaves the table of atoms as it is. -/
def Rebuilds {α : Type} (atoms : AtomTable) (m : Rebuild α) (a : α) : Prop :=
  m atoms = some (a, atoms)

variable {α β : Type} {atoms : AtomTable} {data : CompiledSheetData}

theorem Rebuilds.pure (a : α) : Rebuilds atoms (pure a) a := rfl

theorem Rebuilds.bind {m : Rebuild α} {f : α → Rebuild β} {a : α} {b : β}
    (hm : Rebuilds atoms m a) (hf : Rebuilds atoms (f a) b) : Rebuilds atoms (m >>= f) b := by
  show (m atoms).bind (fun p => f p.1 p.2) = some (b, atoms)
  rw [hm]
  exact hf

theorem Rebuilds.mapM {f : α → Rebuild β} {as : List α} {bs : List β}
    (h : List.Forall₂ (fun b a => Rebuilds atoms (f a) b) bs as) : Rebuilds atoms (as.mapM f) bs := by
  induction h with
  | nil => exact .pure []
  | cons hhere _ ih =>
    rw [List.mapM_cons]
    exact hhere.bind (ih.bind (.pure _))

theorem Rebuilds.lift {o : Option α} {a : α} (h : o = some a) :
    Rebuilds atoms (liftM o : Rebuild α) a := by
  subst h
  rfl

theorem slice_of_rangeIs {ε : Type} {l run : List ε} {r : CompiledRange} (h : RangeIs l r run) :
    slice l r = some run := by
  obtain ⟨⟨hlength, hat⟩, hcount⟩ := h
  rw [slice, hcount, if_pos hlength, Option.some.injEq]
  apply List.ext_getElem?
  intro i
  by_cases hi : i < run.length
  · rw [List.getElem?_take_of_lt hi, List.getElem?_drop, List.getElem?_eq_getElem hi]
    exact hat i _ (List.getElem?_eq_getElem hi)
  · rw [List.getElem?_eq_none (not_lt.mp hi), List.getElem?_eq_none]
    rw [List.length_take, List.length_drop]
    omega

theorem text_view (data : CompiledSheetData) : data.view.text = data.strings :=
  List.append_nil data.strings

theorem rebuilds_string {s : Text} {c : CompiledText} (h : TextIs data.table s c) :
    Rebuilds atoms (data.view.string c) s := by
  have hslice : slice data.strings ⟨c.offset, c.length⟩ = some s := slice_of_rangeIs h
  have hinside : c.offset + c.length ≤ data.strings.length := h.inside
  rw [slice, if_pos hinside, Option.some.injEq] at hslice
  rw [CompiledSheet.string, text_view, if_pos (by omega), hslice]
  exact .pure s

theorem rebuilds_intern {a : Atom} {c : CompiledText} (h : AtomIs data.table atoms a c)
    (ha : atoms.Holds a) : Rebuilds atoms (data.view.intern c) a := by
  refine (rebuilds_string h).bind ?_
  show some (atoms.intern (atoms.text a)) = some (a, atoms)
  rw [atoms.intern_text ha]

theorem rebuilds_attributeMatch {a : AttributeMatch} {c : CompiledAttribute}
    (h : AttributeIs data.table atoms a c) (ha : ∀ x ∈ a.atoms, atoms.Holds x) :
    Rebuilds atoms (data.view.attributeMatch c) a := by
  obtain ⟨hname, hexact, hvalue, huri, heq⟩ := h
  refine (rebuilds_intern hname (ha _ (by simp [AttributeMatch.atoms]))).bind
    ((rebuilds_intern hexact (ha _ (by simp [AttributeMatch.atoms]))).bind
      ((rebuilds_string hvalue).bind
        ((rebuilds_intern huri (ha _ (by simp [AttributeMatch.atoms]))).bind ?_)))
  exact heq ▸ .pure _

/-! ## Selectors -/

theorem rebuilds_cons {f : ℕ → α → Rebuild β} {c : α} {cs : List α} {b : β} {bs : List β}
    (h : ∃ depth, ∀ fuel ≥ depth, Rebuilds atoms (f fuel c) b)
    (hs : ∃ depth, ∀ fuel ≥ depth, Rebuilds atoms (cs.mapM (f fuel)) bs) :
    ∃ depth, ∀ fuel ≥ depth, Rebuilds atoms ((c :: cs).mapM (f fuel)) (b :: bs) := by
  obtain ⟨depth, hdepth⟩ := h
  obtain ⟨depth', hdepth'⟩ := hs
  refine ⟨max depth depth', fun fuel hfuel => ?_⟩
  rw [List.mapM_cons]
  exact (hdepth fuel (by omega)).bind ((hdepth' fuel (by omega)).bind (.pure _))

mutual

theorem rebuilds_complex (selector : CompiledSelector) {c : CompiledComplex}
    (h : ComplexIs data.table atoms selector c) (ha : ∀ a ∈ selector.atoms, atoms.Holds a) :
    ∃ depth, ∀ fuel ≥ depth, Rebuilds atoms (data.view.complex fuel c) selector := by
  cases selector with
  | mk parts links spec explicitScope =>
    rw [ComplexIs] at h
    rw [CompiledSelector.atoms] at ha
    obtain ⟨hlinks, ⟨run, hrun, hparts⟩, hspec, hscope⟩ := h
    obtain ⟨depth, hdepth⟩ := rebuilds_compounds parts hparts ha
    refine ⟨depth + 1, fun fuel hfuel => ?_⟩
    obtain ⟨fuel, rfl⟩ : ∃ n, fuel = n + 1 := ⟨fuel - 1, by omega⟩
    rw [CompiledSheet.complex]
    refine (Rebuilds.lift (slice_of_rangeIs hlinks)).bind
      ((Rebuilds.lift (slice_of_rangeIs hrun)).bind ((hdepth fuel (by omega)).bind ?_))
    rw [hspec, hscope]
    exact .pure _

theorem rebuilds_compounds (parts : List Compound) {run : List CompiledCompound}
    (h : CompoundsAre data.table atoms parts run) (ha : ∀ a ∈ compoundAtoms parts, atoms.Holds a) :
    ∃ depth, ∀ fuel ≥ depth, Rebuilds atoms (run.mapM (data.view.compoundOf fuel)) parts := by
  cases parts with
  | nil =>
    rw [CompoundsAre] at h
    subst h
    exact ⟨0, fun fuel _ => .pure []⟩
  | cons part rest =>
    rw [CompoundsAre] at h
    rw [compoundAtoms, List.forall_mem_append] at ha
    obtain ⟨c, cs, rfl, hpart, hrest⟩ := h
    exact rebuilds_cons (rebuilds_compound part hpart ha.1) (rebuilds_compounds rest hrest ha.2)

theorem rebuilds_compound (p : Compound) {c : CompiledCompound}
    (h : CompoundIs data.table atoms p c) (ha : ∀ a ∈ p.atoms, atoms.Holds a) :
    ∃ depth, ∀ fuel ≥ depth, Rebuilds atoms (data.view.compoundOf fuel c) p := by
  cases p with
  | mk tag tagExact id classes attributes states structural statesAfterPe structuralAfterPe pseudos
      ns nsName nsUri pseudoElement nesting neverMatches dropped =>
    rw [CompoundIs] at h
    simp only [Compound.atoms, List.forall_mem_append, List.forall_mem_cons] at ha
    obtain ⟨htag, hexact, hid, ⟨names, hclasses, hclass⟩, ⟨matches_, hattributes, hattribute⟩,
      ⟨_, hrun, hpseudos⟩, hname, huri, helement, heq⟩ := h
    obtain ⟨⟨⟨⟨⟨atag, aexact, aid, -⟩, aclasses⟩, aattributes⟩, apseudos⟩, aname, auri, aelement, -⟩ :=
      ha
    obtain ⟨depth, hdepth⟩ := rebuilds_pseudos pseudos hpseudos apseudos
    refine ⟨depth + 1, fun fuel hfuel => ?_⟩
    obtain ⟨fuel, rfl⟩ : ∃ n, fuel = n + 1 := ⟨fuel - 1, by omega⟩
    have hclasses' : Rebuilds atoms (names.mapM data.view.intern) classes :=
      Rebuilds.mapM (((List.forall₂_and_left _ _).mpr ⟨aclasses, hclass⟩).imp
        fun _ _ h => rebuilds_intern h.2 h.1)
    have hattributes' : Rebuilds atoms (matches_.mapM data.view.attributeMatch) attributes :=
      Rebuilds.mapM (((List.forall₂_and_left _ _).mpr
        ⟨fun a ha x hx => aattributes x (List.mem_flatMap.mpr ⟨a, ha, hx⟩), hattribute⟩).imp
          fun _ _ h => rebuilds_attributeMatch h.2 h.1)
    rw [CompiledSheet.compoundOf]
    refine (rebuilds_intern htag atag).bind ((rebuilds_intern hexact aexact).bind
      ((rebuilds_intern hid aid).bind ((Rebuilds.lift (slice_of_rangeIs hclasses)).bind
        (hclasses'.bind ((Rebuilds.lift (slice_of_rangeIs hattributes)).bind (hattributes'.bind
          ((Rebuilds.lift (slice_of_rangeIs hrun)).bind ((hdepth fuel (by omega)).bind
            ((rebuilds_intern hname aname).bind ((rebuilds_intern huri auri).bind
              ((rebuilds_intern helement aelement).bind ?_)))))))))))
    exact heq ▸ .pure _

theorem rebuilds_pseudos (pseudos : List PseudoRef) {run : List CompiledPseudo}
    (h : PseudosAre data.table atoms pseudos run) (ha : ∀ a ∈ pseudoAtoms pseudos, atoms.Holds a) :
    ∃ depth, ∀ fuel ≥ depth, Rebuilds atoms (run.mapM (data.view.pseudoOf fuel)) pseudos := by
  cases pseudos with
  | nil =>
    rw [PseudosAre] at h
    subst h
    exact ⟨0, fun fuel _ => .pure []⟩
  | cons pseudo rest =>
    rw [PseudosAre] at h
    rw [pseudoAtoms, List.forall_mem_append] at ha
    obtain ⟨c, cs, rfl, hpseudo, hrest⟩ := h
    exact rebuilds_cons (rebuilds_pseudo pseudo hpseudo ha.1) (rebuilds_pseudos rest hrest ha.2)

theorem rebuilds_pseudo (p : PseudoRef) {c : CompiledPseudo}
    (h : PseudoIs data.table atoms p c) (ha : ∀ a ∈ p.atoms, atoms.Holds a) :
    ∃ depth, ∀ fuel ≥ depth, Rebuilds atoms (data.view.pseudoOf fuel c) p := by
  cases p with
  | mk kind a b args relative nesting ranges levels =>
    rw [PseudoIs] at h
    rw [PseudoRef.atoms] at ha
    obtain ⟨⟨_, hrun, hargs⟩, ⟨_, hranges, htexts⟩, hlevels, heq⟩ := h
    obtain ⟨depth, hdepth⟩ := rebuilds_selectors args hargs ha
    refine ⟨depth + 1, fun fuel hfuel => ?_⟩
    obtain ⟨fuel, rfl⟩ : ∃ n, fuel = n + 1 := ⟨fuel - 1, by omega⟩
    rw [CompiledSheet.pseudoOf]
    refine (Rebuilds.lift (slice_of_rangeIs hrun)).bind ((hdepth fuel (by omega)).bind
      ((Rebuilds.lift (slice_of_rangeIs hranges)).bind
        ((Rebuilds.mapM (htexts.imp fun _ _ => rebuilds_string)).bind
          ((Rebuilds.lift (slice_of_rangeIs hlevels)).bind ?_))))
    exact heq ▸ .pure _

theorem rebuilds_selectors (selectors : List CompiledSelector) {run : List CompiledComplex}
    (h : SelectorsAre data.table atoms selectors run)
    (ha : ∀ a ∈ selectorAtoms selectors, atoms.Holds a) :
    ∃ depth, ∀ fuel ≥ depth, Rebuilds atoms (run.mapM (data.view.complex fuel)) selectors := by
  cases selectors with
  | nil =>
    rw [SelectorsAre] at h
    subst h
    exact ⟨0, fun fuel _ => .pure []⟩
  | cons selector rest =>
    rw [SelectorsAre] at h
    rw [selectorAtoms, List.forall_mem_append] at ha
    obtain ⟨c, cs, rfl, hselector, hrest⟩ := h
    exact rebuilds_cons (rebuilds_complex selector hselector ha.1)
      (rebuilds_selectors rest hrest ha.2)

end

/-! ## Sheets -/

/-- Every slice and range of the data lies inside its table. -/
def CompiledSheetData.Inside (data : CompiledSheetData) : Prop :=
  (∀ n ∈ data.namespaces, n.prefix_.Inside data.strings ∧ n.uri.Inside data.strings) ∧
    (∀ i ∈ data.imports, ∀ text ∈ [i.href, i.media, i.layer, i.supports, i.scope],
      text.Inside data.strings) ∧
    (∀ r ∈ data.declarations, r.property.Inside data.strings) ∧
    (∀ k ∈ data.keyframes, k.name.Inside data.strings ∧ k.frames.Inside data.keyframeBlocks) ∧
    (∀ c ∈ data.conditions, c.queries.Inside data.mediaQueries) ∧
    (∀ text ∈ data.layers, text.Inside data.strings) ∧
    (∀ c ∈ data.containers, c.queries.Inside data.containerQueries) ∧
    ∀ t, ∀ x ∈ data.table t, EntryInside data.table t x

theorem forall_mem_of_forall₂ {R : α → β → Prop} {p : β → Prop} {as : List α} {bs : List β}
    (h : List.Forall₂ R as bs) (hp : ∀ a b, R a b → p b) : ∀ b ∈ bs, p b := by
  induction h with
  | nil => exact fun b hb => absurd hb List.not_mem_nil
  | cons hhere _ ih => exact List.forall_mem_cons.mpr ⟨hp _ _ hhere, ih⟩

theorem inside_compile (sheet : Stylesheet) (atoms : AtomTable) :
    (compile sheet atoms).Inside := by
  obtain ⟨hsheet, hentries⟩ := sheetIs_compile sheet atoms
  refine ⟨?_, ?_, ?_, ?_, ?_, ?_, ?_, hentries⟩
  · exact forall_mem_of_forall₂ hsheet.namespaces fun _ _ h => ⟨h.1.inside, h.2.inside⟩
  · refine forall_mem_of_forall₂ hsheet.imports fun _ _ h => ?_
    obtain ⟨hhref, hmedia, hlayer, hsupports, hscope, -⟩ := h
    simp only [List.forall_mem_cons, List.not_mem_nil, false_imp_iff, implies_true, and_true]
    exact ⟨hhref.inside, hmedia.inside, hlayer.inside, hsupports.inside, hscope.inside⟩
  · exact forall_mem_of_forall₂ hsheet.declarations fun _ _ h => h.1.inside
  · refine forall_mem_of_forall₂ hsheet.keyframes fun _ _ h => ?_
    obtain ⟨hname, ⟨_, hframes, -⟩, -⟩ := h
    exact ⟨hname.inside, hframes.inside⟩
  · refine forall_mem_of_forall₂ hsheet.conditions fun _ _ h => ?_
    obtain ⟨⟨_, hqueries, -⟩, -⟩ := h
    exact hqueries.inside
  · exact forall_mem_of_forall₂ hsheet.layers fun _ _ h => h.inside
  · refine forall_mem_of_forall₂ hsheet.containers fun _ _ h => ?_
    obtain ⟨⟨_, hqueries, -⟩, -⟩ := h
    exact hqueries.inside

theorem rebuilds_keyframesBlock {k : KeyframesBlock} {c : CompiledKeyframes}
    (h : KeyframesIs data.table k c) : Rebuilds atoms (data.view.keyframesBlock c) k := by
  obtain ⟨hname, ⟨_, hrun, hframes⟩, heq⟩ := h
  have hframe : ∀ (frame : KeyframeBlock) x, KeyframeIs data.table frame x →
      Rebuilds atoms (data.view.keyframe x) frame := fun frame x hx =>
    (Rebuilds.lift (slice_of_rangeIs hx.1)).bind (hx.2 ▸ .pure _)
  refine (rebuilds_string hname).bind ((Rebuilds.lift (slice_of_rangeIs hrun)).bind
    ((Rebuilds.mapM (hframes.imp fun _ _ => hframe _ _)).bind ?_))
  exact heq ▸ .pure _

theorem rebuilds_mediaCondition {m : MediaCondition} {c : CompiledMediaCondition}
    (h : MediaConditionIs data.table m c) : Rebuilds atoms (data.view.mediaCondition c) m := by
  obtain ⟨⟨_, hrun, hqueries⟩, hparent⟩ := h
  have hquery : ∀ (q : MediaQuery) x, MediaQueryIs data.table q x →
      Rebuilds atoms (data.view.mediaQuery x) q := fun q x hx =>
    (rebuilds_string hx.1).bind (hx.2 ▸ .pure _)
  refine (Rebuilds.lift (slice_of_rangeIs hrun)).bind
    ((Rebuilds.mapM (hqueries.imp fun _ _ => hquery _ _)).bind ?_)
  rw [hparent]
  exact .pure _

theorem rebuilds_containerCondition {m : ContainerCondition} {c : CompiledContainerCondition}
    (h : ContainerConditionIs data.table m c) :
    Rebuilds atoms (data.view.containerCondition c) m := by
  obtain ⟨⟨_, hrun, hqueries⟩, hparent⟩ := h
  have hquery : ∀ (q : ContainerQuery) x, ContainerQueryIs data.table q x →
      Rebuilds atoms (data.view.containerQuery x) q := fun q x hx =>
    (rebuilds_string hx.1).bind ((rebuilds_string hx.2).bind (.pure _))
  refine (Rebuilds.lift (slice_of_rangeIs hrun)).bind
    ((Rebuilds.mapM (hqueries.imp fun _ _ => hquery _ _)).bind ?_)
  rw [hparent]
  exact .pure _

theorem rebuilds_namespaceDeclaration {n : NamespaceDeclaration} {c : CompiledNamespace}
    (h : NamespaceIs data.table n c) : Rebuilds atoms (data.view.namespaceDeclaration c) n :=
  (rebuilds_string h.1).bind ((rebuilds_string h.2).bind (.pure n))

theorem rebuilds_importStatement {i : ImportStatement} {c : CompiledImport}
    (h : ImportIs data.table i c) : Rebuilds atoms (data.view.importStatement c) i := by
  obtain ⟨hhref, hmedia, hlayer, hsupports, hscope, heq⟩ := h
  refine (rebuilds_string hhref).bind ((rebuilds_string hmedia).bind
    ((rebuilds_string hlayer).bind ((rebuilds_string hsupports).bind
      ((rebuilds_string hscope).bind ?_))))
  exact heq ▸ .pure _

theorem mapM_range'_of_runAt {l run : List α} {first : ℕ} (h : RunAt l first run)
    (f : α → Rebuild β) :
    ((List.range' first run.length).mapM fun i => do f (← l[i]?)) = run.mapM f := by
  induction run generalizing first with
  | nil => rfl
  | cons x run ih =>
    obtain ⟨hhere, hrest⟩ := runAt_cons.mp h
    rw [List.length_cons, List.range'_succ, List.mapM_cons, List.mapM_cons, ih hrest, hhere]
    rfl

/-- Compiling a sheet and rebuilding it with the same table of atoms gives the sheet back and
leaves the table as it is, and what compiling wrote lies inside its tables. -/
theorem materialize_compile (sheet : Stylesheet) (atoms : AtomTable) (h : sheet.AtomsIn atoms) :
    (∃ depth, ∀ fuel ≥ depth,
      materialize fuel (compile sheet atoms).view atoms = some (sheet, atoms)) ∧
        (compile sheet atoms).Inside := by
  refine ⟨?_, inside_compile sheet atoms⟩
  have hsheet := (sheetIs_compile sheet atoms).1
  generalize compile sheet atoms = data at hsheet
  rw [Stylesheet.AtomsIn, Stylesheet.atoms, List.forall_mem_append] at h
  obtain ⟨run, hrun, hlength, hselectors⟩ := hsheet.selectors
  obtain ⟨depth, hdepth⟩ := rebuilds_selectors sheet.selectors hselectors h.1
  refine ⟨depth, fun fuel hfuel => ?_⟩
  have hcomplexes : Rebuilds atoms ((List.range data.selectorCount).mapM fun i => do
      data.view.complex fuel (← data.selectors[i]?)) sheet.selectors := by
    have hread := mapM_range'_of_runAt (l := data.selectors) hrun (data.view.complex fuel)
    rw [hsheet.selectorCount, ← hlength, List.range_eq_range']
    exact hread ▸ hdepth fuel hfuel
  have hdeclarations : Rebuilds atoms (data.declarations.mapM data.view.declaration)
      sheet.declarations := by
    have hatoms : ∀ r ∈ sheet.declarations, atoms.Holds r.property :=
      fun r hr => h.2 _ (List.mem_map_of_mem hr)
    exact Rebuilds.mapM (((List.forall₂_and_left _ _).mpr ⟨hatoms, hsheet.declarations⟩).imp
      fun r c h => (rebuilds_intern h.2.1 h.1).bind (h.2.2 ▸ .pure _))
  have hpool : joined [data.pool] = sheet.pool := (List.append_nil _).trans hsheet.pool
  show Rebuilds atoms (materialize fuel data.view) sheet
  rw [materialize]
  refine (Rebuilds.mapM (hsheet.namespaces.imp fun _ _ => rebuilds_namespaceDeclaration)).bind
    ((Rebuilds.mapM (hsheet.imports.imp fun _ _ => rebuilds_importStatement)).bind
    (hcomplexes.bind (hdeclarations.bind
    ((Rebuilds.mapM (hsheet.keyframes.imp fun _ _ => rebuilds_keyframesBlock)).bind
    ((Rebuilds.mapM (hsheet.conditions.imp fun _ _ => rebuilds_mediaCondition)).bind
    ((Rebuilds.mapM (hsheet.layers.imp fun _ _ => rebuilds_string)).bind
    ((Rebuilds.mapM (hsheet.containers.imp fun _ _ => rebuilds_containerCondition)).bind
      ?_)))))))
  -- the tables that are copied
  show Rebuilds atoms (Pure.pure { sheet with
    pool := joined [data.pool]
    prefixesChecked := data.prefixesChecked
    forgiving := data.forgiving
    sourceLength := data.sourceLength
    tokens := data.tokens
    values := data.values
    rules := data.rules
    fontFaces := data.fontFaces
    properties := data.properties
    functions := data.functions
    scopes := data.scopes }) sheet
  rw [hpool, hsheet.prefixesChecked, hsheet.forgiving, hsheet.sourceLength, hsheet.tokens,
    hsheet.values, hsheet.rules, hsheet.fontFaces, hsheet.properties, hsheet.functions,
    hsheet.scopes]
  exact .pure sheet

/-- The names of a small sheet. -/
def nestedAtoms : AtomTable := ⟨[[], ascii "a", ascii "div", ascii "color"], rfl, by decide⟩

/-- A compound of a tag, classes and pseudo-classes. -/
def plainCompound (tag : ℕ) (classes : List Atom) (pseudos : List PseudoRef) : Compound :=
  ⟨⟨tag⟩, ⟨tag⟩, ⟨0⟩, classes, [], 0, 0, 0, 0, pseudos, .unset, ⟨0⟩, ⟨0⟩, ⟨0⟩, false, false, false⟩

/-- The stylesheet `div > :not(:is(.a), .a, :lang(en)) { color: red }`, its tokens left out. -/
def nestedSheet : Stylesheet where
  pool := ascii "div > :not(:is(.a), .a, :lang(en)) { color: red }"
  namespaces := []
  prefixesChecked := true
  forgiving := true
  imports := []
  sourceLength := 49
  tokens := []
  values := []
  selectors :=
    let single (part : Compound) : CompiledSelector := ⟨[part], [], 1024, false⟩
    let pseudo (kind : PseudoKind) (args : List CompiledSelector) (ranges : List Text) :
        PseudoRef := ⟨kind, 0, 0, args, false, false, ranges, []⟩
    let isA := single (plainCompound 0 [] [pseudo .is_ [single (plainCompound 0 [⟨1⟩] [])] []])
    let lang := single (plainCompound 0 [] [pseudo .lang [] [ascii "en"]])
    let notA := pseudo .not_ [isA, single (plainCompound 0 [⟨1⟩] []), lang] []
    [⟨[plainCompound 0 [] [notA], plainCompound 2 [] []], [.child], 1025, false⟩]
  declarations := [⟨⟨3⟩, 0, 1, 44, 3, 1, false, false⟩]
  rules := [⟨0, 1, 0, 1, 0, 0, 0, 0⟩]
  fontFaces := []
  properties := []
  functions := []
  keyframes := []
  conditions := [⟨0, []⟩]
  layers := [ascii "a"]
  scopes := []
  containers := []

theorem materialize_compile_nestedSheet :
    (∃ depth, ∀ fuel ≥ depth, materialize fuel (compile nestedSheet nestedAtoms).view nestedAtoms =
      some (nestedSheet, nestedAtoms)) ∧ (compile nestedSheet nestedAtoms).Inside :=
  materialize_compile nestedSheet nestedAtoms (by decide)

/-- The text `a` is written once, and the inner selectors follow the run of the outer ones. -/
example : (compile nestedSheet nestedAtoms).strings = ascii "aendivcolor" ∧
    (compile nestedSheet nestedAtoms).selectors.map CompiledComplex.parts =
      [⟨0, 2⟩, ⟨2, 1⟩, ⟨4, 1⟩, ⟨5, 1⟩, ⟨3, 1⟩] := by decide +kernel

end CtBrowser.Style.Css
