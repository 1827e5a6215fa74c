import CtBrowser.Foundations.ReservedSlots
import CtBrowser.Style.Css.Compiled

/-!
# Flattening

What an entry of the flat tables stands for, and that the flattener files entries that stand
for what they were made of. An entry that is filed early refers to runs of tables that grow
while it is made, so what it stands for is said of the tables as they are in the end.

## Main definitions

- `TextIs`, `ComplexIs`, `CompoundIs`, `PseudoIs` — what an entry stands for.
- `EntryInside` — the slices and ranges of an entry lie inside their tables.
- `filing` — the flattener as code that files entries.

## Main results

- `writes_complex` — a flattened selector stands for the selector.
- `writes_run` — a flattened sheet stands for the sheet, and all its entries are inside.
-/

namespace CtBrowser.Style.Css

open CtBrowser.Foundations.ReservedSlots CtBrowser.Foundations.ReservedSlots.Filing

/-- The tables of a sheet, by name. -/
abbrev Tables := (t : Table) → List t.Entry

/-! ## What an entry stands for -/

/-- A range of a table is a run of entries. -/
def RangeIs {ε : Type} (l : List ε) (r : CompiledRange) (run : List ε) : Prop :=
  RunAt l r.first run ∧ r.count = run.length

/-- The range lies inside the table. -/
def CompiledRange.Inside {ε : Type} (r : CompiledRange) (l : List ε) : Prop :=
  r.first + r.count ≤ l.length

/-- The slice lies inside the strings. -/
def CompiledText.Inside (c : CompiledText) (l : Text) : Prop := c.offset + c.length ≤ l.length

theorem RangeIs.inside {ε : Type} {l run : List ε} {r : CompiledRange} (h : RangeIs l r run) :
    r.Inside l := by
  show r.first + r.count ≤ l.length
  rw [h.2]
  exact h.1.1

section Denotation

variable (d : Tables) (atoms : AtomTable)

/-- A slice of the strings is a text. -/
def TextIs (s : Text) (c : CompiledText) : Prop :=
  RunAt (d .strings) c.offset s ∧ c.length = s.length

/-- A slice of the strings is the text of an atom. -/
def AtomIs (a : Atom) (c : CompiledText) : Prop := TextIs d (atoms.text a) c

def AttributeIs (a : AttributeMatch) (c : CompiledAttribute) : Prop :=
  AtomIs d atoms a.name c.name ∧ AtomIs d atoms a.nameExact c.nameExact ∧
    TextIs d a.value c.value ∧ AtomIs d atoms a.nsUri c.nsUri ∧
      { c with name := a.name, nameExact := a.nameExact, value := a.value, nsUri := a.nsUri } = a

mutual

/-- The entry stands for the selector. -/
def ComplexIs : CompiledSelector → CompiledComplex → Prop
  | s@{ parts := parts, .. }, c =>
    RangeIs (d .combinators) c.links s.links ∧
      (∃ run, RangeIs (d .compounds) c.parts run ∧ CompoundsAre parts run) ∧
        c.specificity = s.spec ∧ c.explicitScope = s.explicitScope

/-- The entries stand for the compounds, in order. -/
def CompoundsAre : List Compound → List CompiledCompound → Prop
  | [], run => run = []
  | part :: rest, run => ∃ c cs, run = c :: cs ∧ CompoundIs part c ∧ CompoundsAre rest cs

/-- The entry stands for the compound. -/
def CompoundIs : Compound → CompiledCompound → Prop
  | p@{ pseudos := pseudos, .. }, c =>
    AtomIs d atoms p.tag c.tag ∧ AtomIs d atoms p.tagExact c.tagExact ∧ AtomIs d atoms p.id c.id ∧
      (∃ run, RangeIs (d .texts) c.classes run ∧ List.Forall₂ (AtomIs d atoms) p.classes run) ∧
      (∃ run, RangeIs (d .attributes) c.attributes run ∧
        List.Forall₂ (AttributeIs d atoms) p.attributes run) ∧
      (∃ run, RangeIs (d .pseudos) c.pseudos run ∧ PseudosAre pseudos run) ∧
      AtomIs d atoms p.nsName c.nsName ∧ AtomIs d atoms p.nsUri c.nsUri ∧
      AtomIs d atoms p.pseudoElement c.pseudoElement ∧
      { c with tag := p.tag, tagExact := p.tagExact, id := p.id, classes := p.classes,
               attributes := p.attributes, pseudos := p.pseudos, nsName := p.nsName,
               nsUri := p.nsUri, pseudoElement := p.pseudoElement } = p

/-- The entries stand for the pseudo-classes, in order. -/
def PseudosAre : List PseudoRef → List CompiledPseudo → Prop
  | [], run => run = []
  | pseudo :: rest, run => ∃ c cs, run = c :: cs ∧ PseudoIs pseudo c ∧ PseudosAre rest cs

/-- The entry stands for the pseudo-class. -/
def PseudoIs : PseudoRef → CompiledPseudo → Prop
  | p@{ args := args, .. }, c =>
    (∃ run, RangeIs (d .selectors) c.args run ∧ SelectorsAre args run) ∧
      (∃ run, RangeIs (d .texts) c.ranges run ∧ List.Forall₂ (TextIs d) p.ranges run) ∧
      RangeIs (d .levels) c.levels p.levels ∧
      { c with args := p.args, ranges := p.ranges, levels := p.levels } = p

/-- The entries stand for the selectors, in order. -/
def SelectorsAre : List CompiledSelector → List CompiledComplex → Prop
  | [], run => run = []
  | s :: rest, run => ∃ c cs, run = c :: cs ∧ ComplexIs s c ∧ SelectorsAre rest cs

end

def NamespaceIs (n : NamespaceDeclaration) (c : CompiledNamespace) : Prop :=
  TextIs d n.prefix_ c.prefix_ ∧ TextIs d n.uri c.uri

def ImportIs (i : ImportStatement) (c : CompiledImport) : Prop :=
  TextIs d i.href c.href ∧ TextIs d i.media c.media ∧ TextIs d i.layer c.layer ∧
    TextIs d i.supports c.supports ∧ TextIs d i.scope c.scope ∧
      { c with href := i.href, media := i.media, layer := i.layer, supports := i.supports,
               scope := i.scope } = i

def DeclarationIs (r : RawDeclaration) (c : CompiledDeclaration) : Prop :=
  AtomIs d atoms r.property c.property ∧ { c with property := r.property } = r

def KeyframeIs (k : KeyframeBlock) (c : CompiledKeyframe) : Prop :=
  RangeIs (d .offsets) c.offsets k.offsets ∧ { c with offsets := k.offsets } = k

def KeyframesIs (k : KeyframesBlock) (c : CompiledKeyframes) : Prop :=
  TextIs d k.name c.name ∧
    (∃ run, RangeIs (d .keyframeBlocks) c.frames run ∧ List.Forall₂ (KeyframeIs d) k.frames run) ∧
      { c with name := k.name, frames := k.frames } = k

def MediaQueryIs (q : MediaQuery) (c : CompiledMediaQuery) : Prop :=
  TextIs d q.condition c.condition ∧ { c with condition := q.condition } = q

def MediaConditionIs (m : MediaCondition) (c : CompiledMediaCondition) : Prop :=
  (∃ run, RangeIs (d .mediaQueries) c.queries run ∧
    List.Forall₂ (MediaQueryIs d) m.queries run) ∧ c.parent = m.parent

def ContainerQueryIs (q : ContainerQuery) (c : CompiledContainerQuery) : Prop :=
  TextIs d q.name c.name ∧ TextIs d q.condition c.condition

def ContainerConditionIs (m : ContainerCondition) (c : CompiledContainerCondition) : Prop :=
  (∃ run, RangeIs (d .containerQueries) c.queries run ∧
    List.Forall₂ (ContainerQueryIs d) m.queries run) ∧ c.parent = m.parent

/-- The slices and ranges of an entry lie inside their tables. -/
def EntryInside : (t : Table) → t.Entry → Prop
  | .selectors, c => c.parts.Inside (d .compounds) ∧ c.links.Inside (d .combinators)
  | .compounds, c =>
    (∀ text ∈ [c.tag, c.tagExact, c.id, c.nsName, c.nsUri, c.pseudoElement],
      text.Inside (d .strings)) ∧
      c.classes.Inside (d .texts) ∧ c.attributes.Inside (d .attributes) ∧
        c.pseudos.Inside (d .pseudos)
  | .attributes, c =>
    ∀ text ∈ [c.name, c.nameExact, c.value, c.nsUri], text.Inside (d .strings)
  | .pseudos, c =>
    c.args.Inside (d .selectors) ∧ c.ranges.Inside (d .texts) ∧ c.levels.Inside (d .levels)
  | .texts, c => c.Inside (d .strings)
  | .keyframeBlocks, c => c.offsets.Inside (d .offsets)
  | .mediaQueries, c => c.condition.Inside (d .strings)
  | .containerQueries, c => c.name.Inside (d .strings) ∧ c.condition.Inside (d .strings)
  | .strings, _ | .combinators, _ | .levels, _ | .offsets, _ => True

end Denotation

variable {d : Tables} {atoms : AtomTable}

theorem TextIs.inside {s : Text} {c : CompiledText} (h : TextIs d s c) : c.Inside (d .strings) := by
  show c.offset + c.length ≤ _
  rw [h.2]
  exact h.1.1

theorem entryInside_attribute {a : AttributeMatch} {c : CompiledAttribute}
    (h : AttributeIs d atoms a c) : EntryInside d .attributes c := by
  obtain ⟨hname, hexact, hvalue, huri, -⟩ := h
  simp only [EntryInside, List.forall_mem_cons, List.not_mem_nil, false_imp_iff, implies_true,
    and_true]
  exact ⟨hname.inside, hexact.inside, hvalue.inside, huri.inside⟩

theorem entryInside_complex {s : CompiledSelector} {c : CompiledComplex}
    (h : ComplexIs d atoms s c) : EntryInside d .selectors c := by
  cases s
  rw [ComplexIs] at h
  obtain ⟨hlinks, ⟨run, hparts, -⟩, -⟩ := h
  exact ⟨hparts.inside, hlinks.inside⟩

theorem entryInside_compound {p : Compound} {c : CompiledCompound}
    (h : CompoundIs d atoms p c) : EntryInside d .compounds c := by
  cases p
  rw [CompoundIs] at h
  obtain ⟨htag, hexact, hid, ⟨_, hclasses, -⟩, ⟨_, hattributes, -⟩, ⟨_, hpseudos, -⟩, hname, huri,
    helement, -⟩ := h
  simp only [EntryInside, List.forall_mem_cons, List.not_mem_nil, false_imp_iff, implies_true,
    and_true]
  exact ⟨⟨htag.inside, hexact.inside, hid.inside, hname.inside, huri.inside, helement.inside⟩,
    hclasses.inside, hattributes.inside, hpseudos.inside⟩

theorem entryInside_pseudo {p : PseudoRef} {c : CompiledPseudo} (h : PseudoIs d atoms p c) :
    EntryInside d .pseudos c := by
  cases p
  rw [PseudoIs] at h
  obtain ⟨⟨_, hargs, -⟩, ⟨_, hranges, -⟩, hlevels, -⟩ := h
  exact ⟨hargs.inside, hranges.inside, hlevels.inside⟩

/-! ## Filing -/

/-- The flattener files entries in tables. The strings are the table that old entries of are
used again, through the slices that were seen. -/
def filing : Filing Flattener Table.Entry where
  tables s := s.out.table
  shared t := t = .strings
  Inv s := ∀ p ∈ s.seen, TextIs s.out.table p.1 p.2
  Good := EntryInside

variable {s : Flattener} {P : Tables → Prop} {t : Table} {α β : Type}

theorem table_setTable (o : CompiledSheetData) (t : Table) (l : List t.Entry) :
    (o.setTable t l).table = Function.update o.table t l := by
  funext u
  by_cases hu : u = t
  · subst hu
    rw [Function.update_self]
    cases u <;> rfl
  · rw [Function.update_of_ne hu]
    cases t <;> cases u <;> first | rfl | exact absurd rfl hu

theorem changes_modifyTable (ht : t ≠ .strings) (f : List t.Entry → List t.Entry) (s : Flattener) :
    filing.Changes t f s (modifyTable t f s).2 := by
  refine ⟨table_setTable .., fun hinv p hp => ?_⟩
  have hstrings : (s.out.setTable t (f (s.out.table t))).table .strings = s.out.table .strings := by
    rw [table_setTable, Function.update_of_ne ht.symm]
  show TextIs (s.out.setTable t _).table p.1 p.2
  rw [TextIs, hstrings]
  exact hinv p hp

theorem leaves_modifyTable {u : Table} (hu : u ≠ t) (f : List t.Entry → List t.Entry) :
    filing.Leaves u (modifyTable t f) := by
  intro s
  show (s.out.setTable t _).table u = s.out.table u
  rw [table_setTable, Function.update_of_ne hu]

/-! ### Texts -/

theorem text_of_seen {v : Text} {found : CompiledText} (hv : v ≠ [])
    (h : s.seen.lookup v = some found) : text v s = (found, s) := by
  have hempty : v.isEmpty = false := List.isEmpty_eq_false_iff.mpr hv
  simp only [text, hempty, Bool.false_eq_true, if_false, get, getThe, MonadStateOf.get, StateT.get,
    bind, StateT.bind, pure, h]
  rfl

theorem text_of_new {v : Text} (hv : v ≠ []) (h : s.seen.lookup v = none) :
    text v s = (⟨s.out.strings.length, v.length⟩,
      { out := s.out.setTable .strings (s.out.strings ++ v)
        seen := (v, ⟨s.out.strings.length, v.length⟩) :: s.seen }) := by
  have hempty : v.isEmpty = false := List.isEmpty_eq_false_iff.mpr hv
  simp only [text, hempty, Bool.false_eq_true, if_false, get, getThe, MonadStateOf.get, StateT.get,
    bind, StateT.bind, pure, h]
  rfl

/-- The slice that a text is written as is the text. -/
theorem writes_text (v : Text) (s : Flattener) :
    filing.Writes s noSlots P (text v) fun c d => TextIs d v c := by
  by_cases hv : v = []
  · subst hv
    refine Writes.pure (⟨0, 0⟩ : CompiledText) fun d _ _ => ?_
    exact ⟨runAt_nil (Nat.zero_le _), rfl⟩
  · cases hseen : s.seen.lookup v with
    | some found =>
      intro hinv hbelow
      have hsame : filing.Keeps noSlots s s := fun t => ⟨le_rfl, fun _ _ _ => rfl⟩
      have hmem : (v, found) ∈ s.seen := by
        obtain ⟨before, after, hsplit, -⟩ := List.lookup_eq_some_iff.mp hseen
        simp [hsplit]
      have hfound := hinv _ hmem
      rw [text_of_seen hv hseen]
      refine ⟨hinv, hsame, fun d hagree hd => ⟨⟨?_, hfound.2⟩, ?_⟩⟩
      · exact hagree.runAt_shared hsame rfl hfound.1
      · intro t i x hi hx
        obtain ⟨hlt, -⟩ := List.getElem?_eq_some_iff.mp hx
        rcases hi with hi | hi
        · exact absurd hlt (not_lt.mpr hi)
        · exact absurd hi (Set.notMem_empty i)
    | none =>
      have htext := text_of_new hv hseen
      have hchange : filing.Changes .strings (· ++ v) s (text v s).2 := by
        rw [htext]
        refine ⟨table_setTable .., fun hinv p hp => ?_⟩
        show TextIs (s.out.setTable .strings (s.out.strings ++ v)).table p.1 p.2
        rw [TextIs, table_setTable, Function.update_self]
        rcases List.mem_cons.mp hp with rfl | hp
        · exact ⟨runAt_append_self .., rfl⟩
        · exact ⟨(hinv p hp).1.append v, (hinv p hp).2⟩
      refine Writes.append hchange (fun _ _ _ _ => trivial) fun d hrun => ?_
      rw [htext]
      exact ⟨hrun, rfl⟩

theorem leaves_text {u : Table} (hu : u ≠ .strings) (v : Text) : filing.Leaves u (text v) := by
  intro s
  by_cases hv : v = []
  · subst hv
    rfl
  · cases hseen : s.seen.lookup v with
    | some found => rw [text_of_seen hv hseen]
    | none =>
      rw [text_of_new hv hseen]
      show (s.out.setTable .strings _).table u = s.out.table u
      rw [table_setTable, Function.update_of_ne hu]

/-! ### Runs of a table -/

theorem writes_inserted {l : List t.Entry} {f : CompiledRange → Flatten β}
    {R : β → Tables → Prop} (ht : t ≠ .strings) (hgood : ∀ d, ∀ x ∈ l, EntryInside d t x)
    (hf : ∀ r s, filing.Writes s noSlots (fun d => P d ∧ RangeIs (d t) r l) (f r) R) :
    filing.Writes s noSlots P
      (nextRange t l.length >>= fun r => insertAtEnd t l >>= fun _ => f r) R := by
  show filing.Writes s noSlots P (insertAtEnd t l >>= fun _ => f ⟨(s.out.table t).length, _⟩) R
  have hinsert : filing.Writes s noSlots P (insertAtEnd t l)
      fun _ d => RangeIs (d t) ⟨(s.out.table t).length, l.length⟩ l :=
    Writes.append (changes_modifyTable ht (· ++ l) s) (fun d _ => hgood d)
      fun d hrun => ⟨hrun, rfl⟩
  exact hinsert.bind fun _ s' => hf _ s'

theorem writes_pushed {l : List α} {g : α → Flatten t.Entry} {Q : Tables → α → t.Entry → Prop}
    {f : CompiledRange → Flatten β} {R : β → Tables → Prop} (ht : t ≠ .strings)
    (hg : ∀ a ∈ l, ∀ s, filing.Writes s noSlots P (g a) fun x d => Q d a x)
    (hleaves : ∀ a, filing.Leaves t (g a)) (hgood : ∀ d a x, Q d a x → EntryInside d t x)
    (hf : ∀ r s, filing.Writes s noSlots
      (fun d => P d ∧ ∃ run, RangeIs (d t) r run ∧ List.Forall₂ (Q d) l run) (f r) R) :
    filing.Writes s noSlots P
      (nextRange t l.length >>= fun r =>
        (l.forM fun a => g a >>= pushBack t) >>= fun _ => f r) R := by
  show filing.Writes s noSlots P
    ((l.forM fun a => g a >>= pushBack t) >>= fun _ => f ⟨(s.out.table t).length, _⟩) R
  have hpush := Writes.pushEach hg hleaves (fun x s => changes_modifyTable ht (· ++ [x]) s)
    (fun a x d _ hq => hgood d a x hq) s
  refine hpush.bind fun _ s' => (hf _ s').weaken ?_ fun _ _ _ hr => hr
  rintro d ⟨hd, run, hrun, hall⟩
  exact ⟨hd, run, ⟨hrun, hall.length_eq⟩, hall⟩

theorem writes_reserved {count : ℕ} {pad : t.Entry} {g : ℕ → Flatten Unit}
    {Q : List t.Entry → Tables → Prop} {f : CompiledRange → Flatten β} {R : β → Tables → Prop}
    (ht : t ≠ .strings)
    (hg : ∀ slot s, filing.Writes s (slots t slot count)
      (fun d => P d ∧ slot + count ≤ (d t).length) (g slot)
      fun _ d => ∃ run, RunAt (d t) slot run ∧ run.length = count ∧ Q run d)
    (hf : ∀ r s, filing.Writes s noSlots
      (fun d => P d ∧ ∃ run, RangeIs (d t) r run ∧ Q run d) (f r) R) :
    filing.Writes s noSlots P
      (nextRange t count >>= fun r => growBy t count pad >>= fun _ => g r.first >>= fun _ => f r)
      R := by
  show filing.Writes s noSlots P (growBy t count pad >>= fun _ => g (s.out.table t).length >>=
    fun _ => f ⟨(s.out.table t).length, count⟩) R
  rw [← bind_assoc]
  have hchange := changes_modifyTable ht (· ++ List.replicate count pad) s
  refine (Writes.reserve ht hchange (hg _ _)).bind fun _ s' =>
    (hf _ s').weaken ?_ fun _ _ _ hr => hr
  rintro d ⟨hd, run, hrun, hlength, hq⟩
  exact ⟨hd, run, ⟨hrun, hlength.symm⟩, hq⟩

theorem writes_fill_cons {slot count : ℕ} {m : Flatten t.Entry} {rest : Flatten Unit}
    {Q : t.Entry → Tables → Prop} {R : List t.Entry → Tables → Prop} (ht : t ≠ .strings)
    (hm : filing.Writes s noSlots (fun d => P d ∧ slot + (count + 1) ≤ (d t).length) m Q)
    (hgood : ∀ x d, Q x d → EntryInside d t x)
    (hrest : ∀ s, filing.Writes s (slots t (slot + 1) count)
      (fun d => P d ∧ slot + 1 + count ≤ (d t).length) rest
      fun _ d => ∃ run, RunAt (d t) (slot + 1) run ∧ run.length = count ∧ R run d) :
    filing.Writes s (slots t slot (count + 1))
      (fun d => P d ∧ slot + (count + 1) ≤ (d t).length)
      (m >>= fun x => fill t slot x >>= fun _ => rest) fun _ d => ∃ x run,
        RunAt (d t) slot (x :: run) ∧ run.length = count ∧ Q x d ∧ R run d := by
  have hlater : ∀ d : Tables, P d ∧ slot + (count + 1) ≤ (d t).length →
      P d ∧ slot + 1 + count ≤ (d t).length := by
    rintro d ⟨hd, hle⟩
    exact ⟨hd, by omega⟩
  refine (Writes.fillNext hm (fun x d _ h => hgood x d h)
    (fun x => changes_modifyTable ht (·.set slot x))
    fun s => (hrest s).weaken hlater fun _ _ _ h => h).weaken (fun _ hd => hd) ?_
  rintro - d - ⟨x, run, hrun, hq, hlength, hr⟩
  exact ⟨x, run, hrun, hlength, hq, hr⟩

/-! ## Selectors -/

theorem writes_attributeOf (a : AttributeMatch) (s : Flattener) :
    filing.Writes s noSlots P (attributeOf atoms a) fun c d => AttributeIs d atoms a c := by
  refine (writes_text _ s).bind fun name s => (writes_text _ s).bind fun nameExact s =>
    (writes_text _ s).bind fun value s => (writes_text _ s).bind fun nsUri s =>
      Writes.pure _ fun d _ h => ?_
  obtain ⟨⟨⟨⟨-, hname⟩, hexact⟩, hvalue⟩, huri⟩ := h
  exact ⟨hname, hexact, hvalue, huri, rfl⟩

theorem leaves_attributeOf {u : Table} (hu : u ≠ .strings) (a : AttributeMatch) :
    filing.Leaves u (attributeOf atoms a) :=
  (leaves_text hu _).bind fun _ => (leaves_text hu _).bind fun _ => (leaves_text hu _).bind
    fun _ => (leaves_text hu _).bind fun _ _ => rfl

mutual

/-- A flattened selector stands for the selector. -/
theorem writes_complex (selector : CompiledSelector) (P : Tables → Prop) (s : Flattener) :
    filing.Writes s noSlots P (complex atoms selector)
      fun c d => ComplexIs d atoms selector c := by
  cases selector with
  | mk parts links spec explicitScope =>
    rw [complex]
    refine writes_inserted (by decide) (fun _ _ _ => trivial) fun links s => ?_
    refine writes_reserved (by decide) (fun slot s => writes_fillCompounds parts _ slot s)
      fun range s => Writes.pure _ fun d _ h => ?_
    obtain ⟨⟨-, hlinks⟩, hparts⟩ := h
    rw [ComplexIs]
    exact ⟨hlinks, hparts, rfl, rfl⟩

theorem writes_fillCompounds (parts : List Compound) (P : Tables → Prop) (slot : ℕ)
    (s : Flattener) :
    filing.Writes s (slots .compounds slot parts.length)
      (fun d => P d ∧ slot + parts.length ≤ (d .compounds).length)
      (fillCompounds atoms slot parts) fun _ d => ∃ run, RunAt (d .compounds) slot run ∧
        run.length = parts.length ∧ CompoundsAre d atoms parts run := by
  cases parts with
  | nil =>
    rw [List.length_nil, slots_zero]
    exact Writes.pure _ fun d _ h => ⟨[], runAt_nil h.2, rfl, rfl⟩
  | cons part rest =>
    rw [fillCompounds]
    refine (writes_fill_cons (by decide) (writes_compoundOf part _ s) (fun _ _ h => entryInside_compound h)
      fun s => writes_fillCompounds rest P (slot + 1) s).weaken (fun _ hd => hd) ?_
    rintro - d - ⟨c, run, hrun, hlength, hpart, hrest⟩
    exact ⟨c :: run, hrun, by rw [List.length_cons, hlength]; rfl, c, run, rfl, hpart, hrest⟩

theorem writes_compoundOf (c : Compound) (P : Tables → Prop) (s : Flattener) :
    filing.Writes s noSlots P (compoundOf atoms c) fun x d => CompoundIs d atoms c x := by
  cases c with
  | mk tag tagExact id classes attributes states structural statesAfterPe structuralAfterPe pseudos
      ns nsName nsUri pseudoElement nesting neverMatches dropped =>
    rw [compoundOf]
    refine (writes_text _ s).bind fun tag s => (writes_text _ s).bind fun tagExact s =>
      (writes_text _ s).bind fun id s => ?_
    refine writes_pushed (by decide) (fun _ _ s => writes_text _ s)
      (fun _ => leaves_text (by decide) _) (fun _ _ _ h => h.inside) fun classes s => ?_
    refine writes_pushed (by decide) (fun a _ s => writes_attributeOf a s)
      (fun _ => leaves_attributeOf (by decide) _) (fun _ _ _ h => entryInside_attribute h)
      fun attributes s => ?_
    refine writes_reserved (by decide) (fun slot s => writes_fillPseudos pseudos _ slot s)
      fun range s => ?_
    refine (writes_text _ s).bind fun nsName s => (writes_text _ s).bind fun nsUri s =>
      (writes_text _ s).bind fun pseudoElement s => Writes.pure _ fun d _ h => ?_
    obtain ⟨⟨⟨⟨⟨⟨⟨⟨⟨-, htag⟩, hexact⟩, hid⟩, hclasses⟩, hattributes⟩, hpseudos⟩, hname⟩, huri⟩,
      helement⟩ := h
    rw [CompoundIs]
    exact ⟨htag, hexact, hid, hclasses, hattributes, hpseudos, hname, huri, helement, rfl⟩

theorem writes_fillPseudos (pseudos : List PseudoRef) (P : Tables → Prop) (slot : ℕ)
    (s : Flattener) :
    filing.Writes s (slots .pseudos slot pseudos.length)
      (fun d => P d ∧ slot + pseudos.length ≤ (d .pseudos).length)
      (fillPseudos atoms slot pseudos) fun _ d => ∃ run, RunAt (d .pseudos) slot run ∧
        run.length = pseudos.length ∧ PseudosAre d atoms pseudos run := by
  cases pseudos with
  | nil =>
    rw [List.length_nil, slots_zero]
    exact Writes.pure _ fun d _ h => ⟨[], runAt_nil h.2, rfl, rfl⟩
  | cons pseudo rest =>
    rw [fillPseudos]
    refine (writes_fill_cons (by decide) (writes_pseudoOf pseudo _ s) (fun _ _ h => entryInside_pseudo h)
      fun s => writes_fillPseudos rest P (slot + 1) s).weaken (fun _ hd => hd) ?_
    rintro - d - ⟨c, run, hrun, hlength, hpseudo, hrest⟩
    exact ⟨c :: run, hrun, by rw [List.length_cons, hlength]; rfl, c, run, rfl, hpseudo, hrest⟩

theorem writes_pseudoOf (p : PseudoRef) (P : Tables → Prop) (s : Flattener) :
    filing.Writes s noSlots P (pseudoOf atoms p) fun x d => PseudoIs d atoms p x := by
  cases p with
  | mk kind a b args relative nesting ranges levels =>
    rw [pseudoOf]
    refine writes_reserved (by decide) (fun slot s => writes_fillSelectors args _ slot s)
      fun range s => ?_
    refine writes_pushed (by decide) (fun _ _ s => writes_text _ s)
      (fun _ => leaves_text (by decide) _) (fun _ _ _ h => h.inside) fun ranges s => ?_
    refine writes_inserted (by decide) (fun _ _ _ => trivial) fun levels s =>
      Writes.pure _ fun d _ h => ?_
    obtain ⟨⟨⟨-, hargs⟩, hranges⟩, hlevels⟩ := h
    rw [PseudoIs]
    exact ⟨hargs, hranges, hlevels, rfl⟩

theorem writes_fillSelectors (selectors : List CompiledSelector) (P : Tables → Prop) (slot : ℕ)
    (s : Flattener) :
    filing.Writes s (slots .selectors slot selectors.length)
      (fun d => P d ∧ slot + selectors.length ≤ (d .selectors).length)
      (fillSelectors atoms slot selectors) fun _ d => ∃ run, RunAt (d .selectors) slot run ∧
        run.length = selectors.length ∧ SelectorsAre d atoms selectors run := by
  cases selectors with
  | nil =>
    rw [List.length_nil, slots_zero]
    exact Writes.pure _ fun d _ h => ⟨[], runAt_nil h.2, rfl, rfl⟩
  | cons selector rest =>
    rw [fillSelectors]
    refine (writes_fill_cons (by decide) (writes_complex selector _ s) (fun _ _ h => entryInside_complex h)
      fun s => writes_fillSelectors rest P (slot + 1) s).weaken (fun _ hd => hd) ?_
    rintro - d - ⟨c, run, hrun, hlength, hselector, hrest⟩
    exact ⟨c :: run, hrun, by rw [List.length_cons, hlength]; rfl, c, run, rfl, hselector, hrest⟩

end

/-! ## Sheets -/

theorem writes_namespaceOf (n : NamespaceDeclaration) (s : Flattener) :
    filing.Writes s noSlots P (namespaceOf n) fun c d => NamespaceIs d n c := by
  refine (writes_text _ s).bind fun prefix_ s => (writes_text _ s).bind fun uri s =>
    Writes.pure _ fun d _ h => ?_
  exact ⟨h.1.2, h.2⟩

theorem writes_importOf (i : ImportStatement) (s : Flattener) :
    filing.Writes s noSlots P (importOf i) fun c d => ImportIs d i c := by
  refine (writes_text _ s).bind fun href s => (writes_text _ s).bind fun media s =>
    (writes_text _ s).bind fun layer s => (writes_text _ s).bind fun supports s =>
      (writes_text _ s).bind fun scope s => Writes.pure _ fun d _ h => ?_
  obtain ⟨⟨⟨⟨⟨-, hhref⟩, hmedia⟩, hlayer⟩, hsupports⟩, hscope⟩ := h
  exact ⟨hhref, hmedia, hlayer, hsupports, hscope, rfl⟩

theorem writes_declarationOf (r : RawDeclaration) (s : Flattener) :
    filing.Writes s noSlots P (declarationOf atoms r) fun c d => DeclarationIs d atoms r c :=
  (writes_text _ s).bind fun _ _ => Writes.pure _ fun _ _ h => ⟨h.2, rfl⟩

theorem writes_keyframeOf (k : KeyframeBlock) (s : Flattener) :
    filing.Writes s noSlots P (keyframeOf k) fun c d => KeyframeIs d k c :=
  writes_inserted (by decide) (fun _ _ _ => trivial) fun _ _ =>
    Writes.pure _ fun _ _ h => ⟨h.2, rfl⟩

theorem writes_keyframesOf (k : KeyframesBlock) (s : Flattener) :
    filing.Writes s noSlots P (keyframesOf k) fun c d => KeyframesIs d k c := by
  refine writes_pushed (by decide) (fun frame _ s => writes_keyframeOf frame s) ?_
    (fun _ _ _ h => h.1.inside) fun frames s => ?_
  · intro frame
    exact @leaves_modifyTable .offsets .keyframeBlocks (by decide) (· ++ frame.offsets)
  · refine (writes_text _ s).bind fun name s => Writes.pure _ fun d _ h => ?_
    exact ⟨h.2, h.1.2, rfl⟩

theorem writes_mediaConditionOf (c : MediaCondition) (s : Flattener) :
    filing.Writes s noSlots P (mediaConditionOf c) fun x d => MediaConditionIs d c x := by
  refine writes_pushed (by decide) (Q := MediaQueryIs) (fun q _ s => ?_) ?_
    (fun _ _ _ h => h.1.inside) fun queries s => ?_
  · exact (writes_text _ s).bind fun _ _ => Writes.pure _ fun _ _ h => ⟨h.2, rfl⟩
  · exact fun q => (leaves_text (by decide) _).bind fun _ _ => rfl
  · exact Writes.pure _ fun _ _ h => ⟨h.2, rfl⟩

theorem writes_containerConditionOf (c : ContainerCondition) (s : Flattener) :
    filing.Writes s noSlots P (containerConditionOf c) fun x d => ContainerConditionIs d c x := by
  refine writes_pushed (by decide) (Q := ContainerQueryIs) (fun q _ s => ?_) ?_
    (fun _ _ _ h => ⟨h.1.inside, h.2.inside⟩) fun queries s => ?_
  · exact (writes_text _ s).bind fun _ s => (writes_text _ s).bind fun _ _ =>
      Writes.pure _ fun _ _ h => ⟨h.1.2, h.2⟩
  · exact fun q => (leaves_text (by decide) _).bind fun _ =>
      (leaves_text (by decide) _).bind fun _ _ => rfl
  · exact Writes.pure _ fun _ _ h => ⟨h.2, rfl⟩

/-- The data stands for the sheet. -/
structure SheetIs (d : Tables) (atoms : AtomTable) (sheet : Stylesheet) (c : CompiledSheetData) :
    Prop where
  namespaces : List.Forall₂ (NamespaceIs d) sheet.namespaces c.namespaces
  imports : List.Forall₂ (ImportIs d) sheet.imports c.imports
  selectors : ∃ run, RunAt (d .selectors) 0 run ∧ run.length = sheet.selectors.length ∧
    SelectorsAre d atoms sheet.selectors run
  declarations : List.Forall₂ (DeclarationIs d atoms) sheet.declarations c.declarations
  keyframes : List.Forall₂ (KeyframesIs d) sheet.keyframes c.keyframes
  conditions : List.Forall₂ (MediaConditionIs d) sheet.conditions c.conditions
  layers : List.Forall₂ (TextIs d) sheet.layers c.layers
  containers : List.Forall₂ (ContainerConditionIs d) sheet.containers c.containers
  selectorCount : c.selectorCount = sheet.selectors.length
  -- the tables that are copied
  pool : c.pool = sheet.pool
  prefixesChecked : c.prefixesChecked = sheet.prefixesChecked
  forgiving : c.forgiving = sheet.forgiving
  sourceLength : c.sourceLength = sheet.sourceLength
  tokens : c.tokens = sheet.tokens
  values : c.values = sheet.values
  rules : c.rules = sheet.rules
  fontFaces : c.fontFaces = sheet.fontFaces
  properties : c.properties = sheet.properties
  functions : c.functions = sheet.functions
  scopes : c.scopes = sheet.scopes

/-- A flattened sheet stands for the sheet. -/
theorem writes_run (sheet : Stylesheet) (s : Flattener) (hs : s.out.selectors = []) :
    filing.Writes s noSlots P (Flattener.run sheet atoms) fun c d => SheetIs d atoms sheet c := by
  rw [Flattener.run]
  refine (Writes.mapM (fun n _ s => writes_namespaceOf n s) s).andThen
    ((Writes.mapM (fun i _ s => writes_importOf i s) _).andThen ?_)
  have hleaves : ∀ (v : Text), filing.Leaves .selectors (text v) := leaves_text (by decide)
  have hnone : (filing.tables (sheet.imports.mapM importOf
      (sheet.namespaces.mapM namespaceOf s).2).2 .selectors) = [] := by
    have himports : filing.Leaves .selectors (sheet.imports.mapM importOf) :=
      Leaves.mapM (fun i => (hleaves _).bind fun _ => (hleaves _).bind fun _ =>
        (hleaves _).bind fun _ => (hleaves _).bind fun _ => (hleaves _).bind fun _ _ => rfl) _
    have hnamespaces : filing.Leaves .selectors (sheet.namespaces.mapM namespaceOf) :=
      Leaves.mapM (fun n => (hleaves _).bind fun _ => (hleaves _).bind fun _ _ => rfl) _
    rw [himports, hnamespaces]
    exact hs
  have hselectors : Table.selectors ≠ .strings := by decide
  have hgrow := changes_modifyTable hselectors
    (· ++ List.replicate sheet.selectors.length ({} : CompiledComplex))
    (sheet.imports.mapM importOf (sheet.namespaces.mapM namespaceOf s).2).2
  have hcount := congrArg List.length hgrow.tables_self
  rw [hnone, List.nil_append, List.length_replicate] at hcount
  refine Writes.reserve hselectors hgrow ?_
  rw [hnone, List.length_nil]
  refine Writes.get (Writes.bind_after (writes_fillSelectors sheet.selectors _ 0 _) fun _ s => ?_)
  refine (Writes.mapM (fun r _ s => writes_declarationOf r s) s).bind fun declarations s =>
    (Writes.mapM (fun k _ s => writes_keyframesOf k s) s).bind fun keyframes s =>
    (Writes.mapM (fun c _ s => writes_mediaConditionOf c s) s).bind fun conditions s =>
    (Writes.mapM (fun v _ s => writes_text v s) s).bind fun layers s =>
    (Writes.mapM (fun c _ s => writes_containerConditionOf c s) s).bind fun containers s =>
    Writes.get (Writes.pure _ fun d _ h => ?_)
  obtain ⟨⟨⟨⟨⟨⟨⟨⟨⟨-, hnamespaces⟩, himports⟩, -⟩, hfilled⟩, hdeclarations⟩, hkeyframes⟩, hconditions⟩,
    hlayers⟩, hcontainers⟩ := h
  exact ⟨hnamespaces, himports, hfilled, hdeclarations, hkeyframes, hconditions, hlayers,
    hcontainers, hcount, rfl, rfl, rfl, rfl, rfl, rfl, rfl, rfl, rfl, rfl, rfl⟩

theorem table_run (sheet : Stylesheet) (s : Flattener) :
    (Flattener.run sheet atoms s).1.table = (Flattener.run sheet atoms s).2.out.table := by
  funext t
  cases t <;> rfl

/-- A compiled sheet stands for the sheet, and what its tables hold lies inside of them. -/
theorem sheetIs_compile (sheet : Stylesheet) (atoms : AtomTable) :
    SheetIs (compile sheet atoms).table atoms sheet (compile sheet atoms) ∧
      ∀ t, ∀ x ∈ (compile sheet atoms).table t, EntryInside (compile sheet atoms).table t x := by
  have hinv : filing.Inv {} := fun p hp => absurd hp List.not_mem_nil
  have hbelow : filing.Below noSlots {} := fun t i hi => absurd hi (Set.notMem_empty i)
  have htable : ∀ t, (compile sheet atoms).table t =
      filing.tables (Flattener.run sheet atoms {}).2 t :=
    congrFun (table_run sheet {})
  have hagree : filing.Agrees noSlots {} (Flattener.run sheet atoms {}).2
      (compile sheet atoms).table := by
    intro t
    rw [htable]
    exact ⟨le_rfl, fun _ _ _ hx => hx⟩
  have hwrites : filing.Writes {} noSlots (fun _ => True) (Flattener.run sheet atoms)
      fun c d => SheetIs d atoms sheet c := writes_run sheet {} rfl
  obtain ⟨-, -, hlater⟩ := hwrites hinv hbelow
  obtain ⟨hsheet, hgood⟩ := hlater _ hagree trivial
  refine ⟨hsheet, fun t x hx => ?_⟩
  rw [htable] at hx
  obtain ⟨i, hi⟩ := List.getElem?_of_mem hx
  have hempty : filing.tables {} t = [] := by
    cases t <;> rfl
  refine hgood t i x (.inl ?_) hi
  rw [hempty]
  exact Nat.zero_le i

end CtBrowser.Style.Css
