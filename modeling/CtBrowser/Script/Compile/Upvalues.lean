import CtBrowser.Script.Compile.ScopeTables

/-!
# Captured variables

A mention is resolved to the variable that the scopes give it, as long as no function hands more
variables down than the index of a descriptor can tell apart.

## Main definitions

- `Fits` — the places of what is handed down fit a descriptor.
- `Sound` — every variable of a table is the one its name stands for.

## Main results

- `resolveUpvalue_spec` — what a mention adds, and what it comes to.
- `scope_tables` — in every run.
- `narrowed_index` — the run with too many variables.
-/

namespace CtBrowser.Script.Compile

open CtBrowser.Foundations

/-! ## What fits a descriptor -/

/-- Where a frame has or will have a variable of a name. -/
def Frame.place (f : Frame) (name : Text) : ℕ := (f.upvalueIndex name).getD f.upvalues.length

/-- The frames that hand a variable of theirs down when a name is resolved. -/
def handsDown (name : Text) : List Frame → List Frame
  | f :: parent :: rest =>
    if (f.upvalueIndex name).isSome ∨ (parent.declared name).isSome then []
    else parent :: handsDown name (parent :: rest)
  | _ => []

/-- The places of what is handed down fit the index of a descriptor. -/
def Fits (outer : List Text) (name : Text) (frames : List Frame) : Prop :=
  lexical outer name frames ≠ none → ∀ parent ∈ handsDown name frames, parent.place name < 2 ^ 16

/-! ## Frames that have grown -/

/-- A frame after a mention of a name: its locals are the same but for their cells, and its tables have
only grown, by that name. -/
structure Grown (name : Text) (f f' : Frame) : Prop where
  names : f'.names = f.names
  declared : ∀ n, f'.declared n = f.declared n
  localIndex : f'.localIndex = f.localIndex
  upvalues : f.upvalues <+: f'.upvalues
  kept : ∀ n i, f.upvalueIndex n = some i → f'.upvalueIndex n = some i
  others : ∀ n ≠ name, f'.upvalueIndex n = f.upvalueIndex n

namespace Grown

variable {name : Text} {f f' : Frame}

theorem refl (f : Frame) : Grown name f f :=
  ⟨rfl, fun _ => rfl, rfl, List.prefix_rfl, fun _ _ h => h, fun _ _ => rfl⟩

theorem box (f : Frame) (i : ℕ) : Grown name f (f.box i) := by
  refine ⟨Frame.names_box f i, fun n => ?_, rfl, List.prefix_rfl, fun _ _ h => h, fun _ _ => rfl⟩
  rw [← Frame.findLocal_eq, ← Frame.findLocal_eq, Frame.findLocal, Frame.findLocal, Frame.names_box]
  have hlength : (f.box i).locals.length = f.locals.length := List.length_modify ..
  have hget (j : ℕ) : ((f.box i).locals[j]?).map Local.reg = (f.locals[j]?).map Local.reg := by
    rw [Frame.box, List.getElem?_modify]
    split_ifs <;> cases f.locals[j]? <;> rfl
  rw [hlength, Option.map_bind, Option.map_bind]
  congr 1
  funext j
  exact hget j

theorem addUpvalue (hnone : f.upvalueIndex name = none) (desc : UpvalueDesc) :
    Grown name f (f.addUpvalue name desc) := by
  have hindex : (f.addUpvalue name desc).upvalueIndex = Function.update f.upvalueIndex name (some f.upvalues.length) := by
    rw [Frame.addUpvalue, hnone]
    rfl
  refine ⟨rfl, fun _ => rfl, rfl, List.prefix_append _ _, fun n i h => ?_, fun n hn => ?_⟩
  · have hne : n ≠ name := by
      rintro rfl
      rw [hnone] at h
      cases h
    rw [hindex, Function.update_of_ne hne, h]
  · rw [hindex, Function.update_of_ne hn]

theorem indexed (h : Grown name f f') (hindexed : f.Indexed) : f'.Indexed := by
  rw [Frame.Indexed, h.names, h.localIndex]
  exact hindexed

end Grown

variable {name : Text} {outer : List Text} {frames frames' : List Frame}

theorem designates_grown (h : List.Forall₂ (Grown name) frames frames') {i : ℕ} {slot : Slot}
    (hslot : designates frames i = some slot) : designates frames' i = some slot := by
  induction h generalizing i with
  | nil => exact hslot
  | @cons f f' rest rest' hhead htail ih =>
    cases htail with
    | nil =>
      rw [designates] at hslot ⊢
      have hle := hhead.upvalues.length_le
      split_ifs at hslot with hi
      rw [if_pos (by omega)]
      exact hslot
    | @cons g g' more more' hparent hmore =>
      have hlength : more'.length = more.length := hmore.length_eq.symm
      rw [designates] at hslot ⊢
      cases hdesc : f.upvalues[i]? with
      | none =>
        rw [hdesc] at hslot
        cases hslot
      | some desc =>
        have hget : f'.upvalues[i]? = some desc := by
          obtain ⟨new, hnew⟩ := hhead.upvalues
          rw [← hnew, List.getElem?_append_left (List.getElem?_eq_some_iff.mp hdesc).1, hdesc]
        rw [hdesc] at hslot
        rw [hget]
        obtain ⟨_ | _, index⟩ := desc
        · exact ih hslot
        · rw [hlength]
          exact hslot

theorem lexical_grown (h : List.Forall₂ (Grown name) frames frames') (n : Text) :
    lexical outer n frames' = lexical outer n frames := by
  induction h with
  | nil => rfl
  | @cons f f' rest rest' hhead htail ih =>
    cases htail with
    | nil => rfl
    | @cons g g' more more' hparent hmore =>
      have hlength : more'.length = more.length := hmore.length_eq.symm
      rw [lexical, lexical, hparent.declared, hlength, ih]

/-! ## Sound tables -/

/-- The table of the innermost frame: a place for each of its names, and a variable that the name stands
for. -/
structure TableSound (outer : List Text) (f : Frame) (frames : List Frame) : Prop where
  parallel : f.upvalueNames.length = f.upvalues.length
  distinct : f.upvalueNames.Nodup
  held : ∀ name i, f.upvalueIndex name = some i ↔ f.upvalueNames[i]? = some name
  meaning : ∀ name i, f.upvalueIndex name = some i →
    ∃ slot, designates (f :: frames) i = some slot ∧ lexical outer name (f :: frames) = some slot

/-- Every variable of a table is the one its name stands for. -/
def Sound (outer : List Text) : List Frame → Prop
  | [] => True
  | [f] => f.upvalues.length = outer.length ∧ ∀ name, f.upvalueIndex name = outer.idxOf? name
  | f :: parent :: rest => TableSound outer f (parent :: rest) ∧ Sound outer (parent :: rest)

theorem TableSound.grown {f : Frame} (h : TableSound outer f frames) (hgrown : List.Forall₂ (Grown name) frames frames') :
    TableSound outer f frames' := by
  refine ⟨h.parallel, h.distinct, h.held, fun n i hi => ?_⟩
  obtain ⟨slot, hslot, hlex⟩ := h.meaning n i hi
  have hall : List.Forall₂ (Grown name) (f :: frames) (f :: frames') := .cons (.refl f) hgrown
  exact ⟨slot, designates_grown hall hslot, by rw [lexical_grown hall, hlex]⟩

/-- A variable is added. -/
theorem TableSound.addUpvalue {f : Frame} (h : TableSound outer f frames) (hnone : f.upvalueIndex name = none)
    {desc : UpvalueDesc} {slot : Slot} (hslot : designates (f.addUpvalue name desc :: frames) f.upvalues.length = some slot)
    (hlex : lexical outer name (f :: frames) = some slot) : TableSound outer (f.addUpvalue name desc) frames := by
  have hgrown : List.Forall₂ (Grown name) (f :: frames) (f.addUpvalue name desc :: frames) :=
    .cons (.addUpvalue hnone desc) (List.forall₂_same.mpr fun g _ => .refl g)
  have hindex : (f.addUpvalue name desc).upvalueIndex = Function.update f.upvalueIndex name (some f.upvalues.length) := by
    rw [Frame.addUpvalue, hnone]
    rfl
  have hnew : name ∉ f.upvalueNames := by
    intro hmem
    obtain ⟨i, hi⟩ := List.getElem?_of_mem hmem
    rw [(h.held name i).mpr hi] at hnone
    cases hnone
  have hheld (n : Text) (i : ℕ) : (f.addUpvalue name desc).upvalueIndex n = some i ↔
      (f.upvalueNames ++ [name])[i]? = some n := by
    rw [hindex, List.getElem?_append]
    by_cases hn : n = name
    · subst hn
      rw [Function.update_self, Option.some_inj, ← h.parallel]
      constructor
      · rintro rfl
        rw [if_neg (lt_irrefl _), Nat.sub_self]
        rfl
      · intro hi
        split_ifs at hi with hlt
        · exact absurd (List.mem_of_getElem? hi) hnew
        · have hle : i - f.upvalueNames.length < 1 := (List.getElem?_eq_some_iff.mp hi).1
          omega
    · rw [Function.update_of_ne hn, h.held]
      split_ifs with hlt
      · rfl
      · have hnone' : f.upvalueNames[i]? = none := List.getElem?_eq_none (by omega)
        rw [hnone']
        refine iff_of_false (by simp) fun hi => hn ?_
        exact (List.mem_singleton.mp (List.mem_of_getElem? hi))
  refine ⟨?_, ?_, hheld, fun n i hi => ?_⟩
  · simp only [Frame.addUpvalue, List.length_append, h.parallel, List.length_singleton]
  · exact List.nodup_append.mpr ⟨h.distinct, List.nodup_singleton _, fun a ha b hb => by
      rw [List.mem_singleton.mp hb]
      rintro rfl
      exact hnew ha⟩
  · rw [lexical_grown hgrown]
    rw [hindex] at hi
    by_cases hn : n = name
    · subst hn
      rw [Function.update_self, Option.some_inj] at hi
      exact ⟨slot, hi ▸ hslot, hlex⟩
    · rw [Function.update_of_ne hn] at hi
      obtain ⟨slot', hslot', hlex'⟩ := h.meaning n i hi
      exact ⟨slot', designates_grown hgrown hslot', hlex'⟩

theorem Sound.head {f g : Frame} {rest : List Frame} (h : Sound outer (f :: rest)) (hupvalues : g.upvalues = f.upvalues)
    (hnames : g.upvalueNames = f.upvalueNames) (hindex : g.upvalueIndex = f.upvalueIndex) : Sound outer (g :: rest) := by
  cases rest with
  | nil =>
    rw [Sound, hupvalues, hindex]
    exact h
  | cons parent rest =>
    refine ⟨⟨?_, ?_, ?_, fun n i hi => ?_⟩, h.2⟩
    · rw [hnames, hupvalues]
      exact h.1.parallel
    · rw [hnames]
      exact h.1.distinct
    · rw [hindex, hnames]
      exact h.1.held
    · rw [hindex] at hi
      obtain ⟨slot, hslot, hlex⟩ := h.1.meaning n i hi
      refine ⟨slot, ?_, hlex⟩
      rw [designates, hupvalues]
      exact hslot

/-! ## Resolving -/

theorem resolveUpvalue_grown (outer : List Text) (name : Text) (frames : List Frame) :
    List.Forall₂ (Grown name) frames (resolveUpvalue outer name frames).2 := by
  have hrefl (fs : List Frame) : List.Forall₂ (Grown name) fs fs := List.forall₂_same.mpr fun g _ => .refl g
  induction frames with
  | nil => exact .nil
  | cons f rest ih =>
    cases rest with
    | nil => exact hrefl _
    | cons parent rest =>
      rw [resolveUpvalue]
      cases hindex : f.upvalueIndex name with
      | some i => exact hrefl _
      | none =>
        cases hlocal : (parent.findLocalEntry name).bind fun i => parent.locals[i]?.map fun l => (i, l.reg) with
        | some found => exact .cons (.addUpvalue hindex _) (.cons (.box _ _) (hrefl _))
        | none =>
          cases hrest : resolveUpvalue outer name (parent :: rest) with
          | mk inherited frames =>
            rw [hrest] at ih
            cases inherited with
            | none => exact .cons (.refl f) ih
            | some inherited => exact .cons (.addUpvalue hindex _) ih

/-- A mention comes to the place of the name in the innermost frame. -/
theorem resolveUpvalue_place {f : Frame} {rest : List Frame} {i : ℕ}
    (h : (resolveUpvalue outer name (f :: rest)).1 = some i) : i = f.place name := by
  have hplace (hi : f.upvalueIndex name = some i) : i = f.place name := by
    rw [Frame.place, hi]
    rfl
  cases rest with
  | nil =>
    rw [resolveUpvalue] at h
    split_ifs at h with houter
    exact hplace h
  | cons parent rest =>
    rw [resolveUpvalue] at h
    cases hindex : f.upvalueIndex name with
    | some j =>
      rw [hindex] at h
      exact hplace (hindex.trans h)
    | none =>
      rw [Frame.place, hindex, Option.getD_none]
      rw [hindex] at h
      cases hlocal : (parent.findLocalEntry name).bind fun i => parent.locals[i]?.map fun l => (i, l.reg) with
      | some found =>
        rw [hlocal] at h
        exact (Option.some_injective _ h).symm
      | none =>
        rw [hlocal] at h
        cases hrest : resolveUpvalue outer name (parent :: rest) with
        | mk inherited frames =>
          rw [hrest] at h
          cases inherited with
          | none => cases h
          | some inherited => exact (Option.some_injective _ h).symm

theorem addUpvalue_index {f : Frame} {desc : UpvalueDesc} (hnone : f.upvalueIndex name = none) :
    (f.addUpvalue name desc).upvalueIndex name = some f.upvalues.length := by
  rw [Frame.addUpvalue, hnone]
  exact Function.update_self ..

/-- What a mention comes to: nothing if the name stands for nothing, and otherwise the place of the name
in the table of the innermost frame, whose variable is the one it stands for. -/
structure Resolved (outer : List Text) (name : Text) (frames : List Frame) (result : Option ℕ × List Frame) : Prop where
  sound : Sound outer result.2
  none_iff : result.1 = none ↔ lexical outer name frames = none
  meaning : ∀ i, result.1 = some i → designates result.2 i = lexical outer name frames
  held : ∀ i, result.1 = some i → ∀ f ∈ result.2.head?, f.upvalueIndex name = some i

/-- The spec of a mention. -/
theorem resolveUpvalue_spec (hindexed : ∀ f ∈ frames, f.Indexed) (h : Sound outer frames) (hfits : Fits outer name frames) :
    Resolved outer name frames (resolveUpvalue outer name frames) := by
  induction frames with
  | nil => exact ⟨h, iff_of_true rfl rfl, fun i hi => (by cases hi), fun i hi => (by cases hi)⟩
  | cons f rest ih =>
    cases rest with
    | nil =>
      have hindex := h.2 name
      rw [resolveUpvalue]
      by_cases houter : outer = []
      · rw [if_pos houter]
        refine ⟨h, iff_of_true rfl ?_, fun i hi => (by cases hi), fun i hi => (by cases hi)⟩
        rw [lexical, houter]
        rfl
      · rw [if_neg houter]
        refine ⟨h, ?_, fun i hi => ?_, fun i hi g hg => ?_⟩
        · rw [hindex, lexical, Option.map_eq_none_iff]
        · rw [hindex] at hi
          have hlt : i < f.upvalues.length := by
            rw [h.1]
            exact (List.idxOf?_eq_some_iff.mp hi).1
          have hi' : outer.idxOf? name = some i := hi
          rw [designates, if_pos hlt, lexical, hi']
          rfl
        · cases hg
          exact hi
    | cons parent rest =>
      have hlexical : lexical outer name (f :: parent :: rest) =
          (parent.declared name).elim (lexical outer name (parent :: rest)) fun reg => some (.register rest.length reg) := by
        rw [lexical]
        cases parent.declared name <;> rfl
      obtain ⟨htable, hrest⟩ := h
      have hparent : parent.Indexed := hindexed parent (List.mem_cons_of_mem _ List.mem_cons_self)
      have hentry := hparent.entry name
      rw [resolveUpvalue]
      cases hindex : f.upvalueIndex name with
      | some i =>
        obtain ⟨slot, hslot, hlex⟩ := htable.meaning name i hindex
        refine ⟨⟨htable, hrest⟩, iff_of_false (by simp) (by rw [hlex]; simp), fun j hj => ?_, fun j hj g hg => ?_⟩
        · cases hj
          rw [hslot, hlex]
        · cases hj
          cases hg
          exact hindex
      | none =>
        cases hlocal : (parent.findLocalEntry name).bind fun i => parent.locals[i]?.map fun l => (i, l.reg) with
        | some found =>
          rw [hlocal] at hentry
          rw [← hentry] at hlexical
          have hslot : designates (f.addUpvalue name ⟨true, found.2⟩ :: parent.box found.1 :: rest) f.upvalues.length =
              some (.register rest.length found.2) := by
            rw [designates, Frame.addUpvalue, List.getElem?_concat_length]
          have hgrown : List.Forall₂ (Grown name) (parent :: rest) (parent.box found.1 :: rest) :=
            .cons (.box _ _) (List.forall₂_same.mpr fun g _ => .refl g)
          have hlex : lexical outer name (f :: parent.box found.1 :: rest) = some (.register rest.length found.2) := by
            rw [lexical_grown (.cons (.refl f) hgrown), hlexical]
            rfl
          refine ⟨⟨(htable.grown hgrown).addUpvalue hindex hslot hlex, hrest.head rfl rfl rfl⟩, ?_, ?_, ?_⟩
          · exact iff_of_false (by simp) (by rw [hlexical]; simp)
          · rintro i ⟨⟩
            rw [hslot, hlexical]
            rfl
          · rintro i ⟨⟩ g ⟨⟩
            exact addUpvalue_index hindex
        | none =>
          rw [hlocal] at hentry
          rw [← hentry] at hlexical
          have hgrown := resolveUpvalue_grown outer name (parent :: rest)
          have hplace {i : ℕ} := @resolveUpvalue_place name outer parent rest i
          have hpasses : handsDown name (f :: parent :: rest) = parent :: handsDown name (parent :: rest) := by
            rw [handsDown, hindex, ← hentry]
            rfl
          have hfits' : Fits outer name (parent :: rest) := fun hne p hp =>
            hfits (by rwa [hlexical]) p (hpasses ▸ List.mem_cons_of_mem _ hp)
          have hspec := ih (fun g hg => hindexed g (List.mem_cons_of_mem _ hg)) hrest hfits'
          cases hresolve : resolveUpvalue outer name (parent :: rest) with
          | mk inherited frames' =>
            rw [hresolve] at hspec hgrown hplace
            cases inherited with
            | none =>
              refine ⟨?_, ?_, fun i hi => (by cases hi), fun i hi => (by cases hi)⟩
              · cases hgrown with
                | cons hhead htail => exact ⟨htable.grown (.cons hhead htail), hspec.sound⟩
              · rw [hlexical]
                exact hspec.none_iff
            | some inherited =>
              have hmeaning := hspec.meaning inherited rfl
              have hne : lexical outer name (parent :: rest) ≠ none := fun hnone => by
                cases hspec.none_iff.mpr hnone
              obtain ⟨slot, hslot⟩ := Option.ne_none_iff_exists'.mp hne
              have hlt : inherited < 2 ^ 16 := by
                rw [hplace rfl]
                exact hfits (by rwa [hlexical]) parent (hpasses ▸ List.mem_cons_self)
              have hnarrow : (UInt16.ofNat inherited).toNat = inherited := by
                rw [UInt16.toNat_ofNat']
                exact Nat.mod_eq_of_lt hlt
              cases hgrown with
              | @cons _ parent' _ rest' hhead htail =>
                have hlex : lexical outer name (f :: parent' :: rest') = some slot := by
                  rw [lexical_grown (.cons (.refl f) (.cons hhead htail)), hlexical]
                  exact hslot
                have hnew : designates (f.addUpvalue name ⟨false, UInt16.ofNat inherited⟩ :: parent' :: rest')
                    f.upvalues.length = some slot := by
                  rw [designates, Frame.addUpvalue, List.getElem?_concat_length]
                  simp only [hnarrow]
                  exact hmeaning.trans hslot
                refine ⟨⟨(htable.grown (.cons hhead htail)).addUpvalue hindex hnew hlex, hspec.sound⟩, ?_, ?_, ?_⟩
                · exact iff_of_false (by simp) (by rw [hlexical]; exact hne)
                · rintro i ⟨⟩
                  rw [hnew, hlexical]
                  exact hslot.symm
                · rintro i ⟨⟩ g ⟨⟩
                  exact addUpvalue_index hindex

/-! ## Runs -/

theorem Sound.drop (h : Sound outer frames) (inner : ℕ) : Sound outer (frames.drop inner) := by
  induction inner generalizing frames with
  | zero => exact h
  | succ inner ih =>
    cases frames with
    | nil => trivial
    | cons f rest =>
      cases rest with
      | nil => rw [List.drop_succ_cons, List.drop_nil]; trivial
      | cons parent rest => exact ih h.2

theorem Sound.append {inside outside outside' : List Frame} (h : Sound outer (inside ++ outside)) (hne : outside ≠ [])
    (hsound : Sound outer outside') (hgrown : List.Forall₂ (Grown name) outside outside') :
    Sound outer (inside ++ outside') := by
  induction inside with
  | nil => exact hsound
  | cons f inside ih =>
    have hrefl : List.Forall₂ (Grown name) inside inside := List.forall₂_same.mpr fun g _ => .refl g
    have hall : List.Forall₂ (Grown name) (inside ++ outside) (inside ++ outside') := List.rel_append hrefl hgrown
    rw [List.cons_append] at h ⊢
    obtain ⟨parent, rest, heq⟩ := List.exists_cons_of_ne_nil (List.append_ne_nil_of_right_ne_nil inside hne)
    rw [heq] at h hall
    have hinside : Sound outer (inside ++ outside') := ih (heq ▸ h.2)
    cases hall' : inside ++ outside' with
    | nil =>
      rw [hall'] at hall
      cases hall
    | cons parent' rest' =>
      rw [hall'] at hall hinside
      exact ⟨h.1.grown hall, hinside⟩

theorem foldl_addUpvalue (named : List Text) (k : ℕ) (f : Frame) :
    let f' := (named.zipIdx k).foldl (fun f named => f.addUpvalue named.1 ⟨false, UInt16.ofNat named.2⟩) f
    f'.upvalues.length = f.upvalues.length + named.length ∧ f'.locals = f.locals ∧ f'.localIndex = f.localIndex ∧
      ∀ name, f'.upvalueIndex name = (f.upvalueIndex name).or ((named.idxOf? name).map (· + f.upvalues.length)) := by
  induction named generalizing k f with
  | nil => exact ⟨rfl, rfl, rfl, fun name => (Option.or_none).symm⟩
  | cons first named ih =>
    obtain ⟨hlength, hlocals, hlocalIndex, hindex⟩ := ih (k + 1) (f.addUpvalue first ⟨false, UInt16.ofNat k⟩)
    have hadded : (f.addUpvalue first ⟨false, UInt16.ofNat k⟩).upvalues.length = f.upvalues.length + 1 := by
      simp only [Frame.addUpvalue, List.length_append, List.length_singleton]
    rw [List.zipIdx_cons, List.foldl_cons]
    refine ⟨by rw [hlength, hadded, List.length_cons]; omega, hlocals, hlocalIndex, fun name => ?_⟩
    rw [hindex name, hadded, List.idxOf?_cons]
    by_cases hname : first = name
    · subst hname
      rw [beq_self_eq_true, if_pos rfl, Option.map_some, Nat.zero_add, Frame.addUpvalue]
      cases hold : f.upvalueIndex first with
      | none => simp
      | some i => simp [hold]
    · have hold : (f.addUpvalue first ⟨false, UInt16.ofNat k⟩).upvalueIndex name = f.upvalueIndex name := by
        rw [Frame.addUpvalue]
        dsimp only
        split_ifs
        · rfl
        · exact Function.update_of_ne (Ne.symm hname) _ _
      rw [hold, beq_false_of_ne hname, if_neg Bool.false_ne_true, Option.map_map]
      congr 2
      funext i
      simp only [Function.comp_apply]
      omega

theorem entry_sound (outer : List Text) : (entry outer).Indexed ∧ Sound outer [entry outer] := by
  obtain ⟨hlength, hlocals, hlocalIndex, hindex⟩ := foldl_addUpvalue outer 0 {}
  refine ⟨?_, ?_, fun name => ?_⟩
  · rw [Frame.Indexed, Frame.names, entry, hlocals, hlocalIndex]
    exact .nil
  · rw [entry, hlength]
    exact Nat.zero_add _
  · rw [entry, hindex name]
    exact (Option.none_or).trans (by simp)

/-- A mention whose variables fit, for the condition on the steps of a run. -/
def StepFits (outer : List Text) (frames : List Frame) : CompileStep → Prop
  | .resolveUpvalue inner name => Fits outer name (frames.drop inner)
  | _ => True

theorem indexed_grown (h : List.Forall₂ (Grown name) frames frames') (hindexed : ∀ f ∈ frames, f.Indexed) :
    ∀ f ∈ frames', f.Indexed := by
  induction h with
  | nil => exact hindexed
  | cons hhead htail ih =>
    obtain ⟨hf, hrest⟩ := List.forall_mem_cons.mp hindexed
    exact List.forall_mem_cons.mpr ⟨hhead.indexed hf, ih hrest⟩

theorem indexed_step {label : CompileStep} (h : ∀ f ∈ frames, f.Indexed) (hstep : (compilerRuns outer).step frames label frames') :
    ∀ f ∈ frames', f.Indexed := by
  have hhead {g : Frame} {rest : List Frame} (hg : g.Indexed) (hrest : ∀ f ∈ rest, f.Indexed) : ∀ f ∈ g :: rest, f.Indexed :=
    List.forall_mem_cons.mpr ⟨hg, hrest⟩
  cases label with
  | pushFunction =>
    obtain rfl := hstep
    exact hhead .nil h
  | popFunction =>
    obtain ⟨f, rfl, -⟩ := hstep
    exact fun g hg => h g (List.mem_cons_of_mem _ hg)
  | pushScope =>
    obtain ⟨f, rest, rfl, rfl⟩ := hstep
    exact hhead (h f List.mem_cons_self) fun g hg => h g (List.mem_cons_of_mem _ hg)
  | popScope =>
    obtain ⟨f, rest, rfl, -, rfl⟩ := hstep
    exact hhead (h f List.mem_cons_self).popScope fun g hg => h g (List.mem_cons_of_mem _ hg)
  | addLocal l =>
    obtain ⟨f, rest, rfl, rfl⟩ := hstep
    exact hhead ((h f List.mem_cons_self).addLocal l) fun g hg => h g (List.mem_cons_of_mem _ hg)
  | resolveUpvalue inner name =>
    obtain ⟨-, rfl⟩ := hstep
    intro g hg
    rcases List.mem_append.mp hg with hg | hg
    · exact h g (List.mem_of_mem_take hg)
    · exact indexed_grown (resolveUpvalue_grown outer name _) (fun f hf => h f (List.mem_of_mem_drop hf)) g hg

/-- What every step keeps of the tables. -/
theorem sound_step {label : CompileStep} (hindexed : ∀ f ∈ frames, f.Indexed) (hne : frames ≠ []) (h : Sound outer frames)
    (hfits : StepFits outer frames label) (hstep : (compilerRuns outer).step frames label frames') :
    frames' ≠ [] ∧ Sound outer frames' := by
  cases label with
  | pushFunction =>
    obtain rfl := hstep
    obtain ⟨parent, rest, rfl⟩ := List.exists_cons_of_ne_nil hne
    refine ⟨List.cons_ne_nil _ _, ⟨rfl, List.nodup_nil, fun name i => ?_, fun name i hi => (by cases hi)⟩, h⟩
    exact iff_of_false (by simp) (by simp)
  | popFunction =>
    obtain ⟨f, rfl, hne'⟩ := hstep
    obtain ⟨parent, rest, rfl⟩ := List.exists_cons_of_ne_nil hne'
    exact ⟨hne', h.2⟩
  | pushScope =>
    obtain ⟨f, rest, rfl, rfl⟩ := hstep
    exact ⟨List.cons_ne_nil _ _, h.head rfl rfl rfl⟩
  | popScope =>
    obtain ⟨f, rest, rfl, hmarks, rfl⟩ := hstep
    obtain ⟨mark, marks, heq⟩ := List.exists_cons_of_ne_nil hmarks
    rw [Frame.popScope, heq]
    exact ⟨List.cons_ne_nil _ _, h.head rfl rfl rfl⟩
  | addLocal l =>
    obtain ⟨f, rest, rfl, rfl⟩ := hstep
    exact ⟨List.cons_ne_nil _ _, h.head rfl rfl rfl⟩
  | resolveUpvalue inner name =>
    obtain ⟨hinner, rfl⟩ := hstep
    have hne' : frames.drop inner ≠ [] := fun hnil => by
      have := List.drop_eq_nil_iff.mp hnil
      omega
    have hgrown := resolveUpvalue_grown outer name (frames.drop inner)
    have hspec := resolveUpvalue_spec (fun f hf => hindexed f (List.mem_of_mem_drop hf)) (h.drop inner) hfits
    have hsplit : Sound outer (frames.take inner ++ frames.drop inner) := by rwa [List.take_append_drop]
    refine ⟨fun hnil => ?_, hsplit.append hne' hspec.sound hgrown⟩
    have hlength := hgrown.length_eq
    rw [(List.append_eq_nil_iff.mp hnil).2, List.length_nil, List.length_eq_zero_iff] at hlength
    exact hne' hlength

/-- The scope tables of a state: the index finds the local that the search finds. -/
def LocalsFound (frames : List Frame) : Prop :=
  ∀ f ∈ frames, ∀ name, f.findLocalEntry name = ShadowIndex.scanBack f.names name f.locals.length ∧
    f.findLocal name = f.declared name

/-- The tables of captured variables in a state. -/
structure Captured (outer : List Text) (frames : List Frame) : Prop where
  -- a variable in a table is the one its name stands for
  tables : ∀ inner name i, (∃ f ∈ (frames.drop inner).head?, f.upvalueIndex name = some i) →
    ∃ slot, designates (frames.drop inner) i = some slot ∧ lexical outer name (frames.drop inner) = some slot
  -- a mention comes to it
  mentions : ∀ inner name, Fits outer name (frames.drop inner) →
    ((resolveUpvalue outer name (frames.drop inner)).1 = none ↔ lexical outer name (frames.drop inner) = none) ∧
      ∀ i, (resolveUpvalue outer name (frames.drop inner)).1 = some i →
        designates (resolveUpvalue outer name (frames.drop inner)).2 i = lexical outer name (frames.drop inner)
  -- a function has one descriptor for a name, which every later mention comes to
  once : (∀ f ∈ frames.dropLast, f.upvalueNames.length = f.upvalues.length ∧ f.upvalueNames.Nodup) ∧
    ∀ inner name, Fits outer name (frames.drop inner) → (resolveUpvalue outer name (frames.drop inner)).1 ≠ none →
      resolveUpvalue outer name (resolveUpvalue outer name (frames.drop inner)).2 =
        resolveUpvalue outer name (frames.drop inner)

theorem resolveUpvalue_held {f : Frame} {rest : List Frame} {i : ℕ} (h : f.upvalueIndex name = some i)
    (hsound : Sound outer (f :: rest)) : resolveUpvalue outer name (f :: rest) = (some i, f :: rest) := by
  cases rest with
  | nil =>
    have houter : outer ≠ [] := by
      rintro rfl
      rw [hsound.2 name] at h
      cases h
    rw [resolveUpvalue, if_neg houter, h]
  | cons parent rest => rw [resolveUpvalue, h]

theorem Sound.distinct (h : Sound outer frames) :
    ∀ f ∈ frames.dropLast, f.upvalueNames.length = f.upvalues.length ∧ f.upvalueNames.Nodup := by
  induction frames with
  | nil => exact fun f hf => absurd hf List.not_mem_nil
  | cons f rest ih =>
    cases rest with
    | nil => exact fun f hf => absurd hf List.not_mem_nil
    | cons parent rest =>
      rw [List.dropLast_cons_cons, List.forall_mem_cons]
      exact ⟨⟨h.1.parallel, h.1.distinct⟩, ih h.2⟩

theorem Sound.captured (hindexed : ∀ f ∈ frames, f.Indexed) (h : Sound outer frames) : Captured outer frames := by
  have hspec (inner : ℕ) (name : Text) (hfits : Fits outer name (frames.drop inner)) :=
    resolveUpvalue_spec (fun f hf => hindexed f (List.mem_of_mem_drop hf)) (h.drop inner) hfits
  refine ⟨fun inner name i hi => ?_, fun inner name hfits => ?_, h.distinct, fun inner name hfits hsome => ?_⟩
  · obtain ⟨f, hf, hi⟩ := hi
    obtain ⟨rest, heq⟩ := List.head?_eq_some_iff.mp hf
    have hdrop := h.drop inner
    rw [heq] at hdrop ⊢
    cases rest with
    | nil =>
      have hindex := hdrop.2 name
      rw [hi] at hindex
      have hlt : i < f.upvalues.length := by
        rw [hdrop.1]
        exact (List.idxOf?_eq_some_iff.mp hindex.symm).1
      exact ⟨.caller i, by rw [designates, if_pos hlt], by rw [lexical, ← hindex]; rfl⟩
    | cons parent rest => exact hdrop.1.meaning name i hi
  · exact ⟨(hspec inner name hfits).none_iff, (hspec inner name hfits).meaning⟩
  · obtain ⟨i, hi⟩ := Option.ne_none_iff_exists'.mp hsome
    have hresolved := hspec inner name hfits
    cases hresult : resolveUpvalue outer name (frames.drop inner) with
    | mk found after =>
      rw [hresult] at hresolved hi
      obtain rfl : found = some i := hi
      cases after with
      | nil =>
        have hmeaning := hresolved.meaning i rfl
        have hnone : lexical outer name (frames.drop inner) = none := hmeaning.symm
        cases hresolved.none_iff.mpr hnone
      | cons f rest => exact resolveUpvalue_held (hresolved.held i rfl f rfl) hresolved.sound

/-- In every run the index of the locals finds what a search finds; and in every run whose mentions
fit, captured variables are those that the scopes give. -/
theorem scope_tables (outer : List Text) :
    (∀ frames, (compilerRuns outer).Reachable (fun _ _ => True) frames → LocalsFound frames) ∧
      ∀ frames, (compilerRuns outer).Reachable (StepFits outer) frames → Captured outer frames := by
  have hinitial : (∀ f ∈ [entry outer], f.Indexed) ∧ Sound outer [entry outer] :=
    ⟨List.forall_mem_singleton.mpr (entry_sound outer).1, (entry_sound outer).2⟩
  constructor
  · intro frames hreach
    have hindexed : ∀ f ∈ frames, f.Indexed := by
      refine hreach.invariant (P := fun frames => ∀ f ∈ frames, f.Indexed) ?_ fun s l s' hs _ hstep => indexed_step hs hstep
      rintro s rfl
      exact hinitial.1
    exact fun f hf name => ⟨(hindexed f hf).findLocalEntry name, f.findLocal_eq name⟩
  · intro frames hreach
    have hsound : (∀ f ∈ frames, f.Indexed) ∧ frames ≠ [] ∧ Sound outer frames := by
      refine hreach.invariant (P := fun frames => (∀ f ∈ frames, f.Indexed) ∧ frames ≠ [] ∧ Sound outer frames) ?_ ?_
      · rintro s rfl
        exact ⟨hinitial.1, List.cons_ne_nil _ _, hinitial.2⟩
      · rintro s l s' ⟨hindexed, hne, hs⟩ hfits hstep
        exact ⟨indexed_step hindexed hstep, sound_step hindexed hne hs hfits hstep⟩
    exact hsound.2.2.captured hsound.1

/-- A variable of a function, captured two functions further in. -/
theorem scope_tables_captured : ∃ frames, (compilerRuns []).Reachable (StepFits []) frames ∧ frames.length = 4 ∧
    LocalsFound frames ∧ Captured [] frames := by
  have hstart : (compilerRuns []).Reachable (StepFits []) [entry []] := .initial rfl
  have hfunction := hstart.step (l := CompileStep.pushFunction) trivial rfl
  have hlocal := hfunction.step (l := CompileStep.addLocal ⟨ascii "a", 0, false⟩) trivial ⟨_, _, rfl, rfl⟩
  have hinner := (hlocal.step (l := CompileStep.pushFunction) trivial rfl).step (l := CompileStep.pushFunction) trivial rfl
  have hmention := hinner.step (l := CompileStep.resolveUpvalue 0 (ascii "a")) (fun _ => by decide) ⟨by decide, rfl⟩
  refine ⟨_, hmention, by decide, (scope_tables []).1 _ (hmention.mono fun _ _ _ => trivial), ?_⟩
  exact (scope_tables []).2 _ hmention

/-! ## Too many variables -/

/-- A name for each number. -/
def variableName (k : ℕ) : Text := 0x76 :: (Nat.digits 10 k).map fun d => UInt8.ofNat (0x30 + d)

/-- The names that a caller hands over. -/
def callerNames (n : ℕ) : List Text := (List.range n).map variableName

theorem variableName_injective : Function.Injective variableName := by
  intro a b h
  have hdigits (k : ℕ) : ((variableName k).tail.map fun c => c.toNat - 0x30) = Nat.digits 10 k := by
    rw [variableName, List.tail_cons, List.map_map]
    refine (List.map_congr_left fun d hd => ?_).trans (List.map_id _)
    have hlt : d < 10 := Nat.digits_lt_base (by omega) hd
    simp only [Function.comp_apply, UInt8.toNat_ofNat', id_eq]
    omega
  have heq : Nat.digits 10 a = Nat.digits 10 b := by rw [← hdigits, ← hdigits, h]
  exact Nat.digits_inj_iff.mp heq

theorem idxOf?_callerNames {n k : ℕ} (h : k < n) : (callerNames n).idxOf? (variableName k) = some k := by
  rw [List.idxOf?_eq_some_iff]
  refine ⟨by rwa [callerNames, List.length_map, List.length_range], ?_, fun j hj => ?_⟩
  · simp only [callerNames, List.getElem_map, List.getElem_range]
  · simp only [callerNames, List.getElem_map, List.getElem_range]
    exact fun heq => absurd (variableName_injective heq) (Nat.ne_of_lt hj)

/-- A mention, in a function of the code of a direct `eval`, of a variable that the caller handed over. -/
theorem caller_mention {n k : ℕ} (h : k < n) :
    (resolveUpvalue (callerNames n) (variableName k) [{}, entry (callerNames n)]).1 = some 0 ∧
      designates (resolveUpvalue (callerNames n) (variableName k) [{}, entry (callerNames n)]).2 0 =
        some (.caller (k % 2 ^ 16)) ∧
      lexical (callerNames n) (variableName k) [{}, entry (callerNames n)] = some (.caller k) := by
  obtain ⟨hindexed, hlength, hindex⟩ := entry_sound (callerNames n)
  obtain ⟨-, hlocals, -, -⟩ := foldl_addUpvalue (callerNames n) 0 {}
  have hcount : (entry (callerNames n)).upvalues.length = n := by
    rw [hlength, callerNames, List.length_map, List.length_range]
  have hne : callerNames n ≠ [] := by
    intro hnil
    have hidx := idxOf?_callerNames h
    rw [hnil] at hidx
    cases hidx
  have hdeclared : (entry (callerNames n)).declared (variableName k) = none := by
    rw [Frame.declared, entry, hlocals]
    rfl
  have hlocal := hindexed.entry (variableName k)
  rw [hdeclared, Option.map_eq_none_iff] at hlocal
  have hresolve : resolveUpvalue (callerNames n) (variableName k) [{}, entry (callerNames n)] =
      (some 0, [Frame.addUpvalue {} (variableName k) ⟨false, UInt16.ofNat k⟩, entry (callerNames n)]) := by
    rw [resolveUpvalue, hlocal, resolveUpvalue, if_neg hne, hindex, idxOf?_callerNames h]
    rfl
  refine ⟨by rw [hresolve], ?_, ?_⟩
  · have hlt : k % 2 ^ 16 < n := lt_of_le_of_lt (Nat.mod_le _ _) h
    rw [hresolve]
    change designates [entry (callerNames n)] (UInt16.ofNat k).toNat = _
    rw [UInt16.toNat_ofNat', designates, if_pos (by rwa [hcount])]
  · rw [lexical, hdeclared]
    change ((callerNames n).idxOf? (variableName k)).map Slot.caller = _
    rw [idxOf?_callerNames h]
    rfl

/-- A caller hands 65537 variables over, and a function in the code of the `eval` that mentions the last
is given the first. -/
theorem narrowed_index :
    (compilerRuns (callerNames 65537)).Reachable (fun _ _ => True) [{}, entry (callerNames 65537)] ∧
      (resolveUpvalue (callerNames 65537) (variableName 65536) [{}, entry (callerNames 65537)]).1 = some 0 ∧
      designates (resolveUpvalue (callerNames 65537) (variableName 65536) [{}, entry (callerNames 65537)]).2 0 =
        some (.caller 0) ∧
      lexical (callerNames 65537) (variableName 65536) [{}, entry (callerNames 65537)] = some (.caller 65536) := by
  obtain ⟨hresult, hdesignates, hlexical⟩ := caller_mention (by omega : 65536 < 65537)
  exact ⟨.step (l := .pushFunction) (.initial rfl) trivial rfl, hresult, hdesignates, hlexical⟩

end CtBrowser.Script.Compile
