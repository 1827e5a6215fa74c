import CtBrowser.Dom.Xml.Parser

/-!
# Entity inclusion

The parse of every document from the engine's buffer is its parse from the text in which references are
spliced, and it ends. A program cannot tell the two sources apart; what is shown here of the parser is that
its loops end within a bound and that it reads no view after an inclusion.

The bound is on the work left: the text ahead and the bytes that inclusions may still bring. A step of a
loop takes some of it, or leaves an error.

## Main results

- `parse_buffer` — the engine's parse is the spliced one.
-/

namespace CtBrowser.Dom.Xml

variable {α β : Type} {p : Parser} {s : Spliced} {Q : α → Parser → Spliced → Prop}

/-! ## Runs -/

/-- A production runs, and what holds then. -/
def Runs (x : Parse α) (p : Parser) (s : Spliced) (Q : α → Parser → Spliced → Prop) : Prop :=
  ∃ a p' s', (x.run p).run s = .ok ((a, p'), s') ∧ Q a p' s'

theorem Runs.mono {Q' : α → Parser → Spliced → Prop} {x : Parse α} (h : Runs x p s Q)
    (himp : ∀ a p' s', Q a p' s' → Q' a p' s') : Runs x p s Q' := by
  obtain ⟨a, p', s', hrun, hq⟩ := h
  exact ⟨a, p', s', hrun, himp a p' s' hq⟩

@[simp] theorem runs_pure {a : α} : Runs (pure a) p s Q ↔ Q a p s := by
  constructor
  · rintro ⟨_, _, _, hrun, hq⟩
    cases hrun
    exact hq
  · exact fun hq => ⟨a, p, s, rfl, hq⟩

@[simp] theorem runs_bind {x : Parse β} {f : β → Parse α} :
    Runs (x >>= f) p s Q ↔ Runs x p s fun b p' s' => Runs (f b) p' s' Q := by
  have hbind : ((x >>= f).run p).run s = ((x.run p).run s).bind fun r => ((f r.1.1).run r.1.2).run r.2 :=
    Reading.run_bind _ _ _
  rw [Runs, hbind]
  constructor
  · rintro ⟨a, p', s', hrun, hq⟩
    rcases hx : (x.run p).run s with e | ⟨⟨b, p₁⟩, s₁⟩
    · rw [hx] at hrun
      cases hrun
    · rw [hx] at hrun
      exact ⟨b, p₁, s₁, hx, a, p', s', hrun, hq⟩
  · rintro ⟨b, p₁, s₁, hx, a, p', s', hrun, hq⟩
    refine ⟨a, p', s', ?_, hq⟩
    rw [hx]
    exact hrun

@[simp] theorem runs_look {Q : Text → Parser → Spliced → Prop} : Runs look p s Q ↔ Q s.unread p s := runs_pure

@[simp] theorem runs_inclusions {Q : ℕ → Parser → Spliced → Prop} :
    Runs inclusions p s Q ↔ Q s.spent.expansions p s := runs_pure

@[simp] theorem runs_advance {Q : Unit → Parser → Spliced → Prop} {n : ℕ} :
    Runs (advance n) p s Q ↔ Q () p (s.advance n) := runs_pure

@[simp] theorem runs_get {Q : Parser → Parser → Spliced → Prop} : Runs get p s Q ↔ Q p p s := runs_pure

@[simp] theorem runs_modify {Q : Unit → Parser → Spliced → Prop} {f : Parser → Parser} :
    Runs (modify f) p s Q ↔ Q () (f p) s := runs_pure

@[simp] theorem runs_ite {c : Prop} [Decidable c] {x y : Parse α} :
    Runs (if c then x else y) p s Q ↔ (c → Runs x p s Q) ∧ (¬ c → Runs y p s Q) := by
  by_cases h : c <;> simp [h]

@[simp] theorem error_fail (message : Text) : (p.fail message).error.isSome = true := by
  rw [Parser.fail]
  cases p.error <;> rfl

@[simp] theorem runs_fail {Q : Unit → Parser → Spliced → Prop} {message : Text} :
    Runs (fail message) p s Q ↔ Q () (p.fail message) s := runs_pure

@[simp] theorem runs_failWith {Q : Unit → Parser → Spliced → Prop} {message : String} :
    Runs (failWith message) p s Q ↔ Q () (p.fail (ascii message)) s := runs_pure

@[simp] theorem runs_failed {Q : Bool → Parser → Spliced → Prop} :
    Runs failed p s Q ↔ Q p.error.isSome p s := runs_pure

@[simp] theorem runs_view {Q : View → Parser → Spliced → Prop} {offset length : ℕ} :
    Runs (view offset length) p s Q ↔ Q ⟨s.spent.expansions, (s.unread.drop offset).take length⟩ p s := runs_pure

theorem runs_readView {Q : Text → Parser → Spliced → Prop} {v : View} (h : v.expansions = s.spent.expansions) :
    Runs (readView v) p s Q ↔ Q v.text p s := by
  simp [readView, h]

@[simp] theorem runs_skipSpace {Q : Unit → Parser → Spliced → Prop} :
    Runs skipSpace p s Q ↔ Q () p (s.advance (s.unread.takeWhile isSpace).length) := runs_pure

@[simp] theorem runs_append {Q : Unit → Parser → Spliced → Prop} {c : Content} :
    Runs (append c) p s Q ↔ Q () { p with nodes := p.nodes ++ [⟨p.opened.head?.map (·.id), c⟩] } s := runs_pure

/-! ## The work that is left -/

/-- The text ahead and the bytes that may still be included. -/
def work (s : Spliced) : ℕ := s.unread.length + (maxExpandedBytes - s.spent.bytes)

@[simp] theorem spent_advance (n : ℕ) : (s.advance n).spent = s.spent := rfl

theorem work_advance_le (s : Spliced) (n : ℕ) : work (s.advance n) ≤ work s := by
  simp only [work, Spliced.advance, List.length_drop]
  omega

theorem work_advance_lt {n : ℕ} (h : s.unread ≠ []) (hn : 0 < n) : work (s.advance n) < work s := by
  have hlen := List.length_pos_of_ne_nil h
  simp only [work, Spliced.advance, List.length_drop]
  omega

theorem ne_nil_of_peek {text : Text} {c : UInt8} (hc : c ≠ 0) (h : peek text 0 = c) : text ≠ [] := by
  rintro rfl
  exact hc h.symm

theorem ne_nil_of_lookingAt {text : Text} {want : String} (hwant : ascii want ≠ []) (h : lookingAt text want = true) :
    text ≠ [] := by
  rintro rfl
  rw [lookingAt, List.isPrefixOf_iff_prefix, List.prefix_nil] at h
  exact hwant h

theorem runs_tooDeep {Q : Bool → Parser → Spliced → Prop} (h : ∀ b p', Q b p' s) : Runs tooDeep p s Q := by
  simp [tooDeep, h]

theorem runs_emit {Q : Unit → Parser → Spliced → Prop} {c : Content} (h : ∀ p', Q () p' s) : Runs (emit c) p s Q := by
  simp only [emit, runs_bind]
  exact runs_tooDeep fun b p' => by cases b <;> simp [h]

theorem runs_name {Q : Text → Parser → Spliced → Prop} (h : ∀ a n, Q a p (s.advance n)) : Runs name p s Q := by
  have h0 := fun a => h a 0
  have hzero : s.advance 0 = s := rfl
  rw [hzero] at h0
  simp [name, h, h0]

theorem runs_comment (p : Parser) (h : s.unread ≠ []) : Runs comment p s fun _ _ s' => work s' < work s := by
  have hlt : work (s.advance 4) < work s := work_advance_lt h (by omega)
  simp only [comment, runs_bind, runs_advance, runs_look]
  split
  · simp only [runs_bind, runs_failWith, runs_advance]
    exact lt_of_le_of_lt (work_advance_le _ _) hlt
  · simp only [runs_bind, runs_view, runs_advance]
    rw [runs_readView rfl]
    exact runs_emit fun p' => lt_of_le_of_lt (work_advance_le _ _) hlt

theorem runs_processingInstruction (p : Parser) (h : s.unread ≠ []) :
    Runs processingInstruction p s fun _ _ s' => work s' < work s := by
  have hlt : work (s.advance 2) < work s := work_advance_lt h (by omega)
  simp only [processingInstruction, runs_bind, runs_advance]
  refine runs_name fun target n => ?_
  have hname : work ((s.advance 2).advance n) < work s := lt_of_le_of_lt (work_advance_le _ _) hlt
  simp only [runs_ite, runs_bind, runs_failWith, runs_look]
  refine ⟨fun _ => hname, fun _ => ?_⟩
  split
  · simp only [runs_bind, runs_failWith, runs_advance]
    exact lt_of_le_of_lt (work_advance_le _ _) hname
  · simp only [runs_bind, runs_skipSpace, runs_look, runs_view, runs_advance, runs_ite, runs_pure]
    have hlast (k m : ℕ) : work ((((s.advance 2).advance n).advance k).advance m) < work s :=
      lt_of_le_of_lt ((work_advance_le _ _).trans (work_advance_le _ _)) hname
    refine ⟨fun _ => hlast _ _, fun _ => ?_⟩
    rw [runs_readView rfl]
    exact runs_emit fun p' => hlast _ _

/-! ## References -/

theorem le_of_find {needle text : Text} {n : ℕ} (h : find needle text = some n) : n + needle.length ≤ text.length := by
  induction text generalizing n with
  | nil =>
    rw [find] at h
    split_ifs at h with hnil
    obtain rfl := Option.some_inj.mp h
    simp [hnil]
  | cons c rest ih =>
    rw [find] at h
    split_ifs at h with hpre
    · obtain rfl := Option.some_inj.mp h
      have hle := (List.isPrefixOf_iff_prefix.mp hpre).length_le
      omega
    · obtain ⟨m, hm, rfl⟩ := Option.map_eq_some_iff.mp h
      have hle := ih hm
      rw [List.length_cons]
      omega

theorem runs_includeEntity (p : Parser) {replacement : Text} {length : ℕ} (hpos : 0 < length)
    (hlength : length ≤ s.unread.length) :
    Runs (includeEntity replacement length) p s fun included p' s' =>
      work s' ≤ work s ∧ (included = true → work s' < work s) ∧ (included = false → p'.error.isSome = true) := by
  have hrun : (((StateT.lift (.includeEntity replacement length .done) : Parse (Option Text)).run p).run s) =
      .ok (((s.includeEntity replacement length).2, p), (s.includeEntity replacement length).1) := by
    have hnot : ¬ (length = 0 ∨ (Source.unread s).length < length) := by
      rw [not_or, not_lt]
      exact ⟨hpos.ne', hlength⟩
    change (if _ then _ else _) = _
    rw [if_neg hnot]
    rfl
  simp only [includeEntity, runs_bind]
  refine ⟨_, _, _, hrun, ?_⟩
  simp only [Spliced.includeEntity, Spent.add]
  split_ifs with hdeep hlarge
  · simp [work]
  · simp only [runs_bind, runs_fail, runs_pure, error_fail, work]
    refine ⟨by omega, by simp, by simp⟩
  · simp only [runs_pure, work, List.length_append, List.length_drop]
    refine ⟨by omega, fun _ => by omega, by simp⟩

/-- A reference takes itself from the work that is left, or leaves an error. -/
theorem runs_reference (p : Parser) (s : Spliced) :
    Runs reference p s fun a p' s' =>
      work s' ≤ work s ∧ (a ≠ none → work s' < work s) ∧ (a = none → p'.error.isSome = true) := by
  simp only [reference, runs_bind, runs_look]
  rcases hfind : find (ascii ";") s.unread with _ | semicolon
  · simp
  have hle : semicolon + 1 ≤ s.unread.length := le_of_find hfind
  have hlt : work (s.advance (semicolon + 1)) < work s :=
    work_advance_lt (List.ne_nil_of_length_pos (by omega)) (by omega)
  simp only [runs_bind, runs_view]
  rw [runs_readView rfl]
  simp only [runs_ite, runs_bind, runs_failWith, runs_pure]
  refine ⟨fun _ => by simp, fun _ => ⟨fun _ => ⟨fun _ => by simp, fun _ => ?_⟩, fun _ => ?_⟩⟩
  · split
    · simp only [runs_bind]
      rw [runs_readView rfl]
      simp
    · simp only [runs_bind, runs_advance, runs_pure]
      exact ⟨hlt.le, fun _ => hlt, by simp⟩
  · split
    · simp only [runs_bind, runs_advance, runs_pure]
      exact ⟨hlt.le, fun _ => hlt, by simp⟩
    · simp only [runs_bind, runs_get]
      rw [runs_readView rfl]
      split
      · rw [runs_bind]
        refine (runs_includeEntity p (Nat.succ_pos _) hle).mono fun included p' s' h => ?_
        cases included <;> simp_all
      · simp only [runs_bind]
        rw [runs_readView rfl]
        simp

/-! ## The document type -/

variable {limit : ℕ}

theorem runs_quotedLiteral (p : Parser) (s : Spliced) :
    Runs quotedLiteral p s fun _ _ s' => work s' ≤ work s := by
  simp only [quotedLiteral, runs_bind, runs_look, runs_ite, runs_pure, runs_advance, runs_failWith]
  have hle (n : ℕ) : work ((s.advance 1).advance n) ≤ work s := (work_advance_le _ _).trans (work_advance_le _ _)
  exact ⟨fun _ => le_rfl, fun _ => ⟨fun _ => hle _, fun _ => (work_advance_le _ _).trans (hle _)⟩⟩

theorem runs_entityValue (quote : UInt8) {fuel : ℕ} (hfuel : work s < fuel) (p : Parser) (literal : Text) :
    Runs (entityValue quote fuel literal) p s fun _ _ s' => work s' ≤ work s := by
  induction fuel generalizing p s literal with
  | zero => exact absurd hfuel (Nat.not_lt_zero _)
  | succ fuel ih =>
    simp only [entityValue, runs_bind, runs_look, runs_ite, runs_pure, runs_advance]
    refine ⟨fun _ => le_rfl, fun hmore => ⟨fun _ => ?_, fun _ => ?_⟩⟩
    · refine (runs_reference p s).mono fun a p' s' h => ?_
      obtain ⟨hle, hlt, -⟩ := h
      rcases a with _ | more
      · exact runs_pure.mpr hle
      · have hlt := hlt (by simp)
        exact (ih (by omega) p' _).mono fun _ _ _ h => h.trans hle
    · have hlt : work (s.advance 1) < work s := work_advance_lt (fun hnil => hmore (.inl hnil)) (by omega)
      exact (ih (by omega) p _).mono fun _ _ _ h => h.trans hlt.le

theorem runs_entityLiteral (hlimit : work s < limit) (p : Parser) :
    Runs (entityLiteral limit) p s fun _ _ s' => work s' ≤ work s := by
  have hle : work (s.advance 1) ≤ work s := work_advance_le _ _
  simp only [entityLiteral, runs_bind, runs_look, runs_ite, runs_pure, runs_advance]
  refine ⟨fun _ => le_rfl, fun _ => (runs_entityValue _ (by omega) p []).mono fun a p' s' h => ?_⟩
  rcases a with _ | literal
  · exact runs_pure.mpr (h.trans hle)
  · simp only [runs_bind, runs_look, runs_ite, runs_failWith, runs_pure, runs_advance]
    exact ⟨fun _ => h.trans hle, fun _ => ((work_advance_le _ _).trans h).trans hle⟩

theorem runs_parameterMark {Q : Bool → Parser → Spliced → Prop} (h : ∀ b n m, Q b p ((s.advance n).advance m)) :
    Runs parameterMark p s Q := by
  have hnone := h false 0 0
  simp only [parameterMark, runs_bind, runs_look, runs_ite, runs_advance, runs_skipSpace, runs_pure]
  exact ⟨fun _ => h _ _ _, fun _ => hnone⟩

theorem runs_entityDefinition (hlimit : work s < limit) (p : Parser) (parameter : Bool) (entityName : Text) :
    Runs (entityDefinition limit parameter entityName) p s fun _ _ s' => work s' ≤ work s := by
  simp only [entityDefinition, runs_bind]
  refine (runs_entityLiteral hlimit p).mono fun a p' s' h => ?_
  rcases a with _ | literal
  · exact runs_pure.mpr h
  · have hadvance := (work_advance_le s' (declarationLength none s'.unread)).trans h
    simp only [runs_bind, runs_look, runs_advance]
    rcases literal with _ | literal
    · exact runs_pure.mpr hadvance
    · simp only [runs_bind, runs_get, runs_ite, runs_pure, runs_modify]
      exact ⟨fun _ => hadvance, fun _ => hadvance⟩

theorem runs_entityDeclaration (hlimit : work s < limit) (p : Parser) (h : s.unread ≠ []) :
    Runs (entityDeclaration limit) p s fun _ _ s' => work s' < work s := by
  have hlt : work (s.advance 8) < work s := work_advance_lt h (by omega)
  simp only [entityDeclaration, runs_bind, runs_advance, runs_skipSpace]
  refine runs_parameterMark fun parameter n m => runs_name fun entityName k => ?_
  have hadvance (j : ℕ) :
      work ((((((s.advance 8).advance (((s.advance 8).unread.takeWhile isSpace).length)).advance n).advance m).advance
        k).advance j) < work s :=
    lt_of_le_of_lt ((work_advance_le _ _).trans ((work_advance_le _ _).trans ((work_advance_le _ _).trans
      ((work_advance_le _ _).trans (work_advance_le _ _))))) hlt
  simp only [runs_ite, runs_failWith, runs_bind, runs_skipSpace]
  refine ⟨fun _ => hadvance 0, fun _ => ?_⟩
  exact (runs_entityDefinition ((hadvance _).trans hlimit) p _ _).mono fun _ _ _ h => lt_of_le_of_lt h (hadvance _)

theorem runs_commentSkipped {Q : Unit → Parser → Spliced → Prop} (h : s.unread ≠ [])
    (hq : ∀ s', work s' < work s → Q () p s') : Runs commentSkipped p s Q := by
  simp only [commentSkipped, runs_bind, runs_look]
  split
  · exact runs_advance.mpr (hq _ (work_advance_lt h (List.length_pos_of_ne_nil h)))
  · exact runs_advance.mpr (hq _ (work_advance_lt h (by omega)))

theorem declarationLength_pos {text : Text} (h : text ≠ []) : 0 < declarationLength none text := by
  rcases text with _ | ⟨c, rest⟩
  · exact absurd rfl h
  · rw [declarationLength]
    split_ifs <;> omega

theorem runs_internalSubset {fuel : ℕ} (hfuel : work s < fuel) (hlimit : work s < limit) (p : Parser) :
    Runs (internalSubset limit fuel) p s fun _ _ s' => work s' ≤ work s := by
  induction fuel generalizing p s with
  | zero => exact absurd hfuel (Nat.not_lt_zero _)
  | succ fuel ih =>
    have hskip := work_advance_le s (s.unread.takeWhile isSpace).length
    simp only [internalSubset, runs_bind, runs_look, runs_ite, runs_failWith, runs_skipSpace, runs_advance]
    generalize s.advance (s.unread.takeWhile isSpace).length = s₁ at hskip ⊢
    -- the rest of the loop, after something was passed
    have hloop {p₂ : Parser} {s₂ : Spliced} (h : work s₂ < work s₁) :
        Runs (internalSubset limit fuel) p₂ s₂ fun _ _ s' => work s' ≤ work s :=
      (ih (by omega) (by omega) p₂).mono fun _ _ _ hle => by omega
    refine ⟨fun _ => le_rfl, fun _ => ⟨fun _ => (work_advance_le _ _).trans hskip, fun _ => ⟨fun hat => ?_, fun _ =>
      ⟨fun hat => ?_, fun _ => ⟨fun hat => ?_, fun _ => ⟨fun hat => ?_, fun _ => ⟨fun hat => ?_, fun _ => hskip⟩⟩⟩⟩⟩⟩⟩
    · exact runs_commentSkipped (ne_nil_of_lookingAt (by decide) hat) fun s₂ h => hloop h
    · split
      · exact runs_failWith.mpr hskip
      · simp only [runs_bind, runs_advance]
        exact hloop (work_advance_lt (ne_nil_of_lookingAt (by decide) hat) (by omega))
    · refine (runs_entityDeclaration (by omega) p (ne_nil_of_lookingAt (by decide) hat)).mono fun _ p₂ s₂ h => ?_
      simp only [runs_failed, runs_pure]
      exact ⟨fun _ => by omega, fun _ => hloop h⟩
    · have hne := ne_nil_of_lookingAt (by decide) hat
      exact hloop (work_advance_lt hne (declarationLength_pos hne))
    · split
      · exact runs_failWith.mpr hskip
      · simp only [runs_bind, runs_advance]
        exact hloop (work_advance_lt (ne_nil_of_peek (by decide) hat) (by omega))

theorem runs_externalId (p : Parser) (s : Spliced) : Runs externalId p s fun _ _ s' => work s' ≤ work s := by
  have hle (n : ℕ) : work ((s.advance 6).advance n) ≤ work s := (work_advance_le _ _).trans (work_advance_le _ _)
  simp only [externalId, runs_bind, runs_look, runs_ite, runs_advance, runs_skipSpace, runs_pure]
  refine ⟨fun _ => ?_, fun _ => ⟨fun _ => ?_, fun _ => le_rfl⟩⟩
  · refine (runs_quotedLiteral p _).mono fun a p₁ s₁ h₁ => ?_
    rcases a with _ | publicId
    · simpa only [runs_bind, runs_failWith, runs_pure] using h₁.trans (hle _)
    · simp only [runs_bind, runs_skipSpace]
      refine (runs_quotedLiteral p₁ _).mono fun a p₂ s₂ h₂ => ?_
      have h₂ := (h₂.trans (work_advance_le _ _)).trans (h₁.trans (hle _))
      rcases a with _ | systemId
      · simpa only [runs_bind, runs_failWith, runs_pure] using h₂
      · exact runs_pure.mpr h₂
  · refine (runs_quotedLiteral p _).mono fun a p₁ s₁ h₁ => ?_
    rcases a with _ | systemId
    · simpa only [runs_bind, runs_failWith, runs_pure] using h₁.trans (hle _)
    · exact runs_pure.mpr (h₁.trans (hle _))

theorem runs_bracketed (hlimit : work s < limit) (p : Parser) :
    Runs (bracketed limit) p s fun _ _ s' => work s' ≤ work s := by
  have hle := work_advance_le s 1
  simp only [bracketed, runs_bind, runs_look, runs_ite, runs_advance, runs_pure]
  refine ⟨fun _ => ?_, fun _ => le_rfl⟩
  refine (runs_internalSubset (by omega) (by omega) p).mono fun _ p' s' h => ?_
  simpa only [runs_failed] using h.trans hle

theorem runs_doctype (hlimit : work s < limit) (p : Parser) (h : s.unread ≠ []) :
    Runs (doctype limit) p s fun _ _ s' => work s' < work s := by
  have hlt : work (s.advance 9) < work s := work_advance_lt h (by omega)
  simp only [doctype, runs_bind, runs_advance, runs_skipSpace]
  refine runs_name fun doctypeName n => ?_
  refine (runs_externalId p _).mono fun ids p₁ s₁ h₁ => ?_
  have h₁ : work s₁ < work s := lt_of_le_of_lt (h₁.trans ((work_advance_le _ _).trans ((work_advance_le _ _).trans
    (work_advance_le _ _)))) hlt
  rcases ids with _ | ⟨publicId, systemId⟩
  · exact runs_pure.mpr h₁
  have hskip := work_advance_le s₁ (s₁.unread.takeWhile isSpace).length
  simp only [runs_bind, runs_skipSpace]
  refine (runs_bracketed (by omega) p₁).mono fun goOn p₂ s₂ h₂ => ?_
  have hle (n m : ℕ) : work ((s₂.advance n).advance m) ≤ work s₂ := (work_advance_le _ _).trans (work_advance_le _ _)
  simp only [runs_ite, runs_pure, runs_bind, runs_skipSpace, runs_look, runs_failWith, runs_advance]
  refine ⟨fun _ => by omega, fun _ => ⟨fun _ => ?_, fun _ => runs_emit fun p' => ?_⟩⟩
  · have := work_advance_le s₂ (s₂.unread.takeWhile isSpace).length
    omega
  · have := hle (s₂.unread.takeWhile isSpace).length 1
    omega

/-! ## Elements -/

theorem runs_quotedValue (quote : UInt8) {fuel : ℕ} (hfuel : work s < fuel) (p : Parser) (value : Text) :
    Runs (quotedValue quote fuel value) p s fun _ _ s' => work s' ≤ work s := by
  induction fuel generalizing p s value with
  | zero => exact absurd hfuel (Nat.not_lt_zero _)
  | succ fuel ih =>
    have hle := work_advance_le s 1
    simp only [quotedValue, runs_bind, runs_look, runs_ite, runs_failWith, runs_pure, runs_advance]
    refine ⟨fun _ => le_rfl, fun hne => ⟨fun _ => hle, fun _ => ⟨fun _ => le_rfl, fun _ => ⟨fun _ => ?_, fun _ => ?_⟩⟩⟩⟩
    · refine (runs_reference p s).mono fun a p' s' h => ?_
      obtain ⟨hle, hlt, -⟩ := h
      rcases a with _ | more
      · exact runs_pure.mpr hle
      · have hlt := hlt (by simp)
        exact (ih (by omega) p' _).mono fun _ _ _ h => h.trans hle
    · have hlt : work (s.advance 1) < work s := work_advance_lt hne (by omega)
      exact (ih (by omega) p _).mono fun _ _ _ h => h.trans hle

theorem runs_quoted (hlimit : work s < limit) (p : Parser) : Runs (quoted limit) p s fun _ _ s' => work s' ≤ work s := by
  have hle := work_advance_le s 1
  simp only [quoted, runs_bind, runs_look, runs_ite, runs_pure, runs_advance]
  exact ⟨fun _ => le_rfl, fun _ => (runs_quotedValue _ (by omega) p []).mono fun _ _ _ h => h.trans hle⟩

theorem runs_attributes (qualified : Text) {fuel : ℕ} (hfuel : work s < fuel) (hlimit : work s < limit) (p : Parser)
    (attrs : List (Text × Text)) :
    Runs (attributes limit qualified fuel attrs) p s fun _ _ s' => work s' ≤ work s := by
  induction fuel generalizing p s attrs with
  | zero => exact absurd hfuel (Nat.not_lt_zero _)
  | succ fuel ih =>
    have hskip := work_advance_le s (s.unread.takeWhile isSpace).length
    simp only [attributes, runs_bind, runs_look, runs_skipSpace, runs_ite, runs_fail, runs_pure, runs_advance]
    generalize s.advance (s.unread.takeWhile isSpace).length = s₁ at hskip ⊢
    have hle (n : ℕ) := (work_advance_le s₁ n).trans hskip
    refine ⟨fun _ => hskip, fun _ => ⟨fun _ => hle 2, fun _ => ⟨fun _ => hle 1, fun _ => ⟨fun _ => hskip, fun _ => ?_⟩⟩⟩⟩
    refine runs_name fun attrName n => ?_
    refine ⟨fun _ => hle n, fun _ => ⟨fun _ => hle n, fun _ => ?_⟩⟩
    have hskip' := (work_advance_le (s₁.advance n) ((s₁.advance n).unread.takeWhile isSpace).length).trans (hle n)
    generalize (s₁.advance n).advance ((s₁.advance n).unread.takeWhile isSpace).length = s₂ at hskip' ⊢
    refine ⟨fun _ => hskip', fun hat => ?_⟩
    have hlt : work (s₂.advance 1) < work s₂ :=
      work_advance_lt (ne_nil_of_peek (by decide) (not_not.mp hat)) (by omega)
    have hvalue := work_advance_le (s₂.advance 1) ((s₂.advance 1).unread.takeWhile isSpace).length
    refine (runs_quoted (by omega) p).mono fun value p' s' h => ?_
    rcases value with _ | value
    · simp only [runs_bind, runs_fail, runs_pure]
      omega
    · simp only [runs_ite, runs_bind, runs_fail, runs_pure]
      exact ⟨fun _ => by omega, fun _ => (ih (by omega) (by omega) p' _).mono fun _ _ _ h' => by omega⟩

theorem runs_createElement {Q : ℕ → Parser → Spliced → Prop} {qualified : Text} {attrs : List (Text × Text)}
    (h : ∀ id p', Q id p' s) : Runs (createElement qualified attrs) p s Q := by
  simp only [createElement, runs_bind, runs_get, runs_append, runs_ite, runs_modify, runs_pure]
  exact ⟨fun _ => h _ _, fun _ => h _ _⟩

theorem runs_startTag (hlimit : work s < limit) (p : Parser) (h : s.unread ≠ []) :
    Runs (startTag limit) p s fun _ _ s' => work s' < work s := by
  have hlt : work (s.advance 1) < work s := work_advance_lt h (by omega)
  simp only [startTag, runs_bind, runs_advance]
  refine runs_name fun qualified n => ?_
  have hname := lt_of_le_of_lt (work_advance_le (s.advance 1) n) hlt
  simp only [runs_ite, runs_failWith, runs_fail, runs_bind]
  refine ⟨fun _ => hname, fun _ => ⟨fun _ => hname, fun _ => ?_⟩⟩
  refine (runs_attributes qualified (by omega) (by omega) p []).mono fun a p₁ s₁ h₁ => ?_
  have h₁ := lt_of_le_of_lt h₁ hname
  rcases a with _ | ⟨attrs, emptyElement⟩
  · exact runs_pure.mpr h₁
  simp only [runs_bind, runs_modify]
  refine runs_tooDeep fun deep p₂ => ?_
  simp only [runs_ite, runs_pure, runs_bind]
  refine ⟨fun _ => h₁, fun _ => runs_createElement fun id p₃ => ?_⟩
  simp only [runs_get]
  split
  · exact runs_fail.mpr h₁
  · simp only [runs_ite, runs_modify]
    exact ⟨fun _ => h₁, fun _ => h₁⟩

theorem runs_endTag (p : Parser) (h : s.unread ≠ []) : Runs endTag p s fun _ _ s' => work s' < work s := by
  have hlt : work (s.advance 2) < work s := work_advance_lt h (by omega)
  simp only [endTag, runs_bind, runs_advance]
  refine runs_name fun qualified n => ?_
  have hle (k m : ℕ) : work ((((s.advance 2).advance n).advance k).advance m) < work s :=
    lt_of_le_of_lt ((work_advance_le _ _).trans ((work_advance_le _ _).trans (work_advance_le _ _))) hlt
  simp only [runs_skipSpace, runs_look, runs_ite, runs_fail, runs_bind, runs_advance, runs_get]
  refine ⟨fun _ => hle _ 0, fun _ => ?_⟩
  split
  · exact runs_fail.mpr (hle _ _)
  · simp only [runs_ite, runs_fail, runs_modify]
    exact ⟨fun _ => hle _ _, fun _ => hle _ _⟩

theorem runs_cdata (p : Parser) (h : s.unread ≠ []) : Runs cdata p s fun _ _ s' => work s' < work s := by
  have hlt : work (s.advance 9) < work s := work_advance_lt h (by omega)
  simp only [cdata, runs_bind, runs_advance, runs_look]
  split
  · simp only [runs_bind, runs_failWith, runs_advance]
    exact lt_of_le_of_lt (work_advance_le _ _) hlt
  · simp only [runs_bind, runs_view, runs_advance, runs_get, runs_ite, runs_failWith]
    have hle (n : ℕ) := lt_of_le_of_lt (work_advance_le (s.advance 9) n) hlt
    refine ⟨fun _ => hle _, fun _ => runs_tooDeep fun deep p' => ?_⟩
    rw [runs_readView rfl]
    exact ⟨fun _ => runs_pure.mpr (hle _), fun _ => runs_append.mpr (hle _)⟩

theorem runs_characters {fuel : ℕ} (hfuel : work s < fuel) (p : Parser) (text : Text) :
    Runs (characters fuel text) p s fun a p' s' =>
      work s' ≤ work s ∧ (a = none → p'.error.isSome = true) ∧
      (¬ (s.unread = [] ∨ peek s.unread 0 = byte '<'.toNat) → a ≠ none → work s' < work s) := by
  induction fuel generalizing p s text with
  | zero => exact absurd hfuel (Nat.not_lt_zero _)
  | succ fuel ih =>
    simp only [characters, runs_bind, runs_look, runs_ite, runs_failWith, runs_pure, runs_advance]
    refine ⟨fun hend => ⟨le_rfl, by simp, fun hnot => absurd hend hnot⟩, fun hmore => ⟨fun _ => ?_, fun _ =>
      ⟨fun _ => by simp, fun _ => ?_⟩⟩⟩
    · refine (runs_reference p s).mono fun a p' s' h => ?_
      obtain ⟨hle, hlt, herror⟩ := h
      rcases a with _ | more
      · exact runs_pure.mpr ⟨hle, fun _ => herror rfl, by simp⟩
      · have hlt := hlt (by simp)
        refine (ih (by omega) p' _).mono fun _ _ _ h => ?_
        exact ⟨h.1.trans hle, h.2.1, fun _ _ => lt_of_le_of_lt h.1 hlt⟩
    · have hlt : work (s.advance 1) < work s := work_advance_lt (fun hnil => hmore (.inl hnil)) (by omega)
      refine (ih (by omega) p _).mono fun _ _ _ h => ?_
      exact ⟨h.1.trans hlt.le, h.2.1, fun _ _ => lt_of_le_of_lt h.1 hlt⟩

theorem runs_characterData (hlimit : work s < limit) (p : Parser)
    (hmore : ¬ (s.unread = [] ∨ peek s.unread 0 = byte '<'.toNat)) :
    Runs (characterData limit) p s fun _ p' s' =>
      work s' ≤ work s ∧ (work s' < work s ∨ p'.error.isSome = true) := by
  simp only [characterData, runs_bind]
  refine (runs_characters hlimit p []).mono fun a p' s' h => ?_
  obtain ⟨hle, herror, hlt⟩ := h
  rcases a with _ | text
  · exact runs_pure.mpr ⟨hle, .inr (herror rfl)⟩
  · have hlt := hlt hmore (by simp)
    simp only [runs_bind, runs_get, runs_ite, runs_pure]
    refine ⟨fun _ => ⟨hle, .inl hlt⟩, fun _ => runs_tooDeep fun deep p'' => ?_⟩
    simp only [runs_append]
    exact ⟨fun _ => ⟨hle, .inl hlt⟩, fun _ => ⟨hle, .inl hlt⟩⟩

/-- The loop of an element's content ends: each step takes some of the work, or leaves an error, at which the
next one stops. -/
theorem runs_content {fuel : ℕ} (hfuel : work s + 1 < fuel ∨ p.error.isSome = true ∧ 0 < fuel) (hlimit : work s < limit) :
    Runs (content limit fuel) p s fun _ _ s' => work s' ≤ work s := by
  induction fuel generalizing p s with
  | zero => omega
  | succ fuel ih =>
    simp only [content, runs_bind, runs_look, runs_failed, runs_ite, runs_pure, runs_failWith, runs_get]
    refine ⟨fun _ => le_rfl, fun herror => ?_⟩
    have hfuel : work s + 1 < fuel + 1 := hfuel.resolve_right fun h => herror h.1
    -- the rest of the loop
    have hloop {p₁ : Parser} {s₁ : Spliced} (h : work s₁ < work s) :
        Runs (content limit fuel) p₁ s₁ fun _ _ s' => work s' ≤ work s :=
      (ih (.inl (by omega)) (by omega)).mono fun _ _ _ hle => by omega
    refine ⟨fun _ => ?_, fun hne => ⟨fun _ => ?_, fun _ => ⟨fun _ => ?_, fun _ => ⟨fun _ => ?_, fun _ => ⟨fun _ => ?_,
      fun _ => ⟨fun _ => le_rfl, fun _ => ⟨fun _ => ?_, fun hat => ?_⟩⟩⟩⟩⟩⟩⟩
    · split
      · exact runs_pure.mpr le_rfl
      · exact runs_fail.mpr le_rfl
    · refine (runs_endTag p hne).mono fun _ p₁ s₁ h => ?_
      exact ⟨fun _ => h.le, fun _ => hloop h⟩
    · exact (runs_comment p hne).mono fun _ _ _ h => hloop h
    · exact (runs_cdata p hne).mono fun _ _ _ h => hloop h
    · exact (runs_processingInstruction p hne).mono fun _ _ _ h => hloop h
    · exact (runs_startTag hlimit p hne).mono fun _ _ _ h => hloop h
    · have hmore : ¬ (s.unread = [] ∨ peek s.unread 0 = byte '<'.toNat) := by
        rw [not_or]
        refine ⟨hne, fun hpeek => hat ?_⟩
        rcases htext : s.unread with _ | ⟨c, rest⟩
        · exact absurd htext hne
        · rw [htext] at hpeek
          obtain rfl : c = byte '<'.toNat := hpeek
          rfl
      refine (runs_characterData hlimit p hmore).mono fun _ p₁ s₁ h => ?_
      rcases h.2 with hlt | herror
      · exact hloop hlt
      · exact (ih (.inr ⟨herror, by omega⟩) (by omega)).mono fun _ _ _ hle => hle.trans h.1

theorem runs_element (hlimit : work s + 1 < limit) (p : Parser) :
    Runs (element limit) p s fun _ _ s' => work s' ≤ work s := by
  simp only [element, runs_bind, runs_look, runs_ite, runs_failWith]
  exact ⟨fun _ => le_rfl, fun _ => runs_content (.inl hlimit) (by omega)⟩

/-! ## Documents -/

theorem runs_prolog {fuel : ℕ} (hfuel : work s < fuel) (hlimit : work s < limit) (p : Parser) :
    Runs (prolog limit fuel) p s fun _ _ s' => work s' ≤ work s := by
  induction fuel generalizing p s with
  | zero => exact absurd hfuel (Nat.not_lt_zero _)
  | succ fuel ih =>
    have hskip := work_advance_le s (s.unread.takeWhile isSpace).length
    simp only [prolog, runs_bind, runs_skipSpace, runs_look, runs_ite, runs_pure]
    generalize s.advance (s.unread.takeWhile isSpace).length = s₁ at hskip ⊢
    have hloop {p₂ : Parser} {s₂ : Spliced} (h : work s₂ < work s₁) :
        Runs (prolog limit fuel) p₂ s₂ fun _ _ s' => work s' ≤ work s :=
      (ih (by omega) (by omega) p₂).mono fun _ _ _ hle => by omega
    refine ⟨fun _ => hskip, fun hne => ⟨fun _ => ?_, fun _ => ⟨fun _ => ?_, fun _ => ⟨fun _ => ?_, fun _ => hskip⟩⟩⟩⟩
    · exact (runs_processingInstruction p hne).mono fun _ _ _ h => hloop h
    · exact (runs_comment p hne).mono fun _ _ _ h => hloop h
    · exact (runs_doctype (by omega) p hne).mono fun _ _ _ h => hloop h

theorem runs_epilogue {fuel : ℕ} (hfuel : work s < fuel) (p : Parser) :
    Runs (epilogue fuel) p s fun _ _ s' => work s' ≤ work s := by
  induction fuel generalizing p s with
  | zero => exact absurd hfuel (Nat.not_lt_zero _)
  | succ fuel ih =>
    have hskip := work_advance_le s (s.unread.takeWhile isSpace).length
    simp only [epilogue, runs_bind, runs_skipSpace, runs_look, runs_ite, runs_pure, runs_failWith]
    generalize s.advance (s.unread.takeWhile isSpace).length = s₁ at hskip ⊢
    have hloop {p₂ : Parser} {s₂ : Spliced} (h : work s₂ < work s₁) :
        Runs (epilogue fuel) p₂ s₂ fun _ _ s' => work s' ≤ work s :=
      (ih (by omega) p₂).mono fun _ _ _ hle => by omega
    refine ⟨fun _ => hskip, fun hne => ⟨fun _ => ?_, fun _ => ⟨fun _ => ?_, fun _ => hskip⟩⟩⟩
    · exact (runs_processingInstruction p hne).mono fun _ _ _ h => hloop h
    · exact (runs_comment p hne).mono fun _ _ _ h => hloop h

theorem runs_unlessFailed {x : Parse Unit} (h : Runs x p s fun _ _ s' => work s' ≤ work s) :
    Runs (unlessFailed x) p s fun _ _ s' => work s' ≤ work s := by
  simp only [unlessFailed, runs_bind, runs_failed, runs_ite, runs_pure]
  exact ⟨fun _ => le_rfl, fun _ => h⟩

theorem runs_document (hlimit : work s + 1 < limit) (p : Parser) : Runs (document limit) p s fun _ _ _ => True := by
  simp only [document, runs_bind]
  refine (runs_prolog (by omega) (by omega) p).mono fun _ p₁ s₁ h₁ => ?_
  refine (runs_unlessFailed (runs_element (by omega) p₁)).mono fun _ p₂ s₂ h₂ => ?_
  refine (runs_unlessFailed (runs_epilogue (by omega) p₂)).mono fun _ p₃ s₃ h₃ => ?_
  refine (runs_unlessFailed ?_).mono fun _ _ _ _ => trivial
  simp only [runs_bind, runs_get, runs_ite, runs_failWith, runs_pure]
  exact ⟨fun _ => le_rfl, fun _ => le_rfl⟩

/-- An inclusion puts the replacement text before what was not read yet. The engine's parse of a document
ends, and it is the parse of the text in which each reference to an entity is replaced where it stands. -/
theorem parse_buffer (source : Text) :
    (∀ (b : Buffer) (replacement : Text) (length : ℕ), 0 < length → length ≤ b.unread.length →
      (b.spent.add replacement.length).2 = none →
      (b.includeEntity replacement length).1.unread = replacement ++ b.unread.drop length) ∧
    ∃ (p : Parser) (b : Buffer),
      parse (source.length + maxExpandedBytes + 2) (Buffer.of source) = .ok (((), p), b) ∧
      parse (source.length + maxExpandedBytes + 2) (Spliced.of source) = .ok (((), p), b.toSpliced) := by
  refine ⟨fun b replacement length => Buffer.unread_includeEntity, ?_⟩
  have hwork : work (Spliced.of source) + 1 < source.length + maxExpandedBytes + 2 := by
    simp only [work, Spliced.of]
    omega
  obtain ⟨⟨⟩, p, s, hrun, -⟩ := runs_document hwork Parser.init
  have hmap := run_spliced ((document (source.length + maxExpandedBytes + 2)).run Parser.init) (Buffer.of source)
  have hof : (Buffer.of source).toSpliced = Spliced.of source := rfl
  rw [hof, hrun] at hmap
  rw [parse, parse]
  rcases hbuffer : ((document (source.length + maxExpandedBytes + 2)).run Parser.init).run (Buffer.of source) with
    e | ⟨⟨⟨⟩, p'⟩, b⟩
  · rw [hbuffer] at hmap
    cases hmap
  · rw [hbuffer] at hmap
    cases hmap
    exact ⟨p, b, rfl, hrun⟩

end CtBrowser.Dom.Xml
