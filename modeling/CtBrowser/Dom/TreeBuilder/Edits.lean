import CtBrowser.Dom.TreeBuilder.Dispatch

/-!
# What a Token Can Do to the Builder

The insertion modes touch the stack of open elements and the list of active formatting elements
through a small number of operations. An edit is one of them, and the rules of a mode are a
chain of edits, after which an `svg` start tag may open its element. What every edit keeps, every
token keeps.

## Main definitions

- `Edit`, `Edits` — one operation, and a chain of them.
- `HtmlStep` — what a token does by the rules of an insertion mode.
- `Moves` — a chain of edits, of `svg` elements opened and of changes to their capture.

## Main results

- `process_step` — the rules of every mode are such a step.
- `handle_moves` — every token is a chain of moves.
-/

namespace CtBrowser.Dom.Builder

open Relation

/-! ## The names of tokens -/

theorem named_iff {t : Token} {name : String} : t.named name ↔ t.name = ascii name := by
  simp [Token.named]

theorem namedOneOf_iff {t : Token} {names : List String} :
    t.namedOneOf names ↔ ∃ name ∈ names, t.name = ascii name := by
  simp only [Token.namedOneOf, oneOf, List.any_eq_true, beq_iff_eq]
  constructor <;> rintro ⟨name, hmem, heq⟩ <;> exact ⟨name, hmem, heq.symm⟩

theorem of_namedOneOf {t : Token} {names : List String} {q : Text → Bool}
    (h : t.namedOneOf names) (hall : (names.all fun name => !q (ascii name)) = true) :
    q t.name = false := by
  obtain ⟨name, hmem, hname⟩ := namedOneOf_iff.mp h
  simpa [hname] using List.all_eq_true.mp hall name hmem

theorem named_eq_false {t : Token} {names : List String} {name : String}
    (h : t.namedOneOf names) (hname : oneOf (ascii name) names = false) : t.named name = false := by
  by_contra hc
  rw [Token.namedOneOf, named_iff.mp (by simpa using hc), hname] at h
  exact Bool.false_ne_true h

/-! ## Edits -/

/-- What the rules of the head do with the start tag of an element that belongs there. -/
inductive HeadContent (t : Token) (b : Builder) : Builder → Prop
  | none : HeadContent t b b
  | void : HeadContent t b (insertVoid t b)
  | text (model : ContentModel) : HeadContent t b (b.insertTextElement t model)
  | template : HeadContent t b (openTemplate t b)

/-- One operation on the stack of open elements or the list of active formatting elements. -/
inductive Edit (b : Builder) : Builder → Prop
  | update (f : ParseState → ParseState) : Edit b (b.update f)
  | pop : Edit b b.pop
  | insert (tag : Text) (attributes : List TokenAttribute) (ns : NodeNs)
      (h : ns ≠ .svg ∨ adjustSvgTag tag ≠ ascii "svg") : Edit b (b.insertElement tag attributes ns)
  | head (attributes : List TokenAttribute) : Edit b (b.insertHead attributes)
  -- the head is open again while its rules run
  | underHead {t : Token} {b' : Builder} (h : HeadContent t b.reopenHead b') :
      Edit b (b'.removeFromStack (b'.head.getD 0))
  | root : Edit b b.createRoot
  | remove (id : NodeId) : Edit b (b.removeFromStack id)
  | formatting (t : Token) (h : isSpecialElement t.name = false) : Edit b (b.insertFormatting t)
  | marker : Edit b b.pushMarker
  | clear : Edit b b.clearFormattingToMarker
  | unlist (id : NodeId) : Edit b (b.removeFormatting id)
  | reconstruct : Edit b b.reconstructFormatting
  | agency (subject : Text) : Edit b (b.agencyOuter subject).2

/-- A chain of edits. -/
def Edits : Builder → Builder → Prop := ReflTransGen Edit

namespace Edits

variable {a b c : Builder}

@[grind ←]
theorem refl (b : Builder) : Edits b b := ReflTransGen.refl

theorem trans (h : Edits a b) (h' : Edits b c) : Edits a c := ReflTransGen.trans h h'

theorem tail (h : Edits a b) (h' : Edit b c) : Edits a c := ReflTransGen.tail h h'

@[grind ←]
theorem update (h : Edits a b) (f : ParseState → ParseState) : Edits a (b.update f) :=
  h.tail (.update f)

@[grind ←]
theorem enter (h : Edits a b) (m : Mode) : Edits a (b.enter m) := h.update _

@[grind ←]
theorem pop (h : Edits a b) : Edits a b.pop := h.tail .pop

@[grind ←]
theorem insertElement (h : Edits a b) (tag : Text) (attributes : List TokenAttribute) :
    Edits a (b.insertElement tag attributes) := h.tail (.insert tag attributes .html (.inl (by decide)))

@[grind ←]
theorem insertFor (h : Edits a b) (t : Token) : Edits a (b.insertFor t) := h.insertElement _ _

@[grind ←]
theorem insertHead (h : Edits a b) (attributes : List TokenAttribute) :
    Edits a (b.insertHead attributes) := h.tail (.head attributes)

@[grind ←]
theorem createRoot (h : Edits a b) : Edits a b.createRoot := h.tail .root

@[grind ←]
theorem removeFromStack (h : Edits a b) (id : NodeId) : Edits a (b.removeFromStack id) :=
  h.tail (.remove id)

@[grind ←]
theorem insertFormatting (h : Edits a b) (t : Token) (ht : isSpecialElement t.name = false) :
    Edits a (b.insertFormatting t) := h.tail (.formatting t ht)

@[grind ←]
theorem pushMarker (h : Edits a b) : Edits a b.pushMarker := h.tail .marker

@[grind ←]
theorem clearFormattingToMarker (h : Edits a b) : Edits a b.clearFormattingToMarker :=
  h.tail .clear

@[grind ←]
theorem removeFormatting (h : Edits a b) (id : NodeId) : Edits a (b.removeFormatting id) :=
  h.tail (.unlist id)

@[grind ←]
theorem reconstructFormatting (h : Edits a b) : Edits a b.reconstructFormatting :=
  h.tail .reconstruct

/-! ### Loops of pops -/

@[grind ←]
theorem popTo (h : Edits a b) (height : ℕ) : Edits a (b.popTo height) := by
  unfold Builder.popTo
  generalize b.openElements.length - height = n
  induction n with
  | zero => exact h
  | succ n ih =>
    rw [Function.iterate_succ_apply']
    exact ih.pop

@[grind ←]
theorem popWhile (h : Edits a b) (go : Entry → Bool) : Edits a (b.popWhile go) := by
  unfold Builder.popWhile
  generalize b.openElements.length = n
  induction n generalizing b with
  | zero => exact h
  | succ n ih =>
    rw [popWhileUpTo]
    split
    · split_ifs
      · exact ih h.pop
      · exact h
    · exact h

@[grind ←]
theorem popThrough (h : Edits a b) (hit : Entry → Bool) : Edits a (b.popThrough hit) :=
  (h.popWhile _).pop

@[grind ←]
theorem popUntil (h : Edits a b) (tag : Text) : Edits a (b.popUntil tag) := h.popThrough _

@[grind ←]
theorem popUntilAny (h : Edits a b) (names : List String) : Edits a (b.popUntilAny names) :=
  h.popThrough _

@[grind ←]
theorem generateImpliedEndTags (h : Edits a b) (except : Text) :
    Edits a (b.generateImpliedEndTags except) := h.popWhile _

@[grind ←]
theorem generateImpliedEndTagsThoroughly (h : Edits a b) :
    Edits a b.generateImpliedEndTagsThoroughly := h.popWhile _

@[grind ←]
theorem clearStackBackToTableContext (h : Edits a b) : Edits a b.clearStackBackToTableContext :=
  h.popWhile _

@[grind ←]
theorem clearStackBackToTableBodyContext (h : Edits a b) :
    Edits a b.clearStackBackToTableBodyContext := h.popWhile _

@[grind ←]
theorem clearStackBackToTableRowContext (h : Edits a b) :
    Edits a b.clearStackBackToTableRowContext := h.popWhile _

@[grind ←]
theorem closePElement (h : Edits a b) : Edits a b.closePElement :=
  (h.generateImpliedEndTags _).popUntil _

@[grind ←]
theorem resetInsertionMode (h : Edits a b) : Edits a b.resetInsertionMode := h.enter _

@[grind ←]
theorem insertTextElement (h : Edits a b) (t : Token) (model : ContentModel) :
    Edits a (b.insertTextElement t model) := (h.insertFor t).update _

/-! ### The adoption agency -/

theorem agencyLoop (h : Edits a b) (subject : Text) (n : ℕ) :
    Edits a (Builder.agencyLoop subject n b).2 := by
  induction n generalizing b with
  | zero => exact h
  | succ n ih =>
    have hone := h.tail (.agency subject)
    rw [Builder.agencyLoop]
    split
    next heq => rw [heq] at hone; exact hone
    next heq => rw [heq] at hone; exact ih hone

@[grind ←]
theorem adoptionAgency (h : Edits a b) (subject : Text) :
    Edits a (b.adoptionAgency subject).2 := by
  unfold Builder.adoptionAgency
  split
  · exact h.agencyLoop subject 8
  · split_ifs
    · exact h.pop
    · exact h.agencyLoop subject 8

/-! ### The helpers of the modes -/

@[grind ←]
theorem openTemplate (h : Edits a b) (t : Token) : Edits a (Builder.openTemplate t b) :=
  (h.pushMarker.update _).insertFor t

@[grind ←]
theorem closeTemplate (h : Edits a b) : Edits a b.closeTemplate :=
  ((h.popUntil _).clearFormattingToMarker.update _).resetInsertionMode

@[grind ←]
theorem closeSection (h : Edits a b) : Edits a b.closeSection :=
  h.clearStackBackToTableBodyContext.pop.enter _

@[grind ←]
theorem closeRow (h : Edits a b) : Edits a b.closeRow :=
  h.clearStackBackToTableRowContext.pop.enter _

@[grind ←]
theorem closeTheCell (h : Edits a b) : Edits a b.closeTheCell :=
  ((h.generateImpliedEndTags _).popUntilAny _).clearFormattingToMarker.enter _

theorem closeCaption (h : Edits a b) (hc : b.closeCaption = some c) : Edits a c := by
  unfold Builder.closeCaption at hc
  split_ifs at hc
  obtain rfl := Option.some.inj hc
  exact ((h.generateImpliedEndTags _).popUntil _).clearFormattingToMarker.enter _

@[grind ←]
theorem closePInButtonScope (h : Edits a b) : Edits a b.closePInButtonScope := by
  unfold Builder.closePInButtonScope
  split_ifs
  · exact h.closePElement
  · exact h

@[grind ←]
theorem inBodyAnyOtherEndTag (h : Edits a b) (tag : Text) : Edits a (b.inBodyAnyOtherEndTag tag) := by
  unfold Builder.inBodyAnyOtherEndTag
  generalize b.openElements.reverse = entries
  induction entries with
  | nil => exact h
  | cons e below ih =>
    rw [anyOtherEndTagFrom]
    split_ifs
    · exact (h.generateImpliedEndTags _).popTo _
    · exact h
    · exact ih

@[grind ←]
theorem closeFormatting (h : Edits a b) (tag : Text) : Edits a (b.closeFormatting tag) := by
  have hagency := h.adoptionAgency tag
  unfold Builder.closeFormatting
  split
  next heq => rw [heq] at hagency; exact hagency
  next heq => rw [heq] at hagency; exact hagency.inBodyAnyOtherEndTag tag

@[grind ←]
theorem closeListItem (h : Edits a b) (names : List String) (entries : List Entry) :
    Edits a (Builder.closeListItem names b entries) := by
  induction entries with
  | nil => exact h
  | cons e below ih =>
    rw [Builder.closeListItem]
    split_ifs
    · exact (h.generateImpliedEndTags _).popUntil _
    · exact h
    · exact ih

@[grind ←]
theorem closeActiveAnchor (h : Edits a b) : Edits a b.closeActiveAnchor := by
  unfold Builder.closeActiveAnchor
  split
  · exact h
  · split
    · exact h
    · exact ((h.closeFormatting _).removeFormatting _).removeFromStack _

@[grind ←]
theorem openFrameset (h : Edits a b) (t : Token) : Edits a (Builder.openFrameset t b) := by
  unfold Builder.openFrameset
  split
  · exact h
  · split_ifs
    · exact h
    · exact ((h.popTo _).insertFor t).enter _

@[grind ←]
theorem insertVoid (h : Edits a b) (t : Token) : Edits a (Builder.insertVoid t b) :=
  (h.insertFor t).pop

@[grind ←]
theorem closeForm (h : Edits a b) : Edits a b.closeForm := by
  unfold Builder.closeForm
  dsimp only
  split
  · exact h.update _
  · split_ifs
    · exact h.update _
    · exact ((h.update _).generateImpliedEndTags _).removeFromStack _

@[grind ←]
theorem insertMath (h : Edits a b) (t : Token) : Edits a (b.insertFor t .other) :=
  h.tail (.insert _ _ _ (.inl (by decide)))

/-! ### The families of the body's start tags -/

theorem inBodyStartBlock (h : Edits a b) {t : Token} (hc : Builder.inBodyStartBlock t b = some c) :
    Edits a c := by
  unfold Builder.inBodyStartBlock at hc
  grind

theorem inBodyStartFormatting (h : Edits a b) {t : Token}
    (hc : Builder.inBodyStartFormatting t b = some c) : Edits a c := by
  have hanchor (h : t.named "a") : isSpecialElement t.name = false := by
    rw [named_iff.mp h]; decide
  have hformatting (h : t.namedOneOf ["b", "big", "code", "em", "font", "i", "s", "small",
      "strike", "strong", "tt", "u"]) : isSpecialElement t.name = false :=
    of_namedOneOf h (by decide)
  have hnobr (h : t.named "nobr") : isSpecialElement t.name = false := by
    rw [named_iff.mp h]; decide
  unfold Builder.inBodyStartFormatting at hc
  grind

theorem inBodyStartVoid (h : Edits a b) {t : Token} (hc : Builder.inBodyStartVoid t b = some c) :
    Edits a c := by
  unfold Builder.inBodyStartVoid at hc
  grind

theorem inBodyStartSelect (h : Edits a b) {t : Token}
    (hc : Builder.inBodyStartSelect t b = some c) : Edits a c := by
  unfold Builder.inBodyStartSelect at hc
  grind

end Edits

/-! ## The insertion modes -/

/-- A token that is an `svg` start tag. -/
def opensSvg (t : Token) : Prop := t.kind = .startTag ∧ t.named "svg"

/-- What a token does by the rules of an insertion mode: edits, and for an `svg` start tag at
most the opening of the element after them. -/
def HtmlStep (t : Token) (b b' : Builder) : Prop :=
  Edits b b' ∨
    opensSvg t ∧ ∃ b₁ f, Edits b b₁ ∧ b' = (openSvg t b₁).update f

namespace HtmlStep

variable {t : Token} {a b c : Builder}

@[grind ←]
theorem of_edits (h : Edits a b) : HtmlStep t a b := .inl h

theorem after (h : Edits a b) (h' : HtmlStep t b c) : HtmlStep t a c := by
  rcases h' with h' | ⟨ht, b₁, f, h', rfl⟩
  · exact .inl (h.trans h')
  · exact .inr ⟨ht, b₁, f, h.trans h', rfl⟩

theorem ite {p : Prop} [Decidable p] (hpos : p → HtmlStep t a b) (hneg : ¬p → HtmlStep t a c) :
    HtmlStep t a (if p then b else c) := by
  split_ifs with h
  · exact hpos h
  · exact hneg h

theorem edits (h : HtmlStep t a b) (ht : ¬opensSvg t) : Edits a b :=
  h.elim id fun h' => absurd h'.1 ht

@[grind ←]
theorem update (h : HtmlStep t a b) (f : ParseState → ParseState) : HtmlStep t a (b.update f) := by
  rcases h with h | ⟨ht, b₁, g, h, rfl⟩
  · exact .inl (h.update f)
  · exact .inr ⟨ht, b₁, f ∘ g, h, rfl⟩

end HtmlStep

theorem not_opensSvg {t : Token} {names : List String} (h : t.namedOneOf names)
    (hname : oneOf (ascii "svg") names = false) : ¬opensSvg t := fun ht => by
  simpa [named_eq_false h hname] using ht.2

theorem inHeadStart_content {t : Token} (p : Process) (anythingElse : Builder → Builder)
    (b : Builder)
    (ht : t.namedOneOf ["base", "basefont", "bgsound", "link", "meta", "noframes", "script",
      "style", "template", "title"]) :
    HeadContent t b (inHeadStart t p anythingElse b) := by
  have hother (name : String) (hname : oneOf (ascii name) ["base", "basefont", "bgsound", "link",
      "meta", "noframes", "script", "style", "template", "title"] = false) :
      t.named name = false := named_eq_false ht hname
  unfold inHeadStart
  simp only [hother "html" (by decide), hother "noscript" (by decide), hother "head" (by decide),
    Bool.false_and, Bool.false_eq_true, if_false]
  split_ifs with hvoid htitle hraw hscript htemplate
  · exact .void
  · exact .text _
  · exact .text _
  · exact .text _
  · exact .template
  · -- the other tags have been asked for
    obtain ⟨name, hmem, hname⟩ := namedOneOf_iff.mp ht
    simp only [Token.named, Token.namedOneOf, hname] at hvoid htitle hraw hscript htemplate
    clear hother hname ht
    exfalso
    revert name
    decide

section Modes

variable {p : Process} (hp : ∀ t m b, HtmlStep t b (p t m b)) {t : Token} {a b : Builder}

include hp

theorem process_after (h : Edits a b) (m : Mode) : HtmlStep t a (p t m b) := (hp t m b).after h

theorem again_after (h : Edits a b) : HtmlStep t a (again p t b) := (hp t _ b).after h

theorem characters_step (data : Text) (m : Mode) : HtmlStep t b (Builder.characters p data m b) := by
  -- a run of characters opens no element, so the white space is edits before the rest
  have hspace (rest : Text) (m : Mode) (b' : Builder) (h : Edits b b') :
      Edits b (p (.characters rest) m b') :=
    (process_after hp h m).edits fun ht => by simp [opensSvg, Token.characters] at ht
  unfold Builder.characters
  grind

theorem spacedCharacters_step {m : Mode} {anythingElse : Builder → Builder}
    (h : HtmlStep t b (anythingElse b)) : HtmlStep t b (spacedCharacters p t m anythingElse b) := by
  unfold spacedCharacters
  split_ifs
  · exact .of_edits (.refl b)
  · exact characters_step hp t.data m
  · exact h

theorem modeInitial_step : HtmlStep t b (modeInitial p t b) := by
  unfold modeInitial
  dsimp only
  split
  case h_1 => exact spacedCharacters_step hp (again_after hp (by grind))
  case h_2 | h_3 => exact .of_edits (.refl b)
  case h_4 => exact .of_edits (by grind)
  case h_5 => exact again_after hp (by grind)

theorem modeBeforeHtml_step : HtmlStep t b (modeBeforeHtml p t b) := by
  have helse : HtmlStep t b (again p t (b.createRoot.enter .beforeHead)) :=
    again_after hp (by grind)
  unfold modeBeforeHtml
  dsimp only
  split
  case h_4 => exact spacedCharacters_step hp helse
  all_goals grind

theorem modeBeforeHead_step : HtmlStep t b (modeBeforeHead p t b) := by
  have helse : HtmlStep t b (again p t ((b.insertHead []).enter .inHead)) :=
    again_after hp (by grind)
  have hbody := hp t .inBody b
  unfold modeBeforeHead
  dsimp only
  split
  case h_1 => exact spacedCharacters_step hp helse
  all_goals grind

theorem inHeadStart_step {anythingElse : Builder → Builder} (h : HtmlStep t b (anythingElse b)) :
    HtmlStep t b (inHeadStart t p anythingElse b) := by
  have hbody := hp t .inBody b
  unfold inHeadStart
  split_ifs <;> first | exact h | exact hbody | exact .of_edits (by grind)

theorem modeInHead_step : HtmlStep t b (modeInHead p t b) := by
  have helse : HtmlStep t b (again p t (b.pop.enter .afterHead)) := again_after hp (by grind)
  unfold modeInHead
  dsimp only
  split
  case h_1 => exact spacedCharacters_step hp helse
  case h_5 => exact inHeadStart_step hp helse
  all_goals grind

theorem modeInHeadNoscript_step : HtmlStep t b (modeInHeadNoscript p t b) := by
  have helse : HtmlStep t b (again p t (b.pop.enter .inHead)) := again_after hp (by grind)
  have hcharacters := characters_step hp (t := t) (b := b) t.data .inHeadNoscript
  have hhead := hp t .inHead b
  have hbody := hp t .inBody b
  unfold modeInHeadNoscript
  dsimp only
  split <;> grind

theorem modeAfterHead_step (hcontent : ∀ t b, t.kind = .startTag → t.namedOneOf ["base",
      "basefont", "bgsound", "link", "meta", "noframes", "script", "style", "template", "title"] →
      HeadContent t b (p t .inHead b)) : HtmlStep t b (modeAfterHead p t b) := by
  have helse : HtmlStep t b (again p t ((b.insertElement (ascii "body") []).enter .inBody)) :=
    again_after hp (by grind)
  have hhead := hp t .inHead b
  have hbody := hp t .inBody b
  unfold modeAfterHead
  dsimp only
  split
  case h_1 => exact spacedCharacters_step hp helse
  case h_5 =>
    split_ifs with _ _ _ hnames
    case pos => exact hbody
    case pos => exact .of_edits (by grind)
    case pos => exact .of_edits (by grind)
    case pos =>
      exact .of_edits ((Edits.refl b).tail (.underHead (hcontent _ _ (by assumption) hnames)))
    case pos => exact .of_edits (.refl b)
    case neg => exact helse
  all_goals grind

theorem modeAfterBody_step : HtmlStep t b (modeAfterBody p t b) := by
  have helse : HtmlStep t b (again p t (b.enter .inBody)) := again_after hp (by grind)
  have hcharacters := characters_step hp (t := t) (b := b) t.data .afterBody
  have hbody := hp t .inBody b
  unfold modeAfterBody
  dsimp only
  split <;> grind

theorem modeAfterAfterBody_step : HtmlStep t b (modeAfterAfterBody p t b) := by
  have helse : HtmlStep t b (again p t (b.enter .inBody)) := again_after hp (by grind)
  have hcharacters := characters_step hp (t := t) (b := b) t.data .afterAfterBody
  have hbody := hp t .inBody b
  unfold modeAfterAfterBody
  dsimp only
  split <;> grind

theorem insertWhitespaceOnly_step (data : Text) : HtmlStep t b (insertWhitespaceOnly p data b) := by
  have hspace (kept : Text) : Edits b (p (.characters kept) .inBody b) :=
    (hp _ _ b).edits fun ht => by simp [opensSvg, Token.characters] at ht
  unfold insertWhitespaceOnly
  grind

theorem modeInFrameset_step : HtmlStep t b (modeInFrameset p t b) := by
  have hspace := insertWhitespaceOnly_step hp (t := t) (b := b) t.data
  have hbody := hp t .inBody b
  have hhead := hp t .inHead b
  unfold modeInFrameset
  split <;> grind

theorem modeAfterFrameset_step : HtmlStep t b (modeAfterFrameset p t b) := by
  have hspace := insertWhitespaceOnly_step hp (t := t) (b := b) t.data
  have hbody := hp t .inBody b
  have hhead := hp t .inHead b
  unfold modeAfterFrameset
  split <;> grind

theorem modeAfterAfterFrameset_step : HtmlStep t b (modeAfterAfterFrameset p t b) := by
  have hspace := insertWhitespaceOnly_step hp (t := t) (b := b) t.data
  have hbody := hp t .inBody b
  have hhead := hp t .inHead b
  unfold modeAfterAfterFrameset
  split <;> grind

/-! ### The table modes -/

theorem fostered_step : HtmlStep t b (fostered p t b) :=
  (process_after hp ((Edits.refl b).update _) _).update _

theorem inTableStart_step : HtmlStep t b (inTableStart p t b) := by
  unfold inTableStart
  split_ifs <;> first
    | exact hp t _ b
    | exact again_after hp (by grind)
    | exact fostered_step hp
    | exact .of_edits (by grind)

theorem modeInTable_step : HtmlStep t b (modeInTable p t b) := by
  have hfostered := fostered_step hp (t := t) (b := b)
  have hhead := hp t .inHead b
  unfold modeInTable
  split
  case h_1 =>
    split_ifs
    · exact again_after hp (by grind)
    · exact hfostered
  case h_5 => exact inTableStart_step hp
  case h_7 => exact hp t .inBody b
  all_goals grind

theorem modeInTableText_step : HtmlStep t b (modeInTableText p t b) := by
  unfold modeInTableText
  split
  · exact .of_edits (by grind)
  · exact again_after hp (by grind)

theorem modeInCaption_step : HtmlStep t b (modeInCaption p t b) := by
  have hagain (b' : Builder) (h : b.closeCaption = some b') : HtmlStep t b (again p t b') :=
    again_after hp ((Edits.refl b).closeCaption h)
  have hclosed : Edits b (b.closeCaption.getD b) := by
    cases h : b.closeCaption with
    | none => exact .refl b
    | some b' => exact (Edits.refl b).closeCaption h
  have hbody := hp t .inBody b
  unfold modeInCaption
  grind

theorem modeInColumnGroup_step : HtmlStep t b (modeInColumnGroup p t b) := by
  have helse : HtmlStep t b
      (if !b.currentIs "colgroup" then b else again p t (b.pop.enter .inTable)) := by
    split_ifs
    · exact .of_edits (.refl b)
    · exact again_after hp (by grind)
  have hhead := hp t .inHead b
  have hbody := hp t .inBody b
  unfold modeInColumnGroup
  dsimp only
  split
  case h_1 => exact spacedCharacters_step hp helse
  all_goals grind

theorem modeInTableBody_step : HtmlStep t b (modeInTableBody p t b) := by
  unfold modeInTableBody
  split_ifs <;> first
    | exact hp t _ b
    | exact again_after hp (by grind)
    | exact .of_edits (by grind)

theorem modeInRow_step : HtmlStep t b (modeInRow p t b) := by
  unfold modeInRow
  split_ifs <;> first
    | exact hp t _ b
    | exact again_after hp (by grind)
    | exact .of_edits (by grind)

theorem modeInCell_step : HtmlStep t b (modeInCell p t b) := by
  unfold modeInCell
  split_ifs <;> first
    | exact hp t _ b
    | exact again_after hp (by grind)
    | exact .of_edits (by grind)

theorem switchTemplate_step (next : Mode) : HtmlStep t b (switchTemplate p t next b) :=
  again_after hp ((Edits.refl b).update _)

theorem modeInTemplate_step : HtmlStep t b (modeInTemplate p t b) := by
  have hhead := hp t .inHead b
  have hswitch := fun next => switchTemplate_step hp (t := t) (b := b) next
  unfold modeInTemplate
  split
  case h_7 =>
    split_ifs
    · exact .of_edits (.refl b)
    · exact again_after hp (by grind)
  case h_1 | h_2 | h_3 | h_4 => exact hp t .inBody b
  all_goals grind

/-! ### The body -/

theorem inBodyStartDocument_edits {b' : Builder} (h : inBodyStartDocument p t b = some b') :
    Edits b b' := by
  unfold inBodyStartDocument at h
  split_ifs at h with _ hnames
  · exact Option.some.inj h ▸ .refl b
  · exact Option.some.inj h ▸ (hp t _ b).edits (not_opensSvg hnames (by decide))
  · grind
  · exact Option.some.inj h ▸ (Edits.refl b).openFrameset t

omit hp in
theorem opensSvg_of_image {t' : Token}
    (h : t' = if t.named "image" then { t with name := ascii "img" } else t) (ht : opensSvg t') :
    t' = t := by
  split_ifs at h
  · subst h
    exact absurd ht.2 (by simp only [Token.named]; decide)
  · exact h

theorem inBodyStart_step (ht : t.kind = .startTag) : HtmlStep t b (inBodyStart p t b) := by
  unfold inBodyStart
  extract_lets t'
  split
  next h => exact .of_edits (inBodyStartDocument_edits hp h)
  split
  next h => exact .of_edits ((Edits.refl b).inBodyStartBlock h)
  split
  next h => exact .of_edits ((Edits.refl b).inBodyStartFormatting h)
  split
  next h => exact .of_edits ((Edits.refl b).inBodyStartVoid h)
  split
  next h => exact .of_edits ((Edits.refl b).inBodyStartSelect h)
  split_ifs with hmath hself hsvg
  · exact .of_edits (by grind)
  · exact .of_edits (by grind)
  · have htoken : t' = t := by
      refine opensSvg_of_image rfl ⟨?_, hsvg⟩
      simp only [t']
      split_ifs <;> exact ht
    rw [htoken] at hsvg ⊢
    exact .inr ⟨⟨ht, hsvg⟩, _, id, (Edits.refl b).reconstructFormatting, rfl⟩
  · exact .of_edits (.refl b)
  · exact .of_edits (by grind)

theorem inBodyEnd_step : HtmlStep t b (inBodyEnd p t b) := by
  have hbr (h : t.named "br") :
      Edits b (inBodyStart p { t with kind := .startTag, attributes := [] } b) :=
    (inBodyStart_step hp rfl).edits fun hsvg => by
      have hname : ascii "br" = ascii "svg" := by
        simpa [Token.named, (beq_iff_eq.mp h)] using hsvg.2
      exact absurd hname (by decide)
  unfold inBodyEnd
  -- template, body, html
  refine .ite (fun _ => hp t _ b) fun _ => ?_
  refine .ite (fun _ => .of_edits (by grind)) fun _ => ?_
  refine .ite (fun _ => .ite (fun _ => .of_edits (.refl b)) fun _ => again_after hp (by grind))
    fun _ => ?_
  -- blocks, form, p, list items, headings
  refine .ite (fun _ => .of_edits (by grind)) fun _ => ?_
  refine .ite (fun _ => .of_edits (by grind)) fun _ => ?_
  refine .ite (fun _ => .of_edits (by grind)) fun _ => ?_
  refine .ite (fun _ => .of_edits (by grind)) fun _ => ?_
  refine .ite (fun _ => .of_edits (by grind)) fun _ => ?_
  refine .ite (fun _ => .of_edits (by grind)) fun _ => ?_
  -- formatting, the elements with markers, br and any other
  refine .ite (fun _ => .of_edits (by grind)) fun _ => ?_
  refine .ite (fun _ => .of_edits (by grind)) fun _ => ?_
  exact .ite (fun h => .of_edits (hbr h)) fun _ => .of_edits (by grind)

theorem modeInBody_step : HtmlStep t b (modeInBody p t b) := by
  unfold modeInBody
  split
  case h_5 h => exact inBodyStart_step hp h
  case h_6 => exact inBodyEnd_step hp
  case h_7 =>
    split_ifs
    · exact hp t _ b
    · exact .of_edits (.refl b)
  all_goals exact .of_edits (by grind)

theorem modeText_step : HtmlStep t b (modeText p t b) := by
  unfold modeText
  dsimp only
  split
  · exact again_after hp (by grind)
  · exact .of_edits (by grind)
  · exact .of_edits (.refl b)

theorem rules_step (hcontent : ∀ t b, t.kind = .startTag → t.namedOneOf ["base", "basefont",
      "bgsound", "link", "meta", "noframes", "script", "style", "template", "title"] →
      HeadContent t b (p t .inHead b)) (m : Mode) : HtmlStep t b (rules p t m b) := by
  cases m
  case initial => exact modeInitial_step hp
  case beforeHtml => exact modeBeforeHtml_step hp
  case beforeHead => exact modeBeforeHead_step hp
  case inHead => exact modeInHead_step hp
  case inHeadNoscript => exact modeInHeadNoscript_step hp
  case afterHead => exact modeAfterHead_step hp hcontent
  case inBody => exact modeInBody_step hp
  case text => exact modeText_step hp
  case inTable => exact modeInTable_step hp
  case inTableText => exact modeInTableText_step hp
  case inCaption => exact modeInCaption_step hp
  case inColumnGroup => exact modeInColumnGroup_step hp
  case inTableBody => exact modeInTableBody_step hp
  case inRow => exact modeInRow_step hp
  case inCell => exact modeInCell_step hp
  case inTemplate => exact modeInTemplate_step hp
  case afterBody => exact modeAfterBody_step hp
  case inFrameset => exact modeInFrameset_step hp
  case afterFrameset => exact modeAfterFrameset_step hp
  case afterAfterBody => exact modeAfterAfterBody_step hp
  case afterAfterFrameset => exact modeAfterAfterFrameset_step hp

end Modes

theorem process_content (fuel : ℕ) (t : Token) (b : Builder) (hkind : t.kind = .startTag)
    (ht : t.namedOneOf ["base", "basefont", "bgsound", "link", "meta", "noframes", "script",
      "style", "template", "title"]) : HeadContent t b (process fuel t .inHead b) := by
  cases fuel with
  | zero => exact .none
  | succ fuel =>
    have hrules : process (fuel + 1) t .inHead b = modeInHead (process fuel) t b := rfl
    rw [hrules, modeInHead, hkind]
    exact inHeadStart_content _ _ b ht

/-- The rules of every mode are edits, and at most the opening of an `svg` element. -/
theorem process_step (fuel : ℕ) (t : Token) (m : Mode) (b : Builder) :
    HtmlStep t b (process fuel t m b) := by
  induction fuel generalizing t m b with
  | zero => exact .of_edits (.refl b)
  | succ fuel ih => exact rules_step ih (process_content fuel) m

/-! ## Foreign content and whole tokens -/

/-- An edit, an element made in any namespace, or a change of the capture. -/
inductive Move (b : Builder) : Builder → Prop
  | edit {b' : Builder} (h : Edit b b') : Move b b'
  | insert (tag : Text) (attributes : List TokenAttribute) (ns : NodeNs) :
      Move b (b.insertElement tag attributes ns)
  | capture (c : Capture) : Move b { b with foreign := c }

/-- A chain of moves. -/
def Moves : Builder → Builder → Prop := ReflTransGen Move

namespace Moves

variable {a b c : Builder}

theorem refl (b : Builder) : Moves b b := ReflTransGen.refl

theorem trans (h : Moves a b) (h' : Moves b c) : Moves a c := ReflTransGen.trans h h'

theorem tail (h : Moves a b) (h' : Move b c) : Moves a c := ReflTransGen.tail h h'

theorem of_edits (h : Edits a b) : Moves a b := ReflTransGen.mono (fun _ _ h => Move.edit h) _ _ h

theorem update (h : Moves a b) (f : ParseState → ParseState) : Moves a (b.update f) :=
  h.tail (.edit (.update f))

theorem pop (h : Moves a b) : Moves a b.pop := h.tail (.edit .pop)

theorem popTo (h : Moves a b) (height : ℕ) : Moves a (b.popTo height) :=
  h.trans (of_edits ((Edits.refl b).popTo height))

theorem openForeign (h : Moves a b) (t : Token) : Moves a (b.openForeign t) :=
  h.tail (.capture _)

theorem closeForeign (h : Moves a b) (sourceEnd : ℕ) : Moves a (b.closeForeign sourceEnd) := by
  unfold Builder.closeForeign
  dsimp only
  split
  · exact h
  split
  · exact h.tail (.capture _)
  split <;> exact h.tail (.capture _)

theorem openSvg (h : Moves a b) (t : Token) : Moves a (Builder.openSvg t b) := by
  have hopened : Moves a ((b.insertFor t .svg).openForeign t) :=
    (h.tail (.insert _ _ _)).openForeign t
  unfold Builder.openSvg
  dsimp only
  split_ifs
  · exact (hopened.closeForeign _).pop
  · exact hopened

theorem popToHtmlContext (h : Moves a b) (sourceEnd : ℕ) :
    Moves a (b.popToHtmlContext sourceEnd) := by
  unfold Builder.popToHtmlContext
  generalize b.openElements.length = n
  induction n generalizing b with
  | zero => exact h
  | succ n ih =>
    rw [popToHtmlContextUpTo]
    split
    · exact h
    · split_ifs
      · exact h
      · exact ih (h.closeForeign sourceEnd).pop
      · exact ih h.pop

theorem insertForeign (h : Moves a b) (t : Token) : Moves a (Builder.insertForeign t b) := by
  unfold Builder.insertForeign
  extract_lets ns svg b₁ b₂
  have hmade : Moves a b₁ := h.tail (.insert _ _ _)
  have hopened : Moves a b₂ := by
    simp only [b₂]
    split_ifs
    · exact hmade.openForeign t
    · exact hmade
  split_ifs
  · exact (hopened.closeForeign _).pop
  · exact hopened.pop
  · exact hopened

end Moves

theorem HtmlStep.moves {t : Token} {b b' : Builder} (h : HtmlStep t b b') : Moves b b' := by
  rcases h with h | ⟨-, b₁, f, h, rfl⟩
  · exact .of_edits h
  · exact ((Moves.of_edits h).openSvg t).update f

theorem again_moves (fuel : ℕ) (t : Token) {a b : Builder} (h : Moves a b) :
    Moves a (again (process fuel) t b) := h.trans (process_step fuel t _ b).moves

theorem closeForeignElement_moves (fuel : ℕ) (t : Token) (b : Builder) (entries : List Entry) :
    Moves b (closeForeignElement (process fuel) t b entries) := by
  induction entries with
  | nil => exact .refl b
  | cons e below ih =>
    rw [closeForeignElement]
    split_ifs
    · exact .refl b
    · exact again_moves fuel t (.refl b)
    · exact ((Moves.refl b).closeForeign _).popTo _
    · exact (Moves.refl b).popTo _
    · exact ih

theorem processForeign_moves (fuel : ℕ) (t : Token) (b : Builder) :
    Moves b (processForeign (process fuel) t b) := by
  unfold processForeign
  split
  · split_ifs
    · exact (Moves.refl b).update _
    · exact .refl b
  · split_ifs
    · exact again_moves fuel t ((Moves.refl b).popToHtmlContext _)
    · exact (Moves.refl b).insertForeign t
  · split_ifs
    · exact again_moves fuel t ((Moves.refl b).popToHtmlContext _)
    · exact closeForeignElement_moves fuel t b _
  · exact .refl b

theorem dispatch_moves (fuel : ℕ) (t : Token) (b : Builder) : Moves b (dispatch fuel t b) := by
  unfold dispatch syncForeign
  refine Moves.update ?_ _
  split_ifs
  · exact processForeign_moves fuel t b
  · exact (process_step fuel t _ b).moves

/-- Every token is a chain of moves. -/
theorem handle_moves (fuel : ℕ) (t : Token) (b : Builder) : Moves b (handle fuel t b) := by
  unfold handle
  split_ifs
  · split
    · exact ((Moves.refl b).update _).trans (dispatch_moves fuel _ _)
    · exact (Moves.refl b).update _
  · exact dispatch_moves fuel t b

theorem run_moves (fuel : ℕ) (tokens : List Token) (b : Builder) : Moves b (run fuel tokens b) := by
  induction tokens generalizing b with
  | nil => exact .refl b
  | cons t tokens ih => exact (handle_moves fuel t b).trans (ih _)

end CtBrowser.Dom.Builder
