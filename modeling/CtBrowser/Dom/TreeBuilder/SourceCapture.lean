import CtBrowser.Dom.TreeBuilder.AdoptionAgency
import CtBrowser.Dom.TreeBuilder.SvgElements
import Mathlib.Data.List.DropRight

/-!
# The Captured Source of `svg` Elements

The builder captures the source of every outermost `svg` element with a nesting counter of its
own beside the stack. Here the captures are read off the stack instead: an outermost `svg` element
is followed from the token that opens it to the token after which it is off the stack. The two
agree in every run in which the counter is stepped for each `svg` element that leaves the stack.

## Main definitions

- `lifetimes` — the outermost `svg` elements of a run, each with where its source starts and stops.
- `Counted` — a token takes no `svg` element off the stack behind the counter's back.
- `Captures` — the capture describes the stack.

## Main results

- `foreignSources_of_run` — the captured sources are those of the lifetimes.
-/

namespace CtBrowser.Dom.Builder

/-! ## The sources of the outermost elements -/

/-- The outermost `svg` element on the stack. -/
def outermostSvg (b : Builder) : Option NodeId := b.svgs.head?.map Entry.id

/-- Whether an `svg` element is on the stack. -/
def holdsSvg (b : Builder) (node : NodeId) : Bool := b.svgs.any fun e => e.id == node

/-- The outermost `svg` element that a token opens when none is open: the one on the stack after
it, or that would be there if the tag did not close it at once. -/
def openedSvg (fuel : ℕ) (t : Token) (b : Builder) : Option NodeId :=
  (handle fuel (t.closedIf false) b).outermostSvg

/-- Whether a tag breaks out of foreign content. -/
def leavesForeign (t : Token) : Bool :=
  match t.kind with
  | .startTag => breaksOut t
  | .endTag => t.namedOneOf ["br", "p"]
  | _ => false

/-- Where the source of an element stops that is off the stack after a token: a tag that breaks
out of foreign content is not part of it. -/
def sourceStop (t : Token) : ℕ := if leavesForeign t then t.sourceBegin else t.sourceEnd

/-- An outermost `svg` element, with where its source starts and stops. -/
structure Lifetime where
  node : NodeId
  start : ℕ
  stop : ℕ
deriving DecidableEq, Repr

/-- The node and the source of an element. -/
def Lifetime.source (input : Text) (l : Lifetime) : NodeId × Text :=
  (l.node, capturedSource input l.start l.stop)

/-- The outermost `svg` element with where it starts: the one that is open before a token, or
the one that the token opens. -/
def outermostAt (fuel : ℕ) (t : Token) (b : Builder) (held : Option (NodeId × ℕ)) :
    Option (NodeId × ℕ) :=
  held <|> (openedSvg fuel t b).map fun node => (node, t.sourceBegin)

/-- What a token does to the outermost `svg` element: the one that is open after it, and the one
that it ends. -/
def follow (fuel : ℕ) (t : Token) (b : Builder) (held : Option (NodeId × ℕ)) :
    Option (NodeId × ℕ) × List Lifetime :=
  match outermostAt fuel t b held with
  | none => (none, [])
  | some (node, start) =>
    if (handle fuel t b).holdsSvg node then (some (node, start), [])
    else (none, [⟨node, start, sourceStop t⟩])

/-- The outermost `svg` elements of a run, in order; one that is still open ends with the
input. -/
def lifetimes (fuel : ℕ) : List Token → Builder → Option (NodeId × ℕ) → List Lifetime
  | [], b, held => held.toList.map fun h => ⟨h.1, h.2, b.input.length⟩
  | t :: tokens, b, held =>
    (follow fuel t b held).2 ++
      lifetimes fuel tokens (handle fuel t b) (follow fuel t b held).1

/-! ## Counted tokens -/

/-- The entry that an end tag is matched with in foreign content. -/
def matchedEntry (t : Token) (entries : List Entry) : Option Entry :=
  entries.find? fun e => e.ns = .html || asciiIequals e.tag t.name

/-- The `svg` elements that the rules for foreign content leave on the stack: all but those above
the first element with HTML content for a tag that breaks out, all but the last for an end tag
that is matched with it. -/
def keptSvgs (t : Token) (b : Builder) : List Entry :=
  if b.useForeignRules t then
    if leavesForeign t then
      (b.openElements.rdropWhile fun e => !isHtmlContext e).filter Entry.isSvg
    else if t.kind = .endTag && (matchedEntry t b.openElements.reverse).any Entry.isSvg then
      b.svgs.dropLast
    else b.svgs
  else b.svgs

/-- No other `svg` element leaves the stack for a token. -/
def Counted (fuel : ℕ) (t : Token) (b : Builder) : Prop :=
  keptSvgs t b <+: (handle fuel t b).svgs

/-- Every token of a run is counted. -/
def CountedRun (fuel : ℕ) : List Token → Builder → Prop
  | [], _ => True
  | t :: tokens, b => Counted fuel t b ∧ CountedRun fuel tokens (handle fuel t b)

instance (fuel : ℕ) (t : Token) (b : Builder) : Decidable (Counted fuel t b) :=
  inferInstanceAs (Decidable (keptSvgs t b <+: (handle fuel t b).svgs))

instance decidableCountedRun (fuel : ℕ) :
    (tokens : List Token) → (b : Builder) → Decidable (CountedRun fuel tokens b)
  | [], _ => .isTrue trivial
  | t :: tokens, b =>
    have := decidableCountedRun fuel tokens (handle fuel t b)
    inferInstanceAs (Decidable (Counted fuel t b ∧ CountedRun fuel tokens (handle fuel t b)))

/-- The spans of a sequence of tokens are in order, within the input, and a start tag's is not
empty. -/
structure Spans (input : Text) (tokens : List Token) : Prop where
  ordered : tokens.Pairwise fun t u => t.sourceEnd ≤ u.sourceBegin
  within : ∀ t ∈ tokens, t.sourceBegin ≤ t.sourceEnd ∧ t.sourceEnd ≤ input.length
  startTag : ∀ t ∈ tokens, t.kind = .startTag → t.sourceBegin < t.sourceEnd

/-! ## The capture and the stack -/

/-- The capture describes the stack: its depth is the number of `svg` elements, and it holds the
outermost one. -/
structure Captures (input : Text) (b : Builder) (held : Option (NodeId × ℕ))
    (log : List (NodeId × Text)) : Prop where
  input : b.input = input
  sources : b.foreign.sources = log
  depth : b.foreign.depth = b.svgs.length
  outermost : b.outermostSvg = held.map Prod.fst
  capture : ∀ h ∈ held, b.foreign.node = some h.1 ∧ b.foreign.start = h.2

/-- The sources after the element that is held has ended. -/
def ended (input : Text) (held : Option (NodeId × ℕ)) (stop : ℕ) (log : List (NodeId × Text)) :
    List (NodeId × Text) :=
  log ++ held.toList.map fun h => (h.1, capturedSource input h.2 stop)

/-- The capture describes the stack, and the element that was held has ended if there is no
`svg` element on it any more. -/
def Left (input : Text) (b : Builder) (held : Option (NodeId × ℕ)) (stop : ℕ)
    (log : List (NodeId × Text)) : Prop :=
  b.svgs ≠ [] ∧ Captures input b held log ∨
    b.svgs = [] ∧ Captures input b none (ended input held stop log)

@[simp] theorem svgs_update (b : Builder) (f : ParseState → ParseState) :
    (b.update f).svgs = b.svgs := rfl

section Captures

variable {input : Text} {b c : Builder} {held : Option (NodeId × ℕ)} {log : List (NodeId × Text)}
  {stop : ℕ}

theorem outermostSvg_eq_none : b.outermostSvg = none ↔ b.svgs = [] := by
  simp [outermostSvg]

theorem Captures.held_eq_none (h : Captures input b held log) : held = none ↔ b.svgs = [] := by
  rw [← outermostSvg_eq_none, h.outermost, Option.map_eq_none_iff]

theorem Captures.left (h : Captures input b held log) : Left input b held stop log := by
  by_cases hsvgs : b.svgs = []
  · obtain rfl := h.held_eq_none.mpr hsvgs
    exact .inr ⟨hsvgs, by simpa [ended] using h⟩
  · exact .inl ⟨hsvgs, h⟩

theorem Captures.congr (h : Captures input b held log) (hforeign : c.foreign = b.foreign)
    (hinput : c.input = b.input) (hsvgs : c.svgs = b.svgs) : Captures input c held log where
  input := hinput.trans h.input
  sources := by rw [hforeign, h.sources]
  depth := by rw [hforeign, hsvgs, h.depth]
  outermost := by rw [outermostSvg, hsvgs]; exact h.outermost
  capture := by rw [hforeign]; exact h.capture

theorem Left.congr (h : Left input b held stop log) (hforeign : c.foreign = b.foreign)
    (hinput : c.input = b.input) (hsvgs : c.svgs = b.svgs) : Left input c held stop log := by
  rcases h with ⟨hne, h⟩ | ⟨hnil, h⟩
  · exact .inl ⟨hsvgs ▸ hne, h.congr hforeign hinput hsvgs⟩
  · exact .inr ⟨hsvgs ▸ hnil, h.congr hforeign hinput hsvgs⟩

theorem Quiet.svgs_eq (h : Quiet b c) (hkept : b.svgs <+: c.svgs) : c.svgs = b.svgs := by
  refine (hkept.eq_of_length_le ?_).symm
  simpa only [Builder.svgs, ← List.countP_eq_length_filter] using h.svgs

/-! ## One `svg` element opened or closed -/

/-- An element on top of the stack is the outermost one when there is no other. -/
theorem Captures.openForeign (h : Captures input b held log) {t : Token} {e : Entry}
    (hforeign : c.foreign = b.foreign) (hinput : c.input = b.input)
    (htop : c.openElements.getLast? = some e) (hsvgs : c.svgs = b.svgs ++ [e]) :
    Captures input (c.openForeign t) (held <|> some (e.id, t.sourceBegin)) log := by
  have hdepth : c.foreign.depth = b.svgs.length := hforeign ▸ h.depth
  refine ⟨hinput.trans h.input, ?_, ?_, ?_, ?_⟩
  · unfold Builder.openForeign
    rw [htop]
    dsimp only
    split_ifs <;> exact (congrArg Capture.sources hforeign).trans h.sources
  · have hnext : (c.openForeign t).foreign.depth = c.foreign.depth + 1 := by
      unfold Builder.openForeign
      rw [htop]
      dsimp only
      split_ifs <;> rfl
    rw [hnext, hdepth]
    exact (by rw [show (c.openForeign t).svgs = c.svgs from rfl, hsvgs]; simp)
  · show c.outermostSvg = _
    rw [outermostSvg, hsvgs]
    cases held with
    | none => simp [h.held_eq_none.mp rfl]
    | some held =>
      have hne : b.svgs ≠ [] := fun hnil => by simpa using h.held_eq_none.mpr hnil
      rw [List.head?_append_of_ne_nil _ hne]
      exact h.outermost
  · unfold Builder.openForeign
    rw [htop]
    cases held with
    | none =>
      have hzero : c.foreign.depth = 0 := by rw [hdepth, h.held_eq_none.mp rfl]; rfl
      rintro _ ⟨rfl⟩
      simp [hzero]
    | some held =>
      have hne : b.svgs ≠ [] := fun hnil => by simpa using h.held_eq_none.mpr hnil
      have hpos : c.foreign.depth ≠ 0 := by
        rw [hdepth]
        exact fun hzero => hne (List.length_eq_zero_iff.mp hzero)
      rintro _ ⟨rfl⟩
      simpa [hpos, ← hforeign] using h.capture held rfl

theorem closeForeign_eq (b : Builder) (stop : ℕ) :
    b.closeForeign stop = { b with foreign := (b.closeForeign stop).foreign } := by
  unfold Builder.closeForeign
  dsimp only
  split
  · rfl
  split
  · rfl
  split <;> rfl

/-- The last `svg` element leaves the stack: the capture ends with the outermost one. -/
theorem Captures.closeForeign (h : Captures input b held log) {e : Entry}
    (hspan : ∀ x ∈ held, x.2 < stop ∧ stop ≤ input.length)
    (hforeign : c.foreign = (b.closeForeign stop).foreign) (hinput : c.input = b.input)
    (hsvgs : b.svgs = c.svgs ++ [e]) : Left input c held stop log := by
  have hdepth : b.foreign.depth = c.svgs.length + 1 := by rw [h.depth, hsvgs]; simp
  obtain ⟨x, rfl⟩ : ∃ x, held = some x := by
    refine Option.ne_none_iff_exists'.mp fun hnone => ?_
    simp [h.held_eq_none.mp hnone] at hsvgs
  obtain ⟨hnode, hstart⟩ := h.capture x rfl
  by_cases hnil : c.svgs = []
  · have hone : b.foreign.depth = 1 := by rw [hdepth, hnil]; rfl
    have hwithin := hspan x rfl
    have hclosed : c.foreign =
        ⟨b.foreign.sources ++ [(x.1, capturedSource input x.2 stop)], none, x.2, 0⟩ := by
      rw [hforeign, Builder.closeForeign]
      simp [hone, hnode, hstart, h.input, hwithin]
    refine .inr ⟨hnil, hinput.trans h.input, ?_, ?_, ?_, by simp⟩
    · rw [hclosed, h.sources]
      rfl
    · rw [hclosed, hnil]
      rfl
    · exact outermostSvg_eq_none.mpr hnil
  · have hmore : 1 < b.foreign.depth := by
      have := List.length_pos_iff.mpr hnil
      omega
    have hclosed : c.foreign = { b.foreign with depth := b.foreign.depth - 1 } := by
      rw [hforeign, Builder.closeForeign, if_neg (by omega), if_pos hmore]
    refine .inl ⟨hnil, hinput.trans h.input, ?_, ?_, ?_, ?_⟩
    · rw [hclosed]
      exact h.sources
    · rw [hclosed, hdepth]
      rfl
    · rw [← h.outermost, outermostSvg, outermostSvg, hsvgs, List.head?_append_of_ne_nil _ hnil]
    · rw [hclosed]
      exact h.capture

theorem svgs_concat {e : Entry} (hopen : c.openElements = b.openElements ++ [e])
    (he : e.isSvg) : c.svgs = b.svgs ++ [e] := by
  rw [Builder.svgs, hopen, List.filter_append, List.filter_cons_of_pos he]
  rfl

/-- The entry of an `svg` element made for a token. -/
def svgEntry (t : Token) (b : Builder) : Entry :=
  makeEntry b.nextNode (adjustSvgTag t.name) .svg t.attributes

theorem isSvg_svgEntry {t : Token} (ht : t.named "svg") (b : Builder) :
    (svgEntry t b).isSvg = true := by
  simp only [svgEntry, makeEntry, Entry.isSvg, named_iff.mp ht]
  decide

theorem svgs_openSvg {t : Token} (ht : t.named "svg") (b : Builder) :
    (Builder.openSvg t b).svgs = if t.selfClosing then b.svgs else b.svgs ++ [svgEntry t b] := by
  have hopen : ((b.insertFor t .svg).openForeign t).openElements =
      b.openElements ++ [svgEntry t b] := rfl
  unfold Builder.openSvg
  dsimp only
  split_ifs
  · rw [Builder.svgs, openElements_pop, closeForeign_eq, hopen, List.dropLast_concat, Builder.svgs]
  · exact svgs_concat hopen (isSvg_svgEntry ht b)

/-- The `svg` element of a start tag is the outermost one when there is no other, and ends at once
when the tag closes itself. -/
theorem Captures.openSvg (h : Captures input b held log) {t : Token} (ht : t.named "svg")
    (hheld : ∀ x ∈ held, x.2 < t.sourceBegin) (hbegin : t.sourceBegin < t.sourceEnd)
    (hend : t.sourceEnd ≤ input.length) :
    Left input (Builder.openSvg t b) (held <|> some (b.nextNode, t.sourceBegin)) t.sourceEnd
      log := by
  have he := isSvg_svgEntry ht b
  have hopen : ((b.insertFor t .svg).openForeign t).openElements =
      b.openElements ++ [svgEntry t b] := rfl
  have hopened : Captures input ((b.insertFor t .svg).openForeign t)
      (held <|> some (b.nextNode, t.sourceBegin)) log :=
    h.openForeign (e := svgEntry t b) rfl rfl List.getLast?_concat (svgs_concat hopen he)
  unfold Builder.openSvg
  dsimp only
  generalize (b.insertFor t .svg).openForeign t = opened at hopened hopen
  split_ifs
  · have hpopped : (opened.closeForeign t.sourceEnd).pop.openElements = b.openElements := by
      rw [openElements_pop, closeForeign_eq, hopen, List.dropLast_concat]
    have hquiet := (Quiet.refl (opened.closeForeign t.sourceEnd)).pop
    refine hopened.closeForeign (e := svgEntry t b) ?_ hquiet.foreign ?_ ?_
    · intro x hx
      refine ⟨?_, hend⟩
      cases held with
      | none => exact Option.some.inj hx ▸ hbegin
      | some y => exact Option.some.inj hx ▸ (hheld y rfl).trans hbegin
    · rw [hquiet.input, closeForeign_eq]
    · exact svgs_concat (by rw [hpopped, hopen]) he
  · exact hopened.left

/-! ## Tags that break out of foreign content -/

theorem Left.trans (h : Left input b held stop log)
    (hspan : ∀ x ∈ held, x.2 < stop ∧ stop ≤ input.length)
    (hstep : ∀ held log, (∀ x ∈ held, x.2 < stop ∧ stop ≤ input.length) →
      Captures input b held log → Left input c held stop log) : Left input c held stop log := by
  rcases h with ⟨-, h⟩ | ⟨-, h⟩
  · exact hstep held log hspan h
  · rcases hstep none _ (by simp) h with ⟨hne, h⟩ | ⟨hnil, h⟩
    · exact absurd (h.held_eq_none.mp rfl) hne
    · exact .inr ⟨hnil, by simpa [ended] using h⟩

/-- The stack goes down to below an entry with no `svg` element above it, and the capture of an
`svg` element ends with it. -/
theorem Captures.leave (h : Captures input b held log) {below above : List Entry} {e : Entry}
    (hspan : ∀ x ∈ held, x.2 < stop ∧ stop ≤ input.length)
    (hopen : b.openElements = below ++ e :: above) (habove : ∀ x ∈ above, x.isSvg = false)
    (hbelow : c.openElements = below)
    (hforeign : c.foreign = (if e.isSvg then b.closeForeign stop else b).foreign)
    (hinput : c.input = b.input) : Left input c held stop log := by
  have hnone : above.filter Entry.isSvg = [] := by simpa using habove
  by_cases he : e.isSvg
  · refine h.closeForeign (e := e) hspan (by rw [hforeign, if_pos he]) hinput ?_
    rw [Builder.svgs, Builder.svgs, hopen, hbelow, List.filter_append,
      List.filter_cons_of_pos he, hnone]
  · refine (h.congr (by rw [hforeign, if_neg he]) hinput ?_).left
    rw [Builder.svgs, Builder.svgs, hopen, hbelow, List.filter_append,
      List.filter_cons_of_neg he, hnone, List.append_nil]

theorem Captures.popTop (h : Captures input b held log) {below : List Entry} {top : Entry}
    (hspan : ∀ x ∈ held, x.2 < stop ∧ stop ≤ input.length)
    (hopen : b.openElements = below ++ [top])
    (hc : c = (if top.isSvg then b.closeForeign stop else b).pop) :
    c.openElements = below ∧ Left input c held stop log := by
  have hquiet := (Quiet.refl (if top.isSvg then b.closeForeign stop else b)).pop
  rw [← hc] at hquiet
  have hsame : (if top.isSvg then b.closeForeign stop else b).openElements = b.openElements ∧
      (if top.isSvg then b.closeForeign stop else b).input = b.input := by
    split_ifs
    · rw [closeForeign_eq]
      exact ⟨rfl, rfl⟩
    · exact ⟨rfl, rfl⟩
  have hbelow : c.openElements = below := by
    rw [hc, openElements_pop, hsame.1, hopen, List.dropLast_concat]
  exact ⟨hbelow, h.leave hspan hopen (by simp) hbelow hquiet.foreign
    (hquiet.input.trans hsame.2)⟩

theorem Captures.popToHtmlContextUpTo (hspan : ∀ x ∈ held, x.2 < stop ∧ stop ≤ input.length)
    (n : ℕ) (hn : b.openElements.length ≤ n) (h : Captures input b held log) :
    Left input (popToHtmlContextUpTo stop n b) held stop log ∧
      (popToHtmlContextUpTo stop n b).openElements =
        b.openElements.rdropWhile fun e => !isHtmlContext e := by
  induction n generalizing b held log with
  | zero =>
    have hopen := List.length_eq_zero_iff.mp (Nat.le_zero.mp hn)
    exact ⟨h.left, by simp [Builder.popToHtmlContextUpTo, hopen]⟩
  | succ n ih =>
    rw [Builder.popToHtmlContextUpTo]
    rcases List.eq_nil_or_concat b.openElements with hopen | ⟨below, top, hopen⟩
    · simp only [hopen, List.getLast?_nil, List.rdropWhile_nil]
      exact ⟨h.left, trivial⟩
    rw [List.concat_eq_append] at hopen
    simp only [hopen, List.getLast?_concat, List.rdropWhile_concat]
    by_cases hcontext : isHtmlContext top
    · simp only [hcontext, if_true, Bool.not_true, Bool.false_eq_true, if_false]
      exact ⟨h.left, hopen⟩
    simp only [hcontext, if_true, Bool.not_false, Bool.false_eq_true, if_false]
    generalize hc : (if top.isSvg then b.closeForeign stop else b).pop = c
    obtain ⟨hbelow, hleft⟩ := h.popTop hspan hopen hc.symm
    have hlength : c.openElements.length ≤ n := by
      rw [hbelow]
      simpa [hopen] using hn
    refine ⟨hleft.trans hspan fun held log hspan h => (ih hspan hlength h).1, ?_⟩
    rcases hleft with ⟨-, hleft⟩ | ⟨-, hleft⟩
    · rw [(ih hspan hlength hleft).2, hbelow]
    · rw [(ih (by simp) hlength hleft).2, hbelow]

theorem Captures.popToHtmlContext (h : Captures input b held log)
    (hspan : ∀ x ∈ held, x.2 < stop ∧ stop ≤ input.length) :
    Left input (b.popToHtmlContext stop) held stop log ∧
      (b.popToHtmlContext stop).openElements =
        b.openElements.rdropWhile fun e => !isHtmlContext e :=
  Captures.popToHtmlContextUpTo hspan _ le_rfl h

/-! ## Start and end tags in foreign content -/

theorem adjustSvgTag_ne {tag : Text} (h : tag ≠ ascii "svg") : adjustSvgTag tag ≠ ascii "svg" := by
  have hrows : ∀ row ∈ svgTags, ascii row.2 ≠ ascii "svg" := by decide
  unfold adjustSvgTag
  split
  next row hrow => exact hrows row (List.mem_of_find?_eq_some hrow)
  · exact h

/-- The namespace of a new element in foreign content. -/
def foreignNs (b : Builder) : NodeNs := (b.adjustedCurrent.map Entry.ns).getD .html

theorem insertForeign_svg {t : Token} (hns : b.foreignNs = .svg) (ht : t.named "svg") :
    insertForeign t b = openSvg t b := by
  unfold insertForeign openSvg
  rw [foreignNs] at hns
  simp only [hns, ht, decide_true, Bool.true_and, if_true]

theorem Quiet.insertForeign {t : Token} (h : b.foreignNs ≠ .svg ∨ t.named "svg" = false) :
    Quiet b (insertForeign t b) := by
  have hother : (decide (b.foreignNs = .svg) && t.named "svg") = false := by
    rcases h with h | h <;> simp [h]
  have hinserted : Quiet b (b.insertFor t b.foreignNs) := by
    refine (Quiet.refl b).insertElement _ (h.imp_right fun hname => adjustSvgTag_ne ?_)
    simpa [Token.named] using hname
  unfold Builder.insertForeign
  rw [foreignNs] at hother hinserted
  simp only [hother, Bool.false_eq_true, if_false]
  split_ifs
  · exact hinserted.pop
  · exact hinserted

/-- What the walk of an end tag down the stack does: nothing, what the insertion mode does at an
HTML element, or it takes off the first foreign element of the tag's name. -/
theorem closeForeignElement_cases (p : Process) (t : Token) (b : Builder) (entries : List Entry) :
    closeForeignElement p t b entries = b ∨
      (closeForeignElement p t b entries = again p t b ∧
        (matchedEntry t entries).any Entry.isSvg = false) ∨
      ∃ above e below, entries = above ++ e :: below ∧ matchedEntry t entries = some e ∧
        (∀ x ∈ above, asciiIequals x.tag t.name = false) ∧ asciiIequals e.tag t.name = true ∧
        closeForeignElement p t b entries =
          (if e.isSvg then b.closeForeign t.sourceEnd else b).popTo below.length := by
  induction entries with
  | nil => exact .inl rfl
  | cons e below ih =>
    rw [closeForeignElement]
    by_cases hroot : (below.isEmpty && !b.parse.context.isEmpty) = true
    · exact .inl (if_pos hroot)
    rw [if_neg hroot]
    by_cases hns : e.ns = .html
    · rw [if_pos hns]
      exact .inr (.inl ⟨rfl, by simp [matchedEntry, hns, Entry.isSvg]⟩)
    rw [if_neg hns]
    by_cases hmatch : asciiIequals e.tag t.name
    · rw [if_pos hmatch]
      exact .inr (.inr ⟨[], e, below, rfl, by simp [matchedEntry, hmatch], by simp, hmatch, rfl⟩)
    rw [if_neg hmatch]
    have hskip : matchedEntry t (e :: below) = matchedEntry t below :=
      List.find?_cons_of_neg (by simp [hns, hmatch])
    rcases ih with h | ⟨h, hnone⟩ | ⟨above, e', below', rfl, hfound, habove, he', h⟩
    · exact .inl h
    · exact .inr (.inl ⟨h, hskip ▸ hnone⟩)
    · refine .inr (.inr ⟨e :: above, e', below', rfl, hskip ▸ hfound, ?_, he', h⟩)
      exact List.forall_mem_cons.mpr ⟨by simpa using hmatch, habove⟩

/-! ## Tokens -/

variable {t : Token} {fuel : ℕ}

theorem Left.again (h : Left input c held stop log) (ht : ¬opensSvg t)
    (hkept : c.svgs <+: (again (process fuel) t c).svgs) :
    Left input (again (process fuel) t c) held stop log ∧
      (again (process fuel) t c).svgs = c.svgs :=
  have hquiet := Quiet.edits ((process_step fuel t _ c).edits ht)
  ⟨h.congr hquiet.foreign hquiet.input (hquiet.svgs_eq hkept), hquiet.svgs_eq hkept⟩

theorem openElements_popTo (b : Builder) (height : ℕ) :
    (b.popTo height).openElements = b.openElements.take height := by
  have hpops (n : ℕ) :
      (Builder.pop^[n] b).openElements = b.openElements.take (b.openElements.length - n) := by
    induction n with
    | zero => simp
    | succ n ih =>
      rw [Function.iterate_succ_apply', openElements_pop, ih, List.dropLast_eq_take,
        List.length_take, List.take_take]
      congr 1
      omega
  rw [Builder.popTo, hpops]
  rcases Nat.le_total height b.openElements.length with hle | hle
  · rw [Nat.sub_sub_self hle]
  · rw [Nat.sub_eq_zero_of_le hle, Nat.sub_zero, List.take_length, List.take_of_length_le hle]

theorem Captures.closeForeignElement (h : Captures input b held log) (ht : ¬opensSvg t)
    (hspan : ∀ x ∈ held, x.2 < t.sourceEnd ∧ t.sourceEnd ≤ input.length)
    (hkept : (if (matchedEntry t b.openElements.reverse).any Entry.isSvg then b.svgs.dropLast
        else b.svgs) <+:
      (closeForeignElement (process fuel) t b b.openElements.reverse).svgs) :
    Left input (closeForeignElement (process fuel) t b b.openElements.reverse) held
        t.sourceEnd log ∧
      (closeForeignElement (process fuel) t b b.openElements.reverse).svgs <+: b.svgs := by
  rcases closeForeignElement_cases (process fuel) t b b.openElements.reverse with
    heq | ⟨heq, hnone⟩ | ⟨above, e, below, hopen, hfound, habove, he, heq⟩
  · rw [heq]
    exact ⟨h.left, List.prefix_rfl⟩
  · rw [heq] at hkept ⊢
    rw [hnone] at hkept
    obtain ⟨hleft, hsvgs⟩ := h.left.again ht hkept
    exact ⟨hleft, hsvgs ▸ List.prefix_rfl⟩
  · rw [heq] at hkept ⊢
    have hstack : b.openElements = below.reverse ++ e :: above.reverse := by
      rw [← List.reverse_reverse b.openElements, hopen]
      simp
    by_cases hsvg : e.isSvg
    · -- an `svg` element above it would have been matched in its place
      have hnone : ∀ x ∈ above.reverse, x.isSvg = false := by
        intro x hx
        by_contra hx'
        have htag : x.tag = e.tag := by
          simp only [Entry.isSvg, Bool.and_eq_true, beq_iff_eq, Bool.not_eq_false] at hx' hsvg
          rw [hx'.2, hsvg.2]
        have := habove x (List.mem_reverse.mp hx)
        rw [htag, he] at this
        cases this
      set c := (if e.isSvg then b.closeForeign t.sourceEnd else b).popTo below.length with hc
      have hquiet := (Quiet.refl (if e.isSvg then b.closeForeign t.sourceEnd else b)).popTo
        below.length
      rw [← hc, if_pos hsvg] at hquiet
      have hbelow : c.openElements = below.reverse := by
        rw [hc, openElements_popTo, if_pos hsvg, closeForeign_eq, hstack,
          ← List.length_reverse, List.take_left]
      refine ⟨h.leave hspan hstack hnone hbelow (by rw [if_pos hsvg, hquiet.foreign])
        (by rw [hquiet.input, closeForeign_eq]), ?_⟩
      rw [Builder.svgs, Builder.svgs, hbelow, hstack, List.filter_append]
      exact List.prefix_append _ _
    · rw [hfound, Option.any_some, if_neg hsvg] at hkept
      rw [if_neg hsvg] at hkept ⊢
      have hquiet := (Quiet.refl b).popTo below.length
      have hsvgs := hquiet.svgs_eq hkept
      exact ⟨h.left.congr hquiet.foreign hquiet.input hsvgs, hsvgs ▸ List.prefix_rfl⟩

theorem Captures.processForeign (h : Captures input b held log) (ht : ¬opensSvg t)
    (hspan : ∀ x ∈ held, x.2 < sourceStop t ∧ sourceStop t ≤ input.length)
    (hrules : b.useForeignRules t)
    (hkept : keptSvgs t b <+: (processForeign (process fuel) t b).svgs) :
    Left input (processForeign (process fuel) t b) held (sourceStop t) log ∧
      (processForeign (process fuel) t b).svgs <+: b.svgs := by
  rw [keptSvgs, if_pos hrules] at hkept
  -- a tag that breaks out is handled by the insertion mode after the foreign elements are popped
  have hbreak (hleaves : leavesForeign t) (heq : Builder.processForeign (process fuel) t b =
      again (process fuel) t (b.popToHtmlContext t.sourceBegin)) :
      Left input (Builder.processForeign (process fuel) t b) held (sourceStop t) log ∧
        (Builder.processForeign (process fuel) t b).svgs <+: b.svgs := by
    rw [if_pos hleaves, heq] at hkept
    rw [sourceStop, if_pos hleaves] at hspan ⊢
    obtain ⟨hleft, hopen⟩ := h.popToHtmlContext hspan
    rw [← hopen] at hkept
    obtain ⟨hleft', hsvgs⟩ := hleft.again ht hkept
    rw [heq, hsvgs, Builder.svgs, hopen]
    exact ⟨hleft', (List.rdropWhile_prefix _ _).filter _⟩
  have hquiet (hleaves : leavesForeign t = false) (hkind : t.kind ≠ .endTag)
      (hquiet : Quiet b (Builder.processForeign (process fuel) t b)) :
      Left input (Builder.processForeign (process fuel) t b) held (sourceStop t) log ∧
        (Builder.processForeign (process fuel) t b).svgs <+: b.svgs := by
    simp only [hleaves, hkind, decide_false, Bool.false_and, Bool.false_eq_true, if_false] at hkept
    have hsvgs := hquiet.svgs_eq hkept
    exact ⟨h.left.congr hquiet.foreign hquiet.input hsvgs, hsvgs ▸ List.prefix_rfl⟩
  cases hkind : t.kind with
  | character =>
    refine hquiet (by simp [leavesForeign, hkind]) (by simp [hkind]) ?_
    simp only [Builder.processForeign, hkind]
    split_ifs
    · exact Quiet.edits ((Edits.refl b).update _)
    · exact .refl b
  | startTag =>
    by_cases hbreaks : breaksOut t
    · refine hbreak (by simpa [leavesForeign, hkind] using hbreaks) ?_
      simp only [Builder.processForeign, hkind, if_pos hbreaks]
    · refine hquiet (by simpa [leavesForeign, hkind] using hbreaks) (by simp [hkind]) ?_
      simp only [Builder.processForeign, hkind, if_neg hbreaks]
      exact .insertForeign (.inr (by simpa [opensSvg, hkind] using ht))
  | endTag =>
    by_cases hbreaks : t.namedOneOf ["br", "p"]
    · refine hbreak (by simpa [leavesForeign, hkind] using hbreaks) ?_
      simp only [Builder.processForeign, hkind, if_pos hbreaks]
    · have hleaves : leavesForeign t = false := by simpa [leavesForeign, hkind] using hbreaks
      simp only [sourceStop, hleaves, Bool.false_eq_true, if_false] at hspan hkept ⊢
      simp only [hkind, decide_true, Bool.true_and] at hkept
      simp only [Builder.processForeign, hkind, if_neg hbreaks] at hkept ⊢
      exact h.closeForeignElement ht hspan hkept
  | doctype | comment | processingInstruction | endOfFile | incomplete =>
    refine hquiet (by simp [leavesForeign, hkind]) (by simp [hkind]) ?_
    simp only [Builder.processForeign, hkind]
    exact .refl b

theorem Captures.dispatch (h : Captures input b held log) (ht : ¬opensSvg t)
    (hspan : ∀ x ∈ held, x.2 < sourceStop t ∧ sourceStop t ≤ input.length)
    (hkept : keptSvgs t b <+: (dispatch fuel t b).svgs) :
    Left input (dispatch fuel t b) held (sourceStop t) log ∧
      (dispatch fuel t b).svgs <+: b.svgs := by
  unfold Builder.dispatch syncForeign at hkept ⊢
  by_cases hrules : b.useForeignRules t
  · rw [if_pos hrules] at hkept ⊢
    obtain ⟨hleft, hsvgs⟩ := h.processForeign ht hspan hrules hkept
    exact ⟨hleft.congr rfl rfl rfl, hsvgs⟩
  · rw [if_neg hrules] at hkept ⊢
    rw [keptSvgs, if_neg hrules] at hkept
    obtain ⟨hleft, hsvgs⟩ := h.left.again ht hkept
    exact ⟨hleft.congr rfl rfl rfl, by rw [← hsvgs]; exact List.prefix_rfl⟩

/-- The state after a newline has been skipped or found not to be there. -/
def newlineSkipped (b : Builder) : Builder := b.update fun p => { p with skipNewline := false }

theorem handle_cases (fuel : ℕ) (t : Token) (b : Builder) :
    handle fuel t b = Builder.dispatch fuel t b ∨ handle fuel t b = b.newlineSkipped ∨
      ∃ data, handle fuel t b = Builder.dispatch fuel { t with data } b.newlineSkipped := by
  unfold handle
  by_cases hskip : b.parse.skipNewline
  · rw [if_pos hskip]
    refine .inr ?_
    unfold skipNewline
    cases hdata : t.data with
    | nil => exact .inr ⟨t.data, rfl⟩
    | cons c rest =>
      dsimp only
      by_cases hnewline : (t.kind = .character && c = byte '\n'.toNat) = true
      · rw [if_pos hnewline]
        by_cases hrest : rest.isEmpty
        · rw [if_pos hrest]
          exact .inl rfl
        · rw [if_neg hrest]
          exact .inr ⟨rest, rfl⟩
      · rw [if_neg hnewline]
        exact .inr ⟨t.data, rfl⟩
  · exact .inl (if_neg hskip)

/-- A token that opens no `svg` element ends the outermost one when it leaves none on the
stack. -/
theorem Captures.handle (h : Captures input b held log) (ht : ¬opensSvg t)
    (hspan : ∀ x ∈ held, x.2 < sourceStop t ∧ sourceStop t ≤ input.length)
    (hcounted : Counted fuel t b) :
    Left input (handle fuel t b) held (sourceStop t) log ∧
      (handle fuel t b).svgs <+: b.svgs := by
  rw [Counted] at hcounted
  have hskipped : Captures input b.newlineSkipped held log := h.congr rfl rfl rfl
  rcases handle_cases fuel t b with heq | heq | ⟨data, heq⟩
  · rw [heq] at hcounted ⊢
    exact h.dispatch ht hspan hcounted
  · rw [heq]
    exact ⟨hskipped.left, List.prefix_rfl⟩
  · rw [heq] at hcounted ⊢
    exact hskipped.dispatch (t := { t with data }) ht hspan hcounted

/-- What a step does with an `svg` start tag, whether it closes itself or not: it opens the
element after edits, or does nothing that matters here. -/
def OpensQuietly (t : Token) (b : Builder) (step : Token → Builder) : Prop :=
  (∃ c, Quiet b c ∧ ∀ flag, ∃ f, step (t.closedIf flag) =
    (Builder.openSvg (t.closedIf flag) c).update f) ∨
  ∀ flag, Quiet b (step (t.closedIf flag))

theorem breaksOut_svg (ht : opensSvg t) : breaksOut t = false := by
  have hname := named_iff.mp ht.2
  simp only [breaksOut, Token.named, hname]
  have hbreaks : breaksOutOfForeignContent (ascii "svg") = false := by decide
  have hfont : (ascii "svg" == ascii "font") = false := by decide
  rw [hbreaks, hfont]
  rfl

theorem exists_syncForeign (b : Builder) (f : ParseState → ParseState) :
    ∃ g, syncForeign (b.update f) = b.update g :=
  ⟨(fun p => { p with cdataAllowed :=
    ((b.update f).adjustedCurrent.map fun e => !decide (e.ns = .html)).getD false }) ∘ f, rfl⟩

theorem dispatch_opens (ht : opensSvg t) (fuel : ℕ) (b : Builder) :
    OpensQuietly t b fun u => Builder.dispatch fuel u b := by
  by_cases hrules : b.useForeignRules t
  · have hforeign (flag : Bool) : Builder.dispatch fuel (t.closedIf flag) b =
        syncForeign (insertForeign (t.closedIf flag) b) := by
      have hkind : (t.closedIf flag).kind = .startTag := ht.1
      rw [Builder.dispatch, if_pos (by exact hrules), Builder.processForeign, hkind]
      dsimp only
      rw [if_neg (by simpa using breaksOut_svg (t := t.closedIf flag) ht)]
    by_cases hns : b.foreignNs = .svg
    · refine .inl ⟨b, .refl b, fun flag => ?_⟩
      dsimp only
      rw [hforeign, insertForeign_svg (t := t.closedIf flag) hns ht.2]
      exact exists_syncForeign (openSvg (t.closedIf flag) b) id
    · refine .inr fun flag => ?_
      dsimp only
      rw [hforeign]
      exact (Quiet.insertForeign (.inl hns)).beside rfl rfl le_rfl rfl
  · have hhtml (flag : Bool) : Builder.dispatch fuel (t.closedIf flag) b =
        syncForeign (process fuel (t.closedIf flag) b.parse.mode b) := by
      rw [Builder.dispatch, if_neg (by exact hrules)]
    obtain ⟨c, hedits, heq | ⟨f, heq⟩⟩ := process_opens ht fuel b.parse.mode b
    · refine .inr fun flag => ?_
      dsimp only at heq ⊢
      rw [hhtml, heq]
      exact (Quiet.edits hedits).beside rfl rfl le_rfl rfl
    · refine .inl ⟨c, Quiet.edits hedits, fun flag => ?_⟩
      dsimp only at heq ⊢
      rw [hhtml, heq]
      exact exists_syncForeign (openSvg (t.closedIf flag) c) f

theorem handle_opens (ht : opensSvg t) (fuel : ℕ) (b : Builder) :
    OpensQuietly t b fun u => handle fuel u b := by
  by_cases hskip : b.parse.skipNewline
  · have heq (flag : Bool) : handle fuel (t.closedIf flag) b =
        Builder.dispatch fuel (t.closedIf flag) b.newlineSkipped := by
      have hkept : skipNewline (t.closedIf flag) = some (t.closedIf flag) := by
        have hkind : (t.closedIf flag).kind = .startTag := ht.1
        unfold skipNewline
        split <;> simp [hkind]
      rw [handle, if_pos hskip, hkept]
      rfl
    have hskipped : Quiet b b.newlineSkipped := (Quiet.refl b).beside rfl rfl le_rfl rfl
    rcases dispatch_opens ht fuel b.newlineSkipped with ⟨c, hc, hopens⟩ | hquiet
    · exact .inl ⟨c, hskipped.trans hc, fun flag => by simpa only [heq] using hopens flag⟩
    · exact .inr fun flag => by simpa only [heq] using hskipped.trans (hquiet flag)
  · have heq (flag : Bool) : handle fuel (t.closedIf flag) b =
        Builder.dispatch fuel (t.closedIf flag) b := by rw [handle, if_neg hskip]
    simpa only [OpensQuietly, heq] using dispatch_opens ht fuel b

/-! ## Runs -/

theorem keptSvgs_svg (ht : opensSvg t) (b : Builder) : keptSvgs t b = b.svgs := by
  have hleaves : leavesForeign t = false := by
    rw [leavesForeign, ht.1]
    exact breaksOut_svg ht
  have hkind : t.kind ≠ .endTag := by simp [ht.1]
  simp [keptSvgs, hleaves, hkind]

theorem keptSvgs_prefix (t : Token) (b : Builder) : keptSvgs t b <+: b.svgs := by
  unfold keptSvgs
  split_ifs
  · exact (List.rdropWhile_prefix _ _).filter _
  · exact List.dropLast_prefix _
  · exact List.prefix_rfl
  · exact List.prefix_rfl

/-- The outermost `svg` element at the end of a token is followed by whether it is on the stack. -/
theorem Left.follow
    (h : Left input (handle fuel t b) (outermostAt fuel t b held) (sourceStop t) log) :
    Captures input (handle fuel t b) (follow fuel t b held).1
      (log ++ (Builder.follow fuel t b held).2.map (Lifetime.source input)) := by
  unfold Builder.follow
  generalize outermostAt fuel t b held = now at h ⊢
  cases now with
  | none =>
    rcases h with ⟨hne, h⟩ | ⟨-, h⟩
    · exact absurd (h.held_eq_none.mp rfl) hne
    · simpa [ended] using h
  | some now =>
    obtain ⟨node, start⟩ := now
    dsimp only
    rcases h with ⟨-, h⟩ | ⟨hnil, h⟩
    · have hholds : (handle fuel t b).holdsSvg node := by
        obtain ⟨e, he, hnode⟩ := Option.map_eq_some_iff.mp h.outermost
        exact List.any_eq_true.mpr ⟨e, List.mem_of_mem_head? he, by simpa using hnode⟩
      rw [if_pos hholds]
      simpa using h
    · have hholds : (handle fuel t b).holdsSvg node = false := by simp [holdsSvg, hnil]
      rw [hholds]
      simpa [ended, Lifetime.source] using h

theorem mem_follow {x : NodeId × ℕ} (h : x ∈ (follow fuel t b held).1) :
    x ∈ outermostAt fuel t b held := by
  unfold follow at h
  cases hnow : outermostAt fuel t b held with
  | none => simp [hnow] at h
  | some now =>
    obtain ⟨node, start⟩ := now
    simp only [hnow] at h
    split_ifs at h
    · exact h
    · cases h

theorem outermostAt_of_none (h : held = none → openedSvg fuel t b = none) :
    outermostAt fuel t b held = held := by
  cases held with
  | none => simp [outermostAt, h rfl]
  | some x => rfl

/-- A token keeps the capture in step with the stack: an `svg` start tag. -/
theorem Captures.svgTag (h : Captures input b held log) (hordered : b.Ordered)
    (hheld : ∀ x ∈ held, x.2 < t.sourceBegin) (hbegin : t.sourceBegin < t.sourceEnd)
    (hend : t.sourceEnd ≤ input.length) (ht : opensSvg t) (hcounted : Counted fuel t b) :
    Left input (Builder.handle fuel t b) (outermostAt fuel t b held) (sourceStop t) log ∧
      ∀ x ∈ outermostAt fuel t b held, x.2 < t.sourceEnd := by
  have hstop : sourceStop t = t.sourceEnd := by
    rw [sourceStop, leavesForeign, ht.1]
    exact if_neg (by simpa using breaksOut_svg ht)
  rw [Counted, keptSvgs_svg ht] at hcounted
  rcases handle_opens ht fuel b with ⟨c, hquiet, hopens⟩ | hquiet
  · obtain ⟨f, hopen⟩ : ∃ f, Builder.handle fuel t b = (Builder.openSvg t c).update f :=
      hopens t.selfClosing
    have hsvgs : c.svgs = b.svgs := by
      refine hquiet.svgs_eq ?_
      rw [hopen, svgs_update, svgs_openSvg ht.2] at hcounted
      split_ifs at hcounted
      · exact hcounted
      · -- the new element is none of those that were open
        refine (List.prefix_concat_iff.mp hcounted).resolve_left fun heq => ?_
        have hmem : svgEntry t c ∈ b.svgs := heq ▸ List.mem_append_right _ (.head _)
        have hold := hordered.openNew _ (List.mem_map_of_mem (List.mem_of_mem_filter hmem))
        exact (hold.trans_le hquiet.nextNode).ne rfl
    have hc : Captures input c held log := h.congr hquiet.foreign hquiet.input hsvgs
    have hnow : outermostAt fuel t b held = (held <|> some (c.nextNode, t.sourceBegin)) := by
      cases held with
      | some x => rfl
      | none =>
        have hnil : c.svgs = [] := hsvgs.trans (h.held_eq_none.mp rfl)
        obtain ⟨g, hopen'⟩ := hopens false
        dsimp only at hopen'
        have hname : (t.closedIf false).named "svg" = true := ht.2
        rw [outermostAt, openedSvg, outermostSvg, hopen', svgs_update, svgs_openSvg hname, hnil]
        rfl
    rw [hnow, hopen, hstop]
    refine ⟨(hc.openSvg ht.2 hheld hbegin hend).congr rfl rfl rfl, fun x hx => ?_⟩
    cases held with
    | some y => exact (hheld x hx).trans hbegin
    | none => exact Option.some.inj hx ▸ hbegin
  · have hthis : Quiet b (Builder.handle fuel t b) := hquiet t.selfClosing
    have hnow : outermostAt fuel t b held = held := by
      refine outermostAt_of_none fun hnone => ?_
      have hnil : b.svgs = [] := h.held_eq_none.mp hnone
      have hother := (hquiet false).svgs_eq (hnil ▸ List.nil_prefix)
      rwa [hnil, ← outermostSvg_eq_none] at hother
    rw [hnow]
    exact ⟨(h.congr hthis.foreign hthis.input (hthis.svgs_eq hcounted)).left,
      fun x hx => (hheld x hx).trans hbegin⟩

theorem Captures.otherToken (h : Captures input b held log)
    (hheld : ∀ x ∈ held, x.2 < t.sourceBegin) (hbegin : t.sourceBegin ≤ t.sourceEnd)
    (hend : t.sourceEnd ≤ input.length) (ht : ¬opensSvg t) (hcounted : Counted fuel t b) :
    Left input (Builder.handle fuel t b) (outermostAt fuel t b held) (sourceStop t) log ∧
      ∀ x ∈ outermostAt fuel t b held, x.2 < t.sourceEnd := by
  have hstop : t.sourceBegin ≤ sourceStop t ∧ sourceStop t ≤ t.sourceEnd := by
    unfold sourceStop
    split_ifs <;> omega
  have hnow : outermostAt fuel t b held = held := by
    refine outermostAt_of_none fun hnone => ?_
    -- no `svg` element is on the stack before or after the token
    subst hnone
    have hnil : b.svgs = [] := h.held_eq_none.mp rfl
    have hkept : keptSvgs (t.closedIf false) b = [] :=
      List.prefix_nil.mp (by simpa [hnil] using keptSvgs_prefix (t.closedIf false) b)
    have hcounted' : Counted fuel (t.closedIf false) b := by
      rw [Counted, hkept]
      exact List.nil_prefix
    have hnone := (h.handle (t := t.closedIf false) ht (by simp) hcounted').2
    rwa [hnil, List.prefix_nil, ← outermostSvg_eq_none] at hnone
  rw [hnow]
  refine ⟨(h.handle ht (fun x hx => ?_) hcounted).1, fun x hx => (hheld x hx).trans_le hbegin⟩
  exact ⟨(hheld x hx).trans_le hstop.1, hstop.2.trans hend⟩

theorem Captures.finish (h : Captures input b held log) (hheld : ∀ x ∈ held, x.2 < input.length)
    (hone : b.svgs.length ≤ 1) :
    (finish b).foreign.sources = ended input held input.length log := by
  have hquiet := (Quiet.refl (b.closeForeign b.input.length)).popTo 0
  have hnil : (Builder.finish b).svgs = [] := by
    rw [Builder.svgs, Builder.finish, openElements_popTo]
    rfl
  cases hsvgs : b.svgs with
  | nil =>
    obtain rfl := h.held_eq_none.mpr hsvgs
    have hzero : b.foreign.depth = 0 := by rw [h.depth, hsvgs]; rfl
    rw [Builder.finish, hquiet.foreign, Builder.closeForeign, if_pos hzero]
    simpa [ended] using h.sources
  | cons e rest =>
    obtain rfl : rest = [] := by simpa [hsvgs] using hone
    have hleft : Left input (Builder.finish b) held input.length log := by
      refine h.closeForeign (e := e) (fun x hx => ⟨hheld x hx, le_rfl⟩) ?_ ?_ ?_
      · rw [← h.input]
        exact hquiet.foreign
      · rw [Builder.finish, hquiet.input, closeForeign_eq]
      · rw [hnil, hsvgs]
        rfl
    rcases hleft with ⟨hne, -⟩ | ⟨-, hleft⟩
    · exact absurd hnil hne
    · exact hleft.sources

theorem Captures.run (h : Captures input b held log) (hordered : b.Ordered) {tokens : List Token}
    (hspans : Spans input tokens) (hheld : ∀ x ∈ held, ∀ t ∈ tokens, x.2 < t.sourceBegin)
    (hwithin : ∀ x ∈ held, x.2 < input.length)
    (hcounted : CountedRun fuel tokens b)
    (hone : (Builder.run fuel tokens b).svgs.length ≤ 1) :
    (Builder.finish (Builder.run fuel tokens b)).foreign.sources =
      log ++ (lifetimes fuel tokens b held).map (Lifetime.source input) := by
  induction tokens generalizing b held log with
  | nil =>
    rw [show Builder.run fuel [] b = b from rfl, h.finish hwithin hone, ended, lifetimes, h.input,
      List.map_map]
    rfl
  | cons t tokens ih =>
    obtain ⟨hbegin, hend⟩ := hspans.within t (.head _)
    obtain ⟨hcounted, hrest⟩ := hcounted
    obtain ⟨hleft, hnow⟩ : Left input (Builder.handle fuel t b) (outermostAt fuel t b held)
        (sourceStop t) log ∧ ∀ x ∈ outermostAt fuel t b held, x.2 < t.sourceEnd := by
      by_cases ht : opensSvg t
      · exact h.svgTag hordered (fun x hx => hheld x hx t (.head _))
          (hspans.startTag t (.head _) ht.1) hend ht hcounted
      · exact h.otherToken (fun x hx => hheld x hx t (.head _)) hbegin hend ht hcounted
    rw [lifetimes, List.map_append, ← List.append_assoc]
    refine ih hleft.follow (hordered.moves (handle_moves fuel t b)) ?_ ?_ ?_ hrest hone
    · exact ⟨hspans.ordered.of_cons, fun u hu => hspans.within u (.tail _ hu),
        fun u hu => hspans.startTag u (.tail _ hu)⟩
    · exact fun x hx u hu => (hnow x (mem_follow hx)).trans_le
        (List.rel_of_pairwise_cons hspans.ordered hu)
    · exact fun x hx => (hnow x (mem_follow hx)).trans_le hend

end Captures

theorem captures_start (s : Setting) : Captures s.input (start s) none [] := by
  have hempty (b : Builder) (hinput : b.input = s.input) (hforeign : b.foreign = {})
      (hsvgs : b.svgs = []) : Captures s.input b none [] :=
    ⟨hinput, by rw [hforeign], by rw [hforeign, hsvgs]; rfl, outermostSvg_eq_none.mpr hsvgs,
      by simp⟩
  unfold start
  dsimp only
  split_ifs
  · exact hempty _ rfl rfl rfl
  · exact hempty _ rfl rfl rfl
  all_goals exact hempty _ rfl rfl rfl

/-- In a run whose tokens take `svg` elements off the stack only where the counter is stepped, and
at whose end at most one of them is open, the captured sources are those of the outermost `svg`
elements, in order. -/
theorem foreignSources_of_run (s : Setting) (fuel : ℕ) (tokens : List Token)
    (hspans : Spans s.input tokens)
    (hcounted : CountedRun fuel tokens (start s))
    (hone : (run fuel tokens (start s)).svgs.length ≤ 1) :
    (finish (run fuel tokens (start s))).foreign.sources =
      (lifetimes fuel tokens (start s) none).map (Lifetime.source s.input) :=
  (captures_start s).run (ordered_start s) hspans (by simp) (by simp) hcounted hone

/-- The tokens of `<svg><svg/></svg><svg><b>`. -/
def twoGraphics : List Token :=
  [{ Token.opening "svg" with sourceBegin := 0, sourceEnd := 5 },
    { Token.opening "svg" with selfClosing := true, sourceBegin := 5, sourceEnd := 11 },
    { Token.closing "svg" with sourceBegin := 11, sourceEnd := 17 },
    { Token.opening "svg" with sourceBegin := 17, sourceEnd := 22 },
    { Token.opening "b" with sourceBegin := 22, sourceEnd := 25 }]

/-- The first element ends with its end tag, the second one before the tag that breaks out. -/
theorem foreignSources_twoGraphics :
    lifetimes 9 twoGraphics (start { input := ascii "<svg><svg/></svg><svg><b>" }) none =
        [⟨5, 0, 17⟩, ⟨7, 17, 22⟩] ∧
      (finish (run 9 twoGraphics
          (start { input := ascii "<svg><svg/></svg><svg><b>" }))).foreign.sources =
        (lifetimes 9 twoGraphics
          (start { input := ascii "<svg><svg/></svg><svg><b>" }) none).map
          (Lifetime.source (ascii "<svg><svg/></svg><svg><b>")) :=
  ⟨by decide +kernel, foreignSources_of_run _ 9 twoGraphics
    ⟨by decide, by decide, by decide⟩ (by decide +kernel)
    (by decide +kernel)⟩

/-- The tokens of `<svg><b>`. -/
def breakingOut : List Token :=
  [{ Token.opening "svg" with sourceBegin := 0, sourceEnd := 5 },
    { Token.opening "b" with sourceBegin := 5, sourceEnd := 8 }]

/-- The second tag takes the element off the stack, and is not part of its source. -/
theorem foreignSources_breakingOut :
    (run 9 (breakingOut.take 1) (start { input := ascii "<svg><b>" })).outermostSvg = some 5 ∧
      (run 9 breakingOut (start { input := ascii "<svg><b>" })).outermostSvg = none ∧
      (finish (run 9 breakingOut (start { input := ascii "<svg><b>" }))).foreign.sources =
        [(5, ascii "<svg></svg>")] ∧
      ((ascii "<svg><b>").take 8) ≠ ascii "<svg></svg>" := by
  decide +kernel

end CtBrowser.Dom.Builder
