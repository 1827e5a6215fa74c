import CtBrowser.Dom.TreeBuilder.FormattingOrder

/-!
# The `svg` Elements on the Stack

The rules of the insertion modes put an `svg` element on the stack for an `svg` start tag alone,
and otherwise leave the capture of its source as it is.

## Main definitions

- `svgs` — the `svg` elements on the stack.
- `Quiet` — what an edit keeps of them and of the capture.
- `Opens` — what a step does with an `svg` start tag.

## Main results

- `Quiet.edits` — edits leave the capture alone and add no `svg` element.
- `process_opens` — an `svg` start tag is ignored or opens one element, self-closing or not.
-/

namespace CtBrowser.Dom

/-- A token with its self-closing flag chosen. -/
def Token.closedIf (t : Token) (flag : Bool) : Token := { t with selfClosing := flag }

namespace Builder

/-- The `svg` elements on the stack, the bottom first. -/
def svgs (b : Builder) : List Entry := b.openElements.filter Entry.isSvg

/-! ## Edits leave the capture alone -/

/-- What an operation of the HTML rules leaves as it was: the capture and the input, no handle is
taken back and there is no new `svg` element on the stack. -/
structure Quiet (b b' : Builder) : Prop where
  foreign : b'.foreign = b.foreign
  input : b'.input = b.input
  nextNode : b.nextNode ≤ b'.nextNode
  svgs : b'.openElements.countP Entry.isSvg ≤ b.openElements.countP Entry.isSvg

namespace Quiet

variable {a b c : Builder}

theorem refl (b : Builder) : Quiet b b := ⟨rfl, rfl, le_rfl, le_rfl⟩

theorem trans (h : Quiet a b) (h' : Quiet b c) : Quiet a c :=
  ⟨h'.foreign.trans h.foreign, h'.input.trans h.input, h.nextNode.trans h'.nextNode,
    h'.svgs.trans h.svgs⟩

theorem shrink (h : Quiet a b) (hforeign : c.foreign = b.foreign) (hinput : c.input = b.input)
    (hnext : b.nextNode ≤ c.nextNode) (hopen : c.openElements.Sublist b.openElements) :
    Quiet a c := h.trans ⟨hforeign, hinput, hnext, hopen.countP_le⟩

theorem beside (h : Quiet a b) (hforeign : c.foreign = b.foreign) (hinput : c.input = b.input)
    (hnext : b.nextNode ≤ c.nextNode) (hopen : c.openElements = b.openElements) : Quiet a c :=
  h.shrink hforeign hinput hnext (hopen ▸ .refl _)

theorem push (h : Quiet a b) {e : Entry} (he : e.isSvg = false) : Quiet a (b.push e) :=
  h.trans ⟨rfl, rfl, le_rfl, by simp [List.countP_append, he]⟩

theorem pop (h : Quiet a b) : Quiet a b.pop := by
  refine h.shrink ?_ ?_ (pop_elsewhere b).2.1.ge (openElements_pop b ▸ List.dropLast_sublist _) <;>
  · unfold Builder.pop
    split <;> rfl

theorem reindex (h : Quiet a b) : Quiet a b.reindex := by
  have hpushed (entries : List Entry) (c : Builder) :
      (entries.foldl Builder.push c).foreign = c.foreign ∧
        (entries.foldl Builder.push c).input = c.input := by
    induction entries generalizing c with
    | nil => exact ⟨rfl, rfl⟩
    | cons e entries ih => exact ih (c.push e)
  exact h.beside (hpushed _ _).1 (hpushed _ _).2 (nextNode_reindex b).ge (by simp)

theorem removeFromStack (h : Quiet a b) (id : NodeId) : Quiet a (b.removeFromStack id) := by
  refine Quiet.reindex ?_
  exact h.shrink rfl rfl le_rfl List.filter_sublist

theorem insertElement (h : Quiet a b) {tag : Text} {ns : NodeNs} (attributes : List TokenAttribute)
    (hplain : ns ≠ .svg ∨ adjustSvgTag tag ≠ ascii "svg") :
    Quiet a (b.insertElement tag attributes ns) := by
  refine Quiet.push (b := b.createElement) (h.beside rfl rfl (Nat.le_succ _) rfl) ?_
  rcases hplain with hplain | hplain
  · simp [makeEntry, Entry.isSvg, hplain]
  · by_cases hns : ns = .svg <;> simp [makeEntry, Entry.isSvg, hns, hplain]

theorem insertHtml (h : Quiet a b) (tag : Text) (attributes : List TokenAttribute) :
    Quiet a (b.insertElement tag attributes) := h.insertElement attributes (.inl (by simp))

theorem createRoot (h : Quiet a b) : Quiet a b.createRoot := by
  unfold Builder.createRoot
  dsimp only
  split_ifs
  · exact h
  · exact h.push rfl
  · exact h.beside rfl rfl (Nat.le_succ _) rfl
  · refine Quiet.push ?_ rfl
    exact h.beside rfl rfl (Nat.le_succ _) rfl

theorem reopen (h : Quiet a b) (i : ℕ) : Quiet a (b.reopen i) := by
  unfold Builder.reopen
  split
  · exact h
  · exact (h.insertHtml _ _).beside rfl rfl le_rfl rfl

theorem reconstructFormatting (h : Quiet a b) : Quiet a b.reconstructFormatting := by
  unfold Builder.reconstructFormatting
  dsimp only
  generalize List.range' _ _ = indices
  induction indices generalizing b with
  | nil => exact h
  | cons i indices ih => exact ih (h.reopen i)

theorem popTo (h : Quiet a b) (height : ℕ) : Quiet a (b.popTo height) := by
  unfold Builder.popTo
  generalize b.openElements.length - height = n
  induction n with
  | zero => exact h
  | succ n ih =>
    rw [Function.iterate_succ_apply']
    exact ih.pop

/-! ### The adoption agency -/

theorem countP_set_le (entries : List Entry) (i : ℕ) {e : Entry} (he : e.isSvg = false) :
    (entries.set i e).countP Entry.isSvg ≤ entries.countP Entry.isSvg := by
  by_cases hi : i < entries.length
  · rw [(List.set_perm_cons_eraseIdx hi e).countP_eq, List.countP_cons_of_neg (by simp [he])]
    exact (List.eraseIdx_sublist _ _).countP_le
  · rw [List.set_eq_of_length_le (by omega)]

theorem countP_insertIdx_le (entries : List Entry) (i : ℕ) {e : Entry} (he : e.isSvg = false) :
    (entries.insertIdx i e).countP Entry.isSvg ≤ entries.countP Entry.isSvg := by
  by_cases hi : i ≤ entries.length
  · rw [(List.perm_insertIdx e entries hi).countP_eq, List.countP_cons_of_neg (by simp [he])]
  · rw [List.insertIdx_of_length_lt (by omega)]

theorem visit {s : Agency} (h : Quiet a s.builder) (block : NodeId) (inner nodeStack : ℕ)
    (node : NodeId) : Quiet a (s.visit block inner nodeStack node).builder := by
  unfold Agency.visit
  dsimp only
  split
  · by_cases hinner : 3 < inner
    · rw [if_pos hinner]
      refine Quiet.reindex ?_
      exact h.shrink rfl rfl le_rfl (List.eraseIdx_sublist _ _)
    · rw [if_neg hinner]
      unfold Agency.renew
      split
      · exact h
      · exact h.trans ⟨rfl, rfl, Nat.le_succ _, countP_set_le _ _ rfl⟩
  · refine Quiet.reindex ?_
    exact h.shrink rfl rfl le_rfl (List.eraseIdx_sublist _ _)

theorem agencyInner {s : Agency} (h : Quiet a s.builder) (fe block : NodeId)
    (inner nodeStack : ℕ) : Quiet a (agencyInner fe block inner nodeStack s).builder := by
  induction nodeStack generalizing inner s with
  | zero => exact h
  | succ nodeStack ih =>
    rw [Builder.agencyInner]
    split
    · exact h
    split_ifs
    · exact h
    · exact ih (h.visit block inner nodeStack _) _

theorem finish {s : Agency} (h : Quiet a s.builder) (feIndex : ℕ) (fe block : NodeId) :
    Quiet a (s.finish feIndex fe block) := by
  unfold Agency.finish
  split
  · exact h.reindex
  next entry _ =>
    extract_lets held fresh active bookmark at' removed blockNow
    have hremoved : Quiet a removed := by
      refine Quiet.removeFromStack ?_ fe
      exact h.beside rfl rfl (Nat.le_succ _) rfl
    refine Quiet.reindex ?_
    exact hremoved.trans ⟨rfl, rfl, le_rfl, countP_insertIdx_le _ _ rfl⟩

theorem agencyOuter (h : Quiet a b) (subject : Text) : Quiet a (b.agencyOuter subject).2 := by
  unfold Builder.agencyOuter
  split
  · exact h
  split
  · exact h
  split
  · exact h.beside rfl rfl le_rfl rfl
  split_ifs
  · exact h
  split
  · exact (h.popTo _).beside rfl rfl le_rfl rfl
  split
  · exact h
  · refine Quiet.finish ?_ _ _ _
    exact Quiet.agencyInner h _ _ _ _

theorem edit (hedit : Edit a b) : Quiet a b := by
  cases hedit with
  | update f => exact (refl a).beside rfl rfl le_rfl rfl
  | pop => exact (refl a).pop
  | insert tag attributes ns hplain => exact (refl a).insertElement attributes hplain
  | head attributes => exact ((refl a).insertHtml _ _).beside rfl rfl le_rfl rfl
  | underHead hcontent =>
    have hopened : Quiet a a.reopenHead := (refl a).push rfl
    refine Quiet.removeFromStack ?_ _
    cases hcontent with
    | none => exact hopened
    | void => exact (hopened.insertHtml _ _).pop
    | text model => exact (hopened.insertHtml _ _).beside rfl rfl le_rfl rfl
    | template =>
      refine Quiet.insertHtml ?_ _ _
      exact hopened.beside rfl rfl le_rfl rfl
  | root => exact (refl a).createRoot
  | remove id => exact (refl a).removeFromStack id
  | formatting t _ => exact ((refl a).insertHtml _ _).beside rfl rfl le_rfl rfl
  | marker => exact (refl a).beside rfl rfl le_rfl rfl
  | clear => exact (refl a).beside rfl rfl le_rfl rfl
  | unlist id =>
    unfold Builder.removeFormatting
    split
    · exact (refl a).beside rfl rfl le_rfl rfl
    · exact refl a
  | reconstruct => exact (refl a).reconstructFormatting
  | agency subject => exact (refl a).agencyOuter subject

theorem edits (hedits : Edits a b) : Quiet a b := by
  induction hedits with
  | refl => exact refl a
  | tail _ hedit ih => exact ih.trans (edit hedit)

end Quiet

/-! ## The start tag of an `svg` element -/

/-- What a step does with an `svg` start tag whatever its self-closing flag: edits, and then
either nothing or the opening of the element. -/
def Opens (t : Token) (b : Builder) (step : Token → Builder) : Prop :=
  ∃ c, Edits b c ∧ ((∀ flag, step (t.closedIf flag) = c) ∨
    ∃ f, ∀ flag, step (t.closedIf flag) = (openSvg (t.closedIf flag) c).update f)

namespace Opens

variable {t : Token} {a b : Builder} {step : Token → Builder}

theorem same (h : Edits a b) : Opens t a fun _ => b := ⟨b, h, .inl fun _ => rfl⟩

theorem after (h : Edits a b) (h' : Opens t b step) : Opens t a step :=
  h'.imp fun _ hc => hc.imp_left h.trans

theorem update (h : Opens t a step) (f : ParseState → ParseState) :
    Opens t a fun u => (step u).update f := by
  obtain ⟨c, hc, h | ⟨g, h⟩⟩ := h
  · exact ⟨c.update f, hc.update f, .inl fun flag => by simp only [h flag]⟩
  · exact ⟨c, hc, .inr ⟨f ∘ g, fun flag => by simp only [h flag]; rfl⟩⟩

theorem ite (c : Prop) [Decidable c] {step' : Token → Builder} (h : Opens t a step)
    (h' : Opens t a step') : Opens t a fun u => if c then step u else step' u := by
  by_cases hc : c
  · simpa only [if_pos hc] using h
  · simpa only [if_neg hc] using h'

end Opens

theorem rules_opens {t : Token} (ht : opensSvg t) {p : Process}
    (hp : ∀ m b, Opens t b fun u => p u m b) (m : Mode) (b : Builder) :
    Opens t b fun u => rules p u m b := by
  obtain ⟨kind, name, _⟩ := t
  obtain ⟨rfl, hname⟩ := ht
  obtain rfl : name = ascii "svg" := named_iff.mp hname
  have hedits := Edits.refl b
  have hagain {c : Builder} (h : Edits b c) := Opens.after h (hp c.parse.mode c)
  cases m with
  | initial => exact hagain ((hedits.update _).enter .beforeHtml)
  | beforeHtml => exact hagain (hedits.createRoot.enter .beforeHead)
  | beforeHead => exact hagain ((hedits.insertHead []).enter .inHead)
  | inHead => exact hagain (hedits.pop.enter .afterHead)
  | inHeadNoscript => exact hagain (hedits.pop.enter .inHead)
  | afterHead => exact hagain ((hedits.insertElement (ascii "body") []).enter .inBody)
  | inBody => exact ⟨_, hedits.reconstructFormatting, .inr ⟨id, fun _ => rfl⟩⟩
  | text => exact .same hedits
  | inTable =>
    have hbody : Opens _ b fun u => fostered p u b :=
      .update ((hp .inBody _).after (hedits.update fun p => { p with fosterParenting := true })) _
    exact hbody
  | inTableText =>
    refine Opens.after ?_ (hp _ _)
    split_ifs
    · exact ((hedits.update _).update _).reconstructFormatting.update _
    · exact hedits.update _
  | inCaption => exact hp .inBody b
  | inColumnGroup =>
    have helse := Opens.ite (!b.currentIs "colgroup") (.same hedits)
      (hagain (hedits.pop.enter .inTable))
    exact helse
  | inTableBody => exact hp .inTable b
  | inRow => exact hp .inTable b
  | inCell => exact hp .inBody b
  | inTemplate => exact hagain (hedits.update _)
  | afterBody => exact hagain (hedits.enter .inBody)
  | inFrameset => exact .same hedits
  | afterFrameset => exact .same hedits
  | afterAfterBody => exact hagain (hedits.enter .inBody)
  | afterAfterFrameset => exact .same hedits

theorem process_opens {t : Token} (ht : opensSvg t) (fuel : ℕ) (m : Mode) (b : Builder) :
    Opens t b fun u => process fuel u m b := by
  induction fuel generalizing m b with
  | zero => exact .same (.refl b)
  | succ fuel ih => exact rules_opens ht ih m b

end Builder

end CtBrowser.Dom
