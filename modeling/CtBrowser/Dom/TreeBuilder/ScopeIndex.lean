import CtBrowser.Dom.TreeBuilder.Edits

/-!
# The Scope Index

"Has an element in scope" is answered from the positions of the tags and of the boundaries. In
every state of a parse these are the positions on the stack, and the answer is that of the
standard's walk down the stack.

## Main definitions

- `positions` — the positions of the entries that satisfy a test.
- `Indexed` — the index describes the stack.
- `Standard.inScope` — the walk of the standard, with its own lists of element types.

## Main results

- `hasInScope_eq` — on an indexed stack, the comparison of two positions is the walk.
- `indexed_of_moves` — the index describes the stack after every token.
-/

namespace CtBrowser.Dom

namespace Standard

/-- The element types that end the walk in every scope but table scope. -/
def commonScopeTypes : List (NodeNs × String) :=
  [(.html, "applet"), (.html, "caption"), (.html, "html"), (.html, "table"), (.html, "td"),
    (.html, "th"), (.html, "marquee"), (.html, "object"), (.html, "select"), (.html, "template"),
    (.other, "mi"), (.other, "mo"), (.other, "mn"), (.other, "ms"), (.other, "mtext"),
    (.other, "annotation-xml"), (.svg, "foreignObject"), (.svg, "desc"), (.svg, "title")]

/-- The element types of a scope. -/
def scopeTypes : Scope → List (NodeNs × String)
  | .default => commonScopeTypes
  | .listItem => commonScopeTypes ++ [(.html, "ol"), (.html, "ul")]
  | .button => commonScopeTypes ++ [(.html, "button")]
  | .table => [(.html, "html"), (.html, "table"), (.html, "template")]

/-- Whether an entry is an element of one of the types. -/
def isOfType (e : Entry) (types : List (NodeNs × String)) : Bool :=
  types.any fun type => e.ns = type.1 && ascii type.2 == e.tag

/-- The walk down the stack: it succeeds at an HTML element of the tag and fails at an element of
the scope's types. -/
def inScope (tag : Text) (which : Scope) : List Entry → Bool
  | [] => false
  | node :: below =>
    if node.ns = .html && node.tag == tag then true
    else if isOfType node (scopeTypes which) then false
    else inScope tag which below

theorem isOfType_scopeTypes (e : Entry) (which : Scope) :
    isOfType e (scopeTypes which) = isScopeBoundary e which := by
  obtain ⟨id, tag, ns, integration⟩ := e
  have hcomm (name : String) : (tag == ascii name) = (ascii name == tag) := BEq.comm
  cases ns <;> cases which <;>
    simp [isOfType, scopeTypes, commonScopeTypes, isScopeBoundary, Entry.isSpecial, oneOf,
      isHtmlIntegrationPoint, isMathmlTextIntegrationPoint, hcomm, Bool.or_assoc]
  -- the source asks for the types a scope adds before the common ones
  all_goals grind

end Standard

/-! ## Positions -/

section Positions

variable {α : Type}

/-- The positions of the elements of a list that satisfy a test, ascending. -/
def positions (p : α → Bool) (l : List α) : List ℕ :=
  (List.range l.length).filter fun i => l[i]?.any p

variable (p : α → Bool)

@[simp] theorem positions_nil : positions p [] = [] := rfl

theorem positions_concat (l : List α) (x : α) :
    positions p (l ++ [x]) = positions p l ++ if p x then [l.length] else [] := by
  unfold positions
  rw [List.length_append, List.length_singleton, List.range_succ, List.filter_append]
  congr 1
  · refine List.filter_congr fun i hi => ?_
    rw [List.getElem?_append_left (List.mem_range.mp hi)]
  · cases h : p x <;> simp [h]

theorem lt_of_mem_positions {l : List α} {i : ℕ} (h : i ∈ positions p l) : i < l.length :=
  List.mem_range.mp (List.mem_of_mem_filter h)

theorem getLast?_positions_concat (l : List α) (x : α) :
    (positions p (l ++ [x])).getLast? =
      if p x then some l.length else (positions p l).getLast? := by
  rw [positions_concat]
  split_ifs <;> simp

end Positions

namespace Builder

/-- The index describes the stack. -/
structure Indexed (b : Builder) : Prop where
  tags : ∀ tag, b.tagAt tag = positions (fun e => e.ns = .html && e.tag == tag) b.openElements
  bounds : ∀ which, b.boundAt which = positions (isScopeBoundary · which) b.openElements

variable {b : Builder}

/-! ## The comparison is the walk -/

/-- The comparison of the topmost positions. -/
def topmostAbove (tags bounds : List ℕ) : Bool :=
  match tags.getLast? with
  | none => false
  | some position =>
    match bounds.getLast? with
    | none => true
    | some bound => bound ≤ position

theorem topmostAbove_positions (tag : Text) (which : Scope) (entries : List Entry) :
    topmostAbove (positions (fun e => e.ns = .html && e.tag == tag) entries)
        (positions (isScopeBoundary · which) entries) =
      Standard.inScope tag which entries.reverse := by
  induction entries using List.reverseRecOn with
  | nil => rfl
  | append_singleton below e ih =>
    rw [List.reverse_concat, Standard.inScope, Standard.isOfType_scopeTypes, ← ih]
    unfold topmostAbove
    simp only [getLast?_positions_concat]
    by_cases htag : (e.ns = .html && e.tag == tag) = true
    · -- the tag is topmost, and no boundary is above the top
      simp only [htag, if_true]
      by_cases hbound : isScopeBoundary e which
      · simp [hbound]
      · simp only [hbound, Bool.false_eq_true, if_false]
        cases hlast : (positions (isScopeBoundary · which) below).getLast? with
        | none => rfl
        | some i =>
          have hi := lt_of_mem_positions _ (List.mem_of_getLast? hlast)
          simp [hi.le]
    · simp only [htag, Bool.false_eq_true, if_false]
      by_cases hbound : isScopeBoundary e which
      · simp only [hbound, if_true]
        cases hlast : (positions (fun e => e.ns = .html && e.tag == tag) below).getLast? with
        | none => rfl
        | some i =>
          have hi := lt_of_mem_positions _ (List.mem_of_getLast? hlast)
          simp [hi]
      · simp only [hbound, Bool.false_eq_true, if_false]

/-- On an indexed stack the answer is that of the walk. -/
theorem hasInScope_eq (h : b.Indexed) (tag : Text) (which : Scope) :
    b.hasInScope tag which = Standard.inScope tag which b.openElements.reverse := by
  rw [← topmostAbove_positions, ← h.tags, ← h.bounds]
  rfl

/-! ## What keeps the index -/

theorem Indexed.congr {b' : Builder} (h : b.Indexed) (hopen : b'.openElements = b.openElements)
    (htags : b'.tagAt = b.tagAt) (hbounds : b'.boundAt = b.boundAt) : b'.Indexed :=
  ⟨by rw [hopen, htags]; exact h.tags, by rw [hopen, hbounds]; exact h.bounds⟩

theorem Indexed.push (h : b.Indexed) (e : Entry) : (b.push e).Indexed where
  tags tag := by
    simp only [Builder.push, positions_concat, ← h.tags]
    by_cases hns : e.ns = .html
    · by_cases htag : tag = e.tag
      · subst htag
        simp [hns]
      · simp [hns, htag, Ne.symm htag]
    · simp [hns]
  bounds which := by
    simp only [Builder.push, positions_concat, ← h.bounds]
    split_ifs <;> simp

theorem Indexed.pop (h : b.Indexed) : b.pop.Indexed := by
  unfold Builder.pop
  split
  · exact h
  next top hlast =>
    obtain ⟨below, hopen⟩ : ∃ below, b.openElements = below ++ [top] :=
      List.getLast?_eq_some_iff.mp hlast
    have htags := h.tags
    have hbounds := h.bounds
    simp only [hopen, positions_concat] at htags hbounds
    constructor
    · intro tag
      simp only [hopen, List.dropLast_concat]
      by_cases hns : top.ns = .html
      · by_cases htag : tag = top.tag
        · subst htag
          simp [hns, htags]
        · simp [hns, htag, htags, Ne.symm htag]
      · simp [hns, htags]
    · intro which
      simp only [hopen, List.dropLast_concat, List.length_append, List.length_singleton,
        Nat.add_sub_cancel, hbounds]
      by_cases hbound : isScopeBoundary top which
      · simp [hbound]
      · -- the positions of the entries below are all smaller
        simp only [hbound, Bool.false_eq_true, if_false, List.append_nil]
        rw [if_neg]
        intro hmem
        exact absurd (lt_of_mem_positions _ (List.mem_of_getLast? hmem)) (lt_irrefl _)

theorem Indexed.foldl_push (h : b.Indexed) (entries : List Entry) :
    (entries.foldl Builder.push b).Indexed := by
  induction entries generalizing b with
  | nil => exact h
  | cons e entries ih => exact ih (h.push e)

theorem indexed_reindex (b : Builder) : b.reindex.Indexed :=
  Indexed.foldl_push ⟨fun _ => rfl, fun _ => rfl⟩ _

theorem Indexed.insertElement (h : b.Indexed) (tag : Text) (attributes : List TokenAttribute)
    (ns : NodeNs) : (b.insertElement tag attributes ns).Indexed := by
  have hcreated : b.createElement.Indexed := h.congr rfl rfl rfl
  exact hcreated.push _

theorem Indexed.createRoot (h : b.Indexed) : b.createRoot.Indexed := by
  unfold Builder.createRoot
  dsimp only
  split_ifs
  · exact h
  · exact h.push _
  · exact h.congr rfl rfl rfl
  · refine Indexed.push ?_ _
    exact h.congr rfl rfl rfl

theorem Indexed.reopen (h : b.Indexed) (i : ℕ) : (b.reopen i).Indexed := by
  unfold Builder.reopen
  split
  · exact h
  · exact (h.insertElement _ _ _).congr rfl rfl rfl

theorem Indexed.reconstructFormatting (h : b.Indexed) : b.reconstructFormatting.Indexed := by
  unfold Builder.reconstructFormatting
  dsimp only
  generalize List.range' _ _ = indices
  induction indices generalizing b with
  | nil => exact h
  | cons i indices ih => exact ih (h.reopen i)

theorem Indexed.popTo (h : b.Indexed) (height : ℕ) : (b.popTo height).Indexed := by
  unfold Builder.popTo
  generalize b.openElements.length - height = n
  induction n with
  | zero => exact h
  | succ n ih =>
    rw [Function.iterate_succ_apply']
    exact ih.pop

theorem indexed_finish (s : Agency) (feIndex : ℕ) (fe block : NodeId) :
    (s.finish feIndex fe block).Indexed := by
  unfold Agency.finish
  split <;> exact indexed_reindex _

theorem Indexed.agencyOuter (h : b.Indexed) (subject : Text) : (b.agencyOuter subject).2.Indexed := by
  unfold Builder.agencyOuter
  split
  · exact h
  split
  · exact h
  split
  · exact h.congr rfl rfl rfl
  split_ifs
  · exact h
  split
  · exact (h.popTo _).congr rfl rfl rfl
  split
  · exact h
  · exact indexed_finish _ _ _ _

theorem Indexed.edit {b' : Builder} (h : b.Indexed) (hedit : Edit b b') : b'.Indexed := by
  cases hedit with
  | update f => exact h.congr rfl rfl rfl
  | pop => exact h.pop
  | insert tag attributes ns => exact h.insertElement _ _ _
  | head attributes => exact (h.insertElement _ _ _).congr rfl rfl rfl
  | underHead => exact indexed_reindex _
  | root => exact h.createRoot
  | remove id => exact indexed_reindex _
  | formatting t _ => exact (h.insertElement _ _ _).congr rfl rfl rfl
  | marker => exact h.congr rfl rfl rfl
  | clear => exact h.congr rfl rfl rfl
  | unlist id =>
    unfold Builder.removeFormatting
    split
    · exact h.congr rfl rfl rfl
    · exact h
  | reconstruct => exact h.reconstructFormatting
  | agency subject => exact h.agencyOuter subject

theorem Indexed.moves {b' : Builder} (h : b.Indexed) (hmoves : Moves b b') : b'.Indexed := by
  induction hmoves with
  | refl => exact h
  | tail _ hmove ih =>
    cases hmove with
    | edit hedit => exact ih.edit hedit
    | insert tag attributes ns => exact ih.insertElement _ _ _
    | capture c => exact ih.congr rfl rfl rfl

theorem indexed_start (s : Setting) : (start s).Indexed := by
  have hempty : Indexed
      { nextNode := s.firstNode + 1, input := s.input,
        parse := { scripting := s.scripting, quirks := s.quirks, context := s.context } } :=
    ⟨fun _ => rfl, fun _ => rfl⟩
  unfold start
  dsimp only
  split_ifs
  · exact hempty.congr rfl rfl rfl
  · exact hempty
  all_goals exact hempty.createRoot.congr rfl rfl rfl

/-- In every state of a parse, of a document or of a fragment, and between any two operations of
a token, "has an element in scope" is the standard's walk down the stack. -/
theorem hasInScope_of_run (s : Setting) (fuel : ℕ) (tokens : List Token) (b : Builder)
    (h : Moves (run fuel tokens (start s)) b) (tag : Text) (which : Scope) :
    b.hasInScope tag which = Standard.inScope tag which b.openElements.reverse :=
  hasInScope_eq (((indexed_start s).moves (run_moves fuel tokens _)).moves h) tag which

/-- A `p` around a `button` is in scope but not in button scope. -/
theorem hasInScope_button :
    (run 9 [.opening "p", .opening "button"] (start {})).hasInScope (ascii "p") .button =
        Standard.inScope (ascii "p") .button
          (run 9 [.opening "p", .opening "button"] (start {})).openElements.reverse ∧
      (run 9 [.opening "p", .opening "button"] (start {})).hasInScope (ascii "p") .default =
        true :=
  ⟨hasInScope_of_run {} 9 _ _ (.refl _) _ _, by decide⟩

end Builder

end CtBrowser.Dom
