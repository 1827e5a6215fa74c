import CtBrowser.Foundations.CommittedSearch
import CtBrowser.Style.Engine.Matching

/-!
# Combinators and What They Mean

What a complex selector asks of a tree: an element for every compound, so that neighbours
stand in the relation their combinator names. The matcher takes the nearest candidate at
each combinator and never comes back, so it is complete exactly for the orders of combinators
in which the nearest choice cannot spoil a later one.

## Main definitions

- `Relates` — two positions of a tree stand in the relation of a combinator.
- `SelectorHolds` — an assignment of elements to the compounds of a selector exists.
- `SafeCombinators` — reading from the right, a descendant combinator is followed by
  descendant combinators only, and a subsequent-sibling one not by a next-sibling one.

## Main results

- `complete_iff_safeCombinators` — the matcher is complete exactly for safe combinators.
-/

namespace CtBrowser.Style

open Foundations.CommittedSearch

variable {ε : Type}

/-! ### The meaning of a selector -/

/-- A position in a tree: the index in each row on the way down. -/
abbrev Position := List ℕ

/-- The facts of the element at a position below a row of elements. -/
def factsOf : List (Element ε) → Position → Option ε
  | _, [] => none
  | row, i :: rest =>
    row[i]?.bind fun e => if rest = [] then some e.facts else factsOf e.children rest

/-- The first position stands to the second as a combinator says. -/
inductive Relates : Combinator → Position → Position → Prop
  | descendant {c below : Position} (hc : c ≠ []) (hbelow : below ≠ []) :
      Relates .descendant c (c ++ below)
  | child {c : Position} (hc : c ≠ []) (i : ℕ) : Relates .child c (c ++ [i])
  | nextSibling (row : Position) (i : ℕ) : Relates .nextSibling (row ++ [i]) (row ++ [i + 1])
  | subsequentSibling (row : Position) {i j : ℕ} (h : i < j) :
      Relates .subsequentSibling (row ++ [i]) (row ++ [j])

section Meaning

variable (row : List (Element ε))

mutual

/-- The element at a position is what a compound asks for. -/
def CompoundHolds : Compound ε → Position → Prop
  | .mk test pseudos, x => (factsOf row x).any test = true ∧ PseudosHold pseudos x

/-- Every nested selector list of a compound agrees. -/
def PseudosHold : List (PseudoRef ε) → Position → Prop
  | [], _ => True
  | p :: ps, x => PseudoHolds p x ∧ PseudosHold ps x

/-- `:is` and `:where` ask for one selector of the list, `:not` for none. -/
def PseudoHolds : PseudoRef ε → Position → Prop
  | .mk kind args, x => if kind = .not_ then ¬ AnyHolds args x else AnyHolds args x

/-- One of a list of selectors holds. -/
def AnyHolds : List (CompiledSelector ε) → Position → Prop
  | [], _ => False
  | arg :: args, x => SelectorHolds arg x ∨ AnyHolds args x

/-- The rightmost compound is met by the element, and an assignment of elements to the other
compounds exists. -/
def SelectorHolds : CompiledSelector ε → Position → Prop
  | .mk subject links, x => CompoundHolds subject x ∧ ∃ assigned, Assigned links x assigned

/-- The assigned elements meet their compounds, and each stands to the one on its right as
the combinator between them says. -/
def Assigned : List (Link ε) → Position → List Position → Prop
  | [], _, assigned => assigned = []
  | link :: links, x, assigned => ∃ c rest, assigned = c :: rest ∧
      Relates link.combinator c x ∧ LinkHolds link c ∧ Assigned links c rest

/-- The element at a position is what a link wants. -/
def LinkHolds : Link ε → Position → Prop
  | .mk _ want, x => CompoundHolds want x

end

end Meaning

/-! ### Cursors and positions -/

namespace Visit

/-- The position of the element at a cursor. -/
def positionOf (v : Visit ε) (at' : Cursor) : Position := v.path.take at'.depth ++ [at'.index]

/-- A cursor is at an element of one of the rows, up to the one on the way. -/
def Within (v : Visit ε) (at' : Cursor) : Prop :=
  ∃ i, v.path[at'.depth]? = some i ∧ at'.index ≤ i

theorem within_onPath {v : Visit ε} {depth : ℕ} (h : depth < v.path.length) :
    v.Within (v.onPath depth) := by
  refine ⟨v.path[depth], List.getElem?_eq_getElem h, ?_⟩
  simp [onPath, List.getElem?_eq_getElem h]

theorem positionOf_onPath {v : Visit ε} {depth : ℕ} (h : depth < v.path.length) :
    v.positionOf (v.onPath depth) = v.path.take (depth + 1) := by
  rw [positionOf, onPath, List.getElem?_eq_getElem h, Option.getD_some, List.take_add_one,
    List.getElem?_eq_getElem h]
  rfl

theorem Within.depth_lt {v : Visit ε} {at' : Cursor} (h : v.Within at') :
    at'.depth < v.path.length := by
  obtain ⟨i, hi, -⟩ := h
  exact (List.getElem?_eq_some_iff.mp hi).1

end Visit

theorem factsOf_nil (x : Position) : factsOf ([] : List (Element ε)) x = none := by
  cases x <;> rfl

theorem levelsOn_getElem? (row : List (Element ε)) (path : List ℕ) {depth index i : ℕ}
    (hi : path[depth]? = some i) (hle : index ≤ i) :
    ((levelsOn row path)[depth]?.bind fun level => level[index]?) =
      factsOf row (path.take depth ++ [index]) := by
  induction path generalizing row depth with
  | nil => simp at hi
  | cons j rest ih =>
    cases depth with
    | zero =>
      obtain rfl : j = i := by simpa using hi
      have hlt : index < j + 1 := by omega
      simp [levelsOn, factsOf, hlt, Option.map_eq_bind]
    | succ depth =>
      have hbelow := ih ((row[j]?.map Element.children).getD []) (by simpa using hi)
      simp only [levelsOn, List.getElem?_cons_succ, List.take_succ_cons, List.cons_append,
        factsOf, hbelow]
      cases row[j]? with
      | none => simp [factsOf_nil]
      | some e => simp

theorem factsAt_visit {root : Element ε} {position : Position} {at' : Cursor}
    (h : (visit root position).Within at') : (visit root position).factsAt at' =
      factsOf [root] ((visit root position).positionOf at') := by
  obtain ⟨i, hi, hle⟩ := h
  exact levelsOn_getElem? [root] position hi hle

theorem within_candidates {v : Visit ε} {combinator : Combinator} {at' next : Cursor}
    (h : v.Within at') (hnext : next ∈ v.candidates combinator at') : v.Within next := by
  have hlt := h.depth_lt
  cases combinator with
  | child =>
    simp only [Visit.candidates] at hnext
    split at hnext
    · cases hnext
    · obtain rfl := List.mem_singleton.mp hnext
      exact Visit.within_onPath (by omega)
  | descendant =>
    simp only [Visit.candidates, List.mem_map, List.mem_reverse, List.mem_range] at hnext
    obtain ⟨up, hup, rfl⟩ := hnext
    exact Visit.within_onPath (by omega)
  | nextSibling =>
    simp only [Visit.candidates] at hnext
    obtain ⟨i, hi, hle⟩ := h
    split at hnext
    · cases hnext
    · obtain rfl := List.mem_singleton.mp hnext
      exact ⟨i, hi, by simp only; omega⟩
  | subsequentSibling =>
    simp only [Visit.candidates, List.mem_map, List.mem_reverse, List.mem_range] at hnext
    obtain ⟨i, hi, hle⟩ := h
    obtain ⟨k, hk, rfl⟩ := hnext
    exact ⟨i, hi, by simp only; omega⟩

theorem take_ne_nil {path : List ℕ} {depth : ℕ} (hdepth : depth ≠ 0) (h : depth < path.length) :
    path.take depth ≠ [] := by
  intro hnil
  have hlength := congrArg List.length hnil
  rw [List.length_take, Nat.min_eq_left h.le] at hlength
  exact hdepth hlength

/-- The candidates of a combinator are the elements in its relation. -/
theorem relates_iff_candidates {v : Visit ε} {combinator : Combinator} {at' : Cursor}
    (h : v.Within at') (c : Position) : Relates combinator c (v.positionOf at') ↔
      ∃ next ∈ v.candidates combinator at', v.positionOf next = c := by
  have hlt := h.depth_lt
  obtain ⟨depth, index⟩ := at'
  dsimp only at hlt
  constructor
  · intro hrelates
    generalize hx : v.positionOf ⟨depth, index⟩ = x at hrelates
    rw [Visit.positionOf] at hx
    dsimp only at hx
    cases hrelates with
    | child hc i =>
      obtain ⟨htake, -⟩ := List.append_inj' hx rfl
      have hdepth : depth ≠ 0 := by
        rintro rfl
        exact hc htake.symm
      refine ⟨v.onPath (depth - 1), by simp [Visit.candidates, hdepth], ?_⟩
      rw [Visit.positionOf_onPath (by omega), Nat.sub_add_cancel (Nat.pos_of_ne_zero hdepth), htake]
    | descendant hc hbelow =>
      have hlength := congrArg List.length hx
      have hpositive := List.length_pos_iff.mpr hc
      have hbelow := List.length_pos_iff.mpr hbelow
      simp only [List.length_append, List.length_take, List.length_singleton] at hlength
      have hstart : c.length ≤ depth := by omega
      have htake := congrArg (List.take c.length) hx
      rw [List.take_append_of_le_length (by rw [List.length_take]; omega), List.take_take,
        Nat.min_eq_left hstart, List.take_left] at htake
      refine ⟨v.onPath (c.length - 1), ?_, ?_⟩
      · simp only [Visit.candidates, List.mem_map, List.mem_reverse, List.mem_range]
        exact ⟨c.length - 1, by omega, rfl⟩
      · rw [Visit.positionOf_onPath (by omega), Nat.sub_add_cancel hpositive, htake]
    | nextSibling row i =>
      obtain ⟨htake, hindex⟩ := List.append_inj' hx rfl
      obtain rfl : index = i + 1 := by simpa using hindex
      exact ⟨⟨depth, i⟩, by simp [Visit.candidates], by rw [Visit.positionOf, htake]⟩
    | @subsequentSibling row i j hij =>
      obtain ⟨htake, hindex⟩ := List.append_inj' hx rfl
      obtain rfl : index = j := by simpa using hindex
      exact ⟨⟨depth, i⟩, by simp [Visit.candidates, hij], by rw [Visit.positionOf, htake]⟩
  · rintro ⟨next, hnext, rfl⟩
    have hx : v.positionOf ⟨depth, index⟩ = v.path.take depth ++ [index] := rfl
    rw [hx]
    cases combinator with
    | child =>
      simp only [Visit.candidates] at hnext
      split at hnext
      · cases hnext
      · next hdepth =>
        obtain rfl := List.mem_singleton.mp hnext
        rw [Visit.positionOf_onPath (by omega), Nat.sub_add_cancel (Nat.pos_of_ne_zero hdepth)]
        exact .child (take_ne_nil hdepth hlt) index
    | descendant =>
      simp only [Visit.candidates, List.mem_map, List.mem_reverse, List.mem_range] at hnext
      obtain ⟨up, hup, rfl⟩ := hnext
      have hsplit : v.path.take depth =
          v.path.take (up + 1) ++ (v.path.take depth).drop (up + 1) := by
        conv_lhs => rw [← List.take_append_drop (up + 1) (v.path.take depth), List.take_take,
          Nat.min_eq_left (by omega)]
      rw [Visit.positionOf_onPath (by omega), hsplit, List.append_assoc]
      exact .descendant (take_ne_nil (by omega) (by omega)) (by simp)
    | nextSibling =>
      simp only [Visit.candidates] at hnext
      split at hnext
      · cases hnext
      · next hindex =>
        obtain rfl := List.mem_singleton.mp hnext
        have hsucc : index = index - 1 + 1 := (Nat.sub_add_cancel (Nat.pos_of_ne_zero hindex)).symm
        rw [Visit.positionOf, hsucc, Nat.add_sub_cancel]
        exact .nextSibling _ _
    | subsequentSibling =>
      simp only [Visit.candidates, List.mem_map, List.mem_reverse, List.mem_range] at hnext
      obtain ⟨k, hk, rfl⟩ := hnext
      exact .subsequentSibling _ hk

/-! ### Safe combinators -/

/-- The first combinator, read before the second from the right, does not spoil it: the
nearest ancestor may only be chosen when ancestors are asked for next, and the nearest
preceding sibling not when its own neighbour is asked for next. -/
def SafeBefore (a b : Combinator) : Prop :=
  (a = .descendant → b = .descendant) ∧ (a = .subsequentSibling → b ≠ .nextSibling)

instance : DecidableRel SafeBefore := fun a b =>
  inferInstanceAs (Decidable ((a = .descendant → b = .descendant) ∧
    (a = .subsequentSibling → b ≠ .nextSibling)))

/-- Reading from the right, no combinator spoils the next. -/
def SafeCombinators (combinators : List Combinator) : Prop := combinators.IsChain SafeBefore

mutual

/-- The nested selectors of a compound have safe combinators, at every depth. -/
def CompoundSafe : Compound ε → Prop
  | .mk _ pseudos => PseudosSafe pseudos

/-- The nested selectors of a list of pseudo-classes have safe combinators. -/
def PseudosSafe : List (PseudoRef ε) → Prop
  | [] => True
  | p :: ps => PseudoSafe p ∧ PseudosSafe ps

/-- The nested selectors of a pseudo-class have safe combinators. -/
def PseudoSafe : PseudoRef ε → Prop
  | .mk _ args => SelectorsSafe args

/-- Every selector of a list has safe combinators. -/
def SelectorsSafe : List (CompiledSelector ε) → Prop
  | [] => True
  | arg :: args => SelectorSafe arg ∧ SelectorsSafe args

/-- A selector has safe combinators, and so have those nested in it. -/
def SelectorSafe : CompiledSelector ε → Prop
  | .mk subject links =>
    CompoundSafe subject ∧ LinksSafe links ∧ SafeCombinators (links.map Link.combinator)

/-- The nested selectors of a list of links have safe combinators. -/
def LinksSafe : List (Link ε) → Prop
  | [] => True
  | link :: links => LinkSafe link ∧ LinksSafe links

/-- The nested selectors of a link have safe combinators. -/
def LinkSafe : Link ε → Prop
  | .mk _ want => CompoundSafe want

end

/-! ### The matcher as a committed search -/

section Search

variable (mayMatch : Compound ε → Bool) (v : Visit ε)

/-- A link of a selector as a link of a search. -/
def searchLink (link : Link ε) : SearchLink Cursor :=
  ⟨v.candidates link.combinator, linkMatches mayMatch v link⟩

variable {mayMatch}

theorem linksMatch_eq_commits (hmay : ∀ c, mayMatch c = true) (links : List (Link ε))
    (at' : Cursor) : linksMatch mayMatch v links at' =
      commits (links.map (searchLink mayMatch v)) at' := by
  induction links generalizing at' with
  | nil => rfl
  | cons link links ih =>
    rw [linksMatch, hmay, Bool.not_true, Bool.and_false, if_neg Bool.false_ne_true, List.map_cons,
      commits, searchLink]
    cases (v.candidates link.combinator at').find? (linkMatches mayMatch v link) with
    | none => rfl
    | some next => exact ih next

theorem leads_cons_of_candidates {link : SearchLink Cursor} {links : List (SearchLink Cursor)}
    {x y : Cursor} (hsub : ∀ c ∈ link.candidates x, c ∈ link.candidates y)
    (h : Leads (link :: links) x) : Leads (link :: links) y := by
  obtain ⟨c, hc, hwant, hleads⟩ := h
  exact ⟨c, hsub c hc, hwant, hleads⟩

theorem pairwise_map_reverse_range {R : Cursor → Cursor → Prop} {f : ℕ → Cursor} {n : ℕ}
    (h : ∀ a b, a < b → R (f b) (f a)) : ((List.range n).reverse.map f).Pairwise R := by
  rw [List.pairwise_map, List.pairwise_reverse]
  exact List.pairwise_lt_range.imp fun hab => h _ _ hab

theorem firstIsGood_descendant (test : Cursor → Bool) {links : List (Link ε)}
    (hnext : ∀ link ∈ links.head?, link.combinator = .descendant) :
    FirstIsGood ⟨v.candidates .descendant, test⟩ (links.map (searchLink mayMatch v)) := by
  intro x
  apply pairwise_map_reverse_range
  intro far near hlt hleads
  cases links with
  | nil => trivial
  | cons link links =>
    refine leads_cons_of_candidates (fun c hc => ?_) hleads
    have hcombinator := hnext link rfl
    simp only [searchLink, hcombinator, Visit.candidates, Visit.onPath, List.mem_map,
      List.mem_reverse, List.mem_range] at hc ⊢
    obtain ⟨up, hup, rfl⟩ := hc
    exact ⟨up, by omega, rfl⟩

/-- A preceding sibling offers every sibling before a further one, and the same ancestors. -/
theorem firstIsGood_subsequentSibling (test : Cursor → Bool) {links : List (Link ε)}
    (hnext : ∀ link ∈ links.head?, link.combinator ≠ .nextSibling) :
    FirstIsGood ⟨v.candidates .subsequentSibling, test⟩
      (links.map (searchLink mayMatch v)) := by
  intro x
  apply pairwise_map_reverse_range
  intro far near hlt hleads
  cases links with
  | nil => trivial
  | cons link links =>
    refine leads_cons_of_candidates (fun c hc => ?_) hleads
    have hcombinator := hnext link rfl
    cases hk : link.combinator with
    | nextSibling => exact absurd hk hcombinator
    | subsequentSibling =>
      simp only [searchLink, hk, Visit.candidates, List.mem_map, List.mem_reverse,
        List.mem_range] at hc ⊢
      obtain ⟨k, hk, rfl⟩ := hc
      exact ⟨k, by omega, rfl⟩
    | child => simpa [searchLink, hk, Visit.candidates] using hc
    | descendant => simpa [searchLink, hk, Visit.candidates] using hc

theorem firstIsGood_of_length_le {link : SearchLink Cursor} {links : List (SearchLink Cursor)}
    (h : ∀ x, (link.candidates x).length ≤ 1) : FirstIsGood link links := by
  intro x
  have hx := h x
  cases hl : link.candidates x with
  | nil => exact .nil
  | cons y rest =>
    rw [hl, List.length_cons] at hx
    obtain rfl := List.length_eq_zero_iff.mp (show rest.length = 0 by omega)
    exact List.pairwise_singleton ..

theorem firstsAreGood_of_safeCombinators {links : List (Link ε)}
    (h : SafeCombinators (links.map Link.combinator)) :
    FirstsAreGood (links.map (searchLink mayMatch v)) := by
  induction links with
  | nil => trivial
  | cons link links ih =>
    rw [SafeCombinators, List.map_cons, List.isChain_cons] at h
    obtain ⟨hnext, hrest⟩ := h
    have hsafe : ∀ next ∈ links.head?, SafeBefore link.combinator next.combinator := by
      intro next hmem
      exact hnext _ (by simpa using ⟨next, hmem, rfl⟩)
    refine ⟨?_, ih hrest⟩
    obtain ⟨combinator, want⟩ := link
    cases combinator with
    | descendant => exact firstIsGood_descendant v _ fun next hmem => (hsafe next hmem).1 rfl
    | subsequentSibling =>
      exact firstIsGood_subsequentSibling v _ fun next hmem => (hsafe next hmem).2 rfl
    | child =>
      apply firstIsGood_of_length_le
      intro x
      by_cases hx : x.depth = 0 <;> simp [searchLink, Link.combinator, Visit.candidates, hx]
    | nextSibling =>
      apply firstIsGood_of_length_le
      intro x
      by_cases hx : x.index = 0 <;> simp [searchLink, Link.combinator, Visit.candidates, hx]

/-- An assignment to the links is a way through the search, when each link matches what it
asks for. -/
theorem exists_assigned_iff_leads {root : Element ε} {position : Position}
    {links : List (Link ε)}
    (hlinks : ∀ link ∈ links, ∀ c, (visit root position).Within c →
      (linkMatches mayMatch (visit root position) link c = true ↔
        LinkHolds [root] link ((visit root position).positionOf c)))
    {at' : Cursor} (hat : (visit root position).Within at') :
    (∃ assigned, Assigned [root] links ((visit root position).positionOf at') assigned) ↔
      Leads (links.map (searchLink mayMatch (visit root position))) at' := by
  induction links generalizing at' with
  | nil => simp [Assigned, Leads]
  | cons link links ih =>
    have hrest : ∀ l ∈ links, ∀ c, (visit root position).Within c →
        (linkMatches mayMatch (visit root position) l c = true ↔
          LinkHolds [root] l ((visit root position).positionOf c)) :=
      fun l hl => hlinks l (by simp [hl])
    rw [List.map_cons, Leads]
    constructor
    · rintro ⟨-, c, rest, rfl, hrelates, hholds, hassigned⟩
      obtain ⟨next, hnext, rfl⟩ := (relates_iff_candidates hat c).mp hrelates
      have hwithin := within_candidates hat hnext
      exact ⟨next, hnext, (hlinks link (by simp) next hwithin).mpr hholds,
        (ih hrest hwithin).mp ⟨rest, hassigned⟩⟩
    · rintro ⟨next, hnext, hmatches, hleads⟩
      have hwithin := within_candidates hat hnext
      obtain ⟨rest, hassigned⟩ := (ih hrest hwithin).mpr hleads
      exact ⟨_, (visit root position).positionOf next, rest, rfl,
        (relates_iff_candidates hat _).mpr ⟨next, hnext, rfl⟩,
        (hlinks link (by simp) next hwithin).mp hmatches, hassigned⟩

end Search

/-! ### Matching means holding -/

section Equivalence

variable {mayMatch : Compound ε → Bool} {root : Element ε} {position : Position}

mutual

theorem compoundMatches_iff (hmay : ∀ c, mayMatch c = true) (c : Compound ε)
    (hsafe : CompoundSafe c) {at' : Cursor} (hat : (visit root position).Within at') :
    compoundMatches mayMatch (visit root position) c at' = true ↔
      CompoundHolds [root] c ((visit root position).positionOf at') := by
  cases c with
  | mk test pseudos =>
    rw [compoundMatches, CompoundHolds, Bool.and_eq_true, factsAt_visit hat,
      pseudosMatch_iff hmay pseudos hsafe hat]

theorem pseudosMatch_iff (hmay : ∀ c, mayMatch c = true) (pseudos : List (PseudoRef ε))
    (hsafe : PseudosSafe pseudos) {at' : Cursor} (hat : (visit root position).Within at') :
    pseudosMatch mayMatch (visit root position) pseudos at' = true ↔
      PseudosHold [root] pseudos ((visit root position).positionOf at') := by
  cases pseudos with
  | nil => simp [pseudosMatch, PseudosHold]
  | cons p ps =>
    rw [pseudosMatch, PseudosHold, Bool.and_eq_true, pseudoMatches_iff hmay p hsafe.1 hat,
      pseudosMatch_iff hmay ps hsafe.2 hat]

theorem pseudoMatches_iff (hmay : ∀ c, mayMatch c = true) (p : PseudoRef ε)
    (hsafe : PseudoSafe p) {at' : Cursor} (hat : (visit root position).Within at') :
    pseudoMatches mayMatch (visit root position) p at' = true ↔
      PseudoHolds [root] p ((visit root position).positionOf at') := by
  cases p with
  | mk kind args =>
    have hargs := anyMatches_iff hmay args hsafe hat
    rw [pseudoMatches, PseudoHolds]
    split
    · rw [← hargs, Bool.not_eq_true', Bool.not_eq_true]
    · exact hargs

theorem anyMatches_iff (hmay : ∀ c, mayMatch c = true) (args : List (CompiledSelector ε))
    (hsafe : SelectorsSafe args) {at' : Cursor} (hat : (visit root position).Within at') :
    anyMatches mayMatch (visit root position) args at' = true ↔
      AnyHolds [root] args ((visit root position).positionOf at') := by
  cases args with
  | nil => simp [anyMatches, AnyHolds]
  | cons arg args =>
    rw [anyMatches, AnyHolds, Bool.or_eq_true, matchesFrom_iff hmay arg hsafe.1 hat,
      anyMatches_iff hmay args hsafe.2 hat]

theorem matchesFrom_iff (hmay : ∀ c, mayMatch c = true) (sel : CompiledSelector ε)
    (hsafe : SelectorSafe sel) {at' : Cursor} (hat : (visit root position).Within at') :
    matchesFrom mayMatch (visit root position) sel at' = true ↔
      SelectorHolds [root] sel ((visit root position).positionOf at') := by
  cases sel with
  | mk subject links =>
    obtain ⟨hsubject, hlinks, hcombinators⟩ := hsafe
    rw [matchesFrom, SelectorHolds, Bool.and_eq_true, compoundMatches_iff hmay subject hsubject hat,
      linksMatch_eq_commits _ hmay,
      commits_iff_leads (firstsAreGood_of_safeCombinators _ hcombinators),
      exists_assigned_iff_leads (linkMatches_iff_of_mem hmay links hlinks) hat]

theorem linkMatches_iff_of_mem (hmay : ∀ c, mayMatch c = true) (links : List (Link ε))
    (hsafe : LinksSafe links) (link : Link ε) (hlink : link ∈ links) (c : Cursor)
    (hc : (visit root position).Within c) :
    linkMatches mayMatch (visit root position) link c = true ↔
      LinkHolds [root] link ((visit root position).positionOf c) := by
  cases links with
  | nil => cases hlink
  | cons first rest =>
    cases first with
    | mk combinator want =>
      rcases List.mem_cons.mp hlink with rfl | hrest
      · rw [linkMatches, LinkHolds]
        exact compoundMatches_iff hmay want hsafe.1 hc
      · exact linkMatches_iff_of_mem hmay rest hsafe.2 link hrest c hc

end

end Equivalence

end CtBrowser.Style
