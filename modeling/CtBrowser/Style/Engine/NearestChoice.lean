import CtBrowser.Style.Engine.CombinatorMatching

/-!
# Where the Nearest Choice Fails

The matcher is complete for a selector exactly when its combinators are safe. The hard
direction builds, for every order of combinators that is not safe, compounds and a tree in
which the nearest element of an unsafe combinator leads nowhere and the next one leads on:
every element of the tree is known by its depth and its place in its row, and a compound may
name the elements it accepts.

## Main definitions

- `Complete` — the matcher finds a selector wherever it holds, and nowhere else.
- `ladder` — a tree whose elements know where they stand.

## Main results

- `complete_iff_safeCombinators` — completeness is safety of the combinators.
- `not_complete` — `a > b c` on a nested pair of `b`s.
-/

namespace CtBrowser.Style

open Foundations.CommittedSearch

/-- The nested selectors of a selector are safe; its own combinators may be any. -/
def ArgumentsSafe {ε : Type} : CompiledSelector ε → Prop
  | .mk subject links => CompoundSafe subject ∧ LinksSafe links

/-- On every element of every tree, with a filter that answers maybe to everything, the
matcher says that the selector matches if and only if it holds. -/
def Complete {ε : Type} (sel : CompiledSelector ε) : Prop :=
  ∀ (mayMatch : Compound ε → Bool) (root : Element ε) (position : Position),
    (∀ c, mayMatch c = true) → (factsOf [root] position).isSome = true →
      (elementMatches mayMatch sel root position = true ↔ SelectorHolds [root] sel position)

theorem within_start {ε : Type} {root : Element ε} {position : Position} (h : position ≠ []) :
    (visit root position).Within ((visit root position).onPath (position.length - 1)) ∧
      (visit root position).positionOf ((visit root position).onPath (position.length - 1)) =
        position := by
  have hpositive := List.length_pos_iff.mpr h
  have hlt : position.length - 1 < (visit root position).path.length := by
    show position.length - 1 < position.length
    omega
  refine ⟨Visit.within_onPath hlt, ?_⟩
  rw [Visit.positionOf_onPath hlt, Nat.sub_add_cancel hpositive]
  exact List.take_length

theorem complete_of_safeCombinators {ε : Type} {sel : CompiledSelector ε}
    (harguments : ArgumentsSafe sel) (hsafe : SafeCombinators sel.combinators) :
    Complete sel := by
  intro mayMatch root position hmay hthere
  have hposition : position ≠ [] := by
    rintro rfl
    simp [factsOf] at hthere
  obtain ⟨hwithin, hstart⟩ := @within_start ε root position hposition
  cases sel with
  | mk subject links =>
    have hsel : SelectorSafe (.mk subject links) := ⟨harguments.1, harguments.2, hsafe⟩
    have hiff := matchesFrom_iff hmay _ hsel hwithin
    rwa [hstart] at hiff

/-! ### A tree that knows its places -/

/-- A tree of equal rows, in which every element's facts are its depth and its index. -/
def ladder (width : ℕ) : ℕ → Cursor → Element Cursor
  | 0, place => .mk place []
  | n + 1, place =>
    .mk place ((List.range width).map fun i => ladder width n ⟨place.depth + 1, i⟩)

/-- The way down to the last element of the lowest row. -/
def lastPlace (width depth : ℕ) : Position := 0 :: List.replicate depth width

/-- The traversal on its way to the last element of the lowest row. -/
def climb (width depth : ℕ) : Visit Cursor :=
  visit (ladder (width + 1) depth ⟨0, 0⟩) (lastPlace width depth)

theorem facts_ladder (width n : ℕ) (place : Cursor) :
    (ladder width n place).facts = place := by
  cases n <;> rfl

theorem factsOf_ladder (width : ℕ) {index : ℕ} (hindex : index ≤ width) (below n depth : ℕ)
    (hn : below ≤ n) :
    factsOf ((List.range (width + 1)).map fun i => ladder (width + 1) n ⟨depth, i⟩)
      (List.replicate below width ++ [index]) = some ⟨depth + below, index⟩ := by
  induction below generalizing n depth with
  | zero =>
    have hlt : index < width + 1 := by omega
    simp [factsOf, hlt, facts_ladder]
  | succ below ih =>
    cases n with
    | zero => omega
    | succ n =>
      have hrest := ih n (depth + 1) (by omega)
      have hlt : width < width + 1 := by omega
      rw [List.replicate_succ, List.cons_append, factsOf]
      simp only [List.getElem?_map, List.getElem?_range hlt, Option.map_some, Option.bind_some,
        ladder, Element.children, List.append_eq_nil_iff, List.cons_ne_self, and_false,
        if_false]
      rw [hrest]
      congr 2
      omega

/-- A cursor below the root is within the rows, and the element there is known by its place. -/
theorem factsAt_climb {width depth : ℕ} {c : Cursor} (hdepth : c.depth ≠ 0)
    (hle : c.depth ≤ depth) (hindex : c.index ≤ width) :
    (climb width depth).Within c ∧ (climb width depth).factsAt c = some c := by
  obtain ⟨below, hbelow⟩ := Nat.exists_eq_succ_of_ne_zero hdepth
  obtain ⟨n, rfl⟩ : ∃ n, depth = n + 1 := ⟨depth - 1, by omega⟩
  have hlt : below < n + 1 := by omega
  have hwithin : (climb width (n + 1)).Within c := by
    refine ⟨width, ?_, hindex⟩
    rw [hbelow]
    simp [climb, visit, lastPlace, hlt]
  refine ⟨hwithin, ?_⟩
  have htake : (lastPlace width (n + 1)).take c.depth = 0 :: List.replicate below width := by
    rw [hbelow, lastPlace, List.take_succ_cons, List.take_replicate, Nat.min_eq_left hlt.le]
  have hfacts := factsOf_ladder width hindex below n 1 (by omega)
  rw [climb, factsAt_visit hwithin, Visit.positionOf]
  show factsOf _ ((lastPlace width (n + 1)).take c.depth ++ [c.index]) = some c
  rw [htake, List.cons_append, factsOf]
  simp only [List.getElem?_cons_zero, Option.bind_some, List.append_eq_nil_iff,
    List.cons_ne_self, and_false, if_false, ladder, Element.children, Nat.zero_add, hfacts]
  rw [Nat.add_comm, ← Nat.succ_eq_add_one, ← hbelow]

/-! ### Selectors that name places -/

/-- A compound that accepts the elements at some places. -/
def atPlaces (places : List Cursor) : Compound Cursor := .mk (fun place => place ∈ places) []

/-- The nearest place a combinator leads to from a place well inside the tree. -/
def nearest (width : ℕ) (combinator : Combinator) (c : Cursor) : Cursor :=
  match combinator with
  | .descendant | .child => ⟨c.depth - 1, width⟩
  | .nextSibling | .subsequentSibling => ⟨c.depth, c.index - 1⟩

/-- Links that lead from a place to the nearest one each time, and accept only that. -/
def trail (width : ℕ) : List Combinator → Cursor → List (Link Cursor)
  | [], _ => []
  | combinator :: rest, c =>
    .mk combinator (atPlaces [nearest width combinator c]) ::
      trail width rest (nearest width combinator c)

/-- Links that lead astray at a pair of combinators: the first of the two also accepts the
nearest place, and the second only what lies beyond the next nearest. -/
def astray (width : ℕ) (a b : Combinator) (after : List Combinator) :
    List Combinator → Cursor → List (Link Cursor)
  | [], c =>
    let near := nearest width a c
    let far := nearest width a near
    let goal := nearest width b far
    .mk a (atPlaces [near, far]) :: .mk b (atPlaces [goal]) :: trail width after goal
  | combinator :: rest, c =>
    .mk combinator (atPlaces [nearest width combinator c]) ::
      astray width a b after rest (nearest width combinator c)

/-- A place with a number of places left above it and before it. -/
def Inside (width depth left : ℕ) (c : Cursor) : Prop :=
  left < c.depth ∧ c.depth ≤ depth ∧ left ≤ c.index ∧ c.index ≤ width

theorem Inside.nearest {width depth left : ℕ} {c : Cursor} (h : Inside width depth (left + 1) c)
    (hwidth : left ≤ width) (combinator : Combinator) :
    Inside width depth left (nearest width combinator c) := by
  obtain ⟨h₁, h₂, h₃, h₄⟩ := h
  cases combinator <;> refine ⟨?_, ?_, ?_, ?_⟩ <;> simp only [Style.nearest] <;> omega

theorem onPath_climb {width depth d : ℕ} (hd : d ≠ 0) (hle : d ≤ depth) :
    (climb width depth).onPath d = ⟨d, width⟩ := by
  obtain ⟨below, rfl⟩ := Nat.exists_eq_succ_of_ne_zero hd
  have hlt : below < depth := hle
  simp [Visit.onPath, climb, visit, lastPlace, hlt]

theorem reverse_range_eq_cons {n : ℕ} (hn : n ≠ 0) :
    (List.range n).reverse = (n - 1) :: (List.range (n - 1)).reverse := by
  obtain ⟨m, rfl⟩ := Nat.exists_eq_succ_of_ne_zero hn
  simp [List.range_succ]

theorem candidates_climb {width depth left : ℕ} {c : Cursor}
    (h : Inside width depth (left + 1) c) (combinator : Combinator) :
    ∃ rest, (climb width depth).candidates combinator c = nearest width combinator c :: rest := by
  obtain ⟨h₁, h₂, h₃, h₄⟩ := h
  have hdepth : c.depth ≠ 0 := by omega
  have hindex : c.index ≠ 0 := by omega
  have hparent : (climb width depth).onPath (c.depth - 1) = ⟨c.depth - 1, width⟩ :=
    onPath_climb (by omega) (by omega)
  cases combinator with
  | child => exact ⟨[], by simp [Visit.candidates, hdepth, hparent, nearest]⟩
  | descendant =>
    refine ⟨(List.range (c.depth - 1)).reverse.map (climb width depth).onPath, ?_⟩
    rw [Visit.candidates, reverse_range_eq_cons hdepth, List.map_cons, hparent, nearest]
  | nextSibling => exact ⟨[], by simp [Visit.candidates, hindex, nearest]⟩
  | subsequentSibling =>
    refine ⟨(List.range (c.index - 1)).reverse.map fun k => ⟨c.depth, k⟩, ?_⟩
    rw [Visit.candidates, reverse_range_eq_cons hindex, List.map_cons, nearest]

theorem compoundMatches_atPlaces {mayMatch : Compound Cursor → Bool} {width depth : ℕ}
    {c : Cursor} (hdepth : c.depth ≠ 0) (hle : c.depth ≤ depth) (hindex : c.index ≤ width)
    (places : List Cursor) :
    compoundMatches mayMatch (climb width depth) (atPlaces places) c = decide (c ∈ places) := by
  have hfacts := (factsAt_climb hdepth hle hindex).2
  simp [atPlaces, compoundMatches, pseudosMatch, hfacts]

/-! ### The walk goes astray, and a way exists -/

variable {mayMatch : Compound Cursor → Bool} {width depth : ℕ}

theorem commits_cons_nearest {left : ℕ} {c : Cursor} (h : Inside width depth (left + 1) c)
    (hwidth : left ≤ width) {combinator : Combinator} {places : List Cursor}
    (hplaces : nearest width combinator c ∈ places) (links : List (SearchLink Cursor)) :
    commits (searchLink mayMatch (climb width depth) (.mk combinator (atPlaces places)) :: links) c =
      commits links (nearest width combinator c) := by
  obtain ⟨rest, hrest⟩ := candidates_climb h combinator
  have hmatches : compoundMatches mayMatch (climb width depth) (atPlaces places)
      (nearest width combinator c) = true := by
    obtain ⟨h₁, h₂, -, h₄⟩ := h.nearest hwidth combinator
    rw [compoundMatches_atPlaces (by omega) h₂ h₄, decide_eq_true hplaces]
  simp only [commits, searchLink, Link.combinator, hrest, List.find?_cons, linkMatches, hmatches]

theorem leads_cons_nearest {left : ℕ} {c : Cursor} (h : Inside width depth (left + 1) c)
    (hwidth : left ≤ width) {combinator : Combinator} {places : List Cursor}
    (hplaces : nearest width combinator c ∈ places) {links : List (SearchLink Cursor)}
    (hlinks : Leads links (nearest width combinator c)) :
    Leads (searchLink mayMatch (climb width depth) (.mk combinator (atPlaces places)) :: links)
      c := by
  obtain ⟨rest, hrest⟩ := candidates_climb h combinator
  have hmatches : compoundMatches mayMatch (climb width depth) (atPlaces places)
      (nearest width combinator c) = true := by
    obtain ⟨h₁, h₂, -, h₄⟩ := h.nearest hwidth combinator
    rw [compoundMatches_atPlaces (by omega) h₂ h₄, decide_eq_true hplaces]
  exact ⟨_, by simp [searchLink, Link.combinator, hrest], hmatches, hlinks⟩

theorem leads_trail (combinators : List Combinator) {c : Cursor}
    (h : Inside width depth combinators.length c) (hwidth : combinators.length ≤ width) :
    Leads ((trail width combinators c).map (searchLink mayMatch (climb width depth))) c := by
  induction combinators generalizing c with
  | nil => trivial
  | cons combinator rest ih =>
    have hrest : rest.length ≤ width := by
      rw [List.length_cons] at hwidth
      omega
    exact leads_cons_nearest h hrest (List.mem_singleton.mpr rfl) (ih (h.nearest hrest _) hrest)

theorem not_safeBefore {a b : Combinator} (h : ¬ SafeBefore a b) :
    (a = .descendant ∧ b ≠ .descendant) ∨ (a = .subsequentSibling ∧ b = .nextSibling) := by
  cases a <;> cases b <;> simp_all [SafeBefore]

theorem far_mem_candidates {a b : Combinator} (hcross : ¬ SafeBefore a b) {left : ℕ} {c : Cursor}
    (h : Inside width depth (left + 2) c) :
    nearest width a (nearest width a c) ∈ (climb width depth).candidates a c := by
  obtain ⟨h₁, h₂, h₃, h₄⟩ := h
  rcases not_safeBefore hcross with ⟨rfl, -⟩ | ⟨rfl, -⟩
  · simp only [Visit.candidates, List.mem_map, List.mem_reverse, List.mem_range]
    exact ⟨c.depth - 1 - 1, by omega, onPath_climb (by omega) (by omega)⟩
  · simp only [Visit.candidates, List.mem_map, List.mem_reverse, List.mem_range]
    exact ⟨c.index - 1 - 1, by omega, rfl⟩

theorem leads_astray {a b : Combinator} (hcross : ¬ SafeBefore a b)
    (after before : List Combinator) {c : Cursor}
    (h : Inside width depth (before.length + (after.length + 3)) c)
    (hwidth : before.length + (after.length + 3) ≤ width) :
    Leads ((astray width a b after before c).map (searchLink mayMatch (climb width depth))) c := by
  induction before generalizing c with
  | nil =>
    rw [List.length_nil, Nat.zero_add] at h hwidth
    have hnear := h.nearest (by omega) a
    have hfar := hnear.nearest (by omega) a
    have hgoal := hfar.nearest (by omega) b
    have hmatches : compoundMatches mayMatch (climb width depth)
        (atPlaces [nearest width a c, nearest width a (nearest width a c)])
        (nearest width a (nearest width a c)) = true := by
      obtain ⟨h₁, h₂, -, h₄⟩ := hfar
      rw [compoundMatches_atPlaces (by omega) h₂ h₄]
      simp
    exact ⟨_, far_mem_candidates hcross h, hmatches,
      leads_cons_nearest hfar (by omega) (List.mem_singleton.mpr rfl)
        (leads_trail after hgoal (by omega))⟩
  | cons combinator before ih =>
    have hlength : (combinator :: before).length + (after.length + 3) =
        before.length + (after.length + 3) + 1 := by
      rw [List.length_cons]
      omega
    rw [hlength] at h hwidth
    exact leads_cons_nearest h (by omega) (List.mem_singleton.mpr rfl)
      (ih (h.nearest (by omega) combinator) (by omega))

/-- From the nearest place of an unsafe pair the second combinator does not lead to where
it leads from the next nearest. -/
theorem goal_not_mem_candidates {a b : Combinator} (hcross : ¬ SafeBefore a b) {left : ℕ}
    {c z : Cursor} (h : Inside width depth (left + 3) c)
    (hz : z ∈ (climb width depth).candidates b (nearest width a c)) :
    (z.depth ≠ 0 ∧ z.depth ≤ depth ∧ z.index ≤ width) ∧
      z ≠ nearest width b (nearest width a (nearest width a c)) := by
  obtain ⟨d, i⟩ := c
  obtain ⟨h₁, h₂, h₃, h₄⟩ := h
  dsimp only at h₁ h₂ h₃ h₄
  rcases not_safeBefore hcross with ⟨rfl, hb⟩ | ⟨rfl, rfl⟩
  · have hdepth : d - 1 ≠ 0 := by omega
    have hparent : (climb width depth).onPath (d - 1 - 1) = ⟨d - 1 - 1, width⟩ :=
      onPath_climb (by omega) (by omega)
    cases b with
    | descendant => exact absurd rfl hb
    | child =>
      have hz' : z = ⟨d - 1 - 1, width⟩ := by
        simpa [Visit.candidates, nearest, hparent, hdepth] using hz
      subst hz'
      refine ⟨⟨by dsimp only; omega, by dsimp only; omega, le_rfl⟩, ?_⟩
      simp only [nearest, ne_eq, Cursor.mk.injEq, and_true]
      omega
    | nextSibling =>
      have hwidth : width ≠ 0 := by omega
      have hz' : z = ⟨d - 1, width - 1⟩ := by
        simpa [Visit.candidates, nearest, hwidth] using hz
      subst hz'
      refine ⟨⟨hdepth, by dsimp only; omega, by dsimp only; omega⟩, ?_⟩
      simp only [nearest, ne_eq, Cursor.mk.injEq, and_true]
      omega
    | subsequentSibling =>
      simp only [Visit.candidates, nearest, List.mem_map, List.mem_reverse, List.mem_range] at hz
      obtain ⟨k, hk, rfl⟩ := hz
      refine ⟨⟨hdepth, by dsimp only; omega, by dsimp only; omega⟩, ?_⟩
      simp only [nearest, ne_eq, Cursor.mk.injEq, not_and]
      omega
  · have hindex : i - 1 ≠ 0 := by omega
    have hz' : z = ⟨d, i - 1 - 1⟩ := by
      simpa [Visit.candidates, nearest, hindex] using hz
    subst hz'
    refine ⟨⟨by dsimp only; omega, h₂, by dsimp only; omega⟩, ?_⟩
    simp only [nearest, ne_eq, Cursor.mk.injEq, true_and]
    omega

theorem commits_astray {a b : Combinator} (hcross : ¬ SafeBefore a b)
    (after before : List Combinator) {c : Cursor}
    (h : Inside width depth (before.length + (after.length + 3)) c)
    (hwidth : before.length + (after.length + 3) ≤ width) :
    commits ((astray width a b after before c).map (searchLink mayMatch (climb width depth))) c =
      false := by
  induction before generalizing c with
  | nil =>
    rw [List.length_nil, Nat.zero_add] at h hwidth
    have hstuck : ((climb width depth).candidates b (nearest width a c)).find?
        (linkMatches mayMatch (climb width depth)
          (.mk b (atPlaces [nearest width b (nearest width a (nearest width a c))]))) = none := by
      rw [List.find?_eq_none]
      intro z hz
      obtain ⟨⟨h₁, h₂, h₃⟩, hne⟩ := goal_not_mem_candidates hcross h hz
      rw [linkMatches, compoundMatches_atPlaces h₁ h₂ h₃]
      simpa using hne
    rw [astray, List.map_cons, commits_cons_nearest h (by omega) (by simp)]
    simp only [List.map_cons, commits, searchLink, Link.combinator, hstuck]
  | cons combinator before ih =>
    have hlength : (combinator :: before).length + (after.length + 3) =
        before.length + (after.length + 3) + 1 := by
      rw [List.length_cons]
      omega
    rw [hlength] at h hwidth
    rw [astray, List.map_cons, commits_cons_nearest h (by omega) (List.mem_singleton.mpr rfl)]
    exact ih (h.nearest (by omega) combinator) (by omega)

/-! ### Completeness -/

theorem exists_not_safeBefore {combinators : List Combinator}
    (h : ¬ SafeCombinators combinators) :
    ∃ before a b after, combinators = before ++ a :: b :: after ∧ ¬ SafeBefore a b := by
  induction combinators with
  | nil => exact absurd .nil h
  | cons a rest ih =>
    cases rest with
    | nil => exact absurd (.singleton a) h
    | cons b after =>
      by_cases hab : SafeBefore a b
      · have hrest : ¬ SafeCombinators (b :: after) := fun hrest => h (.cons_cons hab hrest)
        obtain ⟨before, a', b', after', heq, hcross⟩ := ih hrest
        exact ⟨a :: before, a', b', after', by rw [heq, List.cons_append], hcross⟩
      · exact ⟨[], a, b, after, rfl, hab⟩

theorem trail_links (combinators : List Combinator) (c : Cursor) :
    (trail width combinators c).map Link.combinator = combinators ∧
      LinksSafe (trail width combinators c) := by
  induction combinators generalizing c with
  | nil => exact ⟨rfl, trivial⟩
  | cons combinator rest ih =>
    obtain ⟨hcombinators, hsafe⟩ := ih (nearest width combinator c)
    exact ⟨by simp [trail, Link.combinator, hcombinators], trivial, hsafe⟩

theorem astray_links (a b : Combinator) (after before : List Combinator) (c : Cursor) :
    (astray width a b after before c).map Link.combinator = before ++ a :: b :: after ∧
      LinksSafe (astray width a b after before c) := by
  induction before generalizing c with
  | nil =>
    obtain ⟨hcombinators, hsafe⟩ :=
      @trail_links width after (nearest width b (nearest width a (nearest width a c)))
    exact ⟨by simp [astray, Link.combinator, hcombinators], trivial, trivial, hsafe⟩
  | cons combinator before ih =>
    obtain ⟨hcombinators, hsafe⟩ := ih (nearest width combinator c)
    exact ⟨by simp [astray, Link.combinator, hcombinators], trivial, hsafe⟩

theorem climb_start (width : ℕ) {depth : ℕ} (hdepth : depth ≠ 0) :
    (climb width depth).onPath ((lastPlace width depth).length - 1) = ⟨depth, width⟩ ∧
      (climb width depth).positionOf ⟨depth, width⟩ = lastPlace width depth ∧
        (factsOf [ladder (width + 1) depth ⟨0, 0⟩] (lastPlace width depth)).isSome = true := by
  have hposition : lastPlace width depth ≠ [] := by simp [lastPlace]
  have hstart : (climb width depth).onPath ((lastPlace width depth).length - 1) =
      ⟨depth, width⟩ := by
    simpa [lastPlace] using onPath_climb hdepth le_rfl
  have hplace : (climb width depth).positionOf ⟨depth, width⟩ = lastPlace width depth := by
    rw [← hstart]
    exact (within_start hposition).2
  obtain ⟨hwithin, hfacts⟩ :=
    @factsAt_climb width depth ⟨depth, width⟩ hdepth le_rfl le_rfl
  have hthere := factsAt_visit hwithin
  refine ⟨hstart, hplace, ?_⟩
  show (factsOf _ (lastPlace width depth)).isSome = true
  rw [← hplace]
  exact hthere ▸ hfacts ▸ rfl

/-- A tree and compounds for which an order of combinators with an unsafe pair is not
matched, though it holds. -/
theorem not_complete_astray {a b : Combinator} (hcross : ¬ SafeBefore a b)
    (after before : List Combinator) :
    ¬ ∀ (ε : Type) (sel : CompiledSelector ε), sel.combinators = before ++ a :: b :: after →
      ArgumentsSafe sel → Complete sel := by
  intro hcomplete
  -- one place more in each direction than there are links to follow
  obtain ⟨room, hroom⟩ : ∃ room, room = before.length + (after.length + 3) := ⟨_, rfl⟩
  have hinside : Inside room (room + 1) (before.length + (after.length + 3)) ⟨room + 1, room⟩ := by
    refine ⟨?_, le_rfl, hroom.ge, le_rfl⟩
    dsimp only
    omega
  obtain ⟨hcombinators, hsafe⟩ := @astray_links room a b after before ⟨room + 1, room⟩
  obtain ⟨hstart, hplace, hthere⟩ := climb_start room (Nat.succ_ne_zero room)
  have hwithin := (@factsAt_climb room (room + 1) ⟨room + 1, room⟩ (Nat.succ_ne_zero room)
    le_rfl le_rfl).1
  have hmay : ∀ c : Compound Cursor, (fun _ : Compound Cursor => true) c = true := fun _ => rfl
  have hiff := hcomplete Cursor (.mk (.mk (fun _ => true) []) (astray room a b after before _))
    hcombinators ⟨trivial, hsafe⟩ _ _ _ hmay hthere
  have hholds := (exists_assigned_iff_leads (linkMatches_iff_of_mem hmay _ hsafe) hwithin).mpr
    (leads_astray hcross after before hinside hroom.ge)
  change ∃ assigned, Assigned _ _ ((climb room (room + 1)).positionOf ⟨room + 1, room⟩) assigned
    at hholds
  rw [hplace] at hholds
  have hmatches := hiff.mpr ⟨⟨by rwa [Option.any_true], trivial⟩, hholds⟩
  have hstuck : linksMatch (fun _ => true) (climb room (room + 1))
      (astray room a b after before ⟨room + 1, room⟩) ⟨room + 1, room⟩ = false := by
    rw [linksMatch_eq_commits _ hmay]
    exact commits_astray hcross after before hinside hroom.ge
  have hwalk : linksMatch (fun _ => true) (climb room (room + 1))
      (astray room a b after before ⟨room + 1, room⟩)
      ((climb room (room + 1)).onPath ((lastPlace room (room + 1)).length - 1)) = true :=
    (Bool.and_eq_true_iff.mp hmatches).2
  rw [hstart, hstuck] at hwalk
  exact Bool.false_ne_true hwalk

/-- Completeness is safety of the combinators: whatever the compounds ask for, as long as the
selectors nested in them are safe. -/
theorem complete_iff_safeCombinators (combinators : List Combinator) :
    (∀ (ε : Type) (sel : CompiledSelector ε), sel.combinators = combinators →
      ArgumentsSafe sel → Complete sel) ↔ SafeCombinators combinators := by
  constructor
  · intro hcomplete
    by_contra hsafe
    obtain ⟨before, a, b, after, rfl, hcross⟩ := exists_not_safeBefore hsafe
    exact not_complete_astray hcross after before hcomplete
  · rintro hsafe ε sel rfl harguments
    exact complete_of_safeCombinators harguments hsafe

/-- A type selector, over elements known by the number of their tag. -/
def tag (name : ℕ) : Compound ℕ := .mk (fun tagName => tagName = name) []

/-- `a > b c`, with the tags `a`, `b`, `c` numbered. -/
def childThenDescendant : CompiledSelector ℕ :=
  .mk (tag 2) [.mk .descendant (tag 1), .mk .child (tag 0)]

/-- `<a><b><x><b><c>`: the nearest `b` above the `c` is not a child of the `a`. -/
def nestedPair : Element ℕ :=
  .mk 0 [.mk 1 [.mk 3 [.mk 1 [.mk 2 []]]]]

/-- The matcher misses the `c`, though the outer `b` is above it and a child of the `a`. -/
theorem not_complete : ¬ ∀ (ε : Type) (sel : CompiledSelector ε), Complete sel := by
  intro hcomplete
  have hiff := hcomplete ℕ childThenDescendant (fun _ => true) nestedPair [0, 0, 0, 0, 0]
    (fun _ => rfl) (by decide)
  have hholds : SelectorHolds [nestedPair] childThenDescendant [0, 0, 0, 0, 0] := by
    refine ⟨⟨by decide, trivial⟩, [[0, 0], [0]], [0, 0], [[0]], rfl, ?_, ⟨by decide, trivial⟩,
      [0], [], rfl, ?_, ⟨by decide, trivial⟩, rfl⟩
    · exact .descendant (List.cons_ne_nil 0 [0]) (List.cons_ne_nil 0 [0, 0])
    · exact .child (List.cons_ne_nil 0 []) 0
  have hmatches := hiff.mpr hholds
  revert hmatches
  decide

end CtBrowser.Style
