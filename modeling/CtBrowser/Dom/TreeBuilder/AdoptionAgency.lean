import CtBrowser.Dom.TreeBuilder.FormattingOrder

/-!
# The Adoption Agency Keeps the Order

The adoption agency walks down the stack with indices into the list of active formatting
elements, while both lose and change entries. Because the two lists have their common elements
in one order, what it takes out of the list comes after the formatting element, and its two
indices go on naming the same entries.

## Main definitions

- `Agency.Inside` — the invariant of the inner loop.
- `InnerRun` — the states of the inner loop.

## Main results

- `Agency.Inside.visit` — one node of the inner loop.
- `Agency.Inside.finish`, `Ordered.agencyOuter` — the order after an iteration.
- `formatting_order` — the order and the indices in every state of a parse.
-/

namespace CtBrowser.Dom.Builder

open Foundations

/-- What the bookmark is next to: the formatting element's own entry while no node has been made
anew, and then the entry of the first node that was, the one just below the furthest block. -/
def Agency.Bookmarked (s : Agency) (block : NodeId) (feIndex : ℕ) (between : List NodeId) : Prop :=
  between = [] ∧ s.lastNode = block ∧ s.bookmark = feIndex ∨
    s.lastNode ≠ block ∧ feIndex < s.bookmark ∧
      ∃ g, s.builder.active[s.bookmark - 1]? = some g ∧ g.marker = false ∧
        between.getLast? = some g.id

/-- The invariant of the inner loop with `nodeStack` entries still below the node. -/
structure Agency.Inside (s : Agency) (fe block : NodeId) (feIndex nodeStack : ℕ) : Prop where
  ordered : s.builder.Ordered
  formatting : ∃ f, s.builder.active[feIndex]? = some f ∧ f.marker = false ∧ f.id = fe
  blockUnlisted : block ∉ listed s.builder.active
  stack : ∃ below between above, s.builder.openIds = below ++ (between ++ block :: above) ∧
    below.length = nodeStack ∧ fe ∈ below ∧ s.Bookmarked block feIndex between

variable {b : Builder} {s : Agency} {fe block : NodeId} {feIndex nodeStack round : ℕ}

/-! ## Positions in the list -/

theorem Ordered.index_lt (h : b.Ordered) {f g : Formatting} {i j : ℕ}
    (hi : b.active[i]? = some f) (hf : f.marker = false) (hj : b.active[j]? = some g)
    (hg : g.marker = false) {front back : List NodeId} (hids : b.openIds = front ++ f.id :: back)
    (hback : g.id ∈ back) : i < j := by
  obtain ⟨before, after, hactive, rfl⟩ := exists_split hi
  have hshared := h.shared
  rw [hactive, listed_append, listed_cons hf, hids] at hshared
  have hne : g.id ≠ f.id := fun heq => by
    have hnodup := h.openNodup
    rw [hids] at hnodup
    exact (List.nodup_cons.mp (List.nodup_append.mp hnodup).2.1).1 (heq ▸ hback)
  by_contra hle
  rcases Nat.lt_or_eq_of_le (Nat.le_of_not_lt hle) with hlt | rfl
  · -- an entry before the lower one would be of an element below it
    rw [hactive, List.getElem?_append_left hlt] at hj
    exact hshared.split_left (mem_listed.mpr ⟨g, List.mem_of_getElem? hj, hg, rfl⟩)
      (List.mem_cons_of_mem _ hback)
  · exact hne (congrArg Formatting.id (Option.some.inj (hj.symm.trans hi)))

theorem formattingIndexOf_eq_some {id : NodeId} {i : ℕ} (h : b.formattingIndexOf id = some i) :
    ∃ g, b.active[i]? = some g ∧ g.marker = false ∧ g.id = id := by
  obtain ⟨front, g, back, hactive, rfl, hg, -⟩ := lastIndex?_eq_some h
  refine ⟨g, hactive ▸ getElem?_split front back g, ?_⟩
  simpa using hg

/-! ## One node of the inner loop -/

theorem Agency.Inside.at_entry (h : s.Inside fe block feIndex (nodeStack + 1)) {e : Entry}
    (he : s.builder.openElements[nodeStack]? = some e) :
    ∃ below entries between above,
      s.builder.openElements = below ++ e :: entries ∧ below.length = nodeStack ∧
      fe ∈ below.map Entry.id ++ [e.id] ∧ entries.map Entry.id = between ++ block :: above ∧
      s.Bookmarked block feIndex between := by
  obtain ⟨front, between, above, hids, hlength, hfe, hbookmark⟩ := h.stack
  obtain ⟨below, entries, hopen, hbelow⟩ := exists_split he
  have hsides : below.map Entry.id ++ [e.id] = front ∧
      entries.map Entry.id = between ++ block :: above := by
    refine List.append_inj ?_ (by simp [hbelow, hlength])
    rw [← hids, openIds, hopen]
    simp
  exact ⟨below, entries, between, above, hopen, hbelow, hsides.1 ▸ hfe, hsides.2, hbookmark⟩

theorem Agency.Inside.at_node (h : s.Inside fe block feIndex (nodeStack + 1)) {node : Entry}
    (hnode : s.builder.openElements[nodeStack]? = some node) (hne : node.id ≠ fe) :
    ∃ below entries between above,
      s.builder.openElements = below ++ node :: entries ∧ below.length = nodeStack ∧
      fe ∈ below.map Entry.id ∧ entries.map Entry.id = between ++ block :: above ∧
      s.Bookmarked block feIndex between := by
  obtain ⟨below, entries, between, above, hopen, hlength, hfe, hrest⟩ := h.at_entry hnode
  exact ⟨below, entries, between, above, hopen, hlength,
    (List.mem_append.mp hfe).resolve_right (by simpa using Ne.symm hne), hrest⟩

theorem Agency.Inside.feIndex_lt (h : s.Inside fe block feIndex (nodeStack + 1)) {node : Entry}
    (hnode : s.builder.openElements[nodeStack]? = some node) (hne : node.id ≠ fe) {i : ℕ}
    (hi : s.builder.formattingIndexOf node.id = some i) : feIndex < i := by
  obtain ⟨below, entries, between, above, hopen, -, hfe, -, -⟩ := h.at_node hnode hne
  obtain ⟨f, hf, hmarker, rfl⟩ := h.formatting
  obtain ⟨g, hg, hgm, hgid⟩ := formattingIndexOf_eq_some hi
  obtain ⟨front, back, hsplit⟩ := List.append_of_mem hfe
  have hids : s.builder.openIds = front ++ f.id :: (back ++ node.id :: entries.map Entry.id) := by
    rw [openIds, hopen, List.map_append, hsplit]
    simp
  exact h.ordered.index_lt hf hmarker hg hgm hids (by simp [hgid])

theorem Agency.Inside.leave (h : s.Inside fe block feIndex (nodeStack + 1)) {node : Entry}
    (hnode : s.builder.openElements[nodeStack]? = some node) (hne : node.id ≠ fe)
    {active : List Formatting} (hactive : active.Sublist s.builder.active) {bookmark : ℕ}
    (hformatting : active[feIndex]? = s.builder.active[feIndex]?)
    (hbookmark : ∀ front between above,
      s.builder.openIds = front ++ node.id :: (between ++ block :: above) →
      s.Bookmarked block feIndex between →
      Agency.Bookmarked ⟨{ s.builder with active := active }, bookmark, s.lastNode⟩ block feIndex
        between) :
    Agency.Inside
      ⟨reindex { s.builder with
        active := active, openElements := s.builder.openElements.eraseIdx nodeStack },
        bookmark, s.lastNode⟩ fe block feIndex nodeStack := by
  obtain ⟨below, entries, between, above, hopen, hlength, hfe, hentries, hold⟩ :=
    h.at_node hnode hne
  have hids : s.builder.openIds = below.map Entry.id ++ node.id :: (between ++ block :: above) := by
    rw [openIds, hopen, List.map_append, List.map_cons, hentries]
  refine ⟨?_, ?_, ?_, below.map Entry.id, between, above, ?_, by simpa using hlength, hfe, ?_⟩
  · exact h.ordered.shrink (by simp [List.eraseIdx_sublist]) (by simpa using hactive) (by simp)
      (by simp)
  · simpa [hformatting] using h.formatting
  · exact fun hmem => h.blockUnlisted ((listed_sublist (by simpa using hactive)).subset hmem)
  · rw [openIds_reindex, openIds, hopen, ← hlength, eraseIdx_split, List.map_append, hentries]
  · simpa [Agency.Bookmarked] using hbookmark _ between above hids hold

/-- A node in the list is made anew in both lists. -/
theorem Agency.Inside.renew (h : s.Inside fe block feIndex (nodeStack + 1)) {node : Entry}
    (hnode : s.builder.openElements[nodeStack]? = some node) (hne : node.id ≠ fe) {i : ℕ}
    (hi : s.builder.formattingIndexOf node.id = some i) :
    (s.renew block nodeStack i).Inside fe block feIndex nodeStack := by
  have hlt := h.feIndex_lt hnode hne hi
  obtain ⟨below, entries, between, above, hopen, hlength, hfe, hentries, hold⟩ :=
    h.at_node hnode hne
  obtain ⟨held, hheld, hmarker, hid⟩ := formattingIndexOf_eq_some hi
  obtain ⟨front, back, hactive, hfront⟩ := exists_split hheld
  have hordered := h.ordered
  have hids : s.builder.openIds = below.map Entry.id ++ node.id :: (between ++ block :: above) := by
    rw [openIds, hopen, List.map_append, List.map_cons, hentries]
  have hlisted : listed s.builder.active = listed front ++ node.id :: listed back := by
    rw [hactive, listed_append, listed_cons hmarker, hid]
  have hnew : s.builder.nextNode ∉ listed s.builder.active :=
    fun hmem => (hordered.listedNew _ hmem).ne rfl
  have hnewOpen : s.builder.nextNode ∉ s.builder.openIds :=
    fun hmem => (hordered.openNew _ hmem).ne rfl
  rw [hlisted] at hnew
  rw [hids] at hnewOpen
  have hblock : block ≠ s.builder.nextNode := fun heq => hnewOpen (by simp [← heq])
  simp only [Agency.renew, hheld]
  set b' : Builder :=
    { s.builder.createElement with
      active := s.builder.active.set i { held with id := s.builder.nextNode }
      openElements := s.builder.openElements.set nodeStack
        ⟨s.builder.nextNode, held.tag, .html, false⟩ } with hb'
  have hactive' : b'.active = front ++ { held with id := s.builder.nextNode } :: back := by
    rw [hb', hactive, ← hfront, set_split]
  have hopen' : b'.openElements =
      below ++ ⟨s.builder.nextNode, held.tag, .html, false⟩ :: entries := by
    rw [hb', hopen, ← hlength, set_split]
  have hids' : b'.openIds =
      below.map Entry.id ++ s.builder.nextNode :: (between ++ block :: above) := by
    rw [openIds, hopen', List.map_append, List.map_cons, hentries]
  have hlisted' : listed b'.active = listed front ++ s.builder.nextNode :: listed back := by
    rw [hactive', listed_append, listed_cons (by exact hmarker)]
  have hplain := hordered.plain held (List.mem_of_getElem? hheld) hmarker
  have hshared := hordered.shared
  rw [hlisted, hids] at hshared
  simp only [List.mem_append, List.mem_cons, not_or] at hnew
  have hnewOpen' : s.builder.nextNode ∉ below.map Entry.id ++ (between ++ block :: above) := by
    intro hmem
    rcases List.mem_append.mp hmem with hmem | hmem
    · exact hnewOpen (List.mem_append_left _ hmem)
    · exact hnewOpen (List.mem_append_right _ (List.mem_cons_of_mem _ hmem))
  refine ⟨?_, ?_, ?_, below.map Entry.id, s.builder.nextNode :: between, above, hids',
    by simpa using hlength, hfe, ?_⟩
  · refine hordered.of_new ?_ ?_ rfl rfl ?_ ?_
    · rw [hlisted', hids']
      exact hshared.rename (by simpa using ⟨hnew.1, hnew.2.2⟩) hnewOpen'
    · have hnodup := hordered.openNodup
      rw [hids, List.nodup_middle] at hnodup
      rw [hids', List.nodup_middle]
      exact List.nodup_cons.mpr ⟨hnewOpen', (List.nodup_cons.mp hnodup).2⟩
    · rw [hactive']
      intro f hf hfm
      rcases List.mem_append.mp hf with hf | hf
      · have hmem : f ∈ s.builder.active := hactive ▸ List.mem_append_left _ hf
        exact ⟨.inl (mem_listed.mpr ⟨f, hmem, hfm, rfl⟩), hordered.plain f hmem hfm⟩
      rcases List.mem_cons.mp hf with rfl | hf
      · exact ⟨.inr rfl, hplain⟩
      · have hmem : f ∈ s.builder.active := hactive ▸ List.mem_append_right _ (.tail _ hf)
        exact ⟨.inl (mem_listed.mpr ⟨f, hmem, hfm, rfl⟩), hordered.plain f hmem hfm⟩
    · rw [hopen', hopen]
      intro e he
      rcases List.mem_append.mp he with he | he
      · exact .inl (List.mem_append_left _ he)
      rcases List.mem_cons.mp he with rfl | he
      · exact .inr ⟨rfl, hplain⟩
      · exact .inl (List.mem_append_right _ (List.mem_cons_of_mem _ he))
  · obtain ⟨f, hf, hfm, hfid⟩ := h.formatting
    exact ⟨f, by rw [hb', List.getElem?_set_ne hlt.ne', hf], hfm, hfid⟩
  · have hunlisted := h.blockUnlisted
    rw [hlisted] at hunlisted
    show block ∉ listed b'.active
    rw [hlisted']
    simp only [List.mem_append, List.mem_cons, not_or] at hunlisted ⊢
    exact ⟨hunlisted.1, hblock, hunlisted.2.2⟩
  · -- the bookmark moves behind the new entry, unless a node above it had one
    refine .inr ⟨hblock.symm, ?_⟩
    rcases hold with ⟨hnone, hlast, -⟩ | ⟨hlast, hbookmark, g, hg, hgm, hbetween⟩
    · simp only [hlast, if_true, Nat.add_sub_cancel]
      refine ⟨by omega, { held with id := s.builder.nextNode }, ?_, hmarker, by simp [hnone]⟩
      show b'.active[i]? = _
      rw [hactive', ← hfront, getElem?_split]
    · simp only [hlast, if_false]
      have hgmem : g.id ∈ between := List.mem_of_getLast? hbetween
      have hbelow : i < s.bookmark - 1 :=
        hordered.index_lt hheld hmarker hg hgm (hid.symm ▸ hids) (List.mem_append_left _ hgmem)
      refine ⟨hbookmark, g, ?_, hgm, ?_⟩
      · show b'.active[s.bookmark - 1]? = _
        rw [hb', List.getElem?_set_ne hbelow.ne, hg]
      · rw [List.getLast?_cons, hbetween, Option.getD_some]

/-- One node of the inner loop keeps its invariant. -/
theorem Agency.Inside.visit (h : s.Inside fe block feIndex (nodeStack + 1)) {node : Entry}
    (hnode : s.builder.openElements[nodeStack]? = some node) (hne : node.id ≠ fe) :
    (s.visit block round nodeStack node.id).Inside fe block feIndex nodeStack := by
  unfold Agency.visit
  dsimp only
  split
  next i hi =>
    by_cases hround : 3 < round
    · rw [if_pos hround]
      have hlt := h.feIndex_lt hnode hne hi
      obtain ⟨held, hheld, hmarker, hid⟩ := formattingIndexOf_eq_some hi
      refine h.leave hnode hne (List.eraseIdx_sublist _ _)
        (List.getElem?_eraseIdx_of_lt hlt) fun front between above hids hold => ?_
      rcases hold with ⟨hnone, hlast, hbookmark⟩ | ⟨hlast, hbookmark, g, hg, hgm, hbetween⟩
      · exact .inl ⟨hnone, hlast, by rw [if_neg (by omega), hbookmark]⟩
      · -- the entry the bookmark is next to comes after the one taken out
        have hgmem : g.id ∈ between := List.mem_of_getLast? hbetween
        have hbelow : i < s.bookmark - 1 :=
          h.ordered.index_lt hheld hmarker hg hgm (hid.symm ▸ hids) (List.mem_append_left _ hgmem)
        refine .inr ⟨hlast, ?_, g, ?_, hgm, hbetween⟩
        · show feIndex < if i < s.bookmark then s.bookmark - 1 else s.bookmark
          rw [if_pos (by omega)]
          omega
        · show (s.builder.active.eraseIdx i)[(if i < s.bookmark then s.bookmark - 1
            else s.bookmark) - 1]? = _
          rw [if_pos (by omega), List.getElem?_eraseIdx_of_ge (by omega),
            Nat.sub_add_cancel (by omega), hg]
    · rw [if_neg hround]
      exact h.renew hnode hne hi
  · exact h.leave hnode hne (.refl _) rfl fun _ _ _ _ hold => hold

theorem Agency.Inside.loop (h : s.Inside fe block feIndex nodeStack) :
    ∃ k e, (agencyInner fe block round nodeStack s).Inside fe block feIndex (k + 1) ∧
      (agencyInner fe block round nodeStack s).builder.openElements[k]? = some e ∧ e.id = fe := by
  induction nodeStack generalizing s round with
  | zero =>
    obtain ⟨below, _, _, _, hlength, hfe, -⟩ := h.stack
    rw [List.length_eq_zero_iff.mp hlength] at hfe
    cases hfe
  | succ k ih =>
    rw [agencyInner]
    split
    next hnone =>
      obtain ⟨below, between, above, hids, hlength, -, -⟩ := h.stack
      have hcount := congrArg List.length hids
      simp only [openIds, List.length_map, List.length_append] at hcount
      rw [List.getElem?_eq_none_iff] at hnone
      omega
    next e he =>
      split_ifs with hfe
      · exact ⟨k, e, h, he, hfe⟩
      · exact ih (h.visit he hfe)

/-! ## The end of an iteration -/

/-- Where the bookmark cuts the list once the formatting element is out of it. -/
theorem Agency.Inside.cut (h : s.Inside fe block feIndex (nodeStack + 1)) {e : Entry}
    (he : s.builder.openElements[nodeStack]? = some e) (hfe : e.id = fe) :
    ∃ below entries between above first last,
      s.builder.openElements = below ++ e :: entries ∧
      entries.map Entry.id = between ++ block :: above ∧
      s.builder.active.eraseIdx feIndex = first ++ last ∧
      (if feIndex < s.bookmark then s.bookmark - 1 else s.bookmark) = first.length ∧
      (listed first).Disjoint above ∧ (listed last).Disjoint (below.map Entry.id ++ between) := by
  obtain ⟨below, entries, between, above, hopen, -, -, hentries, hbookmark⟩ := h.at_entry he
  obtain ⟨f, hf, hmarker, hfid⟩ := h.formatting
  obtain ⟨before, after, hactive, hbefore⟩ := exists_split hf
  have hids' : s.builder.openIds = below.map Entry.id ++ fe :: (between ++ block :: above) := by
    rw [openIds, hopen, List.map_append, List.map_cons, hentries, hfe]
  have hlisted : listed s.builder.active = listed before ++ fe :: listed after := by
    rw [hactive, listed_append, listed_cons hmarker, hfid]
  have hshared := h.ordered.shared
  have hnodup := h.ordered.openNodup
  have herased : s.builder.active.eraseIdx feIndex = before ++ after := by
    rw [hactive, ← hbefore, eraseIdx_split]
  rw [hlisted, hids'] at hshared
  rw [hids'] at hnodup
  rcases hbookmark with ⟨rfl, -, hbookmark⟩ | ⟨-, hlt, g, hg, hgm, hbetween⟩
  · -- nothing between the two elements: the cut is where the formatting element was
    refine ⟨below, entries, [], above, before, after, hopen, hentries, herased, ?_, ?_, ?_⟩
    · rw [if_neg (by omega), hbookmark, hbefore]
    · exact fun id hid hid' => hshared.split_left hid (by simp [hid'])
    · exact fun id hid hid' => hshared.split_right hid (by simpa using Or.inl hid')
  · obtain ⟨middle, rfl⟩ := List.getLast?_eq_some_iff.mp hbetween
    -- the bookmark is behind the entry of the element just below the furthest block
    have hback : feIndex < s.bookmark - 1 :=
      h.ordered.index_lt hf hmarker hg hgm (hfid.symm ▸ hids') (by simp)
    obtain ⟨k, hk⟩ : ∃ k, s.bookmark - 1 = before.length + 1 + k :=
      ⟨s.bookmark - 1 - (before.length + 1), by omega⟩
    have hafter : after[k]? = some g := by
      rw [hactive, List.append_cons, hk, List.getElem?_append_right (by simp)] at hg
      simpa using hg
    obtain ⟨kept, rest, rfl, rfl⟩ := exists_split hafter
    have hlisted' : listed before ++ fe :: listed (kept ++ g :: rest) =
        (listed before ++ fe :: listed kept) ++ g.id :: listed rest := by
      rw [listed_append, listed_cons hgm]
      simp
    have hids'' : below.map Entry.id ++ fe :: (middle ++ [g.id] ++ block :: above) =
        (below.map Entry.id ++ fe :: middle) ++ g.id :: (block :: above) := by simp
    rw [hlisted', hids''] at hshared
    rw [hids''] at hnodup
    have hgabove : g.id ∉ block :: above := (List.nodup_cons.mp (List.nodup_append.mp hnodup).2.1).1
    refine ⟨below, entries, middle ++ [g.id], above, before ++ kept ++ [g], rest, hopen, hentries,
      by rw [herased]; simp, ?_, ?_, ?_⟩
    · rw [if_pos hlt, hk]
      simp
      omega
    · intro id hid hid'
      rw [listed_append, listed_append, listed_cons hgm] at hid
      rcases List.mem_append.mp hid with hid | hid
      · refine hshared.split_left (x := g.id) ?_ (List.mem_cons_of_mem _ (.tail _ hid'))
        rcases List.mem_append.mp hid with hid | hid
        · exact List.mem_append_left _ hid
        · exact List.mem_append_right _ (.tail _ hid)
      · obtain rfl : id = g.id := by simpa [listed] using hid
        exact hgabove (.tail _ hid')
    · intro id hid hid'
      refine hshared.split_right hid ?_
      simp only [List.mem_append, List.mem_cons] at hid' ⊢
      tauto

/-- The formatting element leaves both lists, and the new element goes in where the bookmark and
the furthest block say. -/
theorem Agency.Inside.finish (h : s.Inside fe block feIndex (nodeStack + 1)) {e : Entry}
    (he : s.builder.openElements[nodeStack]? = some e) (hfe : e.id = fe) :
    (s.finish feIndex fe block).Ordered := by
  obtain ⟨below, entries, between, above, first, last, hopen, hentries, herased, hcut, hfirst,
    hlast⟩ := h.cut he hfe
  obtain ⟨f, hf, hmarker, hfid⟩ := h.formatting
  obtain ⟨lower, upper, rfl, rfl, hupper⟩ := List.map_eq_append_iff.mp hentries
  obtain ⟨blockEntry, higher, rfl, rfl, rfl⟩ := List.map_eq_cons_iff.mp hupper
  have hordered := h.ordered
  have hunlisted := h.blockUnlisted
  unfold Agency.finish
  simp only [hf, herased, hcut]
  generalize s.builder = b at *
  have hids : b.openIds = below.map Entry.id ++ fe :: (lower.map Entry.id ++
      blockEntry.id :: higher.map Entry.id) := by
    rw [openIds, hopen, List.map_append, List.map_cons, hentries, hfe]
  have hnodup := hordered.openNodup
  rw [hids, List.nodup_middle] at hnodup
  obtain ⟨hfenot, hnodup⟩ := List.nodup_cons.mp hnodup
  have hkept : (b.openElements.filter fun x => x.id != fe) =
      (below ++ lower) ++ blockEntry :: higher := by
    have hother : ∀ x ∈ below ++ (lower ++ blockEntry :: higher), (x.id != fe) = true := by
      intro x hx
      have hmem := List.mem_map_of_mem (f := Entry.id) hx
      rw [List.map_append, hentries] at hmem
      rw [bne_iff_ne]
      exact fun heq => hfenot (heq ▸ hmem)
    rw [List.forall_mem_append] at hother
    rw [hopen, List.filter_append, List.filter_cons_of_neg (by simp [hfe]),
      List.filter_eq_self.mpr hother.1, List.filter_eq_self.mpr hother.2, List.append_assoc]
  -- the state without the formatting element on the stack
  rw [min_eq_left (by simp), insertIdx_split]
  generalize hremoved : removeFromStack { b.createElement with
    active := first ++ { f with id := b.nextNode } :: last } fe = removed
  have hremovedOpen : removed.openElements = (below ++ lower) ++ blockEntry :: higher := by
    rw [← hremoved, openElements_removeFromStack]
    exact hkept
  have hremovedElse := removeFromStack_elsewhere { b.createElement with
    active := first ++ { f with id := b.nextNode } :: last } fe
  rw [hremoved] at hremovedElse
  have hindex : removed.stackIndexOf blockEntry.id = some (below ++ lower).length := by
    rw [stackIndexOf, hremovedOpen]
    refine lastIndex?_split (by simp) fun x hx => ?_
    have hmem : x.id ∈ higher.map Entry.id := List.mem_map_of_mem hx
    have hblock := (List.nodup_append.mp (List.nodup_append.mp hnodup).2.1).2.1
    rw [beq_eq_false_iff_ne]
    exact fun heq => (List.nodup_cons.mp hblock).1 (heq ▸ hmem)
  obtain ⟨hactive', hnext', hroot'⟩ := hremovedElse
  have hopen' : removed.openElements.insertIdx ((removed.stackIndexOf blockEntry.id).getD
      removed.openElements.length + 1) ⟨b.nextNode, f.tag, .html, false⟩ =
      below ++ lower ++ blockEntry :: ⟨b.nextNode, f.tag, .html, false⟩ :: higher := by
    have hposition : (below ++ lower).length + 1 = (below ++ lower ++ [blockEntry]).length := by
      simp [Nat.add_assoc]
    rw [hindex, Option.getD_some, hremovedOpen, hposition, List.append_cons, insertIdx_split]
    simp
  rw [hopen']
  have hsublist : (listed first ++ listed last).Sublist (listed b.active) := by
    rw [← listed_append, ← herased]
    exact listed_sublist (List.eraseIdx_sublist _ _)
  have hids' : (below.map Entry.id ++ lower.map Entry.id ++
      blockEntry.id :: higher.map Entry.id).Sublist b.openIds := by
    rw [hids, List.append_assoc]
    exact (List.Sublist.refl _).append (List.sublist_cons_self _ _)
  have hnew : b.nextNode ∉ listed first ++ listed last :=
    fun hmem => (hordered.listedNew _ (hsublist.subset hmem)).ne rfl
  have hnewOpen : b.nextNode ∉ below.map Entry.id ++ lower.map Entry.id ++
      blockEntry.id :: higher.map Entry.id :=
    fun hmem => (hordered.openNew _ (hids'.subset hmem)).ne rfl
  have hplain := hordered.plain f (List.mem_of_getElem? hf) hmarker
  have hlisted : listed removed.active = listed first ++ b.nextNode :: listed last := by
    rw [hactive', listed_append, listed_cons (by exact hmarker)]
  have hopenIds : openIds { removed with openElements :=
      below ++ lower ++ blockEntry :: ⟨b.nextNode, f.tag, .html, false⟩ :: higher } =
      below.map Entry.id ++ lower.map Entry.id ++
        blockEntry.id :: b.nextNode :: higher.map Entry.id := by simp [openIds]
  refine hordered.of_new ?_ ?_ ?_ ?_ ?_ ?_
  · rw [openIds_reindex, active_reindex, hopenIds, hlisted]
    exact (hordered.shared.sublist hsublist hids').insert_after hfirst hlast
      (fun hmem => hunlisted (hsublist.subset hmem)) hnew hnewOpen
  · rw [openIds_reindex, hopenIds, List.append_cons, List.nodup_middle]
    refine List.nodup_cons.mpr ⟨by simpa using hnewOpen, ?_⟩
    simpa using hnodup
  · rw [nextNode_reindex]
    exact hnext'
  · rw [root_reindex]
    exact hroot'
  · rw [active_reindex]
    show ∀ g ∈ removed.active, _
    rw [hactive']
    intro g hg hgm
    have hold (hmem : g ∈ first ++ last) :
        (g.id ∈ listed b.active ∨ g.id = b.nextNode) ∧ isSpecialElement g.tag = false := by
      have hmem' : g ∈ b.active := (List.eraseIdx_sublist _ _).subset (herased ▸ hmem)
      exact ⟨.inl (mem_listed.mpr ⟨g, hmem', hgm, rfl⟩), hordered.plain g hmem' hgm⟩
    rcases List.mem_append.mp hg with hg | hg
    · exact hold (List.mem_append_left _ hg)
    rcases List.mem_cons.mp hg with rfl | hg
    · exact ⟨.inr rfl, hplain⟩
    · exact hold (List.mem_append_right _ hg)
  · rw [openElements_reindex]
    intro x hx
    have hold (hmem : x ∈ below ++ lower ++ blockEntry :: higher) : x ∈ b.openElements :=
      List.mem_of_mem_filter (hkept ▸ hmem)
    rw [List.append_cons, List.mem_append, List.mem_cons] at hx
    rcases hx with hx | rfl | hx
    · exact .inl (hold (by rw [List.append_cons]; exact List.mem_append_left _ hx))
    · exact .inr ⟨rfl, hplain⟩
    · exact .inl (hold (List.mem_append_right _ (.tail _ hx)))

/-! ## Every iteration, every edit -/

theorem formattingElement_eq_some {subject : Text} (h : b.formattingElement subject = some feIndex) :
    ∃ f, b.active[feIndex]? = some f ∧ f.marker = false := by
  unfold Builder.formattingElement at h
  split at h
  · cases h
  next i _ =>
    split at h
    · cases h
    next f hf =>
      split_ifs at h with hmarker
      obtain rfl := Option.some.inj h
      exact ⟨f, hf, by simpa using hmarker⟩

theorem Ordered.inside (h : b.Ordered) {f : Formatting} (hf : b.active[feIndex]? = some f)
    (hmarker : f.marker = false) {feStack fbStack : ℕ} (hfe : b.stackIndexOf f.id = some feStack)
    (hfb : b.furthestBlock feStack = some fbStack) {blockEntry : Entry}
    (hblock : b.openElements[fbStack]? = some blockEntry) :
    Agency.Inside ⟨b, feIndex, blockEntry.id⟩ f.id blockEntry.id feIndex fbStack := by
  obtain ⟨j, hj, rfl⟩ := Option.map_eq_some_iff.mp hfb
  obtain ⟨below, above, hopen, hlength⟩ := exists_split hblock
  obtain ⟨front, x, back, hstack, hfront, hx, -⟩ := lastIndex?_eq_some hfe
  have hspecial : blockEntry.isSpecial := by
    obtain ⟨hlt, hspecial, -⟩ := List.findIdx?_eq_some_iff_getElem.mp hj
    rw [List.getElem_drop] at hspecial
    rw [List.getElem?_eq_some_iff] at hblock
    rwa [hblock.2] at hspecial
  refine ⟨h, ⟨f, hf, hmarker, rfl⟩, ?_, below.map Entry.id, [], above.map Entry.id, ?_, ?_, ?_,
    .inl ⟨rfl, rfl, rfl⟩⟩
  · intro hmem
    have hplain := h.plainOpen blockEntry (hopen ▸ by simp) hmem
    simp [hspecial] at hplain
  · simp [openIds, hopen]
  · simpa using hlength
  · -- the formatting element is below the furthest block
    have hxbelow : x ∈ below := by
      have hget : b.openElements[feStack]? = some x := by
        rw [hstack, ← hfront, getElem?_split]
      rw [hopen, List.getElem?_append_left (by omega)] at hget
      exact List.mem_of_getElem? hget
    exact List.mem_map.mpr ⟨x, hxbelow, by simpa using hx⟩

theorem Ordered.agencyOuter (h : b.Ordered) (subject : Text) : (b.agencyOuter subject).2.Ordered := by
  unfold Builder.agencyOuter
  split
  · exact h
  next feIndex hfe =>
  split
  · exact h
  next f hf =>
  split
  · exact h.shrink (.refl _) (List.eraseIdx_sublist _ _) le_rfl rfl
  next feStack hfeStack =>
  split
  · exact h
  split
  · exact (h.popTo feStack).shrink (.refl _) (List.eraseIdx_sublist _ _) le_rfl rfl
  next fbStack hfb =>
  split
  · exact h
  next block hblock =>
    obtain ⟨f', hf', hmarker⟩ := formattingElement_eq_some hfe
    obtain rfl := Option.some.inj (hf.symm.trans hf')
    have hbegins := h.inside hf hmarker hfeStack hfb hblock
    obtain ⟨k, e, hinside, he, heid⟩ := hbegins.loop
    exact hinside.finish he heid

theorem Ordered.pushMarker (h : b.Ordered) : b.pushMarker.Ordered := by
  have hlisted : listed b.pushMarker.active = listed b.active := by
    rw [Builder.pushMarker, listed_append]
    simp [listed]
  refine ⟨hlisted ▸ h.shared, h.openNodup, h.openNew, hlisted ▸ h.listedNew, hlisted ▸ h.root, ?_,
    hlisted ▸ h.plainOpen⟩
  exact List.forall_mem_append.mpr
    ⟨h.plain, List.forall_mem_singleton.mpr fun hmarker => absurd hmarker (by simp)⟩

theorem Ordered.removeHead {c b' : Builder} (h : c.Ordered) {id : NodeId} {rest : List Entry}
    (hopen : b'.openElements = b.openElements ++ ⟨id, ascii "head", .html, false⟩ :: rest)
    (hc : c.openElements = b.openElements ++ rest) (hactive : b'.active = c.active)
    (hnext : c.nextNode ≤ b'.nextNode) (hroot : b'.root = c.root) :
    (b'.removeFromStack id).Ordered := by
  obtain ⟨hactive', hnext', hroot'⟩ := removeFromStack_elsewhere b' id
  refine h.shrink ?_ (hactive' ▸ hactive ▸ .refl _) (hnext' ▸ hnext) (hroot'.trans hroot)
  rw [openElements_removeFromStack, hopen, hc, List.filter_append,
    List.filter_cons_of_neg (by simp)]
  exact List.filter_sublist.append List.filter_sublist

theorem pop_push (b : Builder) (e : Entry) :
    (b.push e).pop.openElements = b.openElements ∧ (b.push e).pop.active = b.active ∧
      (b.push e).pop.nextNode = b.nextNode ∧ (b.push e).pop.root = b.root ∧
      (b.push e).pop.head = b.head := by
  simp [Builder.pop, Builder.push]

theorem Ordered.underHead (h : b.Ordered) {t : Token} {b' : Builder}
    (hcontent : HeadContent t b.reopenHead b') :
    (b'.removeFromStack (b'.head.getD 0)).Ordered := by
  cases hcontent with
  | none => exact h.removeHead rfl (List.append_nil _).symm rfl le_rfl rfl
  | void =>
    obtain ⟨hopen, hactive, hnext, hroot, hhead⟩ := pop_push b.reopenHead.createElement
      (makeEntry b.nextNode t.name .html t.attributes)
    have hid : (insertVoid t b.reopenHead).head.getD 0 = b.head.getD 0 :=
      congrArg (fun head => head.getD 0) hhead
    rw [hid]
    exact h.removeHead hopen (List.append_nil _).symm hactive
      ((Nat.le_succ _).trans hnext.ge) hroot
  | text model =>
    exact (h.insertElement t.name t.attributes .html).removeHead (List.append_assoc _ _ _) rfl rfl
      le_rfl rfl
  | template =>
    exact (h.pushMarker.insertElement t.name t.attributes .html).removeHead
      (List.append_assoc _ _ _) rfl rfl le_rfl rfl

theorem Ordered.edit {b' : Builder} (h : b.Ordered) (hedit : Edit b b') : b'.Ordered := by
  cases hedit with
  | update f => exact h.congr rfl rfl rfl rfl
  | pop => exact h.pop
  | insert tag attributes ns => exact h.insertElement _ _ _
  | head attributes => exact (h.insertElement _ _ _).congr rfl rfl rfl rfl
  | underHead hcontent => exact h.underHead hcontent
  | root => exact h.createRoot
  | remove id => exact h.removeFromStack id
  | formatting t ht => exact h.insertFormatting t ht
  | marker => exact h.pushMarker
  | clear => exact h.shrink (.refl _) (List.take_sublist _ _) le_rfl rfl
  | unlist id =>
    unfold Builder.removeFormatting
    split
    · exact h.shrink (.refl _) (List.eraseIdx_sublist _ _) le_rfl rfl
    · exact h
  | reconstruct => exact h.reconstructFormatting
  | agency subject => exact h.agencyOuter subject

theorem Ordered.moves {b' : Builder} (h : b.Ordered) (hmoves : Moves b b') : b'.Ordered := by
  induction hmoves with
  | refl => exact h
  | tail _ hmove ih =>
    cases hmove with
    | edit hedit => exact ih.edit hedit
    | insert tag attributes ns => exact ih.insertElement _ _ _
    | capture c => exact ih.congr rfl rfl rfl rfl

theorem ordered_of_empty (hopen : b.openElements = []) (hactive : b.active = [])
    (hroot : ∀ id, b.root = some id → id < b.nextNode) : b.Ordered := by
  refine ⟨?_, ?_, ?_, ?_, fun id hid => ⟨hroot id hid, ?_⟩, ?_, ?_⟩ <;>
    simp [openIds, listed, hopen, hactive, SharedOrder]

theorem ordered_start (s : Setting) : (start s).Ordered := by
  unfold start
  dsimp only
  split_ifs
  · refine ordered_of_empty rfl rfl fun id hid => ?_
    exact Option.some.inj hid ▸ Nat.lt_succ_self _
  · exact ordered_of_empty rfl rfl (by simp)
  all_goals
    refine (Ordered.createRoot (ordered_of_empty ?_ ?_ ?_)).congr rfl rfl rfl rfl
    · rfl
    · rfl
    · simp

/-! ## The states of a parse -/

/-- The states of the inner loop of an iteration that begins at a state of the builder: how often
the loop has gone round, how many entries are still below its node, and its variables. -/
inductive InnerRun (fe block : NodeId) (first : Agency) (fbStack : ℕ) : ℕ → ℕ → Agency → Prop
  | start : InnerRun fe block first fbStack 1 fbStack first
  | visit {round nodeStack : ℕ} {s : Agency} {node : Entry}
      (h : InnerRun fe block first fbStack round (nodeStack + 1) s)
      (hnode : s.builder.openElements[nodeStack]? = some node) (hne : node.id ≠ fe) :
      InnerRun fe block first fbStack (round + 1) nodeStack (s.visit block round nodeStack node.id)

/-- The variables that an iteration begins its inner loop with. -/
structure BeginsAt (b : Builder) (subject : Text) (fe block : NodeId) (feIndex fbStack : ℕ) :
    Prop where
  index : b.formattingElement subject = some feIndex
  formatting : ∃ f, b.active[feIndex]? = some f ∧ f.id = fe
  block : ∃ feStack e, b.stackIndexOf fe = some feStack ∧ b.furthestBlock feStack = some fbStack ∧
    b.openElements[fbStack]? = some e ∧ e.id = block

/-- What the indices of the inner loop name: the formatting element's entry, the entry the
bookmark is behind, and only entries that come after the formatting element are taken out. -/
structure Agency.Names (s : Agency) (fe block : NodeId) (feIndex nodeStack : ℕ) : Prop where
  formatting : ∃ f, s.builder.active[feIndex]? = some f ∧ f.marker = false ∧ f.id = fe
  bookmark : ∃ below between above, s.builder.openIds = below ++ (between ++ block :: above) ∧
    below.length = nodeStack ∧ s.Bookmarked block feIndex between
  erased : ∀ k node i, nodeStack = k + 1 → s.builder.openElements[k]? = some node →
    node.id ≠ fe → s.builder.formattingIndexOf node.id = some i → feIndex < i

theorem Agency.Inside.names (h : s.Inside fe block feIndex nodeStack) :
    s.Names fe block feIndex nodeStack where
  formatting := h.formatting
  bookmark := by
    obtain ⟨below, between, above, hids, hlength, -, hbookmark⟩ := h.stack
    exact ⟨below, between, above, hids, hlength, hbookmark⟩
  erased k node i hk hnode hne hi := by
    subst hk
    exact h.feIndex_lt hnode hne hi

theorem Ordered.innerRun (h : b.Ordered) {subject : Text} {fbStack : ℕ}
    (hbegins : b.BeginsAt subject fe block feIndex fbStack)
    (hrun : InnerRun fe block ⟨b, feIndex, block⟩ fbStack round nodeStack s) :
    s.Inside fe block feIndex nodeStack := by
  induction hrun with
  | start =>
    obtain ⟨f, hf, rfl⟩ := hbegins.formatting
    obtain ⟨feStack, e, hfe, hfb, he, rfl⟩ := hbegins.block
    obtain ⟨f', hf', hmarker⟩ := formattingElement_eq_some hbegins.index
    obtain rfl := Option.some.inj (hf.symm.trans hf')
    exact h.inside hf hmarker hfe hfb he
  | visit _ hnode hne ih => exact ih.visit hnode hne

/-- In every state of a parse, and between any two operations of a token, the formatting elements
on the stack are in the order of the list, and in an iteration of the adoption agency that begins
there the indices into the list name what they were taken from. -/
theorem formatting_order (setting : Setting) (fuel : ℕ) (tokens : List Token) (b : Builder)
    (h : Moves (run fuel tokens (start setting)) b) :
    SharedOrder (listed b.active) b.openIds ∧
      ∀ subject fe block feIndex fbStack, b.BeginsAt subject fe block feIndex fbStack →
        ∀ round nodeStack s,
          InnerRun fe block ⟨b, feIndex, block⟩ fbStack round nodeStack s →
            s.Names fe block feIndex nodeStack ∧
              SharedOrder (listed s.builder.active) s.builder.openIds := by
  have hordered := ((ordered_start setting).moves (run_moves fuel tokens _)).moves h
  refine ⟨hordered.shared, fun subject fe block feIndex fbStack hbegins round nodeStack s hrun => ?_⟩
  have hinside := hordered.innerRun hbegins hrun
  exact ⟨hinside.names, hinside.ordered.shared⟩

/-- The tags of `<a><b><i><div>`. -/
def misnested : List Token := ["a", "b", "i", "div"].map Token.opening

/-- An iteration for `a` begins after them, with two nodes between it and the furthest block. -/
theorem formatting_order_misnested :
    (run 9 misnested (start {})).BeginsAt (ascii "a") 5 8 0 5 ∧
      Agency.Names ⟨run 9 misnested (start {}), 0, 8⟩ 5 8 0 5 := by
  have hbegins : (run 9 misnested (start {})).BeginsAt (ascii "a") 5 8 0 5 :=
    ⟨by decide, ⟨⟨5, ascii "a", [], false⟩, by decide, rfl⟩,
      2, ⟨8, ascii "div", .html, false⟩, by decide, by decide, by decide,
      rfl⟩
  exact ⟨hbegins,
    ((formatting_order {} 9 misnested _ (.refl _)).2 _ _ _ _ _ hbegins _ _ _ .start).1⟩

end CtBrowser.Dom.Builder
