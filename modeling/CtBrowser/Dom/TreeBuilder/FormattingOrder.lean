import CtBrowser.Dom.TreeBuilder.Edits
import CtBrowser.Foundations.SharedOrder

/-!
# The Order of the Formatting List and of the Stack

The list of active formatting elements and the stack of open elements have their common elements
in one order. The invariant also says what keeps it: handles are new when they are given out, no
handle is on the stack twice, and no formatting element is special.

## Main definitions

- `listed`, `openIds` — the elements of the list and of the stack.
- `Ordered` — the invariant.

## Main results

- `Ordered.shrink` — what leaves the list or the stack keeps it.
- `Ordered.reconstructFormatting` — so does opening the formatting elements again.
-/

namespace CtBrowser.Dom.Builder

open Foundations

/-- The elements of a list of active formatting elements, the markers left out. -/
def listed (active : List Formatting) : List NodeId :=
  (active.filter fun f => !f.marker).map Formatting.id

/-- The elements on the stack, the bottom first. -/
def openIds (b : Builder) : List NodeId := b.openElements.map Entry.id

/-- The formatting elements on the stack are in the order of the list. -/
structure Ordered (b : Builder) : Prop where
  shared : SharedOrder (listed b.active) b.openIds
  openNodup : b.openIds.Nodup
  openNew : ∀ id ∈ b.openIds, id < b.nextNode
  listedNew : ∀ id ∈ listed b.active, id < b.nextNode
  root : ∀ id, b.root = some id → id < b.nextNode ∧ id ∉ listed b.active
  plain : ∀ f ∈ b.active, f.marker = false → isSpecialElement f.tag = false
  plainOpen : ∀ e ∈ b.openElements, e.id ∈ listed b.active → e.isSpecial = false

/-! ## Lists taken apart at a position -/

section Lists

variable {α : Type} {l front back : List α} {x y : α} {i : ℕ}

theorem exists_split (h : l[i]? = some x) :
    ∃ front back, l = front ++ x :: back ∧ front.length = i := by
  obtain ⟨hi, rfl⟩ := List.getElem?_eq_some_iff.mp h
  refine ⟨l.take i, l.drop (i + 1), ?_, List.length_take_of_le hi.le⟩
  rw [← List.drop_eq_getElem_cons hi, List.take_append_drop]

theorem getElem?_split (front back : List α) (x : α) :
    (front ++ x :: back)[front.length]? = some x := by simp

theorem eraseIdx_split (front back : List α) (x : α) :
    (front ++ x :: back).eraseIdx front.length = front ++ back := by
  rw [List.eraseIdx_append_of_length_le le_rfl, Nat.sub_self, List.eraseIdx_zero, List.tail_cons]

theorem set_split (front back : List α) (x y : α) :
    (front ++ x :: back).set front.length y = front ++ y :: back := by
  rw [List.set_append_right _ _ le_rfl, Nat.sub_self, List.set_cons_zero]

theorem insertIdx_split (front back : List α) (x : α) :
    (front ++ back).insertIdx front.length x = front ++ x :: back := by
  induction front with
  | nil => rfl
  | cons y front ih =>
    rw [List.cons_append, List.length_cons, List.insertIdx_succ_cons, ih, List.cons_append]

theorem lastIndex?_eq_none {p : α → Bool} (h : lastIndex? p l = none) : ∀ x ∈ l, p x = false := by
  induction l with
  | nil => simp
  | cons a l ih =>
    rw [lastIndex?] at h
    split at h
    · cases h
    next hl =>
      rw [List.forall_mem_cons]
      exact ⟨by simpa using h, ih hl⟩

theorem lastIndex?_eq_some {p : α → Bool} (h : lastIndex? p l = some i) :
    ∃ front x back, l = front ++ x :: back ∧ front.length = i ∧ p x ∧ ∀ y ∈ back, p y = false := by
  induction l generalizing i with
  | nil => simp [lastIndex?] at h
  | cons a l ih =>
    rw [lastIndex?] at h
    split at h
    next j hj =>
      obtain ⟨front, x, back, rfl, rfl, hx, hback⟩ := ih hj
      exact ⟨a :: front, x, back, rfl, by simpa using h, hx, hback⟩
    next hnone =>
      split_ifs at h with ha
      exact ⟨[], a, l, rfl, by simpa using h, ha, lastIndex?_eq_none hnone⟩

theorem lastIndex?_split {p : α → Bool} (hx : p x) (hback : ∀ y ∈ back, p y = false) :
    lastIndex? p (front ++ x :: back) = some front.length := by
  have hlast : lastIndex? p (x :: back) = some 0 := by
    rw [lastIndex?]
    split
    next i hi =>
      obtain ⟨_, y, _, rfl, -, hy, -⟩ := lastIndex?_eq_some hi
      exact absurd hy (by simp [hback y])
    · rw [if_pos hx]
  induction front with
  | nil => exact hlast
  | cons a front ih => rw [List.cons_append, lastIndex?, ih, List.length_cons]

end Lists

/-! ## The elements of the two lists -/

section Listed

variable {l l' : List Formatting} {f : Formatting}

theorem listed_append (l l' : List Formatting) : listed (l ++ l') = listed l ++ listed l' := by
  simp [listed]

theorem listed_cons (hf : f.marker = false) (l : List Formatting) :
    listed (f :: l) = f.id :: listed l := by simp [listed, hf]

theorem listed_sublist (h : l'.Sublist l) : (listed l').Sublist (listed l) :=
  (h.filter _).map _

theorem mem_listed {id : NodeId} : id ∈ listed l ↔ ∃ f ∈ l, f.marker = false ∧ f.id = id := by
  simp [listed, and_assoc]

end Listed

@[simp] theorem openElements_push (b : Builder) (e : Entry) :
    (b.push e).openElements = b.openElements ++ [e] := rfl

theorem openIds_push (b : Builder) (e : Entry) : (b.push e).openIds = b.openIds ++ [e.id] := by
  simp [openIds]

theorem openElements_pop (b : Builder) : b.pop.openElements = b.openElements.dropLast := by
  unfold Builder.pop
  split
  next h => simp [List.getLast?_eq_none_iff.mp h]
  · rfl

/-- What an operation on the stack alone leaves as it was. -/
def SameElsewhere (b b' : Builder) : Prop :=
  b'.active = b.active ∧ b'.nextNode = b.nextNode ∧ b'.root = b.root

theorem pop_elsewhere (b : Builder) : SameElsewhere b b.pop := by
  unfold Builder.pop
  split <;> exact ⟨rfl, rfl, rfl⟩

theorem foldl_push (entries : List Entry) (b : Builder) :
    (entries.foldl Builder.push b).openElements = b.openElements ++ entries ∧
      SameElsewhere b (entries.foldl Builder.push b) := by
  induction entries generalizing b with
  | nil => exact ⟨by simp, rfl, rfl, rfl⟩
  | cons e entries ih =>
    obtain ⟨hopen, helsewhere⟩ := ih (b.push e)
    exact ⟨by simpa using hopen, helsewhere⟩

@[simp] theorem openElements_reindex (b : Builder) : b.reindex.openElements = b.openElements := by
  simp [Builder.reindex, (foldl_push b.openElements _).1]

theorem reindex_elsewhere (b : Builder) : SameElsewhere b b.reindex :=
  (foldl_push b.openElements _).2

@[simp] theorem active_reindex (b : Builder) : b.reindex.active = b.active :=
  (reindex_elsewhere b).1

@[simp] theorem nextNode_reindex (b : Builder) : b.reindex.nextNode = b.nextNode :=
  (reindex_elsewhere b).2.1

@[simp] theorem root_reindex (b : Builder) : b.reindex.root = b.root := (reindex_elsewhere b).2.2

@[simp] theorem openIds_reindex (b : Builder) : b.reindex.openIds = b.openIds := by
  simp [openIds]

@[simp] theorem openElements_removeFromStack (b : Builder) (id : NodeId) :
    (b.removeFromStack id).openElements = b.openElements.filter fun e => e.id != id := by
  simp [Builder.removeFromStack]

theorem removeFromStack_elsewhere (b : Builder) (id : NodeId) :
    SameElsewhere b (b.removeFromStack id) := reindex_elsewhere _

/-! ## Edits of one list -/

variable {b b' : Builder}

/-- What leaves the stack or the list keeps the order. -/
theorem Ordered.shrink (h : b.Ordered) (hopen : b'.openElements.Sublist b.openElements)
    (hactive : b'.active.Sublist b.active) (hnext : b.nextNode ≤ b'.nextNode)
    (hroot : b'.root = b.root) : b'.Ordered where
  shared := h.shared.sublist (listed_sublist hactive) (hopen.map _)
  openNodup := h.openNodup.sublist (hopen.map _)
  openNew id hid := (h.openNew id ((hopen.map _).subset hid)).trans_le hnext
  listedNew id hid := (h.listedNew id ((listed_sublist hactive).subset hid)).trans_le hnext
  root id hid :=
    have hold := h.root id (hroot ▸ hid)
    ⟨hold.1.trans_le hnext, fun hmem => hold.2 ((listed_sublist hactive).subset hmem)⟩
  plain f hf := h.plain f (hactive.subset hf)
  plainOpen e he hid := h.plainOpen e (hopen.subset he) ((listed_sublist hactive).subset hid)

theorem Ordered.congr (h : b.Ordered) (hopen : b'.openElements = b.openElements)
    (hactive : b'.active = b.active) (hnext : b'.nextNode = b.nextNode)
    (hroot : b'.root = b.root) : b'.Ordered :=
  h.shrink (hopen ▸ .refl _) (hactive ▸ .refl _) hnext.ge hroot

theorem Ordered.pop (h : b.Ordered) : b.pop.Ordered :=
  have helsewhere := pop_elsewhere b
  h.shrink (openElements_pop b ▸ List.dropLast_sublist _) (helsewhere.1 ▸ .refl _)
    helsewhere.2.1.ge helsewhere.2.2

theorem Ordered.popTo (h : b.Ordered) (height : ℕ) : (b.popTo height).Ordered := by
  unfold Builder.popTo
  generalize b.openElements.length - height = n
  induction n with
  | zero => exact h
  | succ n ih =>
    rw [Function.iterate_succ_apply']
    exact ih.pop

theorem Ordered.removeFromStack (h : b.Ordered) (id : NodeId) : (b.removeFromStack id).Ordered :=
  have helsewhere := removeFromStack_elsewhere b id
  h.shrink (by simp) (helsewhere.1 ▸ .refl _) helsewhere.2.1.ge helsewhere.2.2

theorem Ordered.pushNew (h : b.Ordered) (e : Entry) (he : e.id = b.nextNode) :
    (b.createElement.push e).Ordered := by
  have hnew : e.id ∉ listed b.active := fun hmem => (h.listedNew _ hmem).ne he
  have hnewOpen : e.id ∉ b.openIds := fun hmem => (h.openNew _ hmem).ne he
  have hids : (b.createElement.push e).openIds = b.openIds ++ [e.id] := openIds_push _ _
  refine ⟨?_, ?_, ?_, ?_, ?_, h.plain, ?_⟩
  · rw [hids]
    exact h.shared.concat_right hnew
  · rw [hids]
    exact h.openNodup.append (List.nodup_singleton _) (by simpa using hnewOpen)
  · rw [hids]
    intro id hid
    rcases List.mem_append.mp hid with hid | hid
    · exact (h.openNew id hid).trans (Nat.lt_succ_self _)
    · exact (List.mem_singleton.mp hid).trans he ▸ Nat.lt_succ_self _
  · exact fun id hid => (h.listedNew id hid).trans (Nat.lt_succ_self _)
  · exact fun id hid => ⟨(h.root id hid).1.trans (Nat.lt_succ_self _), (h.root id hid).2⟩
  · intro e' he' hid
    rcases List.mem_append.mp he' with he' | he'
    · exact h.plainOpen e' he' hid
    · exact absurd (List.mem_singleton.mp he' ▸ hid) hnew

theorem Ordered.insertElement (h : b.Ordered) (tag : Text) (attributes : List TokenAttribute)
    (ns : NodeNs) : (b.insertElement tag attributes ns).Ordered := h.pushNew _ rfl

theorem Ordered.createRoot (h : b.Ordered) : b.createRoot.Ordered := by
  unfold Builder.createRoot
  dsimp only
  cases hroot : b.root with
  | none =>
    -- the element is new, so it is not on the stack
    have hnew : b.nextNode ∉ b.openIds := fun hmem => (h.openNew _ hmem).ne rfl
    have hoff : b.onStack b.nextNode = false := by
      simpa [Builder.onStack, openIds] using hnew
    have hpushed := h.pushNew ⟨b.nextNode, ascii "html", .html, false⟩ rfl
    simp only [Option.isSome_none, Bool.false_eq_true, if_false, Option.getD_none]
    rw [if_neg (by simpa [Builder.onStack, Builder.createElement] using hoff)]
    refine ⟨hpushed.shared, hpushed.openNodup, hpushed.openNew, hpushed.listedNew, ?_,
      hpushed.plain, hpushed.plainOpen⟩
    intro id hid
    obtain rfl : b.nextNode = id := Option.some.inj hid
    exact ⟨Nat.lt_succ_self _, fun hmem => (h.listedNew _ hmem).ne rfl⟩
  | some id =>
    simp only [Option.isSome_some, if_true, Option.getD_some]
    split_ifs with hon
    · exact h
    · have hroot := h.root id hroot
      have hoff : id ∉ b.openIds := by simpa [Builder.onStack, openIds] using hon
      have hids : (b.push ⟨id, ascii "html", .html, false⟩).openIds = b.openIds ++ [id] :=
        openIds_push _ _
      refine ⟨?_, ?_, ?_, h.listedNew, h.root, h.plain, ?_⟩
      · rw [hids]
        exact h.shared.concat_right hroot.2
      · rw [hids]
        exact h.openNodup.append (List.nodup_singleton _) (by simpa using hoff)
      · rw [hids]
        exact List.forall_mem_append.mpr ⟨h.openNew, List.forall_mem_singleton.mpr hroot.1⟩
      · exact List.forall_mem_append.mpr
          ⟨h.plainOpen, List.forall_mem_singleton.mpr fun hmem => absurd hmem hroot.2⟩

/-! ## Formatting elements opened -/

/-- A new formatting element is last in both lists. -/
theorem Ordered.insertFormatting (h : b.Ordered) (t : Token)
    (ht : isSpecialElement t.name = false) : (b.insertFormatting t).Ordered := by
  unfold Builder.insertFormatting Builder.pushFormatting
  extract_lets found kept
  have hkept : kept.Sublist b.active := by
    simp only [kept]
    split_ifs
    · exact List.eraseIdx_sublist _ _
    · exact .refl _
  have hshrunk : Ordered { b with active := kept } := h.shrink (.refl _) hkept le_rfl rfl
  have hpushed := hshrunk.pushNew (makeEntry b.nextNode t.name .html t.attributes) rfl
  have hnew : b.nextNode ∉ listed kept := fun hmem => (hshrunk.listedNew _ hmem).ne rfl
  have hnewOpen : b.nextNode ∉ b.openIds := fun hmem => (h.openNew _ hmem).ne rfl
  have hlisted : listed (kept ++ [⟨b.nextNode, t.name, t.attributes, false⟩]) =
      listed kept ++ [b.nextNode] := by rw [listed_append]; rfl
  refine ⟨?_, hpushed.openNodup, hpushed.openNew, ?_, ?_, ?_, ?_⟩
  · have hids : (b.insertFor t).openIds = b.openIds ++ [b.nextNode] := openIds_push _ _
    show SharedOrder (listed (kept ++ [_])) (b.insertFor t).openIds
    rw [hlisted, hids]
    exact hshrunk.shared.concat hnew hnewOpen
  · show ∀ id ∈ listed (kept ++ [_]), _
    rw [hlisted]
    exact List.forall_mem_append.mpr ⟨hpushed.listedNew, by simp [Builder.insertFor,
      Builder.insertElement, Builder.push, Builder.createElement]⟩
  · intro id hid
    show _ ∧ id ∉ listed (kept ++ [_])
    rw [hlisted]
    have hroot := hshrunk.root id hid
    exact ⟨hroot.1.trans (Nat.lt_succ_self _), by simpa using ⟨hroot.2, hroot.1.ne⟩⟩
  · exact List.forall_mem_append.mpr ⟨hshrunk.plain, by simpa using ht⟩
  · show ∀ e ∈ b.openElements ++ [_], e.id ∈ listed (kept ++ [_]) → _
    rw [hlisted]
    refine List.forall_mem_append.mpr ⟨fun e he hid => ?_, ?_⟩
    · rcases List.mem_append.mp hid with hid | hid
      · exact hshrunk.plainOpen e he hid
      · exact absurd (List.mem_map_of_mem he) ((List.mem_singleton.mp hid).symm ▸ hnewOpen)
    · exact List.forall_mem_singleton.mpr fun _ => ht

/-! ## Formatting elements made anew -/

theorem Ordered.of_new (h : b.Ordered) (hshared : SharedOrder (listed b'.active) b'.openIds)
    (hnodup : b'.openIds.Nodup) (hnext : b'.nextNode = b.nextNode + 1) (hroot : b'.root = b.root)
    (hlisted : ∀ f ∈ b'.active, f.marker = false →
      (f.id ∈ listed b.active ∨ f.id = b.nextNode) ∧ isSpecialElement f.tag = false)
    (hopen : ∀ e ∈ b'.openElements,
      e ∈ b.openElements ∨ e.id = b.nextNode ∧ e.isSpecial = false) : b'.Ordered := by
  have hmem (id : NodeId) (hid : id ∈ listed b'.active) :
      id ∈ listed b.active ∨ id = b.nextNode := by
    obtain ⟨f, hf, hmarker, rfl⟩ := mem_listed.mp hid
    exact (hlisted f hf hmarker).1
  refine ⟨hshared, hnodup, fun id hid => ?_, fun id hid => ?_, fun id hid => ?_,
    fun f hf hmarker => (hlisted f hf hmarker).2, fun e he hid => ?_⟩
  · obtain ⟨e, he, rfl⟩ := List.mem_map.mp hid
    rw [hnext]
    rcases hopen e he with he | he
    · exact (h.openNew _ (List.mem_map_of_mem he)).trans (Nat.lt_succ_self _)
    · exact he.1 ▸ Nat.lt_succ_self _
  · rw [hnext]
    exact (hmem id hid).elim (fun hid => (h.listedNew id hid).trans (Nat.lt_succ_self _))
      fun hid => hid ▸ Nat.lt_succ_self _
  · have hold := h.root id (hroot ▸ hid)
    refine ⟨hnext ▸ hold.1.trans (Nat.lt_succ_self _), fun hid => ?_⟩
    exact (hmem id hid).elim hold.2 hold.1.ne
  · rcases hopen e he with he | he
    · rcases hmem _ hid with hid | hid
      · exact h.plainOpen e he hid
      · exact absurd hid (h.openNew _ (List.mem_map_of_mem he)).ne
    · exact he.2

/-- Every entry from a position on is an element off the stack. -/
def ClosedFrom (b : Builder) (i : ℕ) : Prop :=
  ∀ j f, i ≤ j → b.active[j]? = some f → f.marker = false ∧ f.id ∉ b.openIds

theorem Ordered.reopen (h : b.Ordered) {i : ℕ} (hclosed : b.ClosedFrom i) :
    (b.reopen i).Ordered ∧ (b.reopen i).ClosedFrom (i + 1) := by
  unfold Builder.reopen
  split
  next hnone =>
    exact ⟨h, fun j f hj hf => hclosed j f (by omega) hf⟩
  next f hf =>
    obtain ⟨front, back, hactive, rfl⟩ := exists_split hf
    have hmarker := (hclosed _ f le_rfl hf).1
    have hback (g : Formatting) (hg : g ∈ back) : g.marker = false ∧ g.id ∉ b.openIds := by
      obtain ⟨k, hk, rfl⟩ := List.getElem_of_mem hg
      refine hclosed (front.length + 1 + k) _ (by omega) ?_
      rw [hactive, List.getElem?_append_right (by omega)]
      simp [Nat.add_assoc, Nat.add_comm 1 k, hk]
    have hnew : b.nextNode ∉ listed b.active := fun hmem => (h.listedNew _ hmem).ne rfl
    have hnewOpen : b.nextNode ∉ b.openIds := fun hmem => (h.openNew _ hmem).ne rfl
    have hlisted : listed b.active = listed front ++ f.id :: listed back := by
      rw [hactive, listed_append, listed_cons hmarker]
    rw [hlisted] at hnew
    simp only [List.mem_append, List.mem_cons, not_or] at hnew
    rw [hactive, set_split]
    have hids : (b.insertElement f.tag f.attributes).openIds = b.openIds ++ [b.nextNode] :=
      openIds_push _ _
    have hinserted := h.insertElement f.tag f.attributes .html
    constructor
    · refine h.of_new ?_ hinserted.openNodup rfl rfl ?_ ?_
      · -- the entries after it are off the stack, so the new element is last in both
        show SharedOrder (listed (front ++ _ :: back)) (b.insertElement f.tag f.attributes).openIds
        rw [listed_append, listed_cons (by exact hmarker), hids, List.append_cons,
          ← List.append_nil (b.openIds ++ _)]
        have hfront : SharedOrder (listed front) b.openIds :=
          h.shared.sublist (hlisted ▸ List.sublist_append_left _ _) (.refl _)
        refine (hfront.concat hnew.1 hnewOpen).append (.nil_right _) (by simp) ?_
        intro id hid hid'
        obtain ⟨g, hg, -, rfl⟩ := mem_listed.mp hid
        rcases List.mem_append.mp hid' with hid' | hid'
        · exact (hback g hg).2 hid'
        · exact hnew.2.2 (List.mem_singleton.mp hid' ▸ hid)
      · show ∀ g ∈ front ++ _ :: back, _
        intro g hg hgm
        rcases List.mem_append.mp hg with hg | hg
        · have hg' : g ∈ b.active := hactive ▸ List.mem_append_left _ hg
          exact ⟨.inl (mem_listed.mpr ⟨g, hg', hgm, rfl⟩), h.plain g hg' hgm⟩
        rcases List.mem_cons.mp hg with rfl | hg
        · exact ⟨.inr rfl, h.plain f (hactive ▸ by simp) hmarker⟩
        · have hg' : g ∈ b.active := hactive ▸ List.mem_append_right _ (.tail _ hg)
          exact ⟨.inl (mem_listed.mpr ⟨g, hg', hgm, rfl⟩), h.plain g hg' hgm⟩
      · refine List.forall_mem_append.mpr ⟨fun e he => .inl he, ?_⟩
        exact List.forall_mem_singleton.mpr (.inr ⟨rfl, h.plain f (hactive ▸ by simp) hmarker⟩)
    · intro j g hj hg
      have hmem : g ∈ back := by
        have hj' : (front ++ ⟨b.nextNode, f.tag, f.attributes, f.marker⟩ :: back)[j]? = some g := hg
        rw [List.append_cons, List.getElem?_append_right (by simpa using hj)] at hj'
        exact List.mem_of_getElem? hj'
      refine ⟨(hback g hmem).1, ?_⟩
      show g.id ∉ (b.insertElement f.tag f.attributes).openIds
      rw [hids]
      have hgid : g.id ∈ listed back := mem_listed.mpr ⟨g, hmem, (hback g hmem).1, rfl⟩
      simpa using ⟨(hback g hmem).2, fun heq => hnew.2.2 (heq ▸ hgid)⟩

theorem Ordered.reconstructFormatting (h : b.Ordered) : b.reconstructFormatting.Ordered := by
  unfold Builder.reconstructFormatting
  extract_lets first
  have hclosed : b.ClosedFrom first := by
    intro j f hj hf
    have hopen (hmem : f.id ∈ b.openIds) : b.onStack f.id = true := by
      simpa [Builder.onStack, openIds] using hmem
    have hneither : (f.marker || b.onStack f.id) = false := by
      simp only [first] at hj
      split at hj
      next i hi =>
        obtain ⟨front, x, back, hactive, rfl, -, hback⟩ := lastIndex?_eq_some hi
        rw [hactive, List.append_cons, List.getElem?_append_right (by simpa using hj)] at hf
        exact hback f (List.mem_of_getElem? hf)
      next hnone => exact lastIndex?_eq_none hnone f (List.mem_of_getElem? hf)
    rw [Bool.or_eq_false_iff] at hneither
    exact ⟨hneither.1, fun hmem => by simp [hopen hmem] at hneither⟩
  generalize b.active.length - first = count
  generalize first = i at hclosed
  induction count generalizing b i with
  | zero => exact h
  | succ count ih =>
    rw [List.range'_succ, List.foldl_cons]
    exact ih (h.reopen hclosed).1 _ (h.reopen hclosed).2

end CtBrowser.Dom.Builder
