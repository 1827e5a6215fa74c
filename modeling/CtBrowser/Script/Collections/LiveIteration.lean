import CtBrowser.Script.Collections.SlotData

/-!
# Iterating While the Collection Changes

The compacted lists visit what the lists with emptied slots visit. Every running loop and
every unfinished iterator stands at the compacted position of its slot index; a delete, a
clear and an append move both the same way. The one call that breaks away is the return of
a `forEach` callback inside which a throw was caught: the loop takes the moved unwind count
for a throw of its own and ends, with entries left to visit.

## Main definitions

- `Tracks` — the relation between the two states.
- `KeepsVisiting` — no throw was caught under a callback that returns, or nothing is left.

## Main results

- `answers_eq_slotAnswers_iff` — the calls answer alike exactly when each returning callback
  keeps visiting.
-/

namespace CtBrowser.Script.Collections

open Foundations.SlotList Foundations.Lockstep

variable {ν : Type}

/-! ### Moving the registered iterators -/

theorem getElem?_moveIterators {registered : List ℕ} (hnodup : registered.Nodup) (move : ℕ → ℕ)
    (iterators : List CollectionIterator) (i : ℕ) :
    (moveIterators registered move iterators)[i]? =
      if i ∈ registered then
        iterators[i]?.map fun it => { it with index := move it.index }
      else iterators[i]? := by
  induction registered generalizing iterators with
  | nil => simp [moveIterators]
  | cons j rest ih =>
    obtain ⟨hj, hrest⟩ := List.nodup_cons.mp hnodup
    have hstep := ih hrest (iterators.modify j fun it => { it with index := move it.index })
    rw [moveIterators, List.foldl_cons, ← moveIterators, hstep, List.getElem?_modify]
    by_cases hij : i = j
    · subst hij
      simp [hj]
    · have hji : ¬ j = i := fun h => hij h.symm
      simp [hij, hji]

theorem length_moveIterators (registered : List ℕ) (move : ℕ → ℕ)
    (iterators : List CollectionIterator) :
    (moveIterators registered move iterators).length = iterators.length := by
  induction registered generalizing iterators with
  | nil => rfl
  | cons j rest ih => simpa [moveIterators] using ih (iterators.modify j _)

theorem moveIterators_id (registered : List ℕ) (iterators : List CollectionIterator) :
    moveIterators registered id iterators = iterators := by
  induction registered generalizing iterators with
  | nil => rfl
  | cons j rest ih =>
    rw [moveIterators, List.foldl_cons, ← moveIterators, ih]
    exact List.modify_id ..

/-- Exactly the unfinished iterators over a collection are registered on it, once each. -/
structure Registered (s : State ν) : Prop where
  nodup : ∀ c, (s.collections c).liveIterators.Nodup
  mem_iff : ∀ c i, i ∈ (s.collections c).liveIterators ↔
    s.iterators[i]?.bind CollectionIterator.iterated = some c

theorem Registered.set_index {s : State ν} (h : Registered s) {i : ℕ} {it : CollectionIterator}
    (hi : s.iterators[i]? = some it) (index : ℕ) :
    Registered { s with iterators := s.iterators.set i { it with index := index } } := by
  refine ⟨h.nodup, fun c j => ?_⟩
  have hmem := h.mem_iff c j
  by_cases hij : i = j
  · subst hij
    have hlt := (List.getElem?_eq_some_iff.mp hi).1
    simpa [hi, List.getElem?_set_self hlt] using hmem
  · simpa [List.getElem?_set_ne hij] using hmem

theorem Registered.finish {s : State ν} (h : Registered s) {i c : ℕ} {it : CollectionIterator}
    (hi : s.iterators[i]? = some it) (hc : it.iterated = some c) :
    Registered { s.setLiveIterators c ((s.collections c).liveIterators.filter (· ≠ i)) with
      iterators := s.iterators.set i { it with iterated := none } } := by
  have hlt := (List.getElem?_eq_some_iff.mp hi).1
  constructor
  · intro c'
    by_cases hcc : c' = c
    · subst hcc
      simpa using (h.nodup c').filter _
    · simpa [State.setLiveIterators_of_ne s hcc] using h.nodup c'
  · intro c' j
    have hmem := h.mem_iff c' j
    by_cases hcc : c' = c
    · subst hcc
      by_cases hij : i = j
      · subst hij
        simp [List.getElem?_set_self hlt]
      · have hji : ¬ j = i := fun h => hij h.symm
        simpa [List.getElem?_set_ne hij, hji] using hmem
    · by_cases hij : i = j
      · subst hij
        have hne : ¬ c = c' := fun h => hcc h.symm
        simpa [State.setLiveIterators_of_ne s hcc, List.getElem?_set_self hlt, hi, hc, hne]
          using hmem
      · simpa [State.setLiveIterators_of_ne s hcc, List.getElem?_set_ne hij] using hmem

theorem Registered.length_le {s : State ν} (h : Registered s) (c : ℕ) :
    (s.collections c).liveIterators.length ≤ (s.unfinished c).length := by
  apply List.Subperm.length_le
  apply (h.nodup c).subperm
  intro i hi
  have hmem := (h.mem_iff c i).mp hi
  have hlt : i < s.iterators.length := by
    by_contra hge
    simp [List.getElem?_eq_none (Nat.le_of_not_lt hge)] at hmem
  rw [State.unfinished, List.mem_filter, List.mem_range]
  exact ⟨hlt, by simpa using hmem⟩

/-- A new iterator registers; below the cap no other registration goes. -/
theorem Registered.newIterator {s : State ν} (h : Registered s) {c : ℕ}
    (hcap : (s.unfinished c).length < maxLiveIterators) (kind : IterationKind) :
    Registered (s.newIterator c kind).1 := by
  have hlength := h.length_le c
  have hkept : ¬ ((s.collections c).liveIterators ++ [s.iterators.length]).length >
      maxLiveIterators := by
    rw [List.length_append, List.length_singleton]
    omega
  have hfresh : ∀ c', s.iterators.length ∉ (s.collections c').liveIterators := by
    intro c' hmem
    simp [h.mem_iff c'] at hmem
  rw [State.newIterator, if_neg hkept]
  constructor
  · intro c'
    by_cases hcc : c' = c
    · subst hcc
      simp only [State.setLiveIterators_self]
      exact (h.nodup c').append (List.nodup_singleton _) (by simpa using hfresh c')
    · simpa [State.setLiveIterators_of_ne s hcc] using h.nodup c'
  · intro c' j
    have hmem := h.mem_iff c' j
    rcases lt_trichotomy j s.iterators.length with hj | rfl | hj
    · have hne : ¬ j = s.iterators.length := hj.ne
      by_cases hcc : c' = c
      · subst hcc
        simpa [List.getElem?_append_left hj, hne] using hmem
      · simpa [List.getElem?_append_left hj, State.setLiveIterators_of_ne s hcc] using hmem
    · by_cases hcc : c' = c
      · subst hcc
        simp
      · have hne : ¬ c = c' := fun h => hcc h.symm
        simpa [State.setLiveIterators_of_ne s hcc, hne] using hfresh c'
    · have hne : ¬ j = s.iterators.length := hj.ne'
      have hout : (s.iterators ++ [⟨some c, 0, kind⟩])[j]? = none := by
        rw [List.getElem?_eq_none_iff, List.length_append, List.length_singleton]
        omega
      rw [List.getElem?_eq_none hj.le] at hmem
      by_cases hcc : c' = c
      · subst hcc
        simpa [hout, hne] using hmem
      · simpa [hout, State.setLiveIterators_of_ne s hcc] using hmem

/-! ### The relation -/

/-- A running loop stands at the compacted position of its slot index. -/
structure FrameTracks (data : ℕ → List (Option (Entry ν))) (f : ForEachFrame) (l : SlotLoop) :
    Prop where
  entries : f.walk.entries = l.collection
  index_le : l.index ≤ (data l.collection).length
  next : f.walk.next = place (data l.collection) l.index

/-- An iterator is finished in both states, or stands at the compacted position of its slot
index. -/
structure IteratorTracks (data : ℕ → List (Option (Entry ν))) (it : CollectionIterator)
    (jt : SlotIterator) : Prop where
  kind : it.kind = jt.kind
  iterated : it.iterated = if jt.finished then none else some jt.collection
  index_le : jt.finished = false → jt.index ≤ (data jt.collection).length
  index : jt.finished = false → it.index = place (data jt.collection) jt.index

/-- The compacted state follows the state with emptied slots. -/
structure Tracks (s : State ν) (t : SlotState ν) : Prop where
  kinds : ∀ c, (s.collections c).kind = t.kinds c
  entries : ∀ c, (s.collections c).entries = (t.data c).reduceOption
  frames : List.Forall₂ (FrameTracks t.data) s.frames t.loops
  length_iterators : s.iterators.length = t.iterators.length
  iterators : ∀ i : ℕ, Option.Rel (IteratorTracks t.data) s.iterators[i]? t.iterators[i]?
  registered : Registered s

theorem tracks_fresh (kinds : ℕ → Kind) :
    Tracks (@State.fresh ν kinds) (SlotState.fresh kinds) where
  kinds c := rfl
  entries c := rfl
  frames := .nil
  length_iterators := rfl
  iterators i := .none
  registered := ⟨fun c => List.nodup_nil, by simp [State.fresh]⟩

theorem FrameTracks.moved {data : ℕ → List (Option (Entry ν))} {f : ForEachFrame} {l : SlotLoop}
    (h : FrameTracks data f l) {c : ℕ} {slots : List (Option (Entry ν))} {move : ℕ → ℕ}
    (hlength : (data c).length ≤ slots.length)
    (hplace : ∀ i ≤ (data c).length, place slots i = move (place (data c) i)) {w : LiveWalk}
    (hw : w = if f.walk.entries = c then { f.walk with next := move f.walk.next } else f.walk) :
    FrameTracks (Function.update data c slots) { f with walk := w } l := by
  obtain ⟨hentries, hle, hnext⟩ := h
  by_cases hc : l.collection = c
  · subst hc
    rw [if_pos hentries] at hw
    subst hw
    refine ⟨hentries, ?_, ?_⟩
    · simpa using hle.trans hlength
    · simpa [hnext] using (hplace _ hle).symm
  · rw [if_neg (by rw [hentries]; exact hc)] at hw
    subst hw
    exact ⟨hentries, by simpa [hc] using hle, by simpa [hc] using hnext⟩

/-- An iterator follows a change of a list that moves every compacted position by `move`,
when the iterators over that list move with it. -/
theorem IteratorTracks.moved {data : ℕ → List (Option (Entry ν))} {it : CollectionIterator}
    {jt : SlotIterator} (h : IteratorTracks data it jt) {c : ℕ}
    {slots : List (Option (Entry ν))} {move : ℕ → ℕ}
    (hlength : (data c).length ≤ slots.length)
    (hplace : ∀ i ≤ (data c).length, place slots i = move (place (data c) i)) :
    IteratorTracks (Function.update data c slots)
      (if it.iterated = some c then { it with index := move it.index } else it) jt := by
  obtain ⟨hkind, hiterated, hle, hindex⟩ := h
  cases hfinished : jt.finished with
  | true =>
    rw [hfinished, if_pos rfl] at hiterated
    rw [if_neg (by simp [hiterated])]
    exact ⟨hkind, by simpa [hfinished] using hiterated, by simp [hfinished], by simp [hfinished]⟩
  | false =>
    rw [hfinished, if_neg (by simp)] at hiterated
    by_cases hc : jt.collection = c
    · subst hc
      rw [if_pos hiterated]
      refine ⟨hkind, by simpa [hfinished] using hiterated, fun _ => ?_, fun _ => ?_⟩
      · simpa using (hle hfinished).trans hlength
      · simpa [hindex hfinished] using (hplace _ (hle hfinished)).symm
    · rw [if_neg (by simpa [hiterated] using hc)]
      exact ⟨hkind, by simpa [hfinished] using hiterated, by simpa [hc] using hle,
        by simpa [hc] using hindex⟩

/-- The whole state follows a change of one list that moves every compacted position of it
by `move`, when the loops and the registered iterators over it move the same way. -/
theorem Tracks.moved {s : State ν} {t : SlotState ν} (h : Tracks s t) {c : ℕ}
    {slots : List (Option (Entry ν))} {move : ℕ → ℕ} {moveWalk : LiveWalk → LiveWalk}
    (hlength : (t.data c).length ≤ slots.length)
    (hplace : ∀ i ≤ (t.data c).length, place slots i = move (place (t.data c) i))
    (hwalk : ∀ w : LiveWalk,
      moveWalk w = if w.entries = c then { w with next := move w.next } else w) :
    Tracks (((s.setEntries c slots.reduceOption).moveWalks moveWalk).moveIndices c move)
      (t.setData c slots) where
  kinds c' := by
    simpa [State.moveIndices, State.moveWalks, SlotState.setData] using h.kinds c'
  entries c' := by
    simp only [State.moveIndices, State.moveWalks, SlotState.setData]
    by_cases hc : c' = c
    · subst hc
      simp
    · rw [State.setEntries_of_ne s hc, Function.update_of_ne hc]
      exact h.entries c'
  frames := by
    rw [State.moveIndices, State.moveWalks]
    apply List.forall₂_map_left_iff.mpr
    exact h.frames.imp fun f l hfl => hfl.moved hlength hplace (hwalk f.walk)
  length_iterators := by
    rw [State.moveIndices, length_moveIterators]
    exact h.length_iterators
  iterators i := by
    have hmem := h.registered.mem_iff c i
    have hrel := h.iterators i
    simp only [State.moveIndices, State.moveWalks, State.setEntries_self, SlotState.setData]
    rw [getElem?_moveIterators (h.registered.nodup c), State.setEntries]
    simp only [hmem]
    cases hs : s.iterators[i]? with
    | none =>
      cases ht : t.iterators[i]? with
      | none => simp
      | some jt => simp [hs, ht] at hrel
    | some it =>
      cases ht : t.iterators[i]? with
      | none => simp [hs, ht] at hrel
      | some jt =>
        rw [hs, ht, Option.rel_some_some] at hrel
        have hmoved := hrel.moved hlength hplace
        by_cases hc : it.iterated = some c
        · simpa [hc] using hmoved
        · simpa [hc] using hmoved
  registered := by
    refine ⟨fun c' => ?_, fun c' i => ?_⟩
    · simpa [State.moveIndices, State.moveWalks] using h.registered.nodup c'
    · have hmem := h.registered.mem_iff c' i
      simp only [State.moveIndices, State.moveWalks, State.setEntries_self,
        State.liveIterators_setEntries]
      rw [getElem?_moveIterators (h.registered.nodup c), hmem, State.setEntries]
      split
      · cases s.iterators[i]? <;> simp
      · rfl

theorem Tracks.changed {s : State ν} {t : SlotState ν} (h : Tracks s t) {c : ℕ}
    {slots : List (Option (Entry ν))} (hlength : (t.data c).length ≤ slots.length)
    (hplace : ∀ i ≤ (t.data c).length, place slots i = place (t.data c) i) :
    Tracks (s.setEntries c slots.reduceOption) (t.setData c slots) := by
  have hmoved := @Tracks.moved _ s t h c slots id id hlength hplace
    (fun w => by simp)
  have hsame : ((s.setEntries c slots.reduceOption).moveWalks id).moveIndices c id =
      s.setEntries c slots.reduceOption := by
    simp [State.moveIndices, State.moveWalks, moveIterators_id]
  rwa [hsame] at hmoved

/-! ### One lemma for each change -/

variable (ops : KeyOps ν)

theorem map_place_findKey (slots : List (Option (Entry ν))) (key : ν) :
    (SlotState.findKey ops slots key).map (place slots) =
      findEntry ops slots.reduceOption key :=
  map_place_findSlot _ slots

theorem reduceOption_put (slots : List (Option (Entry ν))) (key held : ν) :
    (SlotState.put ops slots key held).reduceOption =
      putPair ops slots.reduceOption key held := by
  rw [putPair, ← map_place_findKey, SlotState.put]
  cases hfind : SlotState.findKey ops slots key with
  | none => simp [List.reduceOption_append]
  | some j =>
    obtain ⟨entry, hentry, -⟩ := getElem?_of_findSlot hfind
    exact reduceOption_modify hentry _

theorem place_put (slots : List (Option (Entry ν))) (key held : ν) {i : ℕ}
    (hi : i ≤ slots.length) : place (SlotState.put ops slots key held) i = place slots i := by
  rw [SlotState.put]
  split
  · exact place_modify ..
  · exact place_append hi _

theorem length_put (slots : List (Option (Entry ν))) (key held : ν) :
    slots.length ≤ (SlotState.put ops slots key held).length := by
  rw [SlotState.put]
  split <;> simp

theorem reduceOption_addTo (slots : List (Option (Entry ν))) (member : ν) :
    (SlotState.addTo ops slots member).reduceOption =
      addMember ops slots.reduceOption member := by
  rw [addMember, ← map_place_findKey, SlotState.addTo]
  cases SlotState.findKey ops slots member with
  | none => simp [List.reduceOption_append]
  | some j => rfl

theorem place_addTo (slots : List (Option (Entry ν))) (member : ν) {i : ℕ}
    (hi : i ≤ slots.length) : place (SlotState.addTo ops slots member) i = place slots i := by
  rw [SlotState.addTo]
  split
  · rfl
  · exact place_append hi _

theorem length_addTo (slots : List (Option (Entry ν))) (member : ν) :
    slots.length ≤ (SlotState.addTo ops slots member).length := by
  rw [SlotState.addTo]
  split <;> simp

theorem Tracks.erase {s : State ν} {t : SlotState ν} (h : Tracks s t) {c j : ℕ}
    {entry : Entry ν} (hj : (t.data c)[j]? = some (some entry)) :
    Tracks (s.erase c (place (t.data c) j)) (t.setData c ((t.data c).set j none)) := by
  rw [State.erase, h.entries c, ← reduceOption_set_none hj]
  refine h.moved (by simp) (fun i _ => place_set_none hj i) (fun w => ?_)
  obtain ⟨walked, next⟩ := w
  by_cases hw : walked = c <;> by_cases hlt : place (t.data c) j < next <;>
    simp [LiveWalk.removed, hw, hlt]

theorem Tracks.clear {s : State ν} {t : SlotState ν} (h : Tracks s t) (c : ℕ) :
    Tracks (s.clear c) (t.setData c ((t.data c).map fun _ => none)) := by
  rw [State.clear, ← reduceOption_map_none (t.data c)]
  refine h.moved (by simp) (fun i _ => ?_) (fun w => rfl)
  rw [place, ← List.map_take, reduceOption_map_none, List.length_nil]

theorem Tracks.advance {s : State ν} {t : SlotState ν} (h : Tracks s t)
    {frames : List ForEachFrame} {loops : List SlotLoop}
    (hframes : List.Forall₂ (FrameTracks t.data) frames loops) :
    (s.advance frames).2 = (t.advance loops).2 ∧
      Tracks (s.advance frames).1 (t.advance loops).1 := by
  cases hframes with
  | nil => exact ⟨rfl, h⟩
  | @cons frame loop outer outer' hhead htail =>
    obtain ⟨hentries, hle, hnext⟩ := hhead
    have hread : (s.collections frame.walk.entries).entries[frame.walk.next]? =
        (visit (t.data loop.collection) loop.index).map Prod.fst := by
      rw [h.entries, hentries, hnext, map_fst_visit]
    rw [State.advance, SlotState.advance, hread]
    cases hvisit : visit (t.data loop.collection) loop.index with
    | none =>
      exact ⟨rfl, ⟨h.kinds, h.entries, htail, h.length_iterators, h.iterators,
        h.registered.nodup, h.registered.mem_iff⟩⟩
    | some p =>
      obtain ⟨entry, index⟩ := p
      obtain ⟨-, hindex, hplace⟩ := place_of_visit hvisit
      have hhere : FrameTracks t.data
          { frame with walk := { frame.walk with next := frame.walk.next + 1 } }
          { loop with index := index } := ⟨hentries, hindex, by simp [hnext, hplace]⟩
      exact ⟨rfl, ⟨h.kinds, h.entries, .cons hhere htail, h.length_iterators, h.iterators,
        h.registered.nodup, h.registered.mem_iff⟩⟩

theorem rel_getElem?_set {R : CollectionIterator → SlotIterator → Prop}
    {its : List CollectionIterator} {jts : List SlotIterator} (hlength : its.length = jts.length)
    (h : ∀ i : ℕ, Option.Rel R its[i]? jts[i]?) (i : ℕ) {it : CollectionIterator}
    {jt : SlotIterator} (hnew : R it jt) (j : ℕ) :
    Option.Rel R (its.set i it)[j]? (jts.set i jt)[j]? := by
  rw [List.getElem?_set, List.getElem?_set, hlength]
  by_cases hij : i = j
  · by_cases hi : i < jts.length <;> simp [hij, hij ▸ hi, hnew]
  · simpa [hij] using h j

/-- An iterator goes on alike in both states. -/
theorem Tracks.next {s : State ν} {t : SlotState ν} (h : Tracks s t) (i : ℕ) :
    (s.next i).2 = (t.next i).2 ∧ Tracks (s.next i).1 (t.next i).1 := by
  have hrel := h.iterators i
  cases hs : s.iterators[i]? with
  | none =>
    have ht : t.iterators[i]? = none := by
      rw [List.getElem?_eq_none_iff, ← h.length_iterators, ← List.getElem?_eq_none_iff, hs]
    rw [State.next, SlotState.next, hs, ht]
    exact ⟨rfl, h⟩
  | some it =>
    cases ht : t.iterators[i]? with
    | none => simp [hs, ht] at hrel
    | some jt =>
      rw [hs, ht, Option.rel_some_some] at hrel
      obtain ⟨iterated, at', kind⟩ := it
      obtain ⟨c, index, kind', finished⟩ := jt
      obtain ⟨hkind, hiterated, hle, hindex⟩ := hrel
      dsimp only at hkind hiterated hle hindex
      subst hkind hiterated
      cases finished with
      | true =>
        simp only [State.next, SlotState.next, hs, ht, if_true]
        exact ⟨trivial, h⟩
      | false =>
        obtain rfl : at' = place (t.data c) index := hindex rfl
        have hread : (s.collections c).entries[place (t.data c) index]? =
            (visit (t.data c) index).map Prod.fst := by
          rw [h.entries, map_fst_visit]
        simp only [State.next, SlotState.next, hs, ht, Bool.false_eq_true, if_false, hread]
        cases hvisit : visit (t.data c) index with
        | some p =>
          obtain ⟨entry, index'⟩ := p
          obtain ⟨-, hle', hplace⟩ := place_of_visit hvisit
          have hnew : IteratorTracks t.data ⟨some c, place (t.data c) index + 1, kind⟩
              ⟨c, index', kind, false⟩ := ⟨rfl, rfl, fun _ => hle', fun _ => hplace.symm⟩
          exact ⟨rfl, h.kinds, h.entries, h.frames, by simp [h.length_iterators],
            rel_getElem?_set h.length_iterators h.iterators i hnew,
            h.registered.set_index hs _⟩
        | none =>
          have hnew : IteratorTracks t.data ⟨none, place (t.data c) index, kind⟩
              ⟨c, index, kind, true⟩ := ⟨rfl, rfl, by simp, by simp⟩
          exact ⟨rfl, by simpa using h.kinds, by simpa using h.entries, h.frames,
            by simp [h.length_iterators],
            rel_getElem?_set h.length_iterators h.iterators i hnew,
            h.registered.finish hs rfl⟩

theorem Tracks.newIterator {s : State ν} {t : SlotState ν} (h : Tracks s t) {c : ℕ}
    (hcap : (s.unfinished c).length < maxLiveIterators) (kind : IterationKind) :
    Tracks (s.newIterator c kind).1
      { t with iterators := t.iterators ++ [⟨c, 0, kind, false⟩] } := by
  refine ⟨?_, ?_, h.frames, ?_, fun i => ?_, h.registered.newIterator hcap kind⟩
  · simpa [State.newIterator] using h.kinds
  · simpa [State.newIterator] using h.entries
  · simp [State.newIterator, h.length_iterators]
  · have hnew : IteratorTracks t.data ⟨some c, 0, kind⟩ ⟨c, 0, kind, false⟩ :=
      ⟨rfl, rfl, fun _ => Nat.zero_le _, fun _ => (place_zero _).symm⟩
    show Option.Rel (IteratorTracks t.data) (s.iterators ++ [⟨some c, 0, kind⟩])[i]?
      (t.iterators ++ [⟨c, 0, kind, false⟩])[i]?
    rw [List.getElem?_append, List.getElem?_append, h.length_iterators]
    by_cases hi : i < t.iterators.length
    · simpa [hi] using h.iterators i
    · by_cases he : i - t.iterators.length = 0
      · simp [hi, he, hnew]
      · simp [hi, he]

theorem State.advance_of_le (s : State ν) {frame : ForEachFrame} (outer : List ForEachFrame)
    (h : (s.collections frame.walk.entries).entries.length ≤ frame.walk.next) :
    s.advance (frame :: outer) = ({ s with frames := outer }, .undefined) := by
  rw [State.advance, List.getElem?_eq_none h]

theorem tail_forall₂ {α β : Type*} {R : α → β → Prop} {l : List α} {m : List β}
    (h : List.Forall₂ R l m) : List.Forall₂ R l.tail m.tail := by
  cases h with
  | nil => exact .nil
  | cons _ hrest => exact hrest

/-! ### One call -/

/-- At most as many unfinished iterators over a collection as can be registered on it. -/
def WithinCap (s : State ν) : Call ν → Prop
  | .iterator c _ => (s.unfinished c).length < maxLiveIterators
  | _ => True

/-- No throw was caught since the innermost loop started, or it has nothing left to visit. -/
def LoopKeepsVisiting (s : State ν) : List ForEachFrame → Prop
  | [] => True
  | frame :: _ => s.unwinds = frame.before ∨
      (s.collections frame.walk.entries).entries.length ≤ frame.walk.next

/-- A callback that returns lets its loop keep visiting. -/
def KeepsVisiting (s : State ν) : Call ν → Prop
  | .returns => LoopKeepsVisiting s s.frames
  | _ => True

instance (s : State ν) : ∀ call, Decidable (WithinCap s call)
  | .iterator c _ => inferInstanceAs (Decidable ((s.unfinished c).length < maxLiveIterators))
  | .set .. | .add .. | .delete .. | .clear _ | .forEach _ | .returns | .throws | .caught
  | .next _ => inferInstanceAs (Decidable True)

instance (s : State ν) : ∀ frames, Decidable (LoopKeepsVisiting s frames)
  | [] => inferInstanceAs (Decidable True)
  | _ :: _ => inferInstanceAs (Decidable (_ ∨ _))

instance (s : State ν) : ∀ call, Decidable (KeepsVisiting s call)
  | .returns => inferInstanceAs (Decidable (LoopKeepsVisiting s s.frames))
  | .set .. | .add .. | .delete .. | .clear _ | .forEach _ | .iterator .. | .throws | .caught
  | .next _ => inferInstanceAs (Decidable True)

/-- A call that keeps visiting answers as the language has it, and leaves related states. -/
theorem Tracks.step_of_keepsVisiting {s : State ν} {t : SlotState ν} (h : Tracks s t)
    {call : Call ν} (hcap : WithinCap s call) (hkeeps : KeepsVisiting s call) :
    (step ops s call).2 = (slotStep ops t call).2 ∧
      Tracks (step ops s call).1 (slotStep ops t call).1 := by
  cases call with
  | set c key held =>
    rw [step, slotStep, h.kinds c, h.entries c]
    split
    · rw [← reduceOption_put]
      exact ⟨rfl, h.changed (length_put ..) fun i hi => place_put ops _ _ _ hi⟩
    · exact ⟨rfl, h⟩
  | add c member =>
    rw [step, slotStep, h.kinds c, h.entries c]
    split
    · rw [← reduceOption_addTo]
      exact ⟨rfl, h.changed (length_addTo ..) fun i hi => place_addTo ops _ _ hi⟩
    · exact ⟨rfl, h⟩
  | delete c key =>
    rw [step, slotStep, h.entries c, ← map_place_findKey]
    cases hfind : SlotState.findKey ops (t.data c) key with
    | none => exact ⟨rfl, h⟩
    | some j =>
      obtain ⟨entry, hentry, -⟩ := getElem?_of_findSlot hfind
      exact ⟨rfl, h.erase hentry⟩
  | clear c => exact ⟨rfl, h.clear c⟩
  | forEach c => exact h.advance (.cons ⟨rfl, Nat.zero_le _, (place_zero _).symm⟩ h.frames)
  | returns =>
    have hadvance := h.advance h.frames
    rw [step, slotStep, State.returned]
    cases hs : s.frames with
    | nil => rwa [hs] at hadvance
    | cons frame outer =>
      rw [hs] at hadvance
      by_cases hcount : s.unwinds = frame.before
      · simpa [hcount] using hadvance
      · rw [KeepsVisiting, hs] at hkeeps
        have hleft := Or.resolve_left hkeeps hcount
        rw [State.advance_of_le s outer hleft] at hadvance
        simpa [hcount] using hadvance
  | throws =>
    refine ⟨rfl, h.kinds, h.entries, ?_, h.length_iterators, h.iterators, h.registered.nodup,
      h.registered.mem_iff⟩
    exact tail_forall₂ h.frames
  | caught =>
    exact ⟨rfl, h.kinds, h.entries, h.frames, h.length_iterators, h.iterators,
      h.registered.nodup, h.registered.mem_iff⟩
  | iterator c kind =>
    refine ⟨?_, h.newIterator hcap kind⟩
    rw [step, slotStep, State.newIterator, h.length_iterators]
  | next i => exact h.next i

theorem Tracks.step_ne_of_not_keepsVisiting {s : State ν} {t : SlotState ν} (h : Tracks s t)
    {call : Call ν} (hkeeps : ¬ KeepsVisiting s call) :
    (step ops s call).2 ≠ (slotStep ops t call).2 := by
  cases call with
  | returns =>
    rw [KeepsVisiting] at hkeeps
    cases hs : s.frames with
    | nil =>
      rw [hs] at hkeeps
      exact absurd trivial hkeeps
    | cons frame outer =>
      rw [hs, LoopKeepsVisiting, not_or, not_le] at hkeeps
      obtain ⟨hcount, hlt⟩ := hkeeps
      have hvisits : (s.advance s.frames).2 =
          .visits (s.collections frame.walk.entries).entries[frame.walk.next] := by
        rw [hs, State.advance, List.getElem?_eq_getElem hlt]
      have hends : (step ops s .returns).2 = .undefined := by
        simp [step, State.returned, hs, hcount]
      rw [hends, slotStep, ← (h.advance h.frames).1, hvisits]
      simp
  | _ => exact absurd trivial hkeeps

/-! ### Whole runs -/

/-- What a program's calls answer, from collections of the given classes. -/
def answersFrom (kinds : ℕ → Kind) : List (Call ν) → List (Answer ν) :=
  answers (step ops) (State.fresh kinds)

/-- What the language has them answer. -/
def slotAnswersFrom (kinds : ℕ → Kind) : List (Call ν) → List (Answer ν) :=
  answers (slotStep ops) (SlotState.fresh kinds)

/-- A condition on every call of a program. -/
def Throughout (kinds : ℕ → Kind) (good : State ν → Call ν → Prop) (calls : List (Call ν)) :
    Prop :=
  Along (step ops) good (State.fresh kinds) calls

instance (kinds : ℕ → Kind) (good : State ν → Call ν → Prop) [∀ s call, Decidable (good s call)]
    (calls : List (Call ν)) : Decidable (Throughout ops kinds good calls) :=
  inferInstanceAs (Decidable (Along (step ops) good (State.fresh kinds) calls))

/-- A program whose iterators can all be registered visits exactly what the language has it
visit, if and only if every callback that returns keeps visiting. -/
theorem answersFrom_eq_iff (kinds : ℕ → Kind) {calls : List (Call ν)}
    (hcap : Throughout ops kinds WithinCap calls) :
    answersFrom ops kinds calls = slotAnswersFrom ops kinds calls ↔
      Throughout ops kinds KeepsVisiting calls := by
  refine answers_eq_iff (R := Tracks) ?_ ?_ (tracks_fresh kinds) hcap
  · intro s t call h hwithin hkeeps
    exact h.step_of_keepsVisiting ops hwithin hkeeps
  · intro s t call h _ hkeeps
    exact h.step_ne_of_not_keepsVisiting ops hkeeps

/-- Numbers as values. -/
def natKeys : KeyOps ℕ := ⟨(· == ·), id⟩

/-- A `Set` loses a member while an iterator is under way and a callback is running. -/
def deleteUnderway : List (Call ℕ) :=
  [.add 0 1, .add 0 2, .add 0 3, .iterator 0 .values, .next 0, .forEach 0, .delete 0 1,
    .returns, .next 0, .add 0 1, .returns, .next 0, .next 0, .next 0]

theorem answersFrom_eq_iff_deleteUnderway :
    answersFrom natKeys (fun _ => .set) deleteUnderway =
      slotAnswersFrom natKeys (fun _ => .set) deleteUnderway :=
  (answersFrom_eq_iff natKeys (fun _ => .set) (by decide)).mpr (by decide)

/-- A `Set` of two members whose `forEach` callback catches a throw of its own. -/
def caughtInside : List (Call ℕ) := [.add 0 1, .add 0 2, .forEach 0, .caught, .returns]

/-- The loop ends after its first visit. -/
theorem not_answersFrom_eq : ¬ ∀ calls : List (Call ℕ),
    Throughout natKeys (fun _ => .set) WithinCap calls →
      answersFrom natKeys (fun _ => .set) calls =
        slotAnswersFrom natKeys (fun _ => .set) calls := by
  intro h
  have hsame := h caughtInside (by decide)
  exact absurd hsame (by decide)

end CtBrowser.Script.Collections
