import CtBrowser.Foundations.Lockstep

/-!
# Map and Set

The entry lists of `Map` and `Set` with their running `forEach` loops and their live
iterators. The list is compacted: a delete erases the entry and moves everything after it
down by one, and with it the position of every running loop and every registered iterator.

A program's calls are one list of inputs: method calls, what a running callback does, and
how it ends. Loops are C++ frames, so only the innermost one can go on.

## Main definitions

- `State` — the collections, the iterators and the running loops.
- `step` — one call, and what it answers.
-/

namespace CtBrowser.Script.Collections

/-- What the collections ask of their values. -/
structure KeyOps (ν : Type) where
  -- `value::same_value_zero`
  sameValueZero : ν → ν → Bool
  -- the key a value is stored under: negative zero becomes zero
  normaliseKey : ν → ν

/-- The class of a collection. -/
inductive Kind
  | map
  | set
deriving DecidableEq, Repr

/-- An entry: a `[key, value]` pair of a `Map`, or a member of a `Set` as both. -/
structure Entry (ν : Type) where
  key : ν
  held : ν
deriving DecidableEq, Repr

/-- What an iterator reads of an entry. -/
inductive IterationKind
  | keys
  | values
  | entries
deriving DecidableEq, Repr

/-- A walk in progress over an entry list and the index it visits next. -/
structure LiveWalk where
  -- the collection walked
  entries : ℕ
  next : ℕ
deriving DecidableEq, Repr

/-- A running `forEach`: its walk, and the unwind count its `unwind_watch` took. -/
structure ForEachFrame where
  walk : LiveWalk
  before : ℕ
deriving DecidableEq, Repr

/-- A collection's private slots: its entries, and its registered iterators in the order
they registered. -/
structure Collection (ν : Type) where
  kind : Kind
  entries : List (Entry ν)
  liveIterators : List ℕ

/-- An iterator object. -/
structure CollectionIterator where
  -- the collection walked; none once the iterator has finished
  iterated : Option ℕ
  index : ℕ
  kind : IterationKind
deriving DecidableEq, Repr

/-- Everything the keyed collections keep, and the context's count of unwound throws. -/
structure State (ν : Type) where
  collections : ℕ → Collection ν
  iterators : List CollectionIterator
  -- `live_walks`, innermost first
  frames : List ForEachFrame
  unwinds : ℕ

/-- At most this many iterators are registered on one collection. -/
def maxLiveIterators : ℕ := 32

/-- What a page does with the collections. -/
inductive Call (ν : Type)
  | set (collection : ℕ) (key held : ν)
  | add (collection : ℕ) (member : ν)
  | delete (collection : ℕ) (key : ν)
  | clear (collection : ℕ)
  | forEach (collection : ℕ)
  -- the innermost running callback returns
  | returns
  -- the innermost running callback ends with a throw
  | throws
  -- a throw lands on a handler of the page's own, inside whatever is running
  | caught
  | iterator (collection : ℕ) (kind : IterationKind)
  | next (iterator : ℕ)
deriving DecidableEq, Repr

/-- What an iterator result holds. -/
inductive Item (ν : Type)
  | one (v : ν)
  | pair (key held : ν)
deriving DecidableEq, Repr

/-- What a call answers. -/
inductive Answer (ν : Type)
  -- the receiver itself
  | receiver
  | boolean (b : Bool)
  | undefined
  -- a `forEach` calls its callback with this entry
  | visits (entry : Entry ν)
  -- a new iterator
  | made (iterator : ℕ)
  | iterResult (item : Item ν)
  -- `{ value: undefined, done: true }`
  | finished
  -- the throw goes on through `forEach`
  | thrown
  | typeError
deriving DecidableEq, Repr

/-- What an iterator of a kind gives for an entry: a fresh pair, never the stored one. -/
def IterationKind.item {ν : Type} (kind : IterationKind) (entry : Entry ν) : Item ν :=
  match kind with
  | keys => .one entry.key
  | values => .one entry.held
  | entries => .pair entry.key entry.held

section Entries

variable {ν : Type} (ops : KeyOps ν)

/-- Where the entry under `key` stands: `find_pair` and `find_member`. -/
def findEntry (entries : List (Entry ν)) (key : ν) : Option ℕ :=
  entries.findIdx? fun entry => ops.sameValueZero entry.key key

/-- `put_pair`: sets `key` to `held`, replacing or appending a pair. -/
def putPair (entries : List (Entry ν)) (key held : ν) : List (Entry ν) :=
  match findEntry ops entries key with
  | some i => entries.modify i fun entry => { entry with held := held }
  | none => entries ++ [⟨key, held⟩]

/-- `Set.prototype.add`: appends a member that is not there. -/
def addMember (entries : List (Entry ν)) (member : ν) : List (Entry ν) :=
  match findEntry ops entries member with
  | some _ => entries
  | none => entries ++ [⟨member, member⟩]

end Entries

/-- `entry_removed` for one walk: the entry at `at'` was erased, and everything after it
moved down one. -/
def LiveWalk.removed (w : LiveWalk) (c at' : ℕ) : LiveWalk :=
  if w.entries = c ∧ at' < w.next then { w with next := w.next - 1 } else w

/-- `entries_cleared` for one walk: it resumes with whatever is added next. -/
def LiveWalk.cleared (w : LiveWalk) (c : ℕ) : LiveWalk :=
  if w.entries = c then { w with next := 0 } else w

/-- `move_iterators`: rewrites the index of each registered iterator. -/
def moveIterators (registered : List ℕ) (move : ℕ → ℕ) (iterators : List CollectionIterator) :
    List CollectionIterator :=
  registered.foldl
    (fun its i => its.modify i fun it => { it with index := move it.index }) iterators

namespace State

variable {ν : Type}

/-- Replaces the entries of a collection. -/
def setEntries (s : State ν) (c : ℕ) (entries : List (Entry ν)) : State ν :=
  let changed := { s.collections c with entries := entries }
  { s with collections := Function.update s.collections c changed }

/-- Replaces the registered iterators of a collection. -/
def setLiveIterators (s : State ν) (c : ℕ) (registered : List ℕ) : State ν :=
  let changed := { s.collections c with liveIterators := registered }
  { s with collections := Function.update s.collections c changed }

/-- Replaces the walk of every running loop. -/
def moveWalks (s : State ν) (move : LiveWalk → LiveWalk) : State ν :=
  { s with frames := s.frames.map fun f => { f with walk := move f.walk } }

/-- Rewrites the index of every iterator registered on a collection. -/
def moveIndices (s : State ν) (c : ℕ) (move : ℕ → ℕ) : State ν :=
  { s with iterators := moveIterators (s.collections c).liveIterators move s.iterators }

@[simp]
theorem setEntries_self (s : State ν) (c : ℕ) (entries : List (Entry ν)) :
    (s.setEntries c entries).collections c = { s.collections c with entries := entries } :=
  Function.update_self ..

theorem setEntries_of_ne (s : State ν) {c c' : ℕ} (h : c' ≠ c) (entries : List (Entry ν)) :
    (s.setEntries c entries).collections c' = s.collections c' :=
  Function.update_of_ne h ..

@[simp]
theorem liveIterators_setEntries (s : State ν) (c c' : ℕ) (entries : List (Entry ν)) :
    ((s.setEntries c entries).collections c').liveIterators =
      (s.collections c').liveIterators := by
  by_cases h : c' = c
  · subst h
    simp
  · rw [setEntries_of_ne s h]

@[simp]
theorem kind_setEntries (s : State ν) (c c' : ℕ) (entries : List (Entry ν)) :
    ((s.setEntries c entries).collections c').kind = (s.collections c').kind := by
  by_cases h : c' = c
  · subst h
    simp
  · rw [setEntries_of_ne s h]

@[simp]
theorem setLiveIterators_self (s : State ν) (c : ℕ) (registered : List ℕ) :
    (s.setLiveIterators c registered).collections c =
      { s.collections c with liveIterators := registered } :=
  Function.update_self ..

theorem setLiveIterators_of_ne (s : State ν) {c c' : ℕ} (h : c' ≠ c) (registered : List ℕ) :
    (s.setLiveIterators c registered).collections c' = s.collections c' :=
  Function.update_of_ne h ..

@[simp]
theorem entries_setLiveIterators (s : State ν) (c c' : ℕ) (registered : List ℕ) :
    ((s.setLiveIterators c registered).collections c').entries =
      (s.collections c').entries := by
  by_cases h : c' = c
  · subst h
    simp
  · rw [setLiveIterators_of_ne s h]

@[simp]
theorem kind_setLiveIterators (s : State ν) (c c' : ℕ) (registered : List ℕ) :
    ((s.setLiveIterators c registered).collections c').kind = (s.collections c').kind := by
  by_cases h : c' = c
  · subst h
    simp
  · rw [setLiveIterators_of_ne s h]

/-- Erases the entry at `at'` and moves every walk and registered iterator along:
the tail of `delete`. -/
def erase (s : State ν) (c at' : ℕ) : State ν :=
  ((s.setEntries c ((s.collections c).entries.eraseIdx at')).moveWalks
    fun w => w.removed c at').moveIndices c fun index => if at' < index then index - 1 else index

/-- Drops every entry and sends every walk and registered iterator back to the start. -/
def clear (s : State ν) (c : ℕ) : State ν :=
  ((s.setEntries c []).moveWalks fun w => w.cleared c).moveIndices c fun _ => 0

/-- The head of the innermost `forEach` loop: visits the next entry or ends the loop. -/
def advance (s : State ν) : List ForEachFrame → State ν × Answer ν
  | [] => (s, .undefined)
  | frame :: outer =>
    match (s.collections frame.walk.entries).entries[frame.walk.next]? with
    | some entry =>
      let walk := { frame.walk with next := frame.walk.next + 1 }
      ({ s with frames := { frame with walk := walk } :: outer }, .visits entry)
    | none => ({ s with frames := outer }, .undefined)

/-- The callback of the innermost loop has returned. The loop ends when the unwind count has
moved since it started, and asks for the next entry otherwise. -/
def returned (s : State ν) : State ν × Answer ν :=
  match s.frames with
  | [] => (s, .undefined)
  | frame :: outer =>
    if s.unwinds ≠ frame.before then ({ s with frames := outer }, .undefined)
    else s.advance s.frames

/-- `collection_iterator`: a new iterator, registered; past the cap the oldest registration
goes. -/
def newIterator (s : State ν) (c : ℕ) (kind : IterationKind) : State ν × Answer ν :=
  let registered := (s.collections c).liveIterators ++ [s.iterators.length]
  let made := s.setLiveIterators c
    (if registered.length > maxLiveIterators then registered.tail else registered)
  ({ made with iterators := s.iterators ++ [⟨some c, 0, kind⟩] }, .made s.iterators.length)

/-- `collection_iterator_next`. An iterator past the last entry unregisters and lets go of
its collection. -/
def next (s : State ν) (i : ℕ) : State ν × Answer ν :=
  match s.iterators[i]? with
  | none => (s, .typeError)
  | some it =>
    match it.iterated with
    | none => (s, .finished)
    | some c =>
      match (s.collections c).entries[it.index]? with
      | none =>
        let finished := s.setLiveIterators c ((s.collections c).liveIterators.filter (· ≠ i))
        ({ finished with iterators := s.iterators.set i { it with iterated := none } }, .finished)
      | some entry =>
        ({ s with iterators := s.iterators.set i { it with index := it.index + 1 } },
          .iterResult (it.kind.item entry))

end State

/-- One call and its answer. A method of the other class is a TypeError. -/
def step {ν : Type} (ops : KeyOps ν) (s : State ν) : Call ν → State ν × Answer ν
  | .set c key held =>
    if (s.collections c).kind = .map then
      (s.setEntries c (putPair ops (s.collections c).entries (ops.normaliseKey key) held),
        .receiver)
    else (s, .typeError)
  | .add c member =>
    if (s.collections c).kind = .set then
      (s.setEntries c (addMember ops (s.collections c).entries (ops.normaliseKey member)),
        .receiver)
    else (s, .typeError)
  | .delete c key =>
    match findEntry ops (s.collections c).entries key with
    | some at' => (s.erase c at', .boolean true)
    | none => (s, .boolean false)
  | .clear c => (s.clear c, .undefined)
  | .forEach c => s.advance (⟨⟨c, 0⟩, s.unwinds⟩ :: s.frames)
  | .returns => s.returned
  | .throws => ({ s with frames := s.frames.tail, unwinds := s.unwinds + 1 }, .thrown)
  | .caught => ({ s with unwinds := s.unwinds + 1 }, .undefined)
  | .iterator c kind => s.newIterator c kind
  | .next i => s.next i

/-- Collections of the given classes, before any call. -/
def State.fresh {ν : Type} (kinds : ℕ → Kind) : State ν :=
  { collections := fun c => ⟨kinds c, [], []⟩, iterators := [], frames := [], unwinds := 0 }

/-- The unfinished iterators over a collection. -/
def State.unfinished {ν : Type} (s : State ν) (c : ℕ) : List ℕ :=
  (List.range s.iterators.length).filter fun i =>
    s.iterators[i]?.bind CollectionIterator.iterated = some c

end CtBrowser.Script.Collections
