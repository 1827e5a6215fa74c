import CtBrowser.Script.Promises.Machine

/-!
# The Promise Protocol

What holds of the promises of a realm in every state its scripts reach: a promise settles at
most once and for good, each reaction is queued once and in the order of registration, jobs
are started in the order they were queued and handlers are called by them only, and a pair of
resolving functions has one effect.

## Main definitions

- `registeredOn`, `queuedOn` — the reactions registered on a promise and those queued.
- `Protocol` — the invariant.
- `Keeps` — settled promises stay as they are.

## Main results

- `protocol_of_reachable` — the invariant and the permanence, over whole runs.
-/

namespace CtBrowser.Script.Promises

/-- Those of some registrations that are on a promise. -/
def numbersOn (registered : List PromiseId) (id : PromiseId) (numbers : List ℕ) : List ℕ :=
  numbers.filter fun n => registered[n]? = some id

/-- The numbers of the reactions registered on a promise, in order. -/
def registeredOn (h : History) (id : PromiseId) : List ℕ :=
  numbersOn h.registered id (List.range h.registered.length)

/-- The numbers of the reactions of a promise that have been queued, in order. -/
def queuedOn (h : History) (id : PromiseId) : List ℕ :=
  numbersOn h.registered id (h.queued.filterMap Prod.snd)

/-- The promise protocol. -/
structure Protocol (s : State) : Prop where
  -- jobs are started in the order they were queued
  inOrder : (s.history.started ++ s.queue).Sublist (s.history.queued.map Prod.fst)
  -- a handler is called by its job
  called : s.history.called.Sublist s.history.started
  -- a pending promise keeps its reactions, and none of them has been queued
  pending : ∀ (id : PromiseId) (p : Slots), s.promises[id]? = some p → p.settled = false →
    p.handlers.map Record.registration = registeredOn s.history id ∧ queuedOn s.history id = []
  -- each reaction of a settled promise has been queued once, in the order of registration
  settled : ∀ (id : PromiseId) (p : Slots), s.promises[id]? = some p → p.settled = true →
    p.handlers = [] ∧ queuedOn s.history id = registeredOn s.history id
  settledOnce : ∀ (id : PromiseId) (p : Slots), s.promises[id]? = some p →
    s.history.settled.count id = if p.settled then 1 else 0
  effectOnce : ∀ (pair : PairId) (shared : Pair), s.pairs[pair]? = some shared →
    s.history.effects.count pair = if shared.done then 1 else 0
  registered_lt : ∀ id ∈ s.history.registered, id < s.promises.length
  queued_lt : ∀ n ∈ s.history.queued.filterMap Prod.snd, n < s.history.registered.length
  settled_lt : ∀ id ∈ s.history.settled, id < s.promises.length
  effects_lt : ∀ pair ∈ s.history.effects, pair < s.pairs.length

/-- Settled promises stay settled, with their value. -/
def Keeps (s s' : State) : Prop :=
  ∀ (id : PromiseId) (p : Slots), s.promises[id]? = some p → p.settled = true →
    ∃ p' : Slots, s'.promises[id]? = some p' ∧ p'.settled = true ∧ p'.value = p.value ∧
      p'.rejected = p.rejected

/-- A change of state that keeps the protocol and every settled promise. -/
structure Sound (s s' : State) : Prop where
  protocol : Protocol s → Protocol s'
  keeps : Keeps s s'

theorem Keeps.refl (s : State) : Keeps s s := fun _ p hp hs => ⟨p, hp, hs, rfl, rfl⟩

theorem Keeps.trans {s s' s'' : State} (h : Keeps s s') (h' : Keeps s' s'') : Keeps s s'' := by
  intro id p hp hs
  obtain ⟨p', hp', hs', hvalue, hrejected⟩ := h id p hp hs
  obtain ⟨p'', hp'', hs'', hvalue', hrejected'⟩ := h' id p' hp' hs'
  exact ⟨p'', hp'', hs'', hvalue'.trans hvalue, hrejected'.trans hrejected⟩

theorem Sound.refl (s : State) : Sound s s := ⟨id, .refl s⟩

theorem Sound.trans {s s' s'' : State} (h : Sound s s') (h' : Sound s' s'') : Sound s s'' :=
  ⟨h'.protocol ∘ h.protocol, h.keeps.trans h'.keeps⟩

theorem Sound.of_eq {s s' : State} (hpromises : s'.promises = s.promises)
    (hpairs : s'.pairs = s.pairs) (hqueue : s'.queue = s.queue) (hhistory : s'.history = s.history) :
    Sound s s' := by
  constructor
  · intro h
    constructor <;> simp only [hpromises, hpairs, hqueue, hhistory]
    · exact h.inOrder
    · exact h.called
    · exact h.pending
    · exact h.settled
    · exact h.settledOnce
    · exact h.effectOnce
    · exact h.registered_lt
    · exact h.queued_lt
    · exact h.settled_lt
    · exact h.effects_lt
  · intro id p hp hs
    exact ⟨p, by rwa [hpromises], hs, rfl, rfl⟩

theorem getElem?_concat_eq_some_iff {α : Type} {l : List α} {a b : α} {i : ℕ} :
    (l ++ [a])[i]? = some b ↔ l[i]? = some b ∨ (i = l.length ∧ b = a) := by
  rcases lt_trichotomy i l.length with h | rfl | h
  · simp [List.getElem?_append_left h, h.ne]
  · simp [eq_comm]
  · have hout : l.length + 1 ≤ i := h
    simp [List.getElem?_eq_none, hout, h.le, h.ne']

/-! ### Registrations -/

theorem numbersOn_append (registered : List PromiseId) (id : PromiseId) (numbers more : List ℕ) :
    numbersOn registered id (numbers ++ more) =
      numbersOn registered id numbers ++ numbersOn registered id more :=
  List.filter_append ..

theorem numbersOn_concat {registered : List PromiseId} (id x : PromiseId) {numbers : List ℕ}
    (h : ∀ n ∈ numbers, n < registered.length) :
    numbersOn (registered ++ [id]) x numbers = numbersOn registered x numbers := by
  apply List.filter_congr
  intro n hn
  rw [List.getElem?_append_left (h n hn)]

theorem numbersOn_concat_self (registered : List PromiseId) (id x : PromiseId) :
    numbersOn (registered ++ [id]) x [registered.length] =
      if x = id then [registered.length] else [] := by
  by_cases hx : x = id
  · simp [numbersOn, hx]
  · have hx' : ¬ id = x := fun he => hx he.symm
    simp [numbersOn, hx, hx']

theorem registeredOn_concat (h : History) (id x : PromiseId) :
    registeredOn { h with registered := h.registered ++ [id] } x =
      registeredOn h x ++ if x = id then [h.registered.length] else [] := by
  show numbersOn (h.registered ++ [id]) x (List.range (h.registered ++ [id]).length) = _
  rw [List.length_append, List.length_singleton, List.range_succ, numbersOn_append,
    numbersOn_concat id x fun n hn => List.mem_range.mp hn, numbersOn_concat_self]
  rfl

theorem numbersOn_registeredOn (h : History) (id x : PromiseId) :
    numbersOn h.registered x (registeredOn h id) = if x = id then registeredOn h id else [] := by
  by_cases hx : x = id
  · subst hx
    rw [if_pos rfl, registeredOn, numbersOn, numbersOn, List.filter_filter]
    simp
  · rw [if_neg hx, numbersOn, List.filter_eq_nil_iff]
    intro n hn
    have hid : h.registered[n]? = some id := by
      simpa using (List.mem_filter.mp hn).2
    have hne : ¬ id = x := fun he => hx he.symm
    simp [hid, hne]

theorem lt_of_mem_registeredOn {h : History} {id : PromiseId} {n : ℕ} (hn : n ∈ registeredOn h id) :
    n < h.registered.length :=
  List.mem_range.mp (List.mem_filter.mp hn).1

namespace State

theorem sound_push (s : State) (frame : Frame) : Sound s (s.push frame) := .of_eq rfl rfl rfl rfl

theorem sound_queueMicrotask (s : State) (job : Job) : Sound s (s.queueMicrotask job none) := by
  have hqueued : ∀ id, queuedOn (s.queueMicrotask job none).history id = queuedOn s.history id := by
    intro id
    have hsame : (s.history.queued ++ [(job, none)]).filterMap Prod.snd =
        s.history.queued.filterMap Prod.snd := by
      simp
    show numbersOn _ id ((s.history.queued ++ [(job, none)]).filterMap Prod.snd) = _
    rw [hsame]
    rfl
  refine ⟨fun h => ⟨?_, h.called, ?_, ?_, h.settledOnce, h.effectOnce, h.registered_lt, ?_,
    h.settled_lt, h.effects_lt⟩, .refl s⟩
  · show (s.history.started ++ (s.queue ++ [job])).Sublist _
    simp only [queueMicrotask, List.map_append, List.map_cons, List.map_nil]
    rw [← List.append_assoc]
    exact h.inOrder.append (.refl _)
  · intro id p hp hs
    rw [hqueued]
    exact h.pending id p hp hs
  · intro id p hp hs
    rw [hqueued]
    exact h.settled id p hp hs
  · intro n hn
    simp only [queueMicrotask, List.filterMap_append] at hn
    exact h.queued_lt n (by simpa using hn)

theorem sound_pendingPromise (s : State) : Sound s s.pendingPromise.1 := by
  have hlength : s.pendingPromise.1.promises.length = s.promises.length + 1 := by
    simp [pendingPromise]
  refine ⟨fun h => ⟨h.inOrder, h.called, ?_, ?_, ?_, h.effectOnce, ?_, h.queued_lt, ?_,
    h.effects_lt⟩, ?_⟩
  · intro id p hp hs
    rcases getElem?_concat_eq_some_iff.mp hp with hp | ⟨rfl, rfl⟩
    · exact h.pending id p hp hs
    · have hnone : ∀ n : ℕ, s.history.registered[n]? ≠ some s.promises.length := by
        intro n hn
        exact absurd (h.registered_lt _ (List.mem_of_getElem? hn)) (lt_irrefl _)
      simp [registeredOn, queuedOn, numbersOn, pendingPromise, hnone]
  · intro id p hp hs
    rcases getElem?_concat_eq_some_iff.mp hp with hp | ⟨rfl, rfl⟩
    · exact h.settled id p hp hs
    · simp at hs
  · intro id p hp
    rcases getElem?_concat_eq_some_iff.mp hp with hp | ⟨rfl, rfl⟩
    · exact h.settledOnce id p hp
    · show s.history.settled.count s.promises.length = 0
      exact List.count_eq_zero.mpr fun hmem => lt_irrefl _ (h.settled_lt _ hmem)
  · intro id hid
    rw [hlength]
    exact Nat.lt_succ_of_lt (h.registered_lt id hid)
  · intro id hid
    rw [hlength]
    exact Nat.lt_succ_of_lt (h.settled_lt id hid)
  · intro id p hp hs
    exact ⟨p, getElem?_concat_eq_some_iff.mpr (.inl hp), hs, rfl, rfl⟩

theorem sound_resolversFor (s : State) (promise : Value) : Sound s (s.resolversFor promise).1 := by
  refine ⟨fun h => ⟨h.inOrder, h.called, h.pending, h.settled, h.settledOnce, ?_, h.registered_lt,
    h.queued_lt, h.settled_lt, ?_⟩, .refl s⟩
  · intro pair shared hshared
    rcases getElem?_concat_eq_some_iff.mp hshared with hshared | ⟨rfl, rfl⟩
    · exact h.effectOnce pair shared hshared
    · show s.history.effects.count s.pairs.length = 0
      exact List.count_eq_zero.mpr fun hmem => lt_irrefl _ (h.effects_lt _ hmem)
  · intro pair hpair
    have hlength : (s.resolversFor promise).1.pairs.length = s.pairs.length + 1 := by
      simp [resolversFor]
    rw [hlength]
    exact Nat.lt_succ_of_lt (h.effects_lt pair hpair)

/-- A promise that differs in nothing the protocol reads. -/
theorem sound_markHandled (s : State) (id : PromiseId) : Sound s (s.markHandled id) := by
  have hmarked : ∀ {x : PromiseId} {p' : Slots}, (s.markHandled id).promises[x]? = some p' →
      ∃ p : Slots, s.promises[x]? = some p ∧ p'.settled = p.settled ∧ p'.handlers = p.handlers := by
    intro x p' hp'
    simp only [markHandled, List.getElem?_modify] at hp'
    obtain ⟨p, hp, rfl⟩ := Option.map_eq_some_iff.mp hp'
    refine ⟨p, hp, ?_⟩
    split <;> exact ⟨rfl, rfl⟩
  have hlength : (s.markHandled id).promises.length = s.promises.length := by
    simp [markHandled]
  refine ⟨fun h => ⟨h.inOrder, h.called, ?_, ?_, ?_, h.effectOnce, ?_, h.queued_lt, ?_,
    h.effects_lt⟩, ?_⟩
  · intro x p' hp' hs
    obtain ⟨p, hp, hsettled, hhandlers⟩ := hmarked hp'
    rw [hhandlers]
    exact h.pending x p hp (hsettled ▸ hs)
  · intro x p' hp' hs
    obtain ⟨p, hp, hsettled, hhandlers⟩ := hmarked hp'
    rw [hhandlers]
    exact h.settled x p hp (hsettled ▸ hs)
  · intro x p' hp'
    obtain ⟨p, hp, hsettled, -⟩ := hmarked hp'
    rw [hsettled]
    exact h.settledOnce x p hp
  · rw [hlength]
    exact h.registered_lt
  · rw [hlength]
    exact h.settled_lt
  · intro x p hp hs
    refine ⟨_, by simp only [markHandled, List.getElem?_modify, hp]; rfl, ?_⟩
    split <;> exact ⟨hs, rfl, rfl⟩

theorem foldl_enqueueReaction (s : State) (records : List Record) (argument : Value)
    (rejected : Bool) :
    records.foldl (fun s record => s.enqueueReaction record argument rejected) s =
      { s with
        queue := s.queue ++ records.map fun record => .reaction record argument rejected
        history := { s.history with
          queued := s.history.queued ++ records.map fun record =>
            (.reaction record argument rejected, some record.registration) } } := by
  induction records generalizing s with
  | nil => simp
  | cons record rest ih =>
    rw [List.foldl_cons, ih]
    simp [enqueueReaction, queueMicrotask]

/-- Settling a pending promise queues its reactions, in order. -/
theorem sound_settle (s : State) (promise argument : Value) (rejected : Bool) :
    Sound s (s.settle promise argument rejected) := by
  cases promise with
  | promise id =>
    cases hp : s.promises[id]? with
    | none => simpa only [settle, hp] using Sound.refl s
    | some p =>
      cases hs : p.settled with
      | true => simpa only [settle, hp, hs, if_true] using Sound.refl s
      | false =>
        obtain ⟨hlt, -⟩ := List.getElem?_eq_some_iff.mp hp
        simp only [settle, hp, hs, Bool.false_eq_true, if_false, foldl_enqueueReaction]
        constructor
        · intro h
          obtain ⟨hhandlers, hnone⟩ := h.pending id p hp hs
          -- the numbers of the queued records are those registered on the promise
          have hqueued : ∀ x, queuedOn
              { s.history with
                settled := s.history.settled ++ [id]
                queued := s.history.queued ++ p.handlers.map fun record =>
                  (Job.reaction record argument rejected, some record.registration) } x =
              if x = id then registeredOn s.history id else queuedOn s.history x := by
            intro x
            have hmap : (p.handlers.map fun record =>
                (Job.reaction record argument rejected, some record.registration)).filterMap
                  Prod.snd = registeredOn s.history id := by
              rw [← hhandlers, List.filterMap_map]
              exact List.filterMap_eq_map (f := Record.registration) ▸ rfl
            show numbersOn _ x ((s.history.queued ++ _).filterMap Prod.snd) = _
            rw [List.filterMap_append, hmap, numbersOn_append]
            show queuedOn s.history x ++ numbersOn s.history.registered x _ = _
            rw [numbersOn_registeredOn]
            by_cases hx : x = id
            · subst hx
              simp [hnone]
            · simp [hx]
          have hother : ∀ {x : PromiseId} {p' q : Slots}, (s.promises.set id q)[x]? = some p' →
              x ≠ id → s.promises[x]? = some p' := by
            intro x p' q hp' hx
            rwa [List.getElem?_set_ne (Ne.symm hx)] at hp'
          constructor
          · show (s.history.started ++ (s.queue ++ _)).Sublist _
            rw [List.map_append, List.map_map, ← List.append_assoc]
            exact h.inOrder.append (.refl _)
          · exact h.called
          · intro x p' hp' hs'
            have hx : x ≠ id := by
              rintro rfl
              rw [List.getElem?_set_self hlt] at hp'
              obtain rfl := Option.some.inj hp'
              simp at hs'
            rw [hqueued, if_neg hx]
            exact h.pending x p' (hother hp' hx) hs'
          · intro x p' hp' hs'
            rw [hqueued]
            by_cases hx : x = id
            · subst hx
              rw [List.getElem?_set_self hlt] at hp'
              obtain rfl := Option.some.inj hp'
              exact ⟨rfl, if_pos rfl⟩
            · rw [if_neg hx]
              exact h.settled x p' (hother hp' hx) hs'
          · intro x p' hp'
            show (s.history.settled ++ [id]).count x = _
            rw [List.count_append, List.count_singleton]
            by_cases hx : x = id
            · subst hx
              rw [List.getElem?_set_self hlt] at hp'
              obtain rfl := Option.some.inj hp'
              simp [h.settledOnce x p hp, hs]
            · have hx' : ¬ id = x := fun he => hx he.symm
              simp [hx', h.settledOnce x p' (hother hp' hx)]
          · exact h.effectOnce
          · show ∀ x ∈ s.history.registered, x < (s.promises.set id _).length
            rw [List.length_set]
            exact h.registered_lt
          · intro n hn
            rcases List.mem_append.mp (List.filterMap_append ▸ hn) with hn | hn
            · exact h.queued_lt n hn
            · obtain ⟨pair, hpair, hn⟩ := List.mem_filterMap.mp hn
              obtain ⟨record, hrecord, rfl⟩ := List.mem_map.mp hpair
              obtain rfl := Option.some.inj hn
              have hmem : record.registration ∈ registeredOn s.history id := by
                rw [← hhandlers]
                exact List.mem_map_of_mem hrecord
              exact lt_of_mem_registeredOn hmem
          · show ∀ x ∈ s.history.settled ++ [id], x < (s.promises.set id _).length
            rw [List.length_set]
            intro x hx
            rcases List.mem_append.mp hx with hx | hx
            · exact h.settled_lt x hx
            · rwa [List.mem_singleton.mp hx]
          · exact h.effects_lt
        · intro x p' hp' hs'
          have hx : x ≠ id := by
            rintro rfl
            obtain rfl := Option.some.inj (hp.symm.trans hp')
            simp [hs] at hs'
          refine ⟨p', ?_, hs', rfl, rfl⟩
          show (s.promises.set id _)[x]? = _
          rwa [List.getElem?_set_ne (Ne.symm hx)]
  | undefined => exact .refl s
  | primitive bits => exact .refl s
  | resolving pair rejecting => exact .refl s
  | function id => exact .refl s
  | object id => exact .refl s
  | error name message => exact .refl s

/-- A reaction that a pending promise keeps. -/
theorem sound_registerPending (s : State) {id : PromiseId} {p : Slots}
    (hp : s.promises[id]? = some p) (hs : p.settled = false) {record : Record}
    (hrecord : record.registration = s.history.registered.length) :
    Sound s { s with
      promises := s.promises.set id { p with handlers := p.handlers ++ [record] }
      history := { s.history with registered := s.history.registered ++ [id] } } := by
  obtain ⟨hlt, -⟩ := List.getElem?_eq_some_iff.mp hp
  have hother : ∀ {x : PromiseId} {p' q : Slots}, (s.promises.set id q)[x]? = some p' →
      x ≠ id → s.promises[x]? = some p' := by
    intro x p' q hp' hx
    rwa [List.getElem?_set_ne (Ne.symm hx)] at hp'
  constructor
  · intro h
    have hqueued : ∀ x, queuedOn
        { s.history with registered := s.history.registered ++ [id] } x =
          queuedOn s.history x :=
      fun x => numbersOn_concat id x h.queued_lt
    constructor
    · exact h.inOrder
    · exact h.called
    · intro x p' hp' hs'
      rw [hqueued, registeredOn_concat]
      by_cases hx : x = id
      · subst hx
        rw [List.getElem?_set_self hlt] at hp'
        obtain rfl := Option.some.inj hp'
        obtain ⟨hhandlers, hnone⟩ := h.pending x p hp hs
        refine ⟨?_, hnone⟩
        rw [List.map_append, hhandlers, if_pos rfl]
        simp [hrecord]
      · rw [if_neg hx, List.append_nil]
        exact h.pending x p' (hother hp' hx) hs'
    · intro x p' hp' hs'
      have hx : x ≠ id := by
        rintro rfl
        rw [List.getElem?_set_self hlt] at hp'
        obtain rfl := Option.some.inj hp'
        simp [hs] at hs'
      rw [hqueued, registeredOn_concat, if_neg hx, List.append_nil]
      exact h.settled x p' (hother hp' hx) hs'
    · intro x p' hp'
      by_cases hx : x = id
      · subst hx
        rw [List.getElem?_set_self hlt] at hp'
        obtain rfl := Option.some.inj hp'
        exact h.settledOnce x p hp
      · exact h.settledOnce x p' (hother hp' hx)
    · exact h.effectOnce
    · intro x hx
      rw [List.length_set]
      rcases List.mem_append.mp hx with hx | hx
      · exact h.registered_lt x hx
      · rwa [List.mem_singleton.mp hx]
    · intro n hn
      rw [List.length_append]
      exact Nat.lt_add_right _ (h.queued_lt n hn)
    · rw [List.length_set]
      exact h.settled_lt
    · exact h.effects_lt
  · intro x p' hp' hs'
    have hx : x ≠ id := by
      rintro rfl
      obtain rfl := Option.some.inj (hp.symm.trans hp')
      simp [hs] at hs'
    refine ⟨p', ?_, hs', rfl, rfl⟩
    rwa [List.getElem?_set_ne (Ne.symm hx)]

/-- A reaction of a settled promise is queued at once. -/
theorem sound_registerSettled (s : State) {id : PromiseId} {p : Slots}
    (hp : s.promises[id]? = some p) (hs : p.settled = true) (job : Job) :
    Sound s (({ s with
      history := { s.history with registered := s.history.registered ++ [id] } } :
        State).queueMicrotask job (some s.history.registered.length)) := by
  obtain ⟨hlt, -⟩ := List.getElem?_eq_some_iff.mp hp
  refine ⟨fun h => ?_, .refl s⟩
  have hnumbers : (s.history.queued ++ [(job, some s.history.registered.length)]).filterMap
      Prod.snd = s.history.queued.filterMap Prod.snd ++ [s.history.registered.length] := by
    simp
  have hqueued : ∀ x, queuedOn
      { s.history with
        registered := s.history.registered ++ [id]
        queued := s.history.queued ++ [(job, some s.history.registered.length)] } x =
        queuedOn s.history x ++ if x = id then [s.history.registered.length] else [] := by
    intro x
    show numbersOn _ x ((s.history.queued ++ _).filterMap Prod.snd) = _
    rw [hnumbers, numbersOn_append, numbersOn_concat id x h.queued_lt, numbersOn_concat_self]
    rfl
  have hregistered : ∀ x, registeredOn
      { s.history with
        registered := s.history.registered ++ [id]
        queued := s.history.queued ++ [(job, some s.history.registered.length)] } x =
        registeredOn s.history x ++ if x = id then [s.history.registered.length] else [] :=
    registeredOn_concat s.history id
  constructor
  · show (s.history.started ++ (s.queue ++ [job])).Sublist
      ((s.history.queued ++ [(job, some _)]).map Prod.fst)
    rw [List.map_append, ← List.append_assoc]
    exact h.inOrder.append (.refl _)
  · exact h.called
  · intro x p' hp' hs'
    have hx : x ≠ id := by
      rintro rfl
      obtain rfl := Option.some.inj (hp.symm.trans hp')
      simp [hs] at hs'
    obtain ⟨hhandlers, hnone⟩ := h.pending x p' hp' hs'
    refine ⟨?_, ?_⟩
    · exact (hregistered x).symm ▸ (by simpa [hx] using hhandlers)
    · exact (hqueued x).trans (by simpa [hx] using hnone)
  · intro x p' hp' hs'
    obtain ⟨hhandlers, hsame⟩ := h.settled x p' hp' hs'
    exact ⟨hhandlers, (hqueued x).trans (hsame ▸ (hregistered x).symm)⟩
  · exact h.settledOnce
  · exact h.effectOnce
  · intro x hx
    rcases List.mem_append.mp hx with hx | hx
    · exact h.registered_lt x hx
    · rwa [List.mem_singleton.mp hx]
  · intro n hn
    show n < (s.history.registered ++ [id]).length
    rw [List.length_append, List.length_singleton]
    have hn' : n ∈ (s.history.queued ++ [(job, some s.history.registered.length)]).filterMap
        Prod.snd := hn
    rw [hnumbers] at hn'
    rcases List.mem_append.mp hn' with hn' | hn'
    · exact Nat.lt_succ_of_lt (h.queued_lt n hn')
    · rw [List.mem_singleton.mp hn']
      exact Nat.lt_succ_self _
  · exact h.settled_lt
  · exact h.effects_lt

theorem sound_markDone (s : State) {pair : PairId} {shared : Pair}
    (hshared : s.pairs[pair]? = some shared) (hdone : shared.done = false) :
    Sound s { s with
      pairs := s.pairs.set pair { shared with done := true }
      history := { s.history with effects := s.history.effects ++ [pair] } } := by
  obtain ⟨hlt, -⟩ := List.getElem?_eq_some_iff.mp hshared
  refine ⟨fun h => ⟨h.inOrder, h.called, h.pending, h.settled, h.settledOnce, ?_, h.registered_lt,
    h.queued_lt, h.settled_lt, ?_⟩, .refl s⟩
  · intro x shared' hshared'
    rw [List.count_append, List.count_singleton]
    by_cases hx : x = pair
    · subst hx
      rw [List.getElem?_set_self hlt] at hshared'
      obtain rfl := Option.some.inj hshared'
      simp [h.effectOnce x shared hshared, hdone]
    · have hx' : ¬ pair = x := fun he => hx he.symm
      rw [List.getElem?_set_ne hx'] at hshared'
      simp [hx', h.effectOnce x shared' hshared']
  · intro x hx
    rw [List.length_set]
    rcases List.mem_append.mp hx with hx | hx
    · exact h.effects_lt x hx
    · rwa [List.mem_singleton.mp hx]

/-! ### The algorithms -/

theorem sound_resolvePromise (s : State) (promise resolution : Value) :
    Sound s (s.resolvePromise promise resolution) := by
  rw [resolvePromise]
  split_ifs
  · exact sound_settle ..
  · exact sound_settle ..
  · exact sound_push ..

theorem sound_afterGetThen (s : State) (promise resolution : Value) (completion : Completion) :
    Sound s (s.afterGetThen promise resolution completion) := by
  cases completion with
  | thrown thrown => exact sound_settle ..
  | returned callee =>
    rw [afterGetThen]
    split
    · exact sound_queueMicrotask ..
    · exact sound_settle ..

theorem sound_callResolving (s : State) (pair : PairId) (rejecting : Bool) (argument : Value) :
    Sound s (s.callResolving pair rejecting argument) := by
  rw [callResolving]
  cases hshared : s.pairs[pair]? with
  | none => exact .refl s
  | some shared =>
    cases hdone : shared.done with
    | true => simpa [hdone] using Sound.refl s
    | false =>
      have hmark := sound_markDone s hshared hdone
      simp only [hdone, Bool.false_eq_true, if_false]
      split
      · exact hmark.trans (sound_settle ..)
      · exact hmark.trans (sound_resolvePromise ..)

theorem sound_call (s : State) (frame : Frame) (callee argument : Value) :
    Sound s (s.call frame callee argument) := by
  cases callee with
  | resolving pair rejecting => exact (sound_push s frame).trans (sound_callResolving ..)
  | undefined => exact sound_push s frame
  | primitive bits => exact sound_push s frame
  | promise id => exact sound_push s frame
  | function id => exact sound_push s frame
  | object id => exact sound_push s frame
  | error name message => exact sound_push s frame

theorem sound_settleCapability (s : State) (cap : Capability) (argument : Value)
    (rejected : Bool) : Sound s (s.settleCapability cap argument rejected) := by
  rw [settleCapability]
  generalize (if rejected then cap.reject else cap.resolve) = callee
  split_ifs
  · exact sound_call ..
  · exact sound_settle ..
  · exact sound_resolvePromise ..

theorem sound_performThen (s : State) (id : PromiseId) (ok err : Value) (next : Capability) :
    Sound s (s.performThen id ok err next) := by
  rw [performThen]
  cases hp : s.promises[id]? with
  | none => exact .refl s
  | some p =>
    dsimp only
    split
    · next hs => exact (sound_registerSettled s hp hs _).trans (sound_markHandled ..)
    · next hs =>
      have hpending : p.settled = false := by simpa using hs
      exact (sound_registerPending s hp hpending rfl).trans (sound_markHandled ..)

theorem sound_afterHandler (s : State) (next : Capability) (result : Value) (threw : Bool) :
    Sound s (s.afterHandler next result threw) := by
  rw [afterHandler]
  split
  · exact sound_settleCapability ..
  · exact .refl s

theorem sound_resume (s : State) (coroutine : CoroutineId) : Sound s (s.resume coroutine) := by
  rw [resume]
  cases s.coroutines[coroutine]? with
  | none => exact .refl s
  | some promise => exact sound_push ..

theorem sound_suspend (s : State) (promise awaited : Value) :
    Sound s (s.suspend promise awaited) := by
  have hsaved : Sound s { s with coroutines := s.coroutines ++ [promise] } := .of_eq rfl rfl rfl rfl
  cases awaited with
  | promise id =>
    rw [suspend]
    cases hp : s.promises[id]? with
    | none => exact hsaved.trans (sound_queueMicrotask ..)
    | some p =>
      dsimp only
      split
      · next hs =>
        have hmarked := (sound_registerSettled { s with coroutines := s.coroutines ++ [promise] } hp
          hs (.await s.coroutines.length p.value p.rejected)).trans (sound_markHandled _ id)
        exact hsaved.trans hmarked
      · next hs =>
        have hpending : p.settled = false := by simpa using hs
        have hrecord : Record.registration ⟨.resume s.coroutines.length,
            s.history.registered.length⟩ = s.history.registered.length := rfl
        have hkept := sound_registerPending { s with coroutines := s.coroutines ++ [promise] }
          hp hpending hrecord
        exact hsaved.trans (hkept.trans (sound_markHandled ..))
  | undefined => exact hsaved.trans (sound_queueMicrotask ..)
  | primitive bits => exact hsaved.trans (sound_queueMicrotask ..)
  | resolving pair rejecting => exact hsaved.trans (sound_queueMicrotask ..)
  | function id => exact hsaved.trans (sound_queueMicrotask ..)
  | object id => exact hsaved.trans (sound_queueMicrotask ..)
  | error name message => exact hsaved.trans (sound_queueMicrotask ..)

theorem sound_finishCoroutine (s : State) (promise : Value) (completion : Completion) :
    Sound s (s.finishCoroutine promise completion) := by
  cases completion with
  | thrown thrown => exact sound_settle ..
  | returned value =>
    cases value with
    | promise id =>
      rw [finishCoroutine]
      cases s.promises[id]? with
      | none => exact sound_resolvePromise ..
      | some p =>
        dsimp only
        split_ifs
        · exact (sound_markHandled ..).trans (sound_settle ..)
        · exact (sound_markHandled ..).trans (sound_resolvePromise ..)
        · exact sound_resolvePromise ..
    | undefined => exact sound_resolvePromise ..
    | primitive bits => exact sound_resolvePromise ..
    | resolving pair rejecting => exact sound_resolvePromise ..
    | function id => exact sound_resolvePromise ..
    | object id => exact sound_resolvePromise ..
    | error name message => exact sound_resolvePromise ..

/-! ### Jobs -/

theorem sound_start (s : State) {job : Job} {rest : List Job} (hqueue : s.queue = job :: rest) :
    Sound s { s with
        queue := rest
        history := { s.history with started := s.history.started ++ [job] } } ∧
      Sound s (({ s with
        queue := rest
        history := { s.history with started := s.history.started ++ [job] } } : State).noteCall
          job) := by
  have hinOrder : Protocol s → ((s.history.started ++ [job]) ++ rest).Sublist
      (s.history.queued.map Prod.fst) := by
    intro h
    have horder := h.inOrder
    rw [hqueue] at horder
    simpa using horder
  constructor
  · refine ⟨fun h => ⟨hinOrder h, ?_, h.pending, h.settled, h.settledOnce, h.effectOnce,
      h.registered_lt, h.queued_lt, h.settled_lt, h.effects_lt⟩, .refl s⟩
    exact h.called.trans (List.sublist_append_left ..)
  · refine ⟨fun h => ⟨hinOrder h, ?_, h.pending, h.settled, h.settledOnce, h.effectOnce,
      h.registered_lt, h.queued_lt, h.settled_lt, h.effects_lt⟩, .refl s⟩
    exact h.called.append (.refl _)

theorem sound_runJob {s s' : State} (h : s.runJob = some s') : Sound s s' := by
  rw [runJob] at h
  cases hqueue : s.queue with
  | nil => simp [hqueue] at h
  | cons job rest =>
    simp only [hqueue, Option.some.injEq] at h
    subst h
    obtain ⟨hstart, hcall⟩ := sound_start s hqueue
    cases job with
    | reaction record argument rejected =>
      show Sound s (deliver _ record argument rejected)
      rw [deliver]
      cases record.reaction with
      | resume coroutine => exact hcall.trans (sound_resume ..)
      | handlers ok err next =>
        dsimp only
        generalize (if rejected then err else ok) = handler
        split
        · exact hcall.trans (sound_call ..)
        · exact hstart.trans (sound_afterHandler ..)
    | thenable promise thenable callee =>
      exact hstart.trans ((sound_resolversFor _ promise).trans (sound_call ..))
    | await coroutine argument rejected => exact hcall.trans (sound_resume ..)
    | script callee => exact hstart.trans (sound_call ..)

theorem sound_finish {s s' : State} {completion : Completion} (h : s.finish completion = some s') :
    Sound s s' := by
  rw [finish] at h
  cases hstack : s.stack with
  | nil => simp [hstack] at h
  | cons frame rest =>
    simp only [hstack, Option.some.injEq] at h
    subst h
    have hpop : Sound s { s with stack := rest } := .of_eq rfl rfl rfl rfl
    cases frame with
    | handler next =>
      cases completion with
      | returned value => exact hpop.trans (sound_afterHandler ..)
      | thrown value => exact hpop.trans (sound_afterHandler ..)
    | getThen promise resolution => exact hpop.trans (sound_afterGetThen ..)
    | thenable pair =>
      cases completion with
      | returned value => exact hpop
      | thrown value => exact hpop.trans (sound_callResolving ..)
    | executor pair =>
      cases completion with
      | returned value => exact hpop
      | thrown value => exact hpop.trans (sound_callResolving ..)
    | coroutine promise => exact hpop.trans (sound_finishCoroutine ..)
    | plain =>
      cases completion with
      | returned value => exact hpop
      | thrown value => exact hpop

end State

/-! ### Runs -/

/-- Every step keeps the protocol and every settled promise. -/
theorem sound_step {s s' : State} {action : Action} (h : step s action = some s') : Sound s s' := by
  cases action with
  | pendingPromise =>
    obtain rfl := Option.some.inj h
    exact s.sound_pendingPromise
  | resolversFor promise =>
    obtain rfl := Option.some.inj h
    exact s.sound_resolversFor promise
  | construct executor =>
    obtain rfl := Option.some.inj h
    exact s.sound_pendingPromise.trans ((State.sound_resolversFor ..).trans (State.sound_call ..))
  | performThen id ok err next =>
    obtain rfl := Option.some.inj h
    exact s.sound_performThen id ok err next
  | callResolving pair rejecting argument =>
    obtain rfl := Option.some.inj h
    exact s.sound_callResolving pair rejecting argument
  | settleCapability cap argument rejected =>
    obtain rfl := Option.some.inj h
    exact s.sound_settleCapability cap argument rejected
  | awaitFirst awaited =>
    obtain rfl := Option.some.inj h
    exact s.sound_pendingPromise.trans (State.sound_suspend ..)
  | awaitAgain awaited =>
    rw [step] at h
    split at h
    · next promise rest hstack =>
      obtain rfl := Option.some.inj h
      have hpop : Sound s { s with stack := rest } := .of_eq rfl rfl rfl rfl
      exact hpop.trans (State.sound_suspend ..)
    · cases h
  | queueMicrotask callee =>
    obtain rfl := Option.some.inj h
    exact s.sound_queueMicrotask (.script callee)
  | finish completion => exact State.sound_finish h
  | runJob => exact State.sound_runJob h
  | dropQueue =>
    obtain rfl := Option.some.inj h
    refine ⟨fun h => ⟨?_, h.called, h.pending, h.settled, h.settledOnce, h.effectOnce,
      h.registered_lt, h.queued_lt, h.settled_lt, h.effects_lt⟩, .refl s⟩
    have hstarted := (List.sublist_append_left s.history.started s.queue).trans h.inOrder
    simpa using hstarted

theorem protocol_new : Protocol State.new := by
  constructor <;> simp [State.new]

open Foundations Relation

/-- In every state that the scripts of a realm reach, and in every state after it, the promise
protocol holds, and what is settled stays as it is. -/
theorem protocol_of_reachable {s : State} (h : promiseSystem.Reachable (fun _ _ => True) s) :
    Protocol s ∧ ∀ s', ReflTransGen (fun a b => ∃ action, step a action = some b) s s' →
      Protocol s' ∧ Keeps s s' := by
  have hprotocol : Protocol s := by
    refine h.invariant ?_ ?_
    · rintro s rfl
      exact protocol_new
    · intro s action s' hs _ hstep
      have hsound : Sound s s' := sound_step hstep
      exact hsound.protocol hs
  refine ⟨hprotocol, fun s' hrun => ?_⟩
  induction hrun with
  | refl => exact ⟨hprotocol, .refl s⟩
  | tail _ hstep ih =>
    obtain ⟨action, hstep⟩ := hstep
    obtain ⟨hmiddle, hkeeps⟩ := ih
    have hsound := sound_step hstep
    exact ⟨hsound.protocol hmiddle, hkeeps.trans hsound.keeps⟩

theorem reachable_of_foldlM {s s' : State} (h : promiseSystem.Reachable (fun _ _ => True) s)
    {actions : List Action} (hrun : actions.foldlM step s = some s') :
    promiseSystem.Reachable (fun _ _ => True) s' := by
  induction actions generalizing s with
  | nil =>
    obtain rfl := Option.some.inj hrun
    exact h
  | cons action rest ih =>
    rw [List.foldlM_cons] at hrun
    obtain ⟨next, hnext, hrest⟩ := Option.bind_eq_some_iff.mp hrun
    exact ih (h.step trivial hnext) hrest

/-- A promise with two handlers is resolved with a thenable, whose then resolves it and throws;
an async function awaits the promise. -/
def thenableRun : List Action :=
  [.pendingPromise, .performThen 0 (.function 1) .undefined ⟨.undefined, .undefined, .undefined⟩,
    .resolversFor (.promise 0), .callResolving 0 false (.object 5), .finish (.returned (.function 2)),
    .awaitFirst (.promise 0), .runJob, .callResolving 1 false (.primitive 7),
    .callResolving 1 true (.primitive 8), .finish (.thrown (.primitive 9)), .runJob,
    .finish (.returned .undefined), .runJob]

theorem protocol_of_reachable_thenableRun :
    ∃ s, thenableRun.foldlM step State.new = some s ∧ Protocol s := by
  have hsome : (thenableRun.foldlM step State.new).isSome := by decide
  obtain ⟨s, hs⟩ := Option.isSome_iff_exists.mp hsome
  exact ⟨s, hs, (protocol_of_reachable (reachable_of_foldlM (.initial rfl) hs)).1⟩

end CtBrowser.Script.Promises
