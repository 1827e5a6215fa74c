import CtBrowser.Foundations.Lockstep
import CtBrowser.Shell.Bindings.Listeners

/-!
# Event Dispatch

A dispatch visits the targets of its event path: from the outermost to the innermost for the
capturing listeners, and back for the others. The listeners of one visit are listed before any
of them runs, and each is looked up again just before it runs.

What a page does from inside its listeners is one list of acts, and a dispatch may start from
inside a listener: dispatches nest in C++ frames, so only the innermost one can go on. How the
listeners are kept is a parameter. The `on<type>` property that is read after the listeners of
a target with no handler slot of the type is no registration, and is left out with the second
visit that some events of the browser make under an older name.

## Main definitions

- `ListenerOps` — what a dispatch asks of the listeners.
- `DispatchState`, `step` — one act, and the listener that it leads to.

## Main results

- `Simulates.answers_eq` — listeners kept in two ways give the same answers.
-/

namespace CtBrowser.Shell

open Foundations

/-- One target of an event path. -/
structure PathStep where
  target : ListenerTarget
  -- has a shadow-adjusted target
  adjusted : Bool
  htmlForm : Bool
deriving DecidableEq, Repr

/-- A target of the path and the phase it is visited in. -/
structure Visit where
  target : ListenerTarget
  capture : Bool
deriving DecidableEq, Repr

/-- The way back up. -/
def bubblePass (formEvent bubbles : Bool) : List PathStep → List Visit
  | [] => []
  | step :: path =>
    -- a `submit` or `reset` goes no further than a form that is not its target
    if formEvent && !step.adjusted && step.htmlForm then []
    else if !step.adjusted && !bubbles then bubblePass formEvent bubbles path
    else ⟨step.target, false⟩ :: bubblePass formEvent bubbles path

/-- The visits of a dispatch, from a path that starts at the target. -/
def visitsOf (type : Text) (bubbles : Bool) (path : List PathStep) : List Visit :=
  path.reverse.map (fun step => ⟨step.target, true⟩) ++
    bubblePass (type = ascii "submit" || type = ascii "reset") bubbles path

/-- What a dispatch asks of the listeners. -/
structure ListenerOps (σ κ : Type) where
  edit : σ → ListenerEdit → σ
  -- the listeners of a visit
  snapshot : σ → Text → Visit → List κ
  -- one of them, just before it runs
  begin_ : σ → Text → Visit → κ → Option (Registration × σ)
  -- after the outermost dispatch
  reap : σ → σ
  -- a dispatch starts by taking the stop immediate propagation flag down
  lowersFlag : Bool

/-- A dispatch under way. -/
structure RunningDispatch (κ : Type) where
  event : ℕ
  type : Text
  visit : Visit
  -- the listeners of this visit that are still to have their turn
  queued : List κ
  -- the visits to come
  visits : List Visit
deriving DecidableEq, Repr

/-- The listeners, the dispatches under way and the flags of every event. -/
structure DispatchState (σ κ : Type) where
  listeners : σ
  -- innermost first
  dispatches : List (RunningDispatch κ)
  dispatching : ℕ → Bool
  cancelBubble : ℕ → Bool
  stopImmediate : ℕ → Bool

/-- What a page does. -/
inductive DispatchAct
  | edit (e : ListenerEdit)
  | stopPropagation (event : ℕ)
  | stopImmediatePropagation (event : ℕ)
  | initEvent (event : ℕ)
  | dispatchEvent (event : ℕ) (type : Text) (bubbles : Bool) (path : List PathStep)
  -- the listener that was running returns
  | returns
deriving DecidableEq, Repr

/-- What follows from an act. -/
inductive DispatchAnswer
  | done
  -- the event is being dispatched already
  | invalidState
  -- a listener of the innermost dispatch is called
  | invokes (r : Registration)
  -- the innermost dispatch is over
  | over
deriving DecidableEq, Repr

namespace DispatchState

variable {σ κ : Type}

/-- Before any act. -/
def fresh (listeners : σ) : DispatchState σ κ where
  listeners := listeners
  dispatches := []
  dispatching := fun _ => false
  cancelBubble := fun _ => false
  stopImmediate := fun _ => false

variable (ops : ListenerOps σ κ)

/-- The loop over the listeners of a visit, up to the next one that runs. -/
def innerInvoke (s : DispatchState σ κ) (event : ℕ) (type : Text) (visit : Visit) :
    List κ → Option (Registration × σ × List κ)
  | [] => none
  | identity :: queued =>
    if s.stopImmediate event then none
    else match ops.begin_ s.listeners type visit identity with
      -- gone since the copy was taken
      | none => innerInvoke s event type visit queued
      | some (r, listeners) => some (r, listeners, queued)

/-- The visits, up to the next one that runs a listener. -/
def travel (s : DispatchState σ κ) (event : ℕ) (type : Text) :
    List Visit → Option (Registration × σ × RunningDispatch κ)
  | [] => none
  | visit :: visits =>
    if s.cancelBubble event then none
    else match innerInvoke ops s event type visit
        (ops.snapshot s.listeners type visit) with
      | none => travel s event type visits
      | some (r, listeners, queued) =>
        some (r, listeners, ⟨event, type, visit, queued, visits⟩)

/-- The flags come down and, after the outermost dispatch, spent listeners go. -/
def finish (s : DispatchState σ κ) (event : ℕ) (outer : List (RunningDispatch κ)) :
    DispatchState σ κ where
  listeners := if outer.isEmpty then ops.reap s.listeners else s.listeners
  dispatches := outer
  dispatching := Function.update s.dispatching event false
  cancelBubble := Function.update s.cancelBubble event false
  stopImmediate := Function.update s.stopImmediate event false

/-- The listener that a dispatch comes to, or its end. -/
def settle (s : DispatchState σ κ) (event : ℕ) (outer : List (RunningDispatch κ)) :
    Option (Registration × σ × RunningDispatch κ) → DispatchState σ κ × DispatchAnswer
  | none => (s.finish ops event outer, .over)
  | some (r, listeners, d) => ({ s with listeners, dispatches := d :: outer }, .invokes r)

/-- The flags at the start of a dispatch. -/
def start (s : DispatchState σ κ) (event : ℕ) : DispatchState σ κ :=
  { s with
    dispatching := Function.update s.dispatching event true
    stopImmediate :=
      if ops.lowersFlag then Function.update s.stopImmediate event false else s.stopImmediate }

/-- A dispatch starts, and goes on to its first listener. -/
def dispatchTo (s : DispatchState σ κ) (event : ℕ) (type : Text) (bubbles : Bool)
    (path : List PathStep) : DispatchState σ κ × DispatchAnswer :=
  if s.dispatching event then (s, .invalidState)
  else settle ops (s.start ops event) event s.dispatches
    (travel ops (s.start ops event) event type (visitsOf type bubbles path))

/-- The innermost dispatch goes on after a listener. -/
def goOn (s : DispatchState σ κ) (d : RunningDispatch κ) (outer : List (RunningDispatch κ)) :
    DispatchState σ κ × DispatchAnswer :=
  settle ops s d.event outer
    (match innerInvoke ops s d.event d.type d.visit d.queued with
    | some (r, listeners, queued) => some (r, listeners, { d with queued })
    | none => travel ops s d.event d.type d.visits)

/-- One act. -/
def step (s : DispatchState σ κ) : DispatchAct → DispatchState σ κ × DispatchAnswer
  | .edit e => ({ s with listeners := ops.edit s.listeners e }, .done)
  | .stopPropagation event =>
    ({ s with cancelBubble := Function.update s.cancelBubble event true }, .done)
  | .stopImmediatePropagation event =>
    ({ s with
      cancelBubble := Function.update s.cancelBubble event true
      stopImmediate := Function.update s.stopImmediate event true }, .done)
  | .initEvent event =>
    -- does nothing while the event is being dispatched
    if s.dispatching event then (s, .done)
    else ({ s with
      cancelBubble := Function.update s.cancelBubble event false
      stopImmediate := Function.update s.stopImmediate event false }, .done)
  | .dispatchEvent event type bubbles path => s.dispatchTo ops event type bubbles path
  | .returns =>
    match s.dispatches with
    | [] => (s, .done)
    | d :: outer => s.goOn ops d outer

end DispatchState

/-! ## Listeners kept in two ways -/

open DispatchState Lockstep

variable {σ τ κ μ : Type} {A : ListenerOps σ κ} {B : ListenerOps τ μ} {R : σ → τ → Prop}
  {Q : σ → τ → Text → Visit → κ → μ → Prop}

/-- Listeners that are kept in two ways: what a page and a dispatch do with them keeps them
related, and with them the items that are listed. -/
structure Simulates (A : ListenerOps σ κ) (B : ListenerOps τ μ) (R : σ → τ → Prop)
    (Q : σ → τ → Text → Visit → κ → μ → Prop) : Prop where
  edit : ∀ {s t} e, R s t → R (A.edit s e) (B.edit t e)
  edit_listed : ∀ {s t type visit k m} e, R s t → Q s t type visit k m →
    Q (A.edit s e) (B.edit t e) type visit k m
  snapshot : ∀ {s t} type visit, R s t →
    List.Forall₂ (Q s t type visit) (A.snapshot s type visit) (B.snapshot t type visit)
  begin_ : ∀ {s t type visit k m}, R s t → Q s t type visit k m →
    Option.Rel (fun x y => x.1 = y.1 ∧ R x.2 y.2) (A.begin_ s type visit k)
      (B.begin_ t type visit m)
  begin_listed : ∀ {s t type visit k m r r' s' t'}, R s t → Q s t type visit k m →
    A.begin_ s type visit k = some (r, s') → B.begin_ t type visit m = some (r', t') →
    ∀ {type' visit' k' m'}, Q s t type' visit' k' m' → Q s' t' type' visit' k' m'
  reap : ∀ {s t}, R s t → R (A.reap s) (B.reap t)

/-- Two dispatches stand at the same place, with related items to come. -/
structure DispatchTracks (P : Text → Visit → κ → μ → Prop) (d : RunningDispatch κ)
    (d' : RunningDispatch μ) : Prop where
  event : d.event = d'.event
  type : d.type = d'.type
  visit : d.visit = d'.visit
  visits : d.visits = d'.visits
  queued : List.Forall₂ (P d.type d.visit) d.queued d'.queued

theorem DispatchTracks.imp {P P' : Text → Visit → κ → μ → Prop} {d : RunningDispatch κ}
    {d' : RunningDispatch μ} (h : DispatchTracks P d d')
    (hP : ∀ {type visit k m}, P type visit k m → P' type visit k m) : DispatchTracks P' d d' :=
  { h with queued := h.queued.imp fun _ _ => hP }

/-- Two states of a dispatcher are at the same place. -/
structure DispatchState.Tracks (R : σ → τ → Prop) (Q : σ → τ → Text → Visit → κ → μ → Prop)
    (s : DispatchState σ κ) (t : DispatchState τ μ) : Prop where
  listeners : R s.listeners t.listeners
  dispatches : List.Forall₂ (DispatchTracks (Q s.listeners t.listeners)) s.dispatches t.dispatches
  dispatching : s.dispatching = t.dispatching
  cancelBubble : s.cancelBubble = t.cancelBubble
  stopImmediate : s.stopImmediate = t.stopImmediate
  -- an event is never stopped at one step only
  stops : ∀ event, s.stopImmediate event → s.cancelBubble event

/-- Two searches end at the same registration, and go on from related places. -/
structure Arrives {δ ε : Type} (R : σ → τ → Prop) (Q : σ → τ → Text → Visit → κ → μ → Prop)
    (s : σ) (t : τ) (D : σ → τ → δ → ε → Prop) (x : Registration × σ × δ)
    (y : Registration × τ × ε) : Prop where
  registration : x.1 = y.1
  listeners : R x.2.1 y.2.1
  rest : D x.2.1 y.2.1 x.2.2 y.2.2
  listed : ∀ {type visit k m}, Q s t type visit k m → Q x.2.1 y.2.1 type visit k m

theorem Simulates.innerInvoke (h : Simulates A B R Q) {s : DispatchState σ κ}
    {t : DispatchState τ μ} (hst : R s.listeners t.listeners) {event : ℕ} {type : Text}
    {visit : Visit} (hstop : s.stopImmediate event = t.stopImmediate event) {ks : List κ}
    {ms : List μ} (hks : List.Forall₂ (Q s.listeners t.listeners type visit) ks ms) :
    Option.Rel (Arrives R Q s.listeners t.listeners fun s t => List.Forall₂ (Q s t type visit))
      (s.innerInvoke A event type visit ks) (t.innerInvoke B event type visit ms) := by
  induction hks with
  | nil => exact .none
  | @cons k m ks ms hk hks ih =>
    rw [DispatchState.innerInvoke, DispatchState.innerInvoke, ← hstop]
    split_ifs with hs
    · exact .none
    · have hbegin := h.begin_ hst hk
      cases hA : A.begin_ s.listeners type visit k with
      | none =>
        cases hB : B.begin_ t.listeners type visit m with
        | none => exact ih
        | some y => simp [hA, hB] at hbegin
      | some x =>
        cases hB : B.begin_ t.listeners type visit m with
        | none => simp [hA, hB] at hbegin
        | some y =>
          rw [hA, hB, Option.rel_some_some] at hbegin
          have hlisted : ∀ {type visit k m}, Q s.listeners t.listeners type visit k m →
              Q x.2 y.2 type visit k m := h.begin_listed hst hk hA hB
          exact .some ⟨hbegin.1, hbegin.2, hks.imp fun _ _ => hlisted, hlisted⟩

theorem Simulates.travel (h : Simulates A B R Q) {s : DispatchState σ κ}
    {t : DispatchState τ μ} (hst : R s.listeners t.listeners) {event : ℕ} (type : Text)
    (hcancel : s.cancelBubble event = t.cancelBubble event)
    (hstop : s.cancelBubble event = false → s.stopImmediate event = t.stopImmediate event)
    (visits : List Visit) :
    Option.Rel (Arrives R Q s.listeners t.listeners fun s t => DispatchTracks (Q s t))
      (s.travel A event type visits) (t.travel B event type visits) := by
  induction visits with
  | nil => exact .none
  | cons visit visits ih =>
    rw [DispatchState.travel, DispatchState.travel, ← hcancel]
    split_ifs with hs
    · exact .none
    · have hturn := h.innerInvoke hst (hstop (by simpa using hs)) (h.snapshot type visit hst)
      cases hA : s.innerInvoke A event type visit (A.snapshot s.listeners type visit) with
      | none =>
        cases hB : t.innerInvoke B event type visit (B.snapshot t.listeners type visit) with
        | none => exact ih
        | some y => simp [hA, hB] at hturn
      | some x =>
        cases hB : t.innerInvoke B event type visit (B.snapshot t.listeners type visit) with
        | none => simp [hA, hB] at hturn
        | some y =>
          rw [hA, hB, Option.rel_some_some] at hturn
          exact .some ⟨hturn.registration, hturn.listeners, ⟨rfl, rfl, rfl, rfl, hturn.rest⟩,
            hturn.listed⟩

theorem DispatchState.travel_of_cancelBubble (ops : ListenerOps σ κ) {s : DispatchState σ κ}
    {event : ℕ} (h : s.cancelBubble event) (type : Text) (visits : List Visit) :
    s.travel ops event type visits = none := by
  cases visits with
  | nil => rfl
  | cons visit visits => rw [DispatchState.travel, if_pos h]

theorem Simulates.finish (h : Simulates A B R Q) {s : DispatchState σ κ} {t : DispatchState τ μ}
    (hlisteners : R s.listeners t.listeners) {event : ℕ} {outer : List (RunningDispatch κ)}
    {outer' : List (RunningDispatch μ)}
    (houter : List.Forall₂ (DispatchTracks (Q s.listeners t.listeners)) outer outer')
    (hdispatching : s.dispatching = t.dispatching) (hcancel : s.cancelBubble = t.cancelBubble)
    (hstop : ∀ e ≠ event, s.stopImmediate e = t.stopImmediate e)
    (hstops : ∀ e ≠ event, s.stopImmediate e → s.cancelBubble e) :
    (s.finish A event outer).Tracks R Q (t.finish B event outer') := by
  rw [DispatchState.finish, DispatchState.finish]
  constructor
  · cases houter with
    | nil => exact h.reap hlisteners
    | cons hd htail => exact hlisteners
  · cases houter with
    | nil => exact .nil
    | cons hd htail => exact .cons hd htail
  · simp [hdispatching]
  · simp [hcancel]
  · funext e
    by_cases he : e = event
    · simp [he]
    · simpa [he] using hstop e he
  · intro e
    by_cases he : e = event
    · simp [he]
    · simpa [he] using hstops e he

theorem Simulates.settle (h : Simulates A B R Q) {s : DispatchState σ κ}
    {t : DispatchState τ μ} (hst : s.Tracks R Q t) (event : ℕ)
    {outer : List (RunningDispatch κ)} {outer' : List (RunningDispatch μ)}
    (houter : List.Forall₂ (DispatchTracks (Q s.listeners t.listeners)) outer outer')
    {x : Option (Registration × σ × RunningDispatch κ)}
    {y : Option (Registration × τ × RunningDispatch μ)}
    (hxy : Option.Rel (Arrives R Q s.listeners t.listeners fun s t => DispatchTracks (Q s t)) x y) :
    (s.settle A event outer x).2 = (t.settle B event outer' y).2 ∧
      (s.settle A event outer x).1.Tracks R Q (t.settle B event outer' y).1 := by
  cases hxy with
  | none =>
    exact ⟨rfl, h.finish hst.listeners houter hst.dispatching hst.cancelBubble
      (fun e _ => congrFun hst.stopImmediate e) fun e _ => hst.stops e⟩
  | @some x y hfound =>
    rw [DispatchState.settle, DispatchState.settle]
    refine ⟨congrArg _ hfound.registration, hfound.listeners, ?_, hst.dispatching,
      hst.cancelBubble, hst.stopImmediate, hst.stops⟩
    exact .cons hfound.rest (houter.imp fun _ _ hd => hd.imp hfound.listed)

theorem DispatchState.start_stopImmediate_of_ne (ops : ListenerOps σ κ) (s : DispatchState σ κ)
    {event e : ℕ} (he : e ≠ event) : (s.start ops event).stopImmediate e = s.stopImmediate e := by
  rw [start]
  split_ifs
  · exact Function.update_of_ne he ..
  · rfl

theorem DispatchState.start_of_down (ops : ListenerOps σ κ) {s : DispatchState σ κ} {event : ℕ}
    (hdown : s.stopImmediate event = false) :
    s.start ops event = { s with dispatching := Function.update s.dispatching event true } := by
  rw [start, ← hdown, Function.update_eq_self, ite_self]

/-- A dispatch starts. The stop immediate propagation flag that it may take down is down, or the
event is stopped altogether. -/
theorem Simulates.dispatchTo (h : Simulates A B R Q) {s : DispatchState σ κ}
    {t : DispatchState τ μ} (hst : s.Tracks R Q t) (event : ℕ) (type : Text) (bubbles : Bool)
    (path : List PathStep) :
    (s.dispatchTo A event type bubbles path).2 = (t.dispatchTo B event type bubbles path).2 ∧
      (s.dispatchTo A event type bubbles path).1.Tracks R Q
        (t.dispatchTo B event type bubbles path).1 := by
  have hcancel := congrFun hst.cancelBubble event
  have hdispatching := congrFun hst.dispatching event
  rw [DispatchState.dispatchTo, DispatchState.dispatchTo]
  by_cases hd : s.dispatching event
  · rw [if_pos hd, if_pos (hdispatching ▸ hd)]
    exact ⟨rfl, hst⟩
  rw [if_neg hd, if_neg (hdispatching ▸ hd)]
  by_cases hs : s.cancelBubble event
  · have hA := travel_of_cancelBubble A (s := s.start A event) hs type
    have hB := travel_of_cancelBubble B (s := t.start B event) (hcancel ▸ hs) type
    rw [hA, hB]
    refine ⟨rfl, h.finish (s := s.start A event) (t := t.start B event) hst.listeners
      hst.dispatches ?_ hst.cancelBubble ?_ ?_⟩
    · exact congrArg (Function.update · event true) hst.dispatching
    · intro e he
      rw [start_stopImmediate_of_ne A s he, start_stopImmediate_of_ne B t he, hst.stopImmediate]
    · intro e he
      rw [start_stopImmediate_of_ne A s he]
      exact hst.stops e
  · have hdown : s.stopImmediate event = false := by
      simpa using fun hup => hs (hst.stops event hup)
    rw [start_of_down A hdown, start_of_down B (hst.stopImmediate ▸ hdown)]
    have hstart : DispatchState.Tracks R Q
        { s with dispatching := Function.update s.dispatching event true }
        { t with dispatching := Function.update t.dispatching event true } :=
      { hst with dispatching := congrArg (Function.update · event true) hst.dispatching }
    exact h.settle hstart event hst.dispatches
      (h.travel hstart.listeners type hcancel (fun _ => congrFun hstart.stopImmediate event) _)

theorem Simulates.goOn (h : Simulates A B R Q) {s : DispatchState σ κ}
    {t : DispatchState τ μ} (hst : s.Tracks R Q t) {d : RunningDispatch κ}
    {d' : RunningDispatch μ} (hd : DispatchTracks (Q s.listeners t.listeners) d d')
    {outer : List (RunningDispatch κ)} {outer' : List (RunningDispatch μ)}
    (houter : List.Forall₂ (DispatchTracks (Q s.listeners t.listeners)) outer outer') :
    (s.goOn A d outer).2 = (t.goOn B d' outer').2 ∧
      (s.goOn A d outer).1.Tracks R Q (t.goOn B d' outer').1 := by
  obtain ⟨event, type, visit, queued, visits⟩ := d
  obtain ⟨event', type', visit', queued', visits'⟩ := d'
  obtain ⟨rfl, rfl, rfl, rfl, hqueued⟩ := hd
  have hturn := h.innerInvoke hst.listeners (congrFun hst.stopImmediate event) hqueued
  rw [DispatchState.goOn, DispatchState.goOn]
  refine h.settle hst event houter ?_
  cases hA : s.innerInvoke A event type visit queued with
  | none =>
    cases hB : t.innerInvoke B event type visit queued' with
    | none =>
      exact h.travel hst.listeners type (congrFun hst.cancelBubble event)
        (fun _ => congrFun hst.stopImmediate event) visits
    | some y => simp [hA, hB] at hturn
  | some x =>
    cases hB : t.innerInvoke B event type visit queued' with
    | none => simp [hA, hB] at hturn
    | some y =>
      rw [hA, hB, Option.rel_some_some] at hturn
      exact .some ⟨hturn.registration, hturn.listeners, ⟨rfl, rfl, rfl, rfl, hturn.rest⟩,
        hturn.listed⟩

/-- One act, in two dispatchers. -/
theorem Simulates.step (h : Simulates A B R Q) {s : DispatchState σ κ} {t : DispatchState τ μ}
    (hst : s.Tracks R Q t) (act : DispatchAct) :
    (s.step A act).2 = (t.step B act).2 ∧ (s.step A act).1.Tracks R Q (t.step B act).1 := by
  obtain ⟨hlisteners, hdispatches, hdispatching, hcancel, hstop, hstops⟩ := id hst
  cases act with
  | edit e =>
    refine ⟨rfl, h.edit e hlisteners, ?_, hdispatching, hcancel, hstop, hstops⟩
    exact hdispatches.imp fun _ _ hd => hd.imp (h.edit_listed e hlisteners)
  | stopPropagation event =>
    refine ⟨rfl, hlisteners, hdispatches, hdispatching, ?_, hstop, fun e he => ?_⟩
    · simp [DispatchState.step, hcancel]
    · have := hstops e he
      by_cases hevent : e = event <;> simp_all [DispatchState.step]
  | stopImmediatePropagation event =>
    refine ⟨rfl, hlisteners, hdispatches, hdispatching, ?_, ?_, fun e => ?_⟩
    · simp [DispatchState.step, hcancel]
    · simp [DispatchState.step, hstop]
    · have := hstops e
      by_cases hevent : e = event <;> simp_all [DispatchState.step]
  | initEvent event =>
    rw [DispatchState.step, DispatchState.step, ← congrFun hdispatching event]
    split_ifs with hd
    · exact ⟨rfl, hst⟩
    · refine ⟨rfl, hlisteners, hdispatches, hdispatching, ?_, ?_, fun e => ?_⟩
      · simp [hcancel]
      · simp [hstop]
      · have := hstops e
        by_cases hevent : e = event <;> simp_all
  | dispatchEvent event type bubbles path => exact h.dispatchTo hst event type bubbles path
  | returns =>
    rw [DispatchState.step, DispatchState.step]
    cases hs : s.dispatches with
    | nil =>
      rw [hs, List.forall₂_nil_left_iff] at hdispatches
      rw [hdispatches]
      exact ⟨rfl, hst⟩
    | cons d outer =>
      rw [hs, List.forall₂_cons_left_iff] at hdispatches
      obtain ⟨d', outer', hd, houter, ht⟩ := hdispatches
      rw [ht]
      exact h.goOn hst hd houter

theorem DispatchState.tracks_fresh {s : σ} {t : τ} (h : R s t) :
    (fresh s : DispatchState σ κ).Tracks R Q (fresh t : DispatchState τ μ) :=
  ⟨h, .nil, rfl, rfl, rfl, fun _ he => by simp [fresh] at he⟩

/-- Listeners kept in two ways give the same answers, whatever a page does. -/
theorem Simulates.answers_eq (h : Simulates A B R Q) {s : DispatchState σ κ}
    {t : DispatchState τ μ} (hst : s.Tracks R Q t) (acts : List DispatchAct) :
    answers (DispatchState.step A) s acts = answers (DispatchState.step B) t acts := by
  induction acts generalizing s t with
  | nil => rfl
  | cons act acts ih =>
    obtain ⟨hanswer, hnext⟩ := h.step hst act
    rw [answers, answers, hanswer, ih hnext]

end CtBrowser.Shell
