import CtBrowser.Foundations.Transition

/-!
# Timers

The timers of a page: a queue of deadlines, with the callbacks in a list beside it, and the runs of
those that are due. A run copies the due callbacks and then invokes one after the other, while each
may register and clear timers and start a run of its own; what was cancelled leaves both lists when
a run ends. Time is any order with an addition, for the deadlines are rounded sums.

## Main definitions

- `TimerQueue` — the deadlines, in registration order.
- `Timers` — the queue, the callbacks, and the runs that have begun.
- `Timers.step` — one thing that a page, the host or a run does.
- `timerRuns` — the states of a page's timers.
-/

namespace CtBrowser.Shell

open Foundations

/-! ## The queue -/

/-- Who scheduled a timer. -/
inductive TimerSource
  | host
  | page
deriving DecidableEq

variable {τ ν : Type}

/-- One scheduled timer. -/
structure TimerEntry (τ : Type) where
  id : ℕ
  dueMs : τ
  intervalMs : τ
  repeating : Bool
  cancelled : Bool
  source : TimerSource

/-- The scheduled timers, in registration order. -/
abbrev TimerQueue (τ : Type) := List (TimerEntry τ)

/-- Whether a timer fires at a time, among those of the host alone or all. -/
def TimerEntry.due [LinearOrder τ] (e : TimerEntry τ) (now : τ) (queuedTasksOnly : Bool) : Bool :=
  !e.cancelled && decide (e.dueMs ≤ now) && !(queuedTasksOnly && e.source == .page)

namespace TimerQueue

def schedule [LinearOrder τ] [Add τ] [Zero τ] (q : TimerQueue τ) (id : ℕ) (now delay : τ) (repeating : Bool)
    (source : TimerSource) : TimerQueue τ :=
  let interval := max 0 delay
  q ++ [{ id, dueMs := now + interval, intervalMs := interval, repeating, cancelled := false, source }]

/-- The position of a timer that is not cancelled. -/
def findActive (q : TimerQueue τ) (id : ℕ) : Option ℕ := q.findIdx? fun e => e.id == id && !e.cancelled

/-- A timer that begins: an interval has its next deadline, any other is retired. -/
def begun [Add τ] (now : τ) (eligible : Bool) (e : TimerEntry τ) : TimerEntry τ :=
  if eligible && e.repeating then { e with dueMs := now + e.intervalMs } else { e with cancelled := true }

/-- Begins a timer, and tells whether to invoke its callback: `begin`. -/
def beginTimer [Add τ] (q : TimerQueue τ) (id : ℕ) (now : τ) (eligible : Bool) : TimerQueue τ × Bool :=
  match q.findActive id with
  | none => (q, false)
  | some index => (q.modify index (begun now eligible), eligible)

def cancelled (id : ℕ) (e : TimerEntry τ) : TimerEntry τ := if e.id = id then { e with cancelled := true } else e

def cancel (q : TimerQueue τ) (id : ℕ) : TimerQueue τ := q.map (cancelled id)

def discardCancelled (q : TimerQueue τ) : TimerQueue τ := q.filter (!·.cancelled)

end TimerQueue

/-! ## The page -/

/-- The callback of a timer. -/
structure Timer (ν : Type) where
  id : ℕ
  callback : ν
  arguments : List ν
  window : ν

/-- What a page could observe of its timers. -/
inductive TimerEvent (ν τ : Type)
  | registered (t : Timer ν) (repeating : Bool)
  | cleared (id : ℕ)
  -- the run's number, the callback, the deadline it had, and the time when the run began
  | fired (run : ℕ) (t : Timer ν) (due : Option τ) (start : τ)

/-- A run of the timers that were due when it began. -/
structure TimerRun (ν τ : Type) where
  number : ℕ
  start : τ
  -- the callbacks that are still to be invoked
  due : List (Timer ν)

/-- The timers of a page. -/
structure Timers (ν τ : Type) where
  nextTimerId : ℕ := 0
  timerSchedule : TimerQueue τ := []
  timers : List (Timer ν) := []
  nowMs : τ
  -- the runs that have begun, the innermost first
  running : List (TimerRun ν τ) := []
  -- how many have begun, and whether one began within another
  runs : ℕ := 0
  nested : Bool := false
  -- what happened, the latest first
  log : List (TimerEvent ν τ) := []

/-- What a page, the host or a run does. -/
inductive TimerInput (ν τ : Type)
  | register (callback : ν) (arguments : List ν) (window : ν) (delay : τ) (repeating : Bool) (source : TimerSource)
  -- an animation frame takes an id
  | takeId
  | clear (id : ℕ)
  | advanceClock (now : τ)
  | runTimers (queuedTasksOnly : Bool)
  -- the innermost run goes on to its next callback, with the windows that still have a document
  | next (live : ν → Bool)
  -- the innermost run is through
  | finish

namespace Timers

/-- Registers a timer: `add_timer`, and what is set of it at once. -/
def addTimer [LinearOrder τ] [Add τ] [Zero τ] (s : Timers ν τ) (callback : ν) (arguments : List ν) (window : ν)
    (delay : τ) (repeating : Bool) (source : TimerSource) : Timers ν τ :=
  let id := (s.nextTimerId + 1) % 2 ^ 32
  let t : Timer ν := { id, callback, arguments, window }
  { s with
    nextTimerId := id
    timers := s.timers ++ [t]
    timerSchedule := s.timerSchedule.schedule id s.nowMs delay repeating source
    log := .registered t repeating :: s.log }

/-- Copies the callbacks that are due. -/
def beginRun [LinearOrder τ] (s : Timers ν τ) (queuedTasksOnly : Bool) : Timers ν τ :=
  let due := (s.timers.zip s.timerSchedule).filter fun p => p.2.due s.nowMs queuedTasksOnly
  { s with
    running := { number := s.runs, start := s.nowMs, due := due.map Prod.fst } :: s.running
    runs := s.runs + 1
    nested := s.nested || !s.running.isEmpty }

/-- Invokes a copied callback, unless its timer was cleared since or its window has no document any more. -/
def invoke [Add τ] (s : Timers ν τ) (run : TimerRun ν τ) (t : Timer ν) (live : ν → Bool) : Timers ν τ :=
  match s.timerSchedule.findActive t.id with
  | none => s
  | some index =>
    let eligible := s.timers[index]?.any fun still => live still.window
    let begun := s.timerSchedule.beginTimer t.id s.nowMs eligible
    { s with
      timerSchedule := begun.1
      log := if begun.2 then .fired run.number t (s.timerSchedule[index]?.map (·.dueMs)) run.start :: s.log else s.log }

/-- Takes what was cancelled out of both lists. -/
def compact (s : Timers ν τ) : Timers ν τ :=
  { s with
    timers := ((s.timers.zip s.timerSchedule).filter fun p => !p.2.cancelled).map Prod.fst
    timerSchedule := s.timerSchedule.discardCancelled }

/-- What an input makes of the timers, where it applies. -/
def step [LinearOrder τ] [Add τ] [Zero τ] (s : Timers ν τ) : TimerInput ν τ → Option (Timers ν τ)
  | .register callback arguments window delay repeating source =>
    some (s.addTimer callback arguments window delay repeating source)
  | .takeId => some { s with nextTimerId := (s.nextTimerId + 1) % 2 ^ 32 }
  | .clear id => some { s with timerSchedule := s.timerSchedule.cancel id, log := .cleared id :: s.log }
  | .advanceClock now => some { s with nowMs := now }
  | .runTimers queuedTasksOnly => some (s.beginRun queuedTasksOnly)
  | .next live =>
    match s.running with
    | run :: outer =>
      match run.due with
      | t :: due => some ({ s with running := { run with due } :: outer }.invoke run t live)
      | [] => none
    | [] => none
  | .finish =>
    match s.running with
    | run :: outer => if run.due.isEmpty then some { s with running := outer }.compact else none
    | [] => none

end Timers

/-- The states of a page's timers, from the first time on. -/
def timerRuns (ν τ : Type) [LinearOrder τ] [Add τ] [Zero τ] : TransitionSystem (Timers ν τ) (TimerInput ν τ) where
  initial s := ∃ now, s = { nowMs := now }
  step s input s' := s.step input = some s'

/-- An id is left for what is registered. -/
def IdLeft (s : Timers ν τ) : TimerInput ν τ → Prop
  | .register .. => s.nextTimerId + 1 < 2 ^ 32
  | .takeId => s.nextTimerId + 1 < 2 ^ 32
  | _ => True

end CtBrowser.Shell
