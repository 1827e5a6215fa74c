import Mathlib.Tactic

/-!
# Labelled Transition Systems

A transition system with labelled steps, the states its runs reach, and the rule that carries
an invariant from one step to a whole run. A run may be restricted to steps that satisfy a
condition on the state before the step and its label.

## Main definitions

- `TransitionSystem` — initial states and labelled steps.
- `TransitionSystem.Reachable` — the states of the runs whose steps are all allowed.

## Main results

- `TransitionSystem.Reachable.invariant` — what every step preserves holds in every run.
-/

namespace CtBrowser.Foundations

/-- Initial states and labelled steps. -/
structure TransitionSystem (σ ι : Type) where
  -- the states a run may start in
  initial : σ → Prop
  -- the steps of a run
  step : σ → ι → σ → Prop

namespace TransitionSystem

variable {σ ι : Type} (T : TransitionSystem σ ι) (allowed : σ → ι → Prop)

/-- The states reached by runs whose steps are all allowed. -/
inductive Reachable : σ → Prop
  | initial {s : σ} (h : T.initial s) : Reachable s
  | step {s s' : σ} {l : ι} (hs : Reachable s) (hallowed : allowed s l) (h : T.step s l s') :
      Reachable s'

variable {T allowed}

/-- What holds initially and is preserved by every allowed step holds in every run. -/
theorem Reachable.invariant {P : σ → Prop} (hinitial : ∀ s, T.initial s → P s)
    (hstep : ∀ s l s', P s → allowed s l → T.step s l s' → P s') {s : σ}
    (hs : T.Reachable allowed s) : P s := by
  induction hs with
  | initial h => exact hinitial _ h
  | step _ hallowed h ih => exact hstep _ _ _ ih hallowed h

/-- Runs with fewer allowed steps reach fewer states. -/
theorem Reachable.mono {allowed' : σ → ι → Prop} (hle : ∀ s l, allowed s l → allowed' s l)
    {s : σ} (hs : T.Reachable allowed s) : T.Reachable allowed' s := by
  induction hs with
  | initial h => exact .initial h
  | step _ hallowed h ih => exact .step ih (hle _ _ hallowed) h

end TransitionSystem

end CtBrowser.Foundations
