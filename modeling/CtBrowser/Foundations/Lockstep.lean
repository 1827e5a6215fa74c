import Mathlib.Tactic

/-!
# Machines In Lockstep

Two deterministic machines that read the same inputs and answer each of them. When a relation
between their states makes them answer alike on every good step, and unlike on every other,
then two runs give the same answers exactly when all their steps are good.

## Main definitions

- `answers` — what a machine answers to a list of inputs.
- `Along` — a condition on every step of a run.

## Main results

- `answers_eq_iff` — two machines answer alike exactly along good steps.
-/

namespace CtBrowser.Foundations.Lockstep

variable {σ τ ι ο : Type*}

/-- What a machine answers to a list of inputs. -/
def answers (step : σ → ι → σ × ο) : σ → List ι → List ο
  | _, [] => []
  | s, l :: ls => (step s l).2 :: answers step (step s l).1 ls

/-- A condition holds of every input of a run and the state that reads it. -/
def Along (step : σ → ι → σ × ο) (good : σ → ι → Prop) : σ → List ι → Prop
  | _, [] => True
  | s, l :: ls => good s l ∧ Along step good (step s l).1 ls

instance decidableAlong (step : σ → ι → σ × ο) (good : σ → ι → Prop)
    [∀ s l, Decidable (good s l)] : ∀ s ls, Decidable (Along step good s ls)
  | _, [] => inferInstanceAs (Decidable True)
  | s, l :: ls =>
    have := decidableAlong step good (step s l).1 ls
    inferInstanceAs (Decidable (good s l ∧ Along step good (step s l).1 ls))

variable {stepA : σ → ι → σ × ο} {stepB : τ → ι → τ × ο} {R : σ → τ → Prop}
  {within good : σ → ι → Prop}

/-- Machines that answer alike exactly on good steps, and stay related on them, answer a list
of inputs alike exactly when every step of the run is good. -/
theorem answers_eq_iff
    (hgood : ∀ s t l, R s t → within s l → good s l →
      (stepA s l).2 = (stepB t l).2 ∧ R (stepA s l).1 (stepB t l).1)
    (hbad : ∀ s t l, R s t → within s l → ¬ good s l → (stepA s l).2 ≠ (stepB t l).2)
    {s : σ} {t : τ} (hst : R s t) {ls : List ι} (hwithin : Along stepA within s ls) :
    answers stepA s ls = answers stepB t ls ↔ Along stepA good s ls := by
  induction ls generalizing s t with
  | nil => simp [answers, Along]
  | cons l ls ih =>
    obtain ⟨hhere, hlater⟩ := hwithin
    rw [answers, answers, List.cons.injEq, Along]
    by_cases hl : good s l
    · obtain ⟨hanswer, hnext⟩ := hgood s t l hst hhere hl
      simp only [hanswer, hl, true_and]
      exact ih hnext hlater
    · simp [hl, hbad s t l hst hhere hl]

end CtBrowser.Foundations.Lockstep
