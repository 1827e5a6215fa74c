import Mathlib.Tactic

/-!
# Scanners with a Sticky Failure Flag

A scanner reads values out of a state that carries a failure flag. Reading does not stop
at the first failure: later steps still run, but they cannot clear the flag, so a caller
that finds the flag clear at the end knows that every step before it succeeded. A scanner
may also leave early, which it reports by returning nothing.

## Main definitions

- `Scan σ α` — a scanner over the state `σ`.
- `Scan.forEach` — run a scanner a given number of times, until the flag is set.
- `Scan.Ensures p Q` — if the flag is clear after `p`, it was clear before, and `p`
  returned a value satisfying `Q`.

## Main results

- `Scan.Ensures.bind`, `Scan.Ensures.forEach` — the rules for sequencing and iteration.
-/

namespace CtBrowser.Foundations

/-- A state with a failure flag. -/
class Failing (σ : Type) where
  /-- Whether a failure was recorded. -/
  bad : σ → Bool

/-- A computation on a state; `none` is an early exit. -/
structure Scan (σ α : Type) where
  /-- Run the scanner. -/
  run : σ → Option α × σ

namespace Scan

variable {σ α β : Type}

instance : Monad (Scan σ) where
  pure a := ⟨fun s => (some a, s)⟩
  bind p f := ⟨fun s =>
    match p.run s with
    | (some a, t) => (f a).run t
    | (none, t) => (none, t)⟩

@[simp]
theorem run_pure (a : α) (s : σ) : (pure a : Scan σ α).run s = (some a, s) := rfl

/-- A sequence runs its second part on the value and state of its first. -/
theorem run_bind (p : Scan σ α) (f : α → Scan σ β) (s : σ) :
    (p >>= f).run s = match p.run s with
      | (some a, t) => (f a).run t
      | (none, t) => (none, t) := rfl

variable [Failing σ]

/-- Leave early when a failure was recorded. -/
def stopIfBad : Scan σ Unit := ⟨fun s => (if Failing.bad s then none else some (), s)⟩

/-- Run `item` for the indices `i, …, i + n - 1`, stopping once a failure is recorded. -/
def forEach (item : ℕ → Scan σ α) : ℕ → ℕ → Scan σ (List α)
  | _, 0 => pure []
  | i, n + 1 => ⟨fun s =>
      if Failing.bad s then (some [], s)
      else Scan.run (do
        let x ← item i
        let xs ← forEach item (i + 1) n
        pure (x :: xs)) s⟩

/-- While the flag is clear, a loop runs its next iteration. -/
theorem run_forEach_succ (item : ℕ → Scan σ α) (i n : ℕ) {s : σ} (h : Failing.bad s = false) :
    (forEach item i (n + 1)).run s = Scan.run (do
      let x ← item i
      let xs ← forEach item (i + 1) n
      pure (x :: xs)) s := by
  simp [forEach, h]

/-- If the flag is clear after `p`, it was clear before, and `p` returned a value
satisfying `Q`. -/
def Ensures (p : Scan σ α) (Q : α → Prop) : Prop :=
  ∀ s, Failing.bad (p.run s).2 = false →
    Failing.bad s = false ∧ ∃ a, (p.run s).1 = some a ∧ Q a

namespace Ensures

/-- Returning a value ensures what holds of it. -/
theorem pure {Q : α → Prop} {a : α} (h : Q a) : Ensures (Pure.pure a : Scan σ α) Q :=
  fun _ hs => ⟨hs, a, rfl, h⟩

/-- A weaker postcondition is ensured too. -/
theorem mono {p : Scan σ α} {P Q : α → Prop} (hp : Ensures p P) (h : ∀ a, P a → Q a) :
    Ensures p Q := by
  intro s hs
  obtain ⟨hbad, a, ha, hP⟩ := hp s hs
  exact ⟨hbad, a, ha, h a hP⟩

/-- Sequencing. The second part must keep a set flag whatever the first part returned, so
what the first part ensures is a hypothesis of the postcondition, not of the rule. -/
theorem bind {p : Scan σ α} {f : α → Scan σ β} {P : α → Prop} {Q : β → Prop}
    (hp : Ensures p P) (hf : ∀ a, Ensures (f a) (fun b => P a → Q b)) :
    Ensures (p >>= f) Q := by
  intro s hs
  rw [run_bind] at hs ⊢
  rcases hstep : p.run s with ⟨_ | a, t⟩
  · -- an early exit of `p` leaves the flag set
    rw [hstep] at hs
    obtain ⟨_, a, ha, _⟩ := hp s (by simpa [hstep] using hs)
    simp [hstep] at ha
  · rw [hstep] at hs
    obtain ⟨ht, b, hb, hQ⟩ := hf a t hs
    obtain ⟨hbad, a', ha, hP⟩ := hp s (by simpa [hstep] using ht)
    have haa : a = a' := by simpa [hstep] using ha
    subst haa
    exact ⟨hbad, b, hb, hQ hP⟩

/-- A branch ensures what both of its arms ensure. -/
theorem ite {c : Prop} [Decidable c] {p q : Scan σ α} {Q : α → Prop}
    (hp : Ensures p (fun a => c → Q a)) (hq : Ensures q (fun a => ¬c → Q a)) :
    Ensures (if c then p else q) Q := by
  by_cases h : c
  · rw [if_pos h]
    exact hp.mono fun _ ha => ha h
  · rw [if_neg h]
    exact hq.mono fun _ ha => ha h

/-- A scanner that always sets the flag ensures anything. -/
theorem of_bad {p : Scan σ α} {Q : α → Prop} (h : ∀ s, Failing.bad (p.run s).2 = true) :
    Ensures p Q := by
  intro s hs
  simp [h s] at hs

/-- Leaving on a set flag ensures nothing further. -/
theorem stopIfBad : Ensures (stopIfBad : Scan σ Unit) (fun _ => True) := by
  intro s hs
  exact ⟨hs, (), by simp [Scan.stopIfBad, show Failing.bad s = false from hs], trivial⟩

/-- A loop that ends with the flag clear ran every iteration. -/
theorem forEach {item : ℕ → Scan σ α} {P : α → Prop} (hitem : ∀ i, Ensures (item i) P)
    (i n : ℕ) :
    Ensures (forEach item i n) (fun xs => xs.length = n ∧ ∀ x ∈ xs, P x) := by
  induction n generalizing i with
  | zero => exact Ensures.pure (by simp)
  | succ n ih =>
    have hbody : Ensures (do
        let x ← item i
        let xs ← Scan.forEach item (i + 1) n
        Pure.pure (x :: xs) : Scan σ (List α))
        (fun xs => xs.length = n + 1 ∧ ∀ x ∈ xs, P x) :=
      (hitem i).bind fun x => (ih (i + 1)).bind fun xs =>
        Ensures.pure fun hxs hx => by simpa [hxs.1] using ⟨hx, hxs.2⟩
    intro s hs
    by_cases hbad : Failing.bad s = true
    · simp [Scan.forEach, hbad] at hs
    · rw [run_forEach_succ item i n (by simpa using hbad)] at hs ⊢
      exact hbody s hs

end Ensures

end Scan

end CtBrowser.Foundations
