import Mathlib.Tactic

/-!
# Machines That Read Characters

A machine reads the characters of an input one at a time. For each it emits some output and
either goes on in a state or stops; at the end of the input it emits what is left to emit, or
waits for more input. Every character comes with a note, such as what is left of the bytes it
was decoded from, and a reading that stops gives the note of the last character.

Two machines over the same states that differ in a few situations read an input alike when it
leads to none of these, and part in the first of them otherwise.

## Main definitions

- `CharacterMachine`, `run` — a machine, and what it makes of an input.
- `feed` — the state after a part of the input.

## Main results

- `feed_append` — a part of the input after another leads on from where that one leads.
- `run_project` — telling states apart changes no reading.
- `run_eq_of_not_meets`, `exists_parting` — when two machines read an input alike, and where they
  part.
-/

namespace CtBrowser.Foundations

variable {σ α β ρ : Type*}

/-- What a machine made of an input, and the note where it stopped unless the input ended first. -/
structure Reading (β ρ : Type*) where
  output : List β
  stopped : Option ρ
deriving DecidableEq, Repr

/-- A machine that reads characters. -/
structure CharacterMachine (σ α β : Type*) where
  /-- What it emits for a character and where it goes on, if it does. -/
  react : σ → α → List β × Option σ
  /-- What it emits at the end of the input, unless it waits for more. -/
  atEnd : σ → Option (List β)

namespace Reading

/-- A reading with output before it. -/
def after (out : List β) (r : Reading β ρ) : Reading β ρ := { r with output := out ++ r.output }

@[simp] theorem after_nil (r : Reading β ρ) : r.after [] = r := rfl

@[simp]
theorem after_after (a b : List β) (r : Reading β ρ) : (r.after b).after a = r.after (a ++ b) := by
  simp [after]

@[simp]
theorem map_after_nil (r : Option (Reading β ρ)) : r.map (after []) = r := by
  cases r <;> rfl

@[simp]
theorem map_after_after (a b : List β) (r : Option (Reading β ρ)) :
    (r.map (after b)).map (after a) = r.map (after (a ++ b)) := by
  cases r <;> simp

end Reading

namespace CharacterMachine

variable {m m' : CharacterMachine σ α β} {s t : σ} {c : α} {note : ρ} {pre cs more : List (α × ρ)}

/-- What a machine makes of an input, nothing when it waits for more. -/
def run (m : CharacterMachine σ α β) : σ → List (α × ρ) → Option (Reading β ρ)
  | s, [] => (m.atEnd s).map (⟨·, none⟩)
  | s, (c, note) :: more =>
    match m.react s c with
    | (out, none) => some ⟨out, some note⟩
    | (out, some t) => (run m t more).map (Reading.after out)

/-- The state after a part of the input, unless the machine has stopped. -/
def feed (m : CharacterMachine σ α β) (s : σ) (pre : List α) : Option σ :=
  pre.foldl (fun s c => s.bind fun s => (m.react s c).2) (some s)

@[simp] theorem feed_nil (m : CharacterMachine σ α β) (s : σ) : m.feed s [] = some s := rfl

theorem foldl_bind_none (f : σ → α → Option σ) (pre : List α) :
    pre.foldl (fun s c => s.bind fun s => f s c) none = none := by
  induction pre with
  | nil => rfl
  | cons c pre ih => simpa using ih

theorem feed_append (m : CharacterMachine σ α β) (s : σ) (a b : List α) :
    m.feed s (a ++ b) = (m.feed s a).bind fun t => m.feed t b := by
  rw [feed, List.foldl_append, ← feed]
  cases m.feed s a with
  | none => exact foldl_bind_none _ _
  | some t => rfl

theorem feed_cons (m : CharacterMachine σ α β) (s : σ) (c : α) (pre : List α) :
    m.feed s (c :: pre) = (m.react s c).2.bind fun t => m.feed t pre :=
  feed_append m s [c] pre

theorem feed_concat (m : CharacterMachine σ α β) (s : σ) (pre : List α) (c : α) :
    m.feed s (pre ++ [c]) = (m.feed s pre).bind fun t => (m.react t c).2 :=
  feed_append m s pre [c]

theorem run_cons (m : CharacterMachine σ α β) (s : σ) (c : α) (note : ρ) (more : List (α × ρ)) :
    m.run s ((c, note) :: more) = match (m.react s c).2 with
      | none => some ⟨(m.react s c).1, some note⟩
      | some t => (m.run t more).map (Reading.after (m.react s c).1) := by
  rw [run]
  rcases m.react s c with ⟨out, _ | t⟩ <;> rfl

/-- A machine that stops gives its output and the note of the character. -/
theorem run_stop {o : List β} (h : m.react s c = (o, none)) :
    m.run s ((c, note) :: more) = some ⟨o, some note⟩ := by
  rw [run, h]

/-- A machine that goes on has its output before that of the rest. -/
theorem run_go {o : List β} (h : m.react s c = (o, some t)) :
    m.run s ((c, note) :: more) = (m.run t more).map (Reading.after o) := by
  rw [run, h]

/-- A machine whose states are told apart further reads an input as the machine does. -/
theorem run_project {τ : Type*} {n : CharacterMachine τ α β} (f : τ → σ)
    (hreact : ∀ t c, m.react (f t) c = ((n.react t c).1, (n.react t c).2.map f))
    (hend : ∀ t, m.atEnd (f t) = n.atEnd t) (t : τ) (input : List (α × ρ)) :
    m.run (f t) input = n.run t input := by
  induction input generalizing t with
  | nil => rw [run, run, hend]
  | cons one more ih =>
    obtain ⟨c, note⟩ := one
    rw [run_cons, run_cons, hreact]
    cases (n.react t c).2 with
    | none => rfl
    | some u => exact congrArg (Option.map (Reading.after (n.react t c).1)) (ih u)

theorem feed_project {τ : Type*} {n : CharacterMachine τ α β} (f : τ → σ)
    (hreact : ∀ t c, m.react (f t) c = ((n.react t c).1, (n.react t c).2.map f)) (t : τ) (input : List α) :
    m.feed (f t) input = (n.feed t input).map f := by
  induction input generalizing t with
  | nil => rfl
  | cons c more ih =>
    rw [feed_cons, feed_cons, hreact]
    cases (n.react t c).2 with
    | none => rfl
    | some u => exact ih u

variable {bad : σ → Option α → Prop}

/-- Somewhere in the input a machine meets a situation: a state, and the character that comes in
it or the end of the input. -/
def Meets (m : CharacterMachine σ α β) (bad : σ → Option α → Prop) (s : σ) (input : List α) : Prop :=
  ∃ pre post t, input = pre ++ post ∧ m.feed s pre = some t ∧ bad t post.head?

theorem meets_nil : m.Meets bad s [] ↔ bad s none := by
  constructor
  · rintro ⟨pre, post, t, happ, hfeed, hbad⟩
    obtain ⟨rfl, rfl⟩ := List.append_eq_nil_iff.mp happ.symm
    cases hfeed
    exact hbad
  · exact fun h => ⟨[], [], s, rfl, rfl, h⟩

theorem meets_cons {input : List α} :
    m.Meets bad s (c :: input) ↔ bad s (some c) ∨ ∃ t, (m.react s c).2 = some t ∧ m.Meets bad t input := by
  constructor
  · rintro ⟨pre, post, t, happ, hfeed, hbad⟩
    cases pre with
    | nil =>
      cases hfeed
      rw [List.nil_append] at happ
      exact .inl (by simpa [← happ] using hbad)
    | cons d pre =>
      obtain ⟨rfl, rfl⟩ := List.cons_eq_cons.mp happ
      obtain ⟨u, hu, hfeed⟩ := Option.bind_eq_some_iff.mp ((feed_cons m s c pre).symm.trans hfeed)
      exact .inr ⟨u, hu, pre, post, t, rfl, hfeed, hbad⟩
  · rintro (hbad | ⟨u, hu, pre, post, t, rfl, hfeed, hbad⟩)
    · exact ⟨[], c :: input, s, rfl, rfl, hbad⟩
    · refine ⟨c :: pre, post, t, rfl, ?_, hbad⟩
      rw [feed_cons, hu]
      exact hfeed

/-- Machines that differ only in some situations read an input alike when none of them comes. -/
theorem run_eq_of_not_meets (hreact : ∀ s c, ¬ bad s (some c) → m.react s c = m'.react s c)
    (hend : ∀ s, ¬ bad s none → m.atEnd s = m'.atEnd s) {input : List (α × ρ)}
    (h : ¬ m.Meets bad s (input.map Prod.fst)) : m.run s input = m'.run s input := by
  induction input generalizing s with
  | nil =>
    rw [List.map_nil, meets_nil] at h
    rw [run, run, hend s h]
  | cons one more ih =>
    obtain ⟨c, note⟩ := one
    rw [List.map_cons, meets_cons, not_or] at h
    rw [run_cons, run_cons, ← hreact s c h.1]
    rcases ht : (m.react s c).2 with _ | t
    · rfl
    · exact congrArg (Option.map (Reading.after (m.react s c).1)) (ih fun hmeets => h.2 ⟨t, ht, hmeets⟩)

/-- When such a situation comes, their readings part in the first one: they are alike up to there. -/
theorem exists_parting (hreact : ∀ s c, ¬ bad s (some c) → m.react s c = m'.react s c)
    {input : List (α × ρ)} (h : m.Meets bad s (input.map Prod.fst)) :
    ∃ out t rest, bad t (rest.map Prod.fst).head? ∧ m.run s input = (m.run t rest).map (Reading.after out) ∧
      m'.run s input = (m'.run t rest).map (Reading.after out) := by
  induction input generalizing s with
  | nil => exact ⟨[], s, [], meets_nil.mp h, by simp, by simp⟩
  | cons one more ih =>
    obtain ⟨c, note⟩ := one
    by_cases hb : bad s (some c)
    · exact ⟨[], s, (c, note) :: more, hb, by simp, by simp⟩
    obtain hb' | ⟨t, ht, hmeets⟩ := meets_cons.mp h
    · exact absurd hb' hb
    obtain ⟨out, u, rest, hbad, hm, hm'⟩ := ih hmeets
    refine ⟨(m.react s c).1 ++ out, u, rest, hbad, ?_, ?_⟩
    · rw [run_cons, ht, ← Reading.map_after_after, ← hm]
    · rw [run_cons, ← hreact s c hb, ht, ← Reading.map_after_after, ← hm']

end CharacterMachine

end CtBrowser.Foundations
