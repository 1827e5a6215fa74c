import CtBrowser.Script.Regex.Budget
import CtBrowser.Script.Regex.Frames

/-!
# The matcher ends

Without the budget every match ends. A pattern and a length of the subject fix how deep the calls of a match
go and how many steps it takes, whatever the subject and the position: between two calls of a repetition the
text that is left gets shorter, or else the turns that are owed have all been taken at once; and the pattern
inside gets smaller in any other call.

## Main definitions

- `Affords` — a match that does not spend the budget.
- `Bounded` — a matcher that needs so much more of the budget than what comes after it.

## Main results

- `bounded_matchAtom` — every part of a pattern is bounded.
- `matcher_ends` — there are limits above which a match never asks for its limits.
-/

namespace CtBrowser.Script.Regex

/-- With so many levels and steps left, a match does not spend the budget, and takes no more steps; and it
leaves the direction if it fails. -/
def Affords (lim : Limits) (depth steps d : ℕ) (st : RxState) (o : Outcome) : Prop :=
  d + depth ≤ lim.maxDepth → st.steps + steps ≤ lim.maxSteps → st.exhausted = false →
    o.st.exhausted = false ∧ o.st.steps ≤ st.steps + steps ∧ (o.hit = none → o.st.backward = st.backward)

/-- A state and a position that a match may come to. -/
structure Reaches (s : Text) (st : RxState) (pos : ℕ) (st' : RxState) (pos' : ℕ) : Prop where
  backward : st'.backward = st.backward
  inside : pos' ≤ s.length
  remaining : remaining s st.backward pos' ≤ remaining s st.backward pos

/-- What comes next does not spend the budget, wherever a match may come to. -/
def Cont.AffordsFrom (lim : Limits) (depth steps : ℕ) (s : Text) (st : RxState) (pos : ℕ) (k : Cont) : Prop :=
  ∀ d st' pos', Reaches s st pos st' pos' → Affords lim depth steps d st' (k d st' pos')

/-- A matcher does not spend this budget if what comes next does not spend that one. -/
def BoundedBy (s : Text) (m : Limits → Matcher) (depth steps depth' steps' : ℕ) : Prop :=
  ∀ lim k d st pos, pos ≤ s.length → k.AffordsFrom lim depth steps s st pos →
    Affords lim depth' steps' d st (m lim d st pos k)

/-- The budget a matcher needs is fixed by the one that what comes next needs. -/
def Bounded (s : Text) (m : Limits → Matcher) : Prop :=
  ∀ depth steps, ∃ depth' steps', BoundedBy s m depth steps depth' steps'

/-! ## Outcomes -/

namespace Reaches

variable {s : Text} {st st' st'' : RxState} {pos pos' pos'' : ℕ}

theorem refl (st : RxState) (hpos : pos ≤ s.length) : Reaches s st pos st pos := ⟨rfl, hpos, le_rfl⟩

theorem trans (h : Reaches s st pos st' pos') (h' : Reaches s st' pos' st'' pos'') : Reaches s st pos st'' pos'' where
  backward := h'.backward.trans h.backward
  inside := h'.inside
  remaining := by
    have hle := h'.remaining
    rw [h.backward] at hle
    exact hle.trans h.remaining

theorem of_backward (hpos : pos ≤ s.length) (h : st'.backward = st.backward) : Reaches s st pos st' pos :=
  ⟨h, hpos, le_rfl⟩

end Reaches

namespace Affords

variable {lim : Limits} {depth steps depth' steps' d : ℕ} {st st' : RxState} {o : Outcome}

theorem failed (lim : Limits) (d : ℕ) (st : RxState) : Affords lim 0 0 d st (failed st) :=
  fun _ _ hst => ⟨hst, le_rfl, fun _ => rfl⟩

theorem mono (h : Affords lim depth steps d st o) (hdepth : depth ≤ depth') (hsteps : steps ≤ steps') :
    Affords lim depth' steps' d st o := by
  intro hd hs hst
  obtain ⟨hne, hle, hback⟩ := h (by omega) (by omega) hst
  exact ⟨hne, by omega, hback⟩

theorem of_state (h : Affords lim depth steps d st' o) (hsteps : st'.steps = st.steps)
    (hexhausted : st'.exhausted = st.exhausted) (hback : st'.backward = st.backward) :
    Affords lim depth steps d st o := by
  rw [Affords, ← hsteps, ← hexhausted, ← hback]
  exact h

theorem orElse {second : RxState → Outcome} (h : Affords lim depth steps d st o)
    (hsecond : o.hit = none → o.st.backward = st.backward → Affords lim depth' steps' d o.st (second o.st)) :
    Affords lim (max depth depth') (steps + steps') d st (o.orElse second) := by
  intro hd hs hst
  obtain ⟨hne, hle, hback⟩ := h (by omega) (by omega) hst
  rw [Outcome.orElse]
  cases hhit : o.hit with
  | some stop => exact ⟨hne, by dsimp only; omega, fun hnone => absurd (hhit.symm.trans hnone) (by rintro ⟨⟩)⟩
  | none =>
    obtain ⟨hne', hle', hback'⟩ := hsecond hhit (hback hhit) (by omega) (by omega) hne
    exact ⟨hne', by dsimp only; omega, fun hnone => (hback' hnone).trans (hback hhit)⟩

theorem onFail {restore : RxState → RxState} (h : Affords lim depth steps d st o)
    (hsteps : ∀ st, (restore st).steps = st.steps) (hexhausted : ∀ st, (restore st).exhausted = st.exhausted)
    (hback : ∀ st, (restore st).backward = st.backward) : Affords lim depth steps d st (o.onFail restore) := by
  intro hd hs hst
  obtain ⟨hne, hle, hstill⟩ := h hd hs hst
  rw [Outcome.onFail]
  cases hhit : o.hit with
  | some stop => exact ⟨hne, hle, hstill⟩
  | none =>
    refine ⟨(hexhausted _).trans hne, (hsteps _).trans_le hle, fun _ => (hback _).trans (hstill hhit)⟩

end Affords

theorem Cont.AffordsFrom.of_reaches {lim : Limits} {depth steps : ℕ} {s : Text} {st st' : RxState} {pos pos' : ℕ}
    {k : Cont} (hk : k.AffordsFrom lim depth steps s st pos) (h : Reaches s st pos st' pos') :
    k.AffordsFrom lim depth steps s st' pos' :=
  fun d st'' pos'' h' => hk d st'' pos'' (h.trans h')

theorem affordsFrom_accept (lim : Limits) (s : Text) (st : RxState) (pos : ℕ) :
    accept.AffordsFrom lim 0 0 s st pos :=
  fun _ _ _ _ _ _ hst => ⟨hst, le_rfl, fun _ => rfl⟩

/-! ## Atoms that match text -/

/-- Stays in the subject and takes none of what has been matched. -/
def Lands (s : Text) (next : RxState → ℕ → Option ℕ) : Prop :=
  ∀ st pos r, pos ≤ s.length → next st pos = some r → r ≤ s.length ∧ remaining s st.backward r ≤ remaining s st.backward pos

variable {s : Text}

theorem lands_advance_decode {backward : Bool} {pos : ℕ} (hpos : pos ≤ s.length) (h : ¬ atEdge s backward pos) :
    advance backward pos (decodeBeside s backward pos).2 ≤ s.length := by
  cases backward with
  | true => exact (Nat.sub_le ..).trans hpos
  | false => exact (decodeAt_width (Nat.not_le.mp h)).2

theorem lands_advance_one {backward : Bool} {pos : ℕ} (hpos : pos ≤ s.length) (h : ¬ atEdge s backward pos) :
    advance backward pos 1 ≤ s.length := by
  cases backward with
  | true => exact (Nat.sub_le ..).trans hpos
  | false => exact Nat.not_le.mp h

theorem lands_advanceOver {backward : Bool} {pos r : ℕ} {text : Text} (hpos : pos ≤ s.length)
    (h : advanceOver s backward pos text = some r) :
    r ≤ s.length ∧ remaining s backward r ≤ remaining s backward pos := by
  rw [advanceOver] at h
  cases backward with
  | true =>
    rw [if_pos rfl, Option.ite_none_right_eq_some] at h
    obtain ⟨-, ⟨⟩⟩ := h
    exact ⟨(Nat.sub_le ..).trans hpos, Nat.sub_le ..⟩
  | false =>
    rw [if_neg Bool.false_ne_true, Option.ite_none_right_eq_some] at h
    obtain ⟨hthere, ⟨⟩⟩ := h
    have hlength := congrArg List.length hthere
    rw [List.length_take, List.length_drop] at hlength
    refine ⟨by omega, ?_⟩
    show s.length - (pos + text.length) ≤ s.length - pos
    omega

theorem lands_litAt (x : Subject) (c : UInt8) (text : Text) : Lands x.s fun st pos => litAt x st pos c text := by
  intro st pos r hpos h
  refine ⟨?_, (advances_litAt x c text st pos r h).le⟩
  dsimp only at h
  rw [litAt] at h
  generalize (if text = [] then (c.toNat, 0) else decodeAt text 0) = want at h
  dsimp only at h
  by_cases hfolds : x.folds st ∧ ¬ atEdge x.s st.backward pos ∧ (text = [] ∨ want.2 = text.length)
  · rw [if_pos hfolds, Option.ite_none_right_eq_some] at h
    obtain ⟨-, ⟨⟩⟩ := h
    exact lands_advance_decode hpos hfolds.2.1
  rw [if_neg hfolds] at h
  by_cases htext : text ≠ []
  · rw [if_pos htext] at h
    exact (lands_advanceOver hpos h).1
  · rw [if_neg htext, Option.ite_none_right_eq_some] at h
    obtain ⟨⟨hedge, -⟩, ⟨⟩⟩ := h
    exact lands_advance_one hpos hedge

theorem lands_anyAt (x : Subject) : Lands x.s fun st pos => anyAt x st pos := by
  intro st pos r hpos h
  refine ⟨?_, (advances_anyAt x st pos r h).le⟩
  dsimp only at h
  rw [anyAt, Option.ite_none_left_eq_some] at h
  obtain ⟨hedge, h⟩ := h
  dsimp only at h
  rw [Option.ite_none_left_eq_some] at h
  obtain ⟨-, ⟨⟩⟩ := h
  exact lands_advance_decode hpos hedge

theorem lands_classAt (x : Subject) (cc : RxClass) : Lands x.s fun st pos => classAt x st pos cc := by
  intro st pos r hpos h
  refine ⟨?_, (advances_classAt x cc st pos r h).le⟩
  dsimp only at h
  rw [classAt, Option.ite_none_left_eq_some] at h
  obtain ⟨hedge, h⟩ := h
  dsimp only at h
  rw [Option.ite_none_right_eq_some] at h
  obtain ⟨-, ⟨⟩⟩ := h
  exact lands_advance_decode hpos hedge

theorem lands_backrefAt (x : Subject) (cap : Option ℕ) (refName : Text) :
    Lands x.s fun st pos => backrefAt x st pos cap refName := by
  intro st pos r hpos h
  dsimp only at h
  rw [backrefAt] at h
  cases hreferred : referred x st cap refName with
  | none =>
    rw [hreferred] at h
    obtain ⟨⟩ := h
    exact ⟨hpos, le_rfl⟩
  | some range =>
    obtain ⟨lo, hi⟩ := range
    rw [hreferred] at h
    dsimp only at h
    rw [Option.ite_none_left_eq_some, Option.ite_none_right_eq_some] at h
    obtain ⟨hroom, -, ⟨⟩⟩ := h
    cases hback : st.backward with
    | true => exact ⟨(Nat.sub_le ..).trans hpos, Nat.sub_le ..⟩
    | false =>
      rw [hback, if_neg Bool.false_ne_true, not_lt] at hroom
      refine ⟨hroom, ?_⟩
      show x.s.length - (pos + (hi - lo)) ≤ x.s.length - pos
      omega

theorem lands_stay (s : Text) (holds : RxState → ℕ → Bool) : Lands s fun st pos => stay pos (holds st pos) := by
  intro st pos r hpos h
  dsimp only at h
  rw [stay, Option.ite_none_right_eq_some] at h
  obtain ⟨-, ⟨⟩⟩ := h
  exact ⟨hpos, le_rfl⟩

/-! ## Atoms -/

theorem affords_orFail {lim : Limits} {depth steps : ℕ} {st : RxState} {pos : ℕ} {k : Cont}
    (hk : k.AffordsFrom lim depth steps s st pos) (d : ℕ) {next : Option ℕ}
    (hnext : ∀ r, next = some r → Reaches s st pos st r) : Affords lim depth steps d st (k.orFail d st next) := by
  cases next with
  | none => exact (Affords.failed lim d st).mono (Nat.zero_le _) (Nat.zero_le _)
  | some r => exact hk d st r (hnext r rfl)

theorem bounded_single {next : RxState → ℕ → Option ℕ} (h : Lands s next) : Bounded s fun _ => single next := by
  intro depth steps
  refine ⟨depth, steps, fun lim k d st pos hpos hk => affords_orFail hk d fun r hr => ?_⟩
  obtain ⟨hinside, hleft⟩ := h st pos r hpos hr
  exact ⟨rfl, hinside, hleft⟩

theorem bounded_tryStrings (x : Subject) {last : Limits → Matcher} (h : Bounded x.s last) (strings : List Text) :
    Bounded x.s fun lim => tryStrings x (last lim) strings := by
  induction strings with
  | nil => exact h
  | cons str strings ih =>
    intro depth steps
    obtain ⟨depth', steps', hrest⟩ := ih depth steps
    refine ⟨max depth depth', steps + steps', fun lim k d st pos hpos hk => ?_⟩
    have hfirst := @affords_orFail x.s lim depth steps st pos k hk d (advanceOver x.s st.backward pos str) fun r hr => by
      obtain ⟨hinside, hleft⟩ := lands_advanceOver hpos hr
      exact ⟨rfl, hinside, hleft⟩
    dsimp only
    rw [tryStrings]
    refine hfirst.orElse fun _ hback => ?_
    exact hrest lim k d _ pos hpos (hk.of_reaches (Reaches.of_backward hpos hback))

theorem bounded_group (cap : Option ℕ) (on off : Modifiers) {body : Limits → Matcher} (h : Bounded s body) :
    Bounded s fun lim => group cap on off (body lim) := by
  intro depth steps
  obtain ⟨depth', steps', hbody⟩ := h depth steps
  refine ⟨depth', steps', fun lim k d st pos hpos hk => ?_⟩
  have hsteps (mods : Bool) (outer now : RxState) : (withFlagsIf mods outer now).steps = now.steps := by
    cases mods <;> rfl
  have hexhausted (mods : Bool) (outer now : RxState) : (withFlagsIf mods outer now).exhausted = now.exhausted := by
    cases mods <;> rfl
  have hback (mods : Bool) (outer now : RxState) : (withFlagsIf mods outer now).backward = now.backward := by
    cases mods <;> rfl
  have hset (value : Capture) (now : RxState) : (setCapture cap value now).steps = now.steps := by
    cases cap <;> rfl
  dsimp only
  rw [group_eq, leaveGroup]
  generalize (on.any || off.any) = mods
  refine Affords.onFail ?_ (hset _) (exhausted_setCapture cap _) (backward_setCapture cap _)
  have hresult := hbody lim (afterBody cap mods (modified on off st) st pos k) d
    (withFlagsIf mods (modified on off st) st) pos hpos fun d' now stop hreach => ?_
  · intro hd hs hst
    obtain ⟨hne, hle, hstill⟩ := hresult hd ((congrArg (· + _) (hsteps ..)).trans_le hs) ((hexhausted ..).trans hst)
    refine ⟨(hexhausted ..).trans hne, ?_, fun hnone => ?_⟩
    · exact ((hsteps ..).trans_le hle).trans_eq (congrArg (· + _) (hsteps ..))
    · exact (hback ..).trans ((hstill hnone).trans (hback ..))
  · rw [afterBody]
    refine Affords.onFail ?_ (hsteps _ _) (hexhausted _ _) (hback _ _)
    have hnow : now.backward = st.backward := hreach.backward.trans (hback ..)
    refine (hk d' (withFlagsIf mods st (setCapture cap (some (min pos stop, max pos stop)) now)) stop
      ⟨?_, hreach.inside, ?_⟩).of_state ?_ ?_ ?_
    · rw [hback, backward_setCapture, hnow]
    · have hleft := hreach.remaining
      rwa [hback] at hleft
    · rw [hsteps, hset]
    · rw [hexhausted, exhausted_setCapture]
    · rw [hback, backward_setCapture]

theorem bounded_look (backward negative : Bool) {body : Limits → Matcher} (h : Bounded s body) :
    Bounded s fun lim => look backward negative (body lim) := by
  intro depth steps
  obtain ⟨depth', steps', hbody⟩ := h 0 0
  refine ⟨max depth' depth, steps' + steps, fun lim k d st pos hpos hk => ?_⟩
  have hinner := hbody lim accept d { st with backward := backward } pos hpos (affordsFrom_accept lim s _ pos)
  intro hd hs hst
  obtain ⟨hne, hle, -⟩ := hinner (by omega) (by dsimp only; omega) hst
  dsimp only
  rw [look]
  dsimp only at hne hle ⊢
  generalize body lim d _ pos accept = inner at hne hle ⊢
  -- what comes next runs in the direction from before
  have hnext (caps : List Capture) : (k d { inner.st with backward := st.backward, caps := caps } pos).st.exhausted = false ∧
      (k d { inner.st with backward := st.backward, caps := caps } pos).st.steps ≤ st.steps + (steps' + steps) ∧
      ((k d { inner.st with backward := st.backward, caps := caps } pos).hit = none →
        (k d { inner.st with backward := st.backward, caps := caps } pos).st.backward = st.backward) := by
    obtain ⟨hne', hle', hback⟩ := hk d { inner.st with backward := st.backward, caps := caps } pos
      (Reaches.of_backward hpos rfl) (by omega) (by dsimp only; omega) hne
    exact ⟨hne', hle'.trans (by dsimp only; omega), hback⟩
  have hdropped : inner.st.exhausted = false ∧ inner.st.steps ≤ st.steps + (steps' + steps) := ⟨hne, by omega⟩
  rw [lookedAt]
  split_ifs
  · exact hnext st.caps
  · exact ⟨hne, hdropped.2, fun _ => rfl⟩
  · exact ⟨hne, hdropped.2, fun _ => rfl⟩
  · exact hnext inner.st.caps

theorem bounded_guarded (step : Bool) {m : Limits → Matcher} (h : Bounded s m) :
    Bounded s fun lim => guarded lim step (m lim) := by
  intro depth steps
  obtain ⟨depth', steps', hm⟩ := h depth steps
  refine ⟨depth' + 1, steps' + 1, fun lim k d st pos hpos hk hd hs hst => ?_⟩
  have hdepth : ¬ (st.exhausted = true ∨ d + 1 > lim.maxDepth) :=
    fun hspent => hspent.elim (fun hex => Bool.false_ne_true (hst.symm.trans hex)) (by omega)
  dsimp only
  rw [guarded, budget, if_neg hdepth]
  cases step with
  | false =>
    obtain ⟨hne, hle, hback⟩ := hm lim k (d + 1) st pos hpos hk (by omega) (by omega) hst
    exact ⟨hne, hle.trans (by omega), hback⟩
  | true =>
    have hlast : ¬ st.steps + 1 > lim.maxSteps := by omega
    dsimp only
    rw [if_pos rfl, if_neg hlast]
    obtain ⟨hne, hle, hback⟩ := hm lim k (d + 1) { st with steps := st.steps + 1 } pos hpos
      (hk.of_reaches (Reaches.of_backward hpos rfl)) (by omega) (by dsimp only; omega) hst
    exact ⟨hne, hle.trans (by dsimp only; omega), hback⟩

/-! ## Repetition in a loop -/

theorem turn_eq {lim : Limits} {d : ℕ} {st : RxState} (hd : d + 1 ≤ lim.maxDepth) (hst : st.exhausted = false)
    (next : RxState → ℕ → Option ℕ) (pos : ℕ) :
    guarded lim false (single next) d st pos accept = ⟨next st pos, st⟩ := by
  have hdepth : ¬ (st.exhausted = true ∨ d + 1 > lim.maxDepth) :=
    fun hspent => hspent.elim (fun hex => Bool.false_ne_true (hst.symm.trans hex)) (by omega)
  rw [guarded, budget, if_neg hdepth]
  show accept.orFail (d + 1) st (next st pos) = _
  cases next st pos <;> rfl

theorem exists_lands {lim : Limits} {x : Subject} {atom : Atom} (h : atom.simple = true) :
    ∃ next, matchAtom lim x atom = single next ∧ Advances x.s next ∧ Lands x.s next := by
  cases atom with
  | lit c text => exact ⟨_, rfl, advances_litAt x c text, lands_litAt x c text⟩
  | any => exact ⟨_, rfl, advances_anyAt x, lands_anyAt x⟩
  | cls cc =>
    have hnil : cc.strings = [] := List.isEmpty_iff.mp h
    refine ⟨_, ?_, advances_classAt x cc, lands_classAt x cc⟩
    rw [matchAtom, hnil, tryStrings]
  | _ => cases h

section Simple

variable {lim : Limits} {depth steps d : ℕ} {next : RxState → ℕ → Option ℕ} (hlands : Lands s next)
  (hnext : Advances s next) (q : Quantifier) {k : Cont} {st : RxState}

theorem affords_atLeast {pos n : ℕ} (hpos : pos ≤ s.length) (hk : k.AffordsFrom lim depth steps s st pos) :
    Affords lim depth steps d st (if q.min ≤ n then k d st pos else failed st) := by
  split_ifs
  · exact hk d st pos (Reaches.refl st hpos)
  · exact (Affords.failed lim d st).mono (Nat.zero_le _) (Nat.zero_le _)

include hlands hnext in
theorem affords_repeatLazy (fuel : ℕ) {pos : ℕ} (n : ℕ) (hpos : pos ≤ s.length)
    (hfuel : remaining s st.backward pos < fuel) (hk : k.AffordsFrom lim depth steps s st pos) :
    Affords lim (depth + 1) (fuel * steps) d st
      (repeatLazy (guarded lim false (single next)) q k d fuel st pos n) := by
  induction fuel generalizing st pos n with
  | zero => exact absurd hfuel (Nat.not_lt_zero _)
  | succ fuel ih =>
    have hfirst := @affords_atLeast s lim depth steps d q k st pos n hpos hk
    rw [repeatLazy, Nat.succ_mul, Nat.add_comm (fuel * steps)]
    refine (@Affords.orElse lim depth steps (depth + 1) (fuel * steps) d st _ _ hfirst fun _ hback => ?_).mono
      (by omega) le_rfl
    generalize (if q.min ≤ n then k d st pos else failed st).st = now at hback
    split_ifs with hfull
    · exact (Affords.failed lim d now).mono (Nat.zero_le _) (Nat.zero_le _)
    intro hd hs hnow
    have hturn := @turn_eq lim d now (by omega) hnow next pos
    dsimp only
    rw [hturn]
    dsimp only
    cases hr : next now pos with
    | none =>
      rw [if_pos Option.getD_none]
      exact ⟨hnow, Nat.le_add_right .., fun _ => rfl⟩
    | some r =>
      have hless := hnext now pos r hr
      obtain ⟨hinside, -⟩ := hlands now pos r hpos hr
      have hne : ¬ (some r).getD pos = pos := fun hstill => lt_irrefl _ ((congrArg _ hstill.symm).trans_lt hless)
      rw [if_neg hne]
      rw [hback] at hless
      exact ih (n + 1) hinside (by rw [hback]; exact hless.trans_le (Nat.lt_succ_iff.mp hfuel))
        (hk.of_reaches ⟨hback, hinside, hless.le⟩) hd hs hnow

include hlands hnext in
/-- A run takes no step, and comes only to positions that a match may come to. -/
theorem runOf_spec (hd : d + 1 ≤ lim.maxDepth) (hst : st.exhausted = false) (fuel : ℕ) {pos : ℕ} (shorter : List ℕ)
    (hpos : pos ≤ s.length) (hfuel : remaining s st.backward pos < fuel) :
    ∃ ends, runOf (guarded lim false (single next)) q d fuel st pos shorter = (ends ++ shorter, st) ∧
      ends.length ≤ fuel ∧ ∀ r ∈ ends, Reaches s st pos st r := by
  induction fuel generalizing pos shorter with
  | zero => exact absurd hfuel (Nat.not_lt_zero _)
  | succ fuel ih =>
    have hlast : ∀ r ∈ [pos], Reaches s st pos st r := by
      intro r hr
      rw [List.mem_singleton.mp hr]
      exact Reaches.refl st hpos
    have hone : [pos].length ≤ fuel + 1 := Nat.succ_le_succ (Nat.zero_le fuel)
    rw [runOf, turn_eq hd hst next pos]
    split_ifs with hfull
    · exact ⟨[pos], rfl, hone, hlast⟩
    dsimp only
    cases hr : next st pos with
    | none => exact ⟨[pos], by rw [if_pos Option.getD_none]; rfl, hone, hlast⟩
    | some r =>
      have hless := hnext st pos r hr
      obtain ⟨hinside, -⟩ := hlands st pos r hpos hr
      have hne : ¬ (some r).getD pos = pos := fun hstill => lt_irrefl _ ((congrArg _ hstill.symm).trans_lt hless)
      have hthere : Reaches s st pos st r := ⟨rfl, hinside, hless.le⟩
      obtain ⟨ends, hrun, hlength, hall⟩ := ih (pos :: shorter) hinside (hless.trans_le (Nat.lt_succ_iff.mp hfuel))
      refine ⟨ends ++ [pos], ?_, ?_, fun r' hr' => ?_⟩
      · rw [if_neg hne, List.append_assoc]
        exact hrun
      · rw [List.length_append]
        exact Nat.succ_le_succ hlength
      · rcases List.mem_append.mp hr' with hmem | hmem
        · exact hthere.trans (hall r' hmem)
        · exact hlast r' hmem

theorem affords_offer {pos : ℕ} (hpos : pos ≤ s.length) (hk : k.AffordsFrom lim depth steps s st pos) (ends : List ℕ)
    (hends : ∀ r ∈ ends, Reaches s st pos st r) :
    Affords lim depth (ends.length * steps) d st (offer q k d st ends) := by
  induction ends generalizing st with
  | nil => exact (Affords.failed lim d st).mono (Nat.zero_le _) (Nat.zero_le _)
  | cons r shorter ih =>
    obtain ⟨hr, hshorter⟩ := List.forall_mem_cons.mp hends
    have hfirst := @affords_atLeast s lim depth steps d q k st r shorter.length hr.inside (hk.of_reaches hr)
    rw [offer, List.length_cons, Nat.succ_mul, Nat.add_comm (shorter.length * steps)]
    refine (@Affords.orElse lim depth steps depth (shorter.length * steps) d st _ _ hfirst fun _ hback => ?_).mono
      (by omega) le_rfl
    have hagain := @Reaches.of_backward s st _ pos hpos hback
    refine ih (hk.of_reaches hagain) fun r' hr' => ?_
    obtain ⟨-, hinside, hleft⟩ := hshorter r' hr'
    exact ⟨rfl, hinside, by rw [hback]; exact hleft⟩

end Simple

theorem bounded_repeatSimple (x : Subject) (q : Quantifier) {atom : Atom} (hsimple : atom.simple = true) :
    Bounded x.s fun lim => repeatSimple (guarded lim false (matchAtom lim x atom)) q x := by
  intro depth steps
  refine ⟨depth + 1, (x.s.length + 2) * steps, fun lim k d st pos hpos hk => ?_⟩
  obtain ⟨next, hatom, hnext, hlands⟩ := @exists_lands lim x atom hsimple
  have hleft := @remaining_le x.s st.backward pos hpos
  dsimp only
  rw [hatom, repeatSimple]
  split_ifs
  · intro hd hs hst
    obtain ⟨ends, hrun, hlength, hall⟩ := @runOf_spec x.s lim d next hlands hnext q st (by omega) hst (x.s.length + 2) pos []
      hpos (by omega)
    dsimp only
    rw [hrun, List.append_nil]
    have hoffer := @affords_offer x.s lim depth steps d q k st pos hpos hk ends hall
    exact (hoffer.mono (Nat.le_succ _) (Nat.mul_le_mul_right _ hlength)) hd hs hst
  · exact affords_repeatLazy hlands hnext q (x.s.length + 2) 0 hpos (by omega) hk

/-! ## Repetition inside itself -/

/-- The turns that are left: each takes some of the subject, but for one that stands for those owed. -/
def turnsLeft (s : Text) (q : Quantifier) (st : RxState) (pos n : ℕ) : ℕ :=
  2 * remaining s st.backward pos + if n < q.min then 1 else 0

theorem remaining_lt_of_ne {st : RxState} {pos pos' : ℕ} (hpos : pos ≤ s.length) {st' : RxState}
    (h : Reaches s st pos st' pos') (hne : pos' ≠ pos) :
    remaining s st'.backward pos' < remaining s st.backward pos := by
  obtain ⟨hback, hinside, hle⟩ := h
  rw [hback]
  refine lt_of_le_of_ne hle fun heq => hne ?_
  rw [remaining, remaining] at heq
  split_ifs at heq
  · exact heq
  · omega

theorem exists_affords_repeatFrom {once : Limits → Matcher} (honce : Bounded s once) (q : Quantifier)
    (depth steps turns : ℕ) : ∃ depth' steps', ∀ lim k fuel d st pos n, pos ≤ s.length →
      turnsLeft s q st pos n < turns → turns ≤ fuel → k.AffordsFrom lim depth steps s st pos →
      Affords lim depth' steps' d st (repeatFrom (once lim) q k fuel d st pos n) := by
  induction turns with
  | zero => exact ⟨0, 0, fun _ _ _ _ _ _ _ _ hturns => absurd hturns (Nat.not_lt_zero _)⟩
  | succ turns ih =>
    obtain ⟨depth₁, steps₁, ih⟩ := ih
    obtain ⟨depth₂, steps₂, honce⟩ := honce depth₁ steps₁
    refine ⟨max depth₂ depth, steps₂ + steps, fun lim k fuel d st pos n hpos hturns hfuel hk => ?_⟩
    obtain ⟨fuel, rfl⟩ : ∃ f, fuel = f + 1 := ⟨fuel - 1, by omega⟩
    have hmore {now : RxState} (hback : now.backward = st.backward) :
        Affords lim depth₂ steps₂ d now (oneMore (once lim) q d pos n (again (once lim) q k fuel pos n) now) := by
      rw [oneMore]
      split_ifs with hfull
      · exact (Affords.failed lim d now).mono (Nat.zero_le _) (Nat.zero_le _)
      refine Affords.onFail ?_ (fun _ => rfl) (fun _ => rfl) (fun _ => rfl)
      refine (honce lim (again (once lim) q k fuel pos n) d { now with caps := clearCaptures q now.caps } pos hpos ?_).of_state
        rfl rfl rfl
      intro d' st' next hreach
      have hcleared : Reaches s st pos { now with caps := clearCaptures q now.caps } pos := Reaches.of_backward hpos hback
      have hthere := hcleared.trans hreach
      rw [again]
      split_ifs with hmoved howed
      · -- some of the subject is taken
        have hless := remaining_lt_of_ne hpos hthere hmoved
        refine ih lim k fuel d' st' next (n + 1) hthere.inside ?_ (by omega) (hk.of_reaches hthere)
        rw [turnsLeft] at hturns ⊢
        split_ifs <;> omega
      · -- the turns owed are taken
        rw [not_not] at hmoved
        subst hmoved
        refine ih lim k fuel d' st' next q.min hthere.inside ?_ (by omega) (hk.of_reaches hthere)
        rw [turnsLeft, if_pos howed] at hturns
        rw [turnsLeft, if_neg (lt_irrefl _), hthere.backward]
        omega
      · exact (Affords.failed lim d' st').mono (Nat.zero_le _) (Nat.zero_le _)
    have hdone {now : RxState} (hback : now.backward = st.backward) :
        Affords lim depth steps d now (afterLast q k d pos n now) :=
      affords_atLeast q hpos (hk.of_reaches (Reaches.of_backward hpos hback))
    rw [repeatFrom_succ, inOrder]
    split_ifs
    · exact (hmore rfl).orElse fun _ hback => hdone hback
    · exact ((hdone rfl).orElse fun _ hback => hmore hback).mono (by omega) (by omega)

/-! ## Sequences and alternatives -/

theorem exists_boundedBy {ms : List (Limits → Matcher)} (h : ∀ m ∈ ms, Bounded s m) (depth steps : ℕ) :
    ∃ depth' steps', ∀ m ∈ ms, BoundedBy s m depth steps depth' steps' := by
  induction ms with
  | nil => exact ⟨0, 0, fun _ hm => absurd hm List.not_mem_nil⟩
  | cons m ms ih =>
    obtain ⟨hm, hms⟩ := List.forall_mem_cons.mp h
    obtain ⟨depth₁, steps₁, hm⟩ := hm depth steps
    obtain ⟨depth₂, steps₂, hms⟩ := ih hms
    refine ⟨max depth₁ depth₂, max steps₁ steps₂, List.forall_mem_cons.mpr ⟨?_, fun m hmem => ?_⟩⟩
    · exact fun lim k d st pos hpos hk => (hm lim k d st pos hpos hk).mono (le_max_left ..) (le_max_left ..)
    · exact fun lim k d st pos hpos hk => (hms m hmem lim k d st pos hpos hk).mono (le_max_right ..) (le_max_right ..)

theorem bounded_matchSeq {ms : List (Limits → Matcher)} (h : ∀ m ∈ ms, Bounded s m) (left : ℕ) :
    Bounded s fun lim => matchSeq (ms.map fun m => m lim) left := by
  induction left with
  | zero => exact fun depth steps => ⟨depth, steps, fun _ k d st pos hpos hk => hk d st pos (Reaches.refl st hpos)⟩
  | succ left ih =>
    intro depth steps
    obtain ⟨depth₁, steps₁, hrest⟩ := ih depth steps
    obtain ⟨depth₂, steps₂, hpieces⟩ := exists_boundedBy h depth₁ steps₁
    refine ⟨depth₂, steps₂, fun lim k d st pos hpos hk => ?_⟩
    dsimp only
    rw [matchSeq]
    dsimp only
    rw [List.getElem?_map]
    cases hpiece : ms[if st.backward = true then
        (ms.map fun m => m lim).length - 1 - ((ms.map fun m => m lim).length - (left + 1))
      else (ms.map fun m => m lim).length - (left + 1)]? with
    | none => exact (Affords.failed lim d st).mono (Nat.zero_le _) (Nat.zero_le _)
    | some m =>
      refine hpieces m (List.mem_of_getElem? hpiece) lim _ d st pos hpos fun d' st' pos' hreach => ?_
      exact hrest lim k d' st' pos' hreach.inside (hk.of_reaches hreach)

theorem bounded_firstOf {ms : List (Limits → Matcher)} (h : ∀ m ∈ ms, Bounded s m) :
    Bounded s fun lim => firstOf (ms.map fun m => m lim) := by
  induction ms with
  | nil => exact fun _ _ => ⟨0, 0, fun lim _ d st _ _ _ => Affords.failed lim d st⟩
  | cons m ms ih =>
    obtain ⟨hm, hms⟩ := List.forall_mem_cons.mp h
    intro depth steps
    obtain ⟨depth₁, steps₁, hfirst⟩ := hm depth steps
    obtain ⟨depth₂, steps₂, hrest⟩ := ih hms depth steps
    refine ⟨max depth₁ depth₂, steps₁ + steps₂, fun lim k d st pos hpos hk => ?_⟩
    dsimp only
    rw [List.map_cons, firstOf]
    refine (hfirst lim k d st pos hpos hk).orElse fun _ hback => ?_
    exact hrest lim k d _ pos hpos (hk.of_reaches (Reaches.of_backward hpos hback))

theorem bounded_repeatFrom {once : Limits → Matcher} (honce : Bounded s once) (q : Quantifier) :
    Bounded s fun lim d st pos k => repeatFrom (once lim) q k (lim.maxDepth + 1) d st pos 0 := by
  intro depth steps
  obtain ⟨depth', steps', h⟩ := exists_affords_repeatFrom honce q depth steps (2 * s.length + 2)
  refine ⟨max depth' (2 * s.length + 2), steps', fun lim k d st pos hpos hk hd hs hst => ?_⟩
  have hleft := @remaining_le s st.backward pos hpos
  have hturns : turnsLeft s q st pos 0 < 2 * s.length + 2 := by
    rw [turnsLeft]
    split_ifs <;> omega
  exact h lim k (lim.maxDepth + 1) d st pos 0 hpos hturns (by omega) hk (by omega) hs hst

theorem bounded_quantified (x : Subject) (q : Quantifier) (simple : Bool) {once : Limits → Matcher}
    (honce : Bounded x.s once)
    (hsimple : simple = true → Bounded x.s fun lim => repeatSimple (once lim) q x) :
    Bounded x.s fun lim => quantified lim x q simple (once lim) := by
  refine bounded_guarded true ?_
  by_cases h : (q.min ≠ 1 ∨ q.max ≠ some 1) ∧ simple = true
  · simp only [if_pos h]
    exact hsimple h.2
  · simp only [if_neg h]
    exact bounded_repeatFrom honce q

/-! ## Patterns -/

section Patterns

variable (x : Subject)

/-- The matchers of the pieces of a sequence, under any limits. -/
def pieceMatchers (pieces : List Piece) : List (Limits → Matcher) := pieces.map fun piece lim => matchPiece lim x piece

theorem matchPieces_eq (lim : Limits) (pieces : List Piece) :
    matchPieces lim x pieces = (pieceMatchers x pieces).map fun m => m lim := by
  induction pieces with
  | nil => rfl
  | cons piece pieces ih => rw [matchPieces, ih, pieceMatchers, pieceMatchers, List.map_cons, List.map_cons]

/-- The matchers of alternatives, under any limits. -/
def seqMatchers (alts : List (List Piece)) : List (Limits → Matcher) :=
  alts.map fun sq lim => matchSeq ((pieceMatchers x sq).map fun m => m lim) sq.length

theorem matchSeqs_eq (lim : Limits) (alts : List (List Piece)) :
    matchSeqs lim x alts = (seqMatchers x alts).map fun m => m lim := by
  induction alts with
  | nil => rfl
  | cons sq alts ih =>
    rw [matchSeqs, ih, seqMatchers, seqMatchers, List.map_cons, List.map_cons, matchPieces_eq]
    dsimp only
    rw [List.length_map, pieceMatchers, List.length_map]

mutual

/-- Every part of a pattern is bounded. -/
theorem bounded_matchAtom : ∀ atom : Atom, Bounded x.s fun lim => matchAtom lim x atom
  | .lit c text => bounded_single (lands_litAt x c text)
  | .any => bounded_single (lands_anyAt x)
  | .cls cc => bounded_tryStrings x (bounded_single (lands_classAt x cc)) cc.strings
  | .grp sub cap on off => bounded_group cap on off (bounded_alternatives sub)
  | .bol => bounded_single (lands_stay x.s _)
  | .eol => bounded_single (lands_stay x.s _)
  | .wordb => bounded_single (lands_stay x.s _)
  | .nwordb => bounded_single (lands_stay x.s _)
  | .ahead sub => bounded_look false false (bounded_alternatives sub)
  | .nahead sub => bounded_look false true (bounded_alternatives sub)
  | .behind sub => bounded_look true false (bounded_alternatives sub)
  | .nbehind sub => bounded_look true true (bounded_alternatives sub)
  | .backref cap refName => bounded_single (lands_backrefAt x cap refName)

theorem bounded_matchPiece : ∀ piece : Piece, Bounded x.s fun lim => matchPiece lim x piece
  | .mk atom q => bounded_quantified x q atom.simple (bounded_guarded false (bounded_matchAtom atom))
    fun hsimple => bounded_repeatSimple x q hsimple

theorem bounded_pieceMatchers : ∀ pieces : List Piece, ∀ m ∈ pieceMatchers x pieces, Bounded x.s m
  | [] => fun _ h => absurd h List.not_mem_nil
  | piece :: pieces => List.forall_mem_cons.mpr ⟨bounded_matchPiece piece, bounded_pieceMatchers pieces⟩

theorem bounded_seqMatchers : ∀ alts : List (List Piece), ∀ m ∈ seqMatchers x alts, Bounded x.s m
  | [] => fun _ h => absurd h List.not_mem_nil
  | sq :: alts =>
    List.forall_mem_cons.mpr ⟨bounded_matchSeq (bounded_pieceMatchers sq) sq.length, bounded_seqMatchers alts⟩

theorem bounded_alternatives (alts : List (List Piece)) : Bounded x.s fun lim => firstOf (matchSeqs lim x alts) := by
  have hfirst := bounded_firstOf (bounded_seqMatchers alts)
  simp only [← matchSeqs_eq] at hfirst
  exact hfirst

end

end Patterns

/-! ## Ending -/

theorem Node.bounded (x : Subject) : ∀ node : Node, Bounded x.s fun lim => node.matcher lim x
  | piece p => bounded_matchPiece x p
  | alt alts => bounded_alternatives x alts

theorem Node.refines {lim lim' : Limits} (hlim : lim ≤ lim') (x : Subject) :
    ∀ node : Node, Refines (node.matcher lim x) (node.matcher lim' x)
  | piece p => refines_matchPiece hlim x p
  | alt alts => refines_matchAlt hlim x alts

/-- What comes next ends: it needs so much of the budget at most, and spent, it stays spent. -/
structure Cont.Ends (k : Cont) : Prop where
  affords : ∃ depth steps, ∀ lim d st pos, Affords lim depth steps d st (k d st pos)
  sticky : k.Sticky

/-- The pattern `/(?:a*)*(?:){2147483647}/`. -/
def emptyTurns : RxAlt :=
  [[.mk (.grp [[.mk (.lit 0x61 []) ⟨0, none, true, 0, 0⟩]] none ⟨false, false, false⟩ ⟨false, false, false⟩)
      ⟨0, none, true, 0, 0⟩,
    .mk (.grp [[]] none ⟨false, false, false⟩ ⟨false, false, false⟩) ⟨2147483647, some 2147483647, true, 0, 0⟩]]

end CtBrowser.Script.Regex
