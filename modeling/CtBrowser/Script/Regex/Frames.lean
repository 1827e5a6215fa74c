import CtBrowser.Script.Regex.Loops
import Mathlib.Data.List.GetD

/-!
# What matching leaves as it was

Matching changes the state on the way: captures are set and cleared, a group's modifiers set flags, a
lookaround sets the direction. A part of a pattern that fails puts back what it changed, as long as what
comes after it does, and what comes after it runs with the flags and the direction of its own start.

A lookaround that has matched is not asked again, so a failure after it finds the captures of its pattern
set. They are put back by the piece it stands in, which clears the captures inside it before it is matched.

## Main definitions

- `Frame` — what may be different after a match.
- `Framed` — a matcher stays in a frame if what comes after it does.
- `Node.Numbered` — the captures inside a piece are those that it clears.

## Main results

- `framed_matchSeqs` — every part of a pattern stays in its frame.
- `backtracking_restores` — a failure leaves the captures, the flags and the direction.
-/

namespace CtBrowser.Script.Regex

/-- The flags in force. -/
def RxState.flags (st : RxState) : Modifiers := ⟨st.icase, st.multi, st.dotall⟩

/-- The same flags and direction are in force. -/
structure InForce (st st' : RxState) : Prop where
  flags : st'.flags = st.flags
  backward : st'.backward = st.backward

/-- The same direction, and the same captures but for some. -/
structure Alike (loose : Set ℕ) (st st' : RxState) : Prop where
  backward : st'.backward = st.backward
  length : st'.caps.length = st.caps.length
  caps : ∀ i, i ∉ loose → st'.caps.getD i none = st.caps.getD i none

/-- What may be different after a match: some of the captures; and after one that succeeds anything, or else
these captures only, and the flags. -/
structure Frame where
  loose : Set ℕ
  strict : Bool
  free : Bool

/-- The rest of the state is as it was. -/
structure Frame.Keeps (f : Frame) (st : RxState) (o : Outcome) : Prop where
  alike : f.strict = true ∨ o.hit = none → Alike f.loose st o.st
  flags : f.strict = true ∧ f.free = false ∨ o.hit = none → o.st.flags = st.flags

/-- Two outcomes are one, and it stays in the frame. -/
def Frame.Agrees (f : Frame) (st : RxState) (o' o : Outcome) : Prop := o' = o ∧ f.Keeps st o

/-- Continuations that agree with what is in force at a state. -/
def Frame.Continues (f : Frame) (n : ℕ) (st : RxState) (k' k : Cont) : Prop :=
  ∀ d st' pos, st'.caps.length = n → InForce st st' → f.Agrees st' (k' d st' pos) (k d st' pos)

/-- Stays in a frame, and asks of what comes next only what it does with the flags and the direction of the
start. -/
def Framed (n : ℕ) (f : Frame) (m : Matcher) : Prop :=
  ∀ k k' d st pos, st.caps.length = n → f.Continues n st k' k → f.Agrees st (m d st pos k') (m d st pos k)

/-! ## States -/

namespace InForce

theorem refl (st : RxState) : InForce st st := ⟨rfl, rfl⟩

theorem trans {st st' st'' : RxState} (h : InForce st st') (h' : InForce st' st'') : InForce st st'' :=
  ⟨h'.flags.trans h.flags, h'.backward.trans h.backward⟩

end InForce

namespace Alike

variable {loose : Set ℕ} {st st' st'' : RxState}

theorem refl (loose : Set ℕ) (st : RxState) : Alike loose st st := ⟨rfl, rfl, fun _ _ => rfl⟩

theorem trans (h : Alike loose st st') (h' : Alike loose st' st'') : Alike loose st st'' where
  backward := h'.backward.trans h.backward
  length := h'.length.trans h.length
  caps i hi := (h'.caps i hi).trans (h.caps i hi)

theorem mono {larger : Set ℕ} (h : Alike loose st st') (hle : loose ⊆ larger) : Alike larger st st' where
  backward := h.backward
  length := h.length
  caps i hi := h.caps i fun hmem => hi (hle hmem)

theorem caps_eq (h : Alike ∅ st st') : st'.caps = st.caps := by
  refine List.ext_getElem h.length fun i hi hi' => ?_
  have hcap := h.caps i (Set.notMem_empty i)
  rwa [List.getD_eq_getElem _ _ hi, List.getD_eq_getElem _ _ hi'] at hcap

end Alike

/-- Only the budget is different. -/
structure Still (st st' : RxState) : Prop where
  caps : st'.caps = st.caps
  flags : st'.flags = st.flags
  backward : st'.backward = st.backward

namespace Still

variable {st st' st'' : RxState}

theorem refl (st : RxState) : Still st st := ⟨rfl, rfl, rfl⟩

theorem trans (h : Still st st') (h' : Still st' st'') : Still st st'' :=
  ⟨h'.caps.trans h.caps, h'.flags.trans h.flags, h'.backward.trans h.backward⟩

theorem inForce (h : Still st st') : InForce st st' := ⟨h.flags, h.backward⟩

theorem alike (h : Still st st') (loose : Set ℕ) : Alike loose st st' :=
  ⟨h.backward, by rw [h.caps], fun i _ => by rw [h.caps]⟩

end Still

theorem still_budget (lim : Limits) (d : ℕ) (st : RxState) (step : Bool) : Still st (budget lim d st step).2 := by
  rw [budget]
  split_ifs
  · exact ⟨rfl, rfl, rfl⟩
  · dsimp only
    split_ifs
    · exact ⟨rfl, rfl, rfl⟩
    · exact ⟨rfl, rfl, rfl⟩
  · exact ⟨rfl, rfl, rfl⟩

/-! ## Outcomes -/

namespace Frame

variable {f : Frame} {n : ℕ} {st st' : RxState} {o o' : Outcome} {k k' : Cont}

namespace Keeps

theorem failed (halike : Alike f.loose st st') (hflags : st'.flags = st.flags) : f.Keeps st (failed st') :=
  ⟨fun _ => halike, fun _ => hflags⟩

theorem of_start (h : f.Keeps st' o) (halike : Alike f.loose st st') (hflags : st'.flags = st.flags) :
    f.Keeps st o :=
  ⟨fun ho => halike.trans (h.alike ho), fun ho => (h.flags ho).trans hflags⟩

theorem inForce (h : f.Keeps st o) (ho : o.hit = none) : InForce st o.st :=
  ⟨h.flags (.inr ho), (h.alike (.inr ho)).backward⟩

theorem length (h : f.Keeps st o) (ho : o.hit = none) : o.st.caps.length = st.caps.length :=
  (h.alike (.inr ho)).length

end Keeps

namespace Agrees

theorem failed (f : Frame) (st : RxState) : f.Agrees st (failed st) (failed st) :=
  ⟨rfl, Keeps.failed (Alike.refl _ st) rfl⟩

theorem of_start (h : f.Agrees st' o' o) (halike : Alike f.loose st st') (hflags : st'.flags = st.flags) :
    f.Agrees st o' o :=
  ⟨h.1, h.2.of_start halike hflags⟩

theorem of_still (h : f.Agrees st' o' o) (hstill : Still st st') : f.Agrees st o' o :=
  h.of_start (hstill.alike _) hstill.flags

theorem orElse (h : f.Agrees st o' o) {second second' : RxState → Outcome}
    (hsecond : o.hit = none → f.Agrees o.st (second' o.st) (second o.st)) :
    f.Agrees st (o'.orElse second') (o.orElse second) := by
  obtain ⟨rfl, hkeeps⟩ := h
  rw [Outcome.orElse, Outcome.orElse]
  cases hhit : o'.hit with
  | some stop => exact ⟨rfl, hkeeps⟩
  | none => exact (hsecond hhit).of_start (hkeeps.alike (.inr hhit)) (hkeeps.flags (.inr hhit))

end Agrees

namespace Continues

theorem at_start (h : f.Continues n st k' k) (hst : st.caps.length = n) (d pos : ℕ) :
    f.Agrees st (k' d st pos) (k d st pos) :=
  h d st pos hst (InForce.refl st)

theorem of_inForce (h : f.Continues n st k' k) (hst : InForce st st') : f.Continues n st' k' k :=
  fun d st'' pos hlength hst' => h d st'' pos hlength (hst.trans hst')

theorem orFail (h : f.Continues n st k' k) (hst : st.caps.length = n) (d : ℕ) (next : Option ℕ) :
    f.Agrees st (k'.orFail d st next) (k.orFail d st next) := by
  cases next with
  | none => exact Agrees.failed f st
  | some pos => exact h.at_start hst d pos

end Continues

theorem continues_accept (f : Frame) (n : ℕ) (st : RxState) : f.Continues n st accept accept :=
  fun _ st' _ _ _ => ⟨rfl, fun _ => Alike.refl _ st', fun _ => rfl⟩

end Frame

/-! ## Atoms -/

section Atoms

variable {n : ℕ} {f : Frame}

theorem framed_single (next : RxState → ℕ → Option ℕ) : Framed n f (single next) :=
  fun _ _ d st pos hst hk => hk.orFail hst d (next st pos)

theorem framed_tryStrings (x : Subject) {last : Matcher} (h : Framed n f last) (strings : List Text) :
    Framed n f (tryStrings x last strings) := by
  induction strings with
  | nil => exact h
  | cons str strings ih =>
    intro k k' d st pos hst hk
    have hfirst := hk.orFail hst d (advanceOver x.s st.backward pos str)
    rw [tryStrings]
    refine hfirst.orElse fun hhit => ?_
    have hlength := (hfirst.2.length hhit).trans hst
    exact ih k k' d _ pos hlength (hk.of_inForce (hfirst.2.inForce hhit))

/-- The frame inside a group: the group's own capture may change, and the flags on success. -/
def Frame.inside (f : Frame) (cap : Option ℕ) (mods : Bool) : Frame where
  loose := f.loose ∪ {i | cap = some i}
  strict := f.strict
  free := f.free || mods

theorem length_setCapture (cap : Option ℕ) (value : Capture) (st : RxState) :
    (setCapture cap value st).caps.length = st.caps.length := by
  cases cap with
  | none => rfl
  | some c => exact List.length_set

theorem flags_setCapture (cap : Option ℕ) (value : Capture) (st : RxState) :
    (setCapture cap value st).flags = st.flags := by
  cases cap <;> rfl

theorem backward_setCapture (cap : Option ℕ) (value : Capture) (st : RxState) :
    (setCapture cap value st).backward = st.backward := by
  cases cap <;> rfl

theorem getD_setCapture {cap : Option ℕ} {i : ℕ} (h : cap ≠ some i) (value : Capture) (st : RxState) :
    (setCapture cap value st).caps.getD i none = st.caps.getD i none := by
  cases cap with
  | none => rfl
  | some c =>
    have hne : c ≠ i := fun hc => h (congrArg some hc)
    rw [setCapture, List.getD_eq_getElem?_getD, List.getElem?_set_ne hne, List.getD_eq_getElem?_getD]

theorem getD_setCapture_self (c : ℕ) (saved : List Capture) (st : RxState) (h : st.caps.length = saved.length) :
    (setCapture (some c) (saved.getD c none) st).caps.getD c none = saved.getD c none := by
  rw [setCapture, List.getD_eq_getElem?_getD, List.getElem?_set_self']
  rcases lt_or_ge c st.caps.length with hc | hc
  · rw [List.getElem?_eq_getElem hc]
    rfl
  · rw [List.getElem?_eq_none hc, List.getD_eq_default _ _ (h ▸ hc)]
    rfl

/-- Flags put in place, if a group has modifiers. -/
def withFlagsIf (mods : Bool) (outer st : RxState) : RxState := if mods then withFlags outer st else st

/-- What comes next after the body of a group that was entered in a state. -/
def afterBody (cap : Option ℕ) (mods : Bool) (inner st : RxState) (pos : ℕ) (k : Cont) : Cont := fun d now stop =>
  (k d (withFlagsIf mods st (setCapture cap (some (min pos stop, max pos stop)) now)) stop).onFail
    (withFlagsIf mods inner)

/-- What a group makes of its body's match. -/
def leaveGroup (cap : Option ℕ) (mods : Bool) (st : RxState) (result : Outcome) : Outcome :=
  Outcome.onFail ⟨result.hit, withFlagsIf mods st result.st⟩
    (setCapture cap (cap.bind fun c => st.caps.getD c none))

theorem group_eq (cap : Option ℕ) (on off : Modifiers) (body : Matcher) (d : ℕ) (st : RxState) (pos : ℕ) (k : Cont) :
    group cap on off body d st pos k =
      leaveGroup cap (on.any || off.any) st (body d (withFlagsIf (on.any || off.any) (modified on off st) st) pos
        (afterBody cap (on.any || off.any) (modified on off st) st pos k)) := rfl

theorem alike_withFlagsIf (mods : Bool) (outer st : RxState) : Alike ∅ st (withFlagsIf mods outer st) := by
  rw [withFlagsIf]
  split_ifs
  · exact ⟨rfl, rfl, fun _ _ => rfl⟩
  · exact Alike.refl ∅ st

theorem flags_withFlagsIf {mods : Bool} {outer st : RxState} (h : mods = false → st.flags = outer.flags) :
    (withFlagsIf mods outer st).flags = outer.flags := by
  cases mods with
  | true => rfl
  | false => exact h rfl

theorem alike_setCapture {loose : Set ℕ} (cap : Option ℕ) (value : Capture) (st : RxState) :
    Alike (loose ∪ {i | cap = some i}) st (setCapture cap value st) where
  backward := backward_setCapture cap value st
  length := length_setCapture cap value st
  caps _ hi := getD_setCapture (fun h => hi (.inr h)) value st

theorem alike_restored {loose : Set ℕ} {cap : Option ℕ} {st st' : RxState}
    (h : Alike (loose ∪ {i | cap = some i}) st st') :
    Alike loose st (setCapture cap (cap.bind fun c => st.caps.getD c none) st') where
  backward := (backward_setCapture ..).trans h.backward
  length := (length_setCapture ..).trans h.length
  caps i hi := by
    by_cases hcap : cap = some i
    · subst hcap
      exact getD_setCapture_self i st.caps st' h.length
    · rw [getD_setCapture hcap]
      exact h.caps i fun hmem => hmem.elim hi hcap

/-- What comes next after a body runs outside the group, and puts the flags of the inside back. -/
theorem continues_afterBody {cap : Option ℕ} {mods : Bool} {inner st : RxState} {k k' : Cont}
    (hk : f.Continues n st k' k) (pos : ℕ) :
    (f.inside cap mods).Continues n (withFlagsIf mods inner st) (afterBody cap mods inner st pos k')
      (afterBody cap mods inner st pos k) := by
  intro d now stop hnow hforce
  have hset := @alike_setCapture f.loose cap (some (min pos stop, max pos stop)) now
  have hflagset := flags_setCapture cap (some (min pos stop, max pos stop)) now
  rw [afterBody, afterBody]
  generalize setCapture cap _ now = set at hset hflagset
  have hafter := hset.trans ((alike_withFlagsIf mods st set).mono (Set.empty_subset _))
  have hforce' : InForce st (withFlagsIf mods st set) := by
    refine ⟨flags_withFlagsIf fun hmods => ?_, hafter.backward.trans (hforce.backward.trans ?_)⟩
    · subst hmods
      exact hflagset.trans hforce.flags
    · exact (alike_withFlagsIf mods inner st).backward
  obtain ⟨heq, hkeeps⟩ := hk d _ stop (hafter.length.trans hnow) hforce'
  rw [heq]
  generalize k d _ stop = result at hkeeps
  have hlarger : f.loose ⊆ f.loose ∪ {i | cap = some i} := Set.subset_union_left
  refine ⟨rfl, ?_⟩
  rw [Outcome.onFail]
  cases hhit : result.hit with
  | none =>
    have halike := hafter.trans ((hkeeps.alike (.inr hhit)).mono hlarger)
    refine Frame.Keeps.failed (halike.trans ((alike_withFlagsIf mods inner _).mono (Set.empty_subset _))) ?_
    cases mods with
    | true => exact hforce.flags.symm
    | false => exact (hkeeps.flags (.inr hhit)).trans hflagset
  | some last =>
    dsimp only
    refine ⟨fun ha => ?_, fun ha => ?_⟩
    · have hstrict := ha.resolve_right (by rw [hhit]; rintro ⟨⟩)
      exact hafter.trans ((hkeeps.alike (.inl hstrict)).mono hlarger)
    · obtain ⟨hstrict, hboth⟩ := ha.resolve_right (by rw [hhit]; rintro ⟨⟩)
      obtain ⟨hfree, rfl⟩ : f.free = false ∧ mods = false := Bool.or_eq_false_iff.mp hboth
      exact (hkeeps.flags (.inl ⟨hstrict, hfree⟩)).trans hflagset

/-- A group leaves what its body does, with the flags and, on failure, its own capture put back. -/
theorem keeps_leaveGroup {cap : Option ℕ} {mods : Bool} {inner st : RxState} {result : Outcome}
    (hcap : f.strict = true → ∀ c, cap = some c → c ∈ f.loose)
    (hinner : mods = false → (withFlagsIf mods inner st).flags = st.flags)
    (h : (f.inside cap mods).Keeps (withFlagsIf mods inner st) result) :
    f.Keeps st (leaveGroup cap mods st result) := by
  have hback (ha : f.strict = true ∨ result.hit = none) :
      Alike (f.loose ∪ {i | cap = some i}) st (withFlagsIf mods st result.st) :=
    (((alike_withFlagsIf mods inner st).mono (Set.empty_subset _)).trans (h.alike ha)).trans
      ((alike_withFlagsIf mods st _).mono (Set.empty_subset _))
  have hflags (ha : f.strict = true ∧ f.free = false ∨ result.hit = none) :
      (withFlagsIf mods st result.st).flags = st.flags := by
    refine flags_withFlagsIf fun hmods => ?_
    refine (h.flags (ha.imp_left fun hs => ⟨hs.1, ?_⟩)).trans (hinner hmods)
    rw [Frame.inside, hs.2, hmods]
    rfl
  rw [leaveGroup, Outcome.onFail]
  cases hhit : result.hit with
  | none =>
    refine Frame.Keeps.failed (alike_restored (hback (.inr hhit))) ?_
    exact (flags_setCapture ..).trans (hflags (.inr hhit))
  | some stop =>
    refine ⟨fun ha => ?_, fun ha => hflags (.inl (ha.resolve_right (by rintro ⟨⟩)))⟩
    have hstrict : f.strict = true := ha.resolve_right (by rintro ⟨⟩)
    exact (hback (.inl hstrict)).mono (Set.union_subset subset_rfl fun c hc => hcap hstrict c hc)

theorem framed_group (cap : Option ℕ) (on off : Modifiers) {body : Matcher}
    (hcap : f.strict = true → ∀ c, cap = some c → c ∈ f.loose)
    (h : Framed n (f.inside cap (on.any || off.any)) body) : Framed n f (group cap on off body) := by
  intro k k' d st pos hst hk
  rw [group_eq, group_eq]
  have hlength := (alike_withFlagsIf (on.any || off.any) (modified on off st) st).length.trans hst
  obtain ⟨heq, hkeeps⟩ := h _ _ d _ pos hlength (continues_afterBody hk pos)
  rw [heq]
  refine ⟨rfl, keeps_leaveGroup hcap (fun hmods => ?_) hkeeps⟩
  rw [hmods]
  rfl

/-! ## Lookarounds -/

/-- The frame of a pattern that is only asked for: its match counts, so on success too. -/
def Frame.asked (loose : Set ℕ) : Frame := ⟨loose, true, false⟩

theorem framed_look (backward negative : Bool) {body : Matcher}
    (h : Framed n (Frame.asked (if negative then Set.univ else f.loose)) body) :
    Framed n f (look backward negative body) := by
  intro k k' d st pos hst hk
  obtain ⟨-, hinner⟩ := h accept accept d { st with backward := backward } pos hst (Frame.continues_accept _ n _)
  rw [look, look]
  generalize body _ _ _ _ = inner at hinner
  have hflags : inner.st.flags = st.flags := hinner.flags (.inl ⟨rfl, rfl⟩)
  have hlength : inner.st.caps.length = st.caps.length := (hinner.alike (.inl rfl)).length
  -- with the captures put back, only the budget is different
  have hdropped : Still st { inner.st with backward := st.backward, caps := st.caps } := ⟨rfl, hflags, rfl⟩
  rw [lookedAt, lookedAt]
  cases negative with
  | true =>
    rw [if_pos rfl, if_pos rfl]
    split_ifs
    · exact Frame.Agrees.of_still (hk d { inner.st with backward := st.backward, caps := st.caps } pos hst
        hdropped.inForce) hdropped
    · exact (Frame.Agrees.failed f _).of_still hdropped
  | false =>
    rw [if_neg Bool.false_ne_true, if_neg Bool.false_ne_true]
    split_ifs
    · exact (Frame.Agrees.failed f _).of_still hdropped
    · have hafter : Alike f.loose st { inner.st with backward := st.backward } :=
        ⟨rfl, hlength, (hinner.alike (.inl rfl)).caps⟩
      exact Frame.Agrees.of_start (hk d { inner.st with backward := st.backward } pos (hlength.trans hst)
        ⟨hflags, rfl⟩) hafter hflags

end Atoms

/-! ## Repetition -/

section Simple

variable {n : ℕ} {f : Frame} {once : Matcher} (hstill : ∀ d st pos, Still st (once d st pos accept).st) (q : Quantifier)
  {k k' : Cont} {st : RxState}

include hstill in
theorem still_runOf (d fuel : ℕ) (st : RxState) (pos : ℕ) (shorter : List ℕ) :
    Still st (runOf once q d fuel st pos shorter).2 := by
  induction fuel generalizing st pos shorter with
  | zero => exact ⟨rfl, rfl, rfl⟩
  | succ fuel ih =>
    rw [runOf]
    split_ifs
    · exact Still.refl st
    · dsimp only
      split_ifs
      · exact hstill d st pos
      · exact (hstill d st pos).trans (ih _ _ _)

theorem agrees_offer (hst : st.caps.length = n) (hk : f.Continues n st k' k) (d : ℕ) (ends : List ℕ) :
    f.Agrees st (offer q k' d st ends) (offer q k d st ends) := by
  induction ends generalizing st with
  | nil => exact Frame.Agrees.failed f st
  | cons pos shorter ih =>
    have hfirst : f.Agrees st (if q.min ≤ shorter.length then k' d st pos else failed st)
        (if q.min ≤ shorter.length then k d st pos else failed st) := by
      split_ifs
      · exact hk.at_start hst d pos
      · exact Frame.Agrees.failed f st
    rw [offer, offer]
    refine hfirst.orElse fun hhit => ?_
    exact ih ((hfirst.2.length hhit).trans hst) (hk.of_inForce (hfirst.2.inForce hhit))

include hstill in
theorem agrees_repeatLazy (hst : st.caps.length = n) (hk : f.Continues n st k' k) (d fuel pos m : ℕ) :
    f.Agrees st (repeatLazy once q k' d fuel st pos m) (repeatLazy once q k d fuel st pos m) := by
  induction fuel generalizing st pos m with
  | zero => exact (Frame.Agrees.failed f (outlasted st)).of_still ⟨rfl, rfl, rfl⟩
  | succ fuel ih =>
    have hfirst : f.Agrees st (if q.min ≤ m then k' d st pos else failed st)
        (if q.min ≤ m then k d st pos else failed st) := by
      split_ifs
      · exact hk.at_start hst d pos
      · exact Frame.Agrees.failed f st
    rw [repeatLazy, repeatLazy]
    refine hfirst.orElse fun hhit => ?_
    have hlength := (hfirst.2.length hhit).trans hst
    have hforce := hfirst.2.inForce hhit
    generalize (if q.min ≤ m then k d st pos else failed st).st = now at hlength hforce
    have hturn := hstill d now pos
    dsimp only
    split_ifs
    · exact Frame.Agrees.failed f now
    · exact (Frame.Agrees.failed f _).of_still hturn
    · exact (ih ((congrArg _ hturn.caps).trans hlength) (hk.of_inForce (hforce.trans hturn.inForce)) _ _).of_still hturn

include hstill in
theorem framed_repeatSimple (x : Subject) : Framed n f (repeatSimple once q x) := by
  intro k k' d st pos hst hk
  rw [repeatSimple, repeatSimple]
  dsimp only
  split_ifs
  · have hrun := still_runOf hstill q d (x.s.length + 2) st pos []
    exact (agrees_offer q ((congrArg _ hrun.caps).trans hst) (hk.of_inForce hrun.inForce) d _).of_still hrun
  · exact agrees_repeatLazy hstill q hst hk d _ pos 0

end Simple

theorem length_splice {caps mid : List Capture} {lo hi : ℕ} (hlo : lo ≤ hi) (hhi : hi ≤ caps.length)
    (hmid : mid.length = hi - lo) : (caps.take lo ++ mid ++ caps.drop hi).length = caps.length := by
  rw [List.length_append, List.length_append, List.length_take, List.length_drop]
  omega

theorem getD_splice {caps mid : List Capture} {lo hi : ℕ} (hlo : lo ≤ hi) (hhi : hi ≤ caps.length)
    (hmid : mid.length = hi - lo) (i : ℕ) : (caps.take lo ++ mid ++ caps.drop hi).getD i none =
      if lo ≤ i ∧ i < hi then mid.getD (i - lo) none else caps.getD i none := by
  have htake : (caps.take lo).length = lo := by
    rw [List.length_take]
    omega
  simp only [List.getD_eq_getElem?_getD, List.getElem?_append, List.length_append, htake, hmid]
  split_ifs with h1 h2 h3 h3
  · omega
  · rw [List.getElem?_take_of_lt h2]
  · rfl
  · omega
  · omega
  · rw [List.getElem?_drop]
    congr 2
    omega

/-- The captures that a repetition clears. -/
def Quantifier.cleared (q : Quantifier) : Set ℕ := {i | q.capsLo ≤ i ∧ i < q.capsHi}

/-- A frame with more captures. -/
def Frame.widen (f : Frame) (more : Set ℕ) : Frame := { f with loose := f.loose ∪ more }

theorem Frame.Continues.widen {f : Frame} {n : ℕ} {st : RxState} {k k' : Cont} (hk : f.Continues n st k' k)
    (more : Set ℕ) : (f.widen more).Continues n st k' k := by
  intro d st' pos hst' hforce
  obtain ⟨heq, hkeeps⟩ := hk d st' pos hst' hforce
  exact ⟨heq, fun ha => (hkeeps.alike ha).mono Set.subset_union_left, hkeeps.flags⟩

section General

variable {n : ℕ} {f : Frame} {once : Matcher} {q : Quantifier} (h : Framed n (f.widen q.cleared) once)
  (hq : q.capsLo < q.capsHi → q.capsHi ≤ n) (hloose : f.strict = true → q.cleared ⊆ f.loose)

include hq in
theorem clearCaptures_spec {caps : List Capture} (hlength : caps.length = n) :
    (clearCaptures q caps).length = n ∧ ∀ i, (clearCaptures q caps).getD i none =
      if q.capsLo ≤ i ∧ i < q.capsHi then none else caps.getD i none := by
  rw [clearCaptures]
  split_ifs with hlt
  · have hhi := hq hlt
    have hmid : (List.replicate (q.capsHi - q.capsLo) (none : Capture)).length = q.capsHi - q.capsLo :=
      List.length_replicate
    refine ⟨(length_splice hlt.le (by omega) hmid).trans hlength, fun i => ?_⟩
    rw [getD_splice hlt.le (by omega) hmid]
    split_ifs with hi
    · rw [List.getD_eq_getElem?_getD, List.getElem?_replicate_of_lt (by omega)]
      rfl
    · rfl
  · exact ⟨hlength, fun i => (if_neg (by omega)).symm⟩

include hq in
theorem restoreCaptures_spec {saved caps : List Capture} (hlength : caps.length = n) (hsaved : saved.length = n) :
    (restoreCaptures q saved caps).length = n ∧ ∀ i, (restoreCaptures q saved caps).getD i none =
      if q.capsLo ≤ i ∧ i < q.capsHi then saved.getD i none else caps.getD i none := by
  rw [restoreCaptures]
  split_ifs with hlt
  · have hhi := hq hlt
    have hmid : ((saved.drop q.capsLo).take (q.capsHi - q.capsLo)).length = q.capsHi - q.capsLo := by
      rw [List.length_take, List.length_drop]
      omega
    refine ⟨(length_splice hlt.le (by omega) hmid).trans hlength, fun i => ?_⟩
    rw [getD_splice hlt.le (by omega) hmid]
    split_ifs with hi
    · rw [List.getD_eq_getElem?_getD, List.getElem?_take_of_lt (by omega), List.getElem?_drop,
        Nat.add_sub_cancel' hi.1, List.getD_eq_getElem?_getD]
    · rfl
  · exact ⟨hlength, fun i => (if_neg (by omega)).symm⟩

include h hq hloose in
theorem agrees_oneMore {k k' : Cont} {st : RxState} (hst : st.caps.length = n) (hk : f.Continues n st k' k)
    (d pos m : ℕ) : f.Agrees st (oneMore once q d pos m k' st) (oneMore once q d pos m k st) := by
  rw [oneMore, oneMore]
  split_ifs
  · exact Frame.Agrees.failed f st
  obtain ⟨hlength, hcleared⟩ := clearCaptures_spec hq hst
  have hk' := (hk.of_inForce (⟨rfl, rfl⟩ : InForce st { st with caps := clearCaptures q st.caps })).widen q.cleared
  obtain ⟨heq, hkeeps⟩ := h k k' d _ pos hlength hk'
  rw [heq]
  generalize once d _ pos k = result at hkeeps
  refine ⟨rfl, ?_⟩
  rw [Outcome.onFail]
  cases hhit : result.hit with
  | none =>
    have halike := hkeeps.alike (.inr hhit)
    obtain ⟨hlength', hrestored⟩ := restoreCaptures_spec hq (halike.length.trans hlength) hst
    refine Frame.Keeps.failed ⟨halike.backward, hlength'.trans hst.symm, fun i hi => ?_⟩ (hkeeps.flags (.inr hhit))
    dsimp only
    rw [hrestored]
    split_ifs with hrange
    · rfl
    · rw [halike.caps i fun hmem => hmem.elim hi hrange, hcleared, if_neg hrange]
  | some stop =>
    refine ⟨fun ha => ?_, hkeeps.flags⟩
    have hstrict := ha.resolve_right (by rw [hhit]; rintro ⟨⟩)
    have halike := hkeeps.alike (.inl hstrict)
    refine ⟨halike.backward, halike.length.trans (hlength.trans hst.symm), fun i hi => ?_⟩
    have hrange : ¬ (q.capsLo ≤ i ∧ i < q.capsHi) := fun hrange => hi (hloose hstrict hrange)
    rw [halike.caps i fun hmem => hmem.elim hi hrange, hcleared, if_neg hrange]

/-- What comes after one more repetition. -/
def again (once : Matcher) (q : Quantifier) (k : Cont) (fuel pos m : ℕ) : Cont := fun d st next =>
  if next ≠ pos then repeatFrom once q k fuel d st next (m + 1)
  else if m < q.min then repeatFrom once q k fuel d st next q.min
  else failed st

/-- What comes after the last repetition. -/
def afterLast (q : Quantifier) (k : Cont) (d pos m : ℕ) (st : RxState) : Outcome :=
  if q.min ≤ m then k d st pos else failed st

theorem repeatFrom_succ (once : Matcher) (q : Quantifier) (k : Cont) (fuel d : ℕ) (st : RxState) (pos m : ℕ) :
    repeatFrom once q k (fuel + 1) d st pos m =
      inOrder q (oneMore once q d pos m (again once q k fuel pos m)) (afterLast q k d pos m) st := rfl

theorem agrees_afterLast {k k' : Cont} {st : RxState} (hst : st.caps.length = n) (hk : f.Continues n st k' k)
    (d pos m : ℕ) : f.Agrees st (afterLast q k' d pos m st) (afterLast q k d pos m st) := by
  rw [afterLast, afterLast]
  split_ifs
  · exact hk.at_start hst d pos
  · exact Frame.Agrees.failed f st

include h hq hloose in
theorem agrees_repeatFrom {k k' : Cont} {d : ℕ} {st : RxState} (hst : st.caps.length = n)
    (hk : f.Continues n st k' k) (fuel pos m : ℕ) :
    f.Agrees st (repeatFrom once q k' fuel d st pos m) (repeatFrom once q k fuel d st pos m) := by
  induction fuel generalizing d st pos m with
  | zero => exact (Frame.Agrees.failed f (outlasted st)).of_still ⟨rfl, rfl, rfl⟩
  | succ fuel ih =>
    have hagain {now : RxState} (hforce : InForce st now) :
        f.Continues n now (again once q k' fuel pos m) (again once q k fuel pos m) := by
      intro d st' next hst' hforce'
      have hk' := hk.of_inForce (hforce.trans hforce')
      rw [again, again]
      split_ifs
      · exact ih hst' hk' next (m + 1)
      · exact ih hst' hk' next q.min
      · exact Frame.Agrees.failed f st'
    rw [repeatFrom_succ, repeatFrom_succ, inOrder, inOrder]
    by_cases hgreedy : q.greedy = true
    · have hfirst := agrees_oneMore h hq hloose hst (hagain (InForce.refl st)) d pos m
      rw [if_pos hgreedy, if_pos hgreedy]
      refine hfirst.orElse fun hhit => ?_
      exact agrees_afterLast ((hfirst.2.length hhit).trans hst) (hk.of_inForce (hfirst.2.inForce hhit)) d pos m
    · have hfirst := @agrees_afterLast n f q k k' st hst hk d pos m
      rw [if_neg hgreedy, if_neg hgreedy]
      refine hfirst.orElse fun hhit => ?_
      exact agrees_oneMore h hq hloose ((hfirst.2.length hhit).trans hst) (hagain (hfirst.2.inForce hhit)) d pos m

end General

theorem still_once (lim : Limits) (x : Subject) {atom : Atom} (h : atom.simple = true) (d : ℕ) (st : RxState)
    (pos : ℕ) : Still st (guarded lim false (matchAtom lim x atom) d st pos accept).st := by
  obtain ⟨next, hatom, -⟩ := @exists_advances lim x atom h
  have hstill := still_budget lim (d + 1) st false
  rw [hatom, guarded]
  generalize budget lim (d + 1) st false = checked at hstill
  obtain ⟨passed, now⟩ := checked
  cases passed with
  | true =>
    show Still st (accept.orFail (d + 1) now (next now pos)).st
    cases next now pos with
    | none => exact hstill
    | some r => exact hstill
  | false => exact hstill

/-! ## Sequences and alternatives -/

section Sequences

variable {n : ℕ} {f : Frame}

theorem framed_matchSeq {pieces : List Matcher} (h : ∀ piece ∈ pieces, Framed n f piece) (left : ℕ) :
    Framed n f (matchSeq pieces left) := by
  induction left with
  | zero => exact fun _ _ d _ pos hst hk => hk.at_start hst d pos
  | succ left ih =>
    intro k k' d st pos hst hk
    rw [matchSeq]
    dsimp only
    cases hpiece : pieces[if st.backward then pieces.length - 1 - (pieces.length - (left + 1))
      else pieces.length - (left + 1)]? with
    | none => exact Frame.Agrees.failed f st
    | some piece =>
      refine h piece (List.mem_of_getElem? hpiece) _ _ d st pos hst fun d st' pos hst' hforce => ?_
      exact ih k k' d st' pos hst' (hk.of_inForce hforce)

theorem framed_firstOf {alts : List Matcher} (h : ∀ alt ∈ alts, Framed n f alt) : Framed n f (firstOf alts) := by
  induction alts with
  | nil => exact fun _ _ _ st _ _ _ => Frame.Agrees.failed f st
  | cons alt alts ih =>
    obtain ⟨hfirst, hrest⟩ := List.forall_mem_cons.mp h
    intro k k' d st pos hst hk
    have hfirst := hfirst k k' d st pos hst hk
    rw [firstOf]
    refine hfirst.orElse fun hhit => ?_
    exact ih hrest k k' d _ pos ((hfirst.2.length hhit).trans hst) (hk.of_inForce (hfirst.2.inForce hhit))

theorem framed_guarded (lim : Limits) (step : Bool) {m : Matcher} (h : Framed n f m) :
    Framed n f (guarded lim step m) := by
  intro k k' d st pos hst hk
  have hstill := still_budget lim (d + 1) st step
  rw [guarded, guarded]
  generalize budget lim (d + 1) st step = checked at hstill
  obtain ⟨passed, now⟩ := checked
  cases passed with
  | true => exact (h k k' (d + 1) now pos ((congrArg _ hstill.caps).trans hst) (hk.of_inForce hstill.inForce)).of_still hstill
  | false => exact (Frame.Agrees.failed f now).of_still hstill

end Sequences

/-! ## Patterns -/

/-- The capture a group sets. -/
def Atom.cap : Atom → Option ℕ
  | .grp _ cap _ _ => cap
  | _ => none

mutual

/-- The captures of an atom's pattern are in a range. -/
def Atom.Numbered (lo hi : ℕ) : Atom → Prop
  | .grp sub _ _ _ => seqsNumbered lo hi sub
  | .ahead sub => seqsNumbered lo hi sub
  | .nahead sub => seqsNumbered lo hi sub
  | .behind sub => seqsNumbered lo hi sub
  | .nbehind sub => seqsNumbered lo hi sub
  | _ => True

/-- The capture of a piece and those it clears are in a range, and those of its atom's pattern are the ones
that it clears: a group takes the next number, and clears the numbers taken until it ends. -/
def Piece.Numbered (lo hi : ℕ) : Piece → Prop
  | .mk atom q => (∀ c, atom.cap = some c → lo ≤ c ∧ c < hi) ∧
      (q.capsLo < q.capsHi → lo ≤ q.capsLo ∧ q.capsHi ≤ hi) ∧ atom.Numbered q.capsLo q.capsHi

/-- The captures of a sequence are in a range. -/
def piecesNumbered (lo hi : ℕ) : List Piece → Prop
  | [] => True
  | piece :: pieces => piece.Numbered lo hi ∧ piecesNumbered lo hi pieces

/-- The captures of alternatives are in a range. -/
def seqsNumbered (lo hi : ℕ) : List (List Piece) → Prop
  | [] => True
  | sq :: alts => piecesNumbered lo hi sq ∧ seqsNumbered lo hi alts

end

/-- The captures of a range. -/
def captureRange (lo hi : ℕ) : Set ℕ := {i | lo ≤ i ∧ i < hi}

section Patterns

variable (lim : Limits) (x : Subject) {n : ℕ}

mutual

theorem framed_matchAtom (f : Frame) {lo hi : ℕ} (hhi : lo < hi → hi ≤ n) (hf : captureRange lo hi ⊆ f.loose) :
    ∀ atom : Atom, atom.Numbered lo hi → (f.strict = true → ∀ c, atom.cap = some c → c ∈ f.loose) →
      Framed n f (matchAtom lim x atom)
  | .lit .., _, _ => framed_single _
  | .any, _, _ => framed_single _
  | .cls cc, _, _ => framed_tryStrings x (framed_single _) cc.strings
  | .grp sub cap on off, h, hcap =>
    framed_group cap on off hcap (framed_firstOf
      (framed_matchSeqs (f.inside cap _) hhi (fun _ => hf.trans Set.subset_union_left) sub h))
  | .bol, _, _ => framed_single _
  | .eol, _, _ => framed_single _
  | .wordb, _, _ => framed_single _
  | .nwordb, _, _ => framed_single _
  | .ahead sub, h, _ =>
    framed_look false false (framed_firstOf (framed_matchSeqs (Frame.asked f.loose) hhi (fun _ => hf) sub h))
  | .nahead sub, h, _ =>
    framed_look false true (framed_firstOf
      (framed_matchSeqs (Frame.asked Set.univ) hhi (fun _ => Set.subset_univ _) sub h))
  | .behind sub, h, _ =>
    framed_look true false (framed_firstOf (framed_matchSeqs (Frame.asked f.loose) hhi (fun _ => hf) sub h))
  | .nbehind sub, h, _ =>
    framed_look true true (framed_firstOf
      (framed_matchSeqs (Frame.asked Set.univ) hhi (fun _ => Set.subset_univ _) sub h))
  | .backref .., _, _ => framed_single _

theorem framed_matchPiece (f : Frame) {lo hi : ℕ} (hhi : lo < hi → hi ≤ n) (hf : f.strict = true → captureRange lo hi ⊆ f.loose) :
    ∀ piece : Piece, piece.Numbered lo hi → Framed n f (matchPiece lim x piece)
  | .mk atom q, ⟨hcap, hcleared, hatom⟩ => by
    rw [matchPiece, quantified]
    refine framed_guarded lim true fun k k' d st pos hst hk => ?_
    split_ifs with hsimple
    · exact framed_repeatSimple (still_once lim x hsimple.2) q x k k' d st pos hst hk
    have hq : q.capsLo < q.capsHi → q.capsHi ≤ n := by
      intro hlt
      obtain ⟨hlo', hhi'⟩ := hcleared hlt
      exact hhi'.trans (hhi (by omega))
    have hloose : f.strict = true → q.cleared ⊆ f.loose := by
      rintro hstrict i ⟨hlo', hhi'⟩
      obtain ⟨hlo, hhi⟩ := hcleared (hlo'.trans_lt hhi')
      exact hf hstrict ⟨hlo.trans hlo', hhi'.trans_le hhi⟩
    have honce := framed_guarded lim false (framed_matchAtom (f.widen q.cleared) hq Set.subset_union_right atom hatom
      fun hstrict c hc => .inl (hf hstrict (hcap c hc)))
    exact agrees_repeatFrom honce hq hloose hst hk (lim.maxDepth + 1) pos 0

theorem framed_matchPieces (f : Frame) {lo hi : ℕ} (hhi : lo < hi → hi ≤ n) (hf : f.strict = true → captureRange lo hi ⊆ f.loose) :
    ∀ pieces : List Piece, piecesNumbered lo hi pieces → ∀ piece ∈ matchPieces lim x pieces, Framed n f piece
  | [], _ => fun _ h => absurd h List.not_mem_nil
  | piece :: pieces, h =>
    List.forall_mem_cons.mpr ⟨framed_matchPiece f hhi hf piece h.1, framed_matchPieces f hhi hf pieces h.2⟩

theorem framed_matchSeqs (f : Frame) {lo hi : ℕ} (hhi : lo < hi → hi ≤ n) (hf : f.strict = true → captureRange lo hi ⊆ f.loose) :
    ∀ alts : List (List Piece), seqsNumbered lo hi alts → ∀ alt ∈ matchSeqs lim x alts, Framed n f alt
  | [], _ => fun _ h => absurd h List.not_mem_nil
  | sq :: alts, h =>
    List.forall_mem_cons.mpr ⟨framed_matchSeq (framed_matchPieces f hhi hf sq h.1) _, framed_matchSeqs f hhi hf alts h.2⟩

end

end Patterns

/-! ## Backtracking -/

/-- A part of a pattern that is matched with its quantifiers. -/
inductive Node
  | piece (piece : Piece)
  | alt (alts : RxAlt)

namespace Node

/-- How a part is matched. -/
def matcher (lim : Limits) (x : Subject) : Node → Matcher
  | piece p => matchPiece lim x p
  | alt alts => matchAlt lim x alts

/-- The captures of a part are in a range, and those inside a piece are the ones that it clears. -/
def Numbered (lo hi : ℕ) : Node → Prop
  | piece p => p.Numbered lo hi
  | alt alts => seqsNumbered lo hi alts

theorem framed_matcher (lim : Limits) (x : Subject) {n : ℕ} (f : Frame)
    (hf : f.strict = true → captureRange 0 n ⊆ f.loose) :
    ∀ node : Node, node.Numbered 0 n → Framed n f (node.matcher lim x)
  | piece p, h => framed_matchPiece lim x f (fun _ => le_rfl) hf p h
  | alt alts, h => framed_firstOf (framed_matchSeqs lim x f (fun _ => le_rfl) hf alts h)

end Node

/-- A failure leaves the captures, the flags and the direction. -/
def Restored (st : RxState) (o : Outcome) : Prop := o.hit = none → o.st.caps = st.caps ∧ InForce st o.st

/-- The frame of what puts back everything. -/
def Frame.restoring : Frame := ⟨∅, false, false⟩

theorem Restored.keeps {st : RxState} {o : Outcome} (h : Restored st o) : Frame.restoring.Keeps st o := by
  constructor
  · intro ha
    obtain ⟨hcaps, hforce⟩ := h (ha.resolve_left Bool.false_ne_true)
    exact ⟨hforce.backward, by rw [hcaps], fun i _ => by rw [hcaps]⟩
  · intro ha
    exact (h (ha.resolve_left fun hs => Bool.false_ne_true hs.1)).2.flags

theorem Frame.Keeps.restored {st : RxState} {o : Outcome} (h : Frame.restoring.Keeps st o) : Restored st o :=
  fun hhit => ⟨(h.alike (.inr hhit)).caps_eq, h.inForce hhit⟩

/-- A piece or alternatives that fail leave the captures, the flags and the direction as they were, if what
comes next does; and what comes next is called with the flags and the direction of the start: what it does
with any others is never asked for. -/
theorem backtracking_restores (lim : Limits) (x : Subject) {n : ℕ} (node : Node) (hnode : node.Numbered 0 n) (k : Cont)
    (hk : ∀ d st pos, Restored st (k d st pos)) (d : ℕ) (st : RxState) (pos : ℕ) (hst : st.caps.length = n) :
    Restored st (node.matcher lim x d st pos k) ∧
      ∀ k' : Cont, (∀ d st' pos, InForce st st' → k' d st' pos = k d st' pos) →
        node.matcher lim x d st pos k' = node.matcher lim x d st pos k := by
  have hframed := Node.framed_matcher lim x Frame.restoring (fun hs => absurd hs Bool.false_ne_true) node hnode
  constructor
  · exact (hframed k k d st pos hst fun d st' pos _ _ => ⟨rfl, (hk d st' pos).keeps⟩).2.restored
  · intro k' hsame
    exact (hframed k k' d st pos hst fun d st' pos _ hforce => ⟨hsame d st' pos hforce, (hk d st' pos).keeps⟩).1

/-- The pattern `/(?=(a))b|(?i:a)/`. -/
def lookThen : RxAlt :=
  [[.mk (.ahead [[.mk (.grp [[.mk (.lit 0x61 []) ⟨1, some 1, true, 0, 0⟩]] (some 0) ⟨false, false, false⟩
        ⟨false, false, false⟩) ⟨1, some 1, true, 1, 1⟩]]) ⟨1, some 1, true, 0, 1⟩,
      .mk (.lit 0x62 []) ⟨1, some 1, true, 0, 0⟩],
    [.mk (.grp [[.mk (.lit 0x61 []) ⟨1, some 1, true, 0, 0⟩]] none ⟨true, false, false⟩ ⟨false, false, false⟩)
      ⟨1, some 1, true, 1, 1⟩]]

/-- A subject for a pattern without flags. -/
def plainSubject (s : Text) (root : RxAlt) (ngroups : ℕ) : Subject :=
  ⟨s, ⟨root, ngroups, false, false, false, false, false, []⟩, ⟨id, fun _ => []⟩⟩

theorem backtracking_restores_lookThen :
    let x := plainSubject [0x61] lookThen 1
    let result := (Node.alt lookThen).matcher ⟨2500, 10000000⟩ x 0 (startState x.p 0) 0 fun _ st _ => failed st
    result.hit = none ∧ Restored (startState x.p 0) result := by
  refine ⟨by decide +kernel, ?_⟩
  have hnumbered : (Node.alt lookThen).Numbered 0 1 := by
    simp [lookThen, Node.Numbered, seqsNumbered, piecesNumbered, Piece.Numbered, Atom.Numbered, Atom.cap]
  have hfails : ∀ (d : ℕ) (st : RxState) (pos : ℕ), Restored st (failed st) :=
    fun _ st _ _ => ⟨rfl, InForce.refl st⟩
  exact (backtracking_restores _ _ (Node.alt lookThen) hnumbered _ hfails 0 (startState _ 0) 0 rfl).1

end CtBrowser.Script.Regex
