import CtBrowser.Script.Regex.Matcher

/-!
# Spending the budget

A piece that runs out of budget fails as one that does not match, and everything that acts on a
failure acts on this one too: the next alternative is tried, a negative lookahead succeeds. What
keeps it from becoming an answer is the mark it leaves. No part of the matcher takes the mark away,
and as long as there is none the limits have not been asked for: the match goes the same way under
any larger ones.

## Main definitions

- `Outcome.Follows` — an outcome keeps the mark of its start, and without one is also another.
- `Refines` — a matcher and the same one under larger limits.

## Main results

- `refines_matchAlt` — every part of a pattern is refined by itself under larger limits.
- `rxSearch_budget` — an answer is that of any larger limits, and a spent budget is never one.
-/

namespace CtBrowser.Script.Regex

/-- Keeps the mark of a spent budget. -/
def Cont.Sticky (k : Cont) : Prop :=
  ∀ d st pos, st.exhausted = true → (k d st pos).st.exhausted = true

/-- An outcome that keeps the mark its start has, and that is the other one unless it has it. -/
structure Outcome.Follows (start : RxState) (o o' : Outcome) : Prop where
  sticky : start.exhausted = true → o.st.exhausted = true
  same : o.st.exhausted = false → o' = o

/-- Continuations of which the second goes the way of the first where that leaves no mark. -/
def Cont.Follows (k k' : Cont) : Prop := ∀ d st pos, (k d st pos).Follows st (k' d st pos)

/-- Matchers of which the second goes the way of the first where that leaves no mark, if their
continuations do. -/
def Refines (m m' : Matcher) : Prop :=
  ∀ k k', Cont.Follows k k' → ∀ d st pos, (m d st pos k).Follows st (m' d st pos k')

/-! ## Outcomes -/

namespace Outcome.Follows

variable {start st : RxState} {o o' : Outcome}

theorem refl (h : start.exhausted = true → o.st.exhausted = true) : o.Follows start o :=
  ⟨h, fun _ => rfl⟩

theorem failed (start : RxState) : (failed start).Follows start (Regex.failed start) := refl id

theorem of_exhausted (h : o.st.exhausted = true) : o.Follows start o' :=
  ⟨fun _ => h, fun hne => absurd h (Bool.eq_false_iff.mp hne)⟩

theorem of_start (h : o.Follows st o') (hst : start.exhausted = true → st.exhausted = true) :
    o.Follows start o' :=
  ⟨fun hstart => h.sticky (hst hstart), h.same⟩

theorem start_eq_false (h : o.Follows start o') (hne : o.st.exhausted = false) : start.exhausted = false :=
  Bool.eq_false_iff.mpr fun hstart => Bool.eq_false_iff.mp hne (h.sticky hstart)

theorem andThen (h : o.Follows start o') (f f' : Outcome → Outcome)
    (hf : ∀ o, (f o).Follows o.st (f' o)) : (f o).Follows start (f' o') := by
  refine ⟨fun hstart => (hf o).sticky (h.sticky hstart), fun hne => ?_⟩
  rw [h.same ((hf o).start_eq_false hne)]
  exact (hf o).same hne

theorem orElse (h : o.Follows start o') {second second' : RxState → Outcome}
    (hsecond : ∀ st, (second st).Follows st (second' st)) :
    (o.orElse second).Follows start (o'.orElse second') := by
  refine h.andThen (fun o => o.orElse second) (fun o => o.orElse second') fun o => ?_
  rcases o with ⟨_ | stop, st⟩
  · exact hsecond st
  · exact refl id

theorem onFail (h : o.Follows start o') {restore : RxState → RxState}
    (hrestore : ∀ st, (restore st).exhausted = st.exhausted) :
    (o.onFail restore).Follows start (o'.onFail restore) := by
  refine h.andThen (fun o => o.onFail restore) (fun o => o.onFail restore) fun o => refl fun hst => ?_
  rcases o with ⟨_ | stop, st⟩
  · exact (hrestore st).trans hst
  · exact hst

theorem mapState (h : o.Follows start o') {f : RxState → RxState}
    (hf : ∀ st, (f st).exhausted = st.exhausted) :
    (⟨o.hit, f o.st⟩ : Outcome).Follows start ⟨o'.hit, f o'.st⟩ :=
  h.andThen (fun o => ⟨o.hit, f o.st⟩) (fun o => ⟨o.hit, f o.st⟩) fun o =>
    refl fun hst => (hf o.st).trans hst

end Outcome.Follows

theorem Cont.Follows.orFail {k k' : Cont} (hk : k.Follows k') (d : ℕ) (st : RxState) (next : Option ℕ) :
    (k.orFail d st next).Follows st (k'.orFail d st next) := by
  cases next with
  | none => exact Outcome.Follows.failed st
  | some pos => exact hk d st pos

theorem accept_follows : accept.Follows accept := fun _ _ _ => Outcome.Follows.refl id

/-! ## Atoms -/

theorem refines_single (next : RxState → ℕ → Option ℕ) : Refines (single next) (single next) :=
  fun _ _ hk d st pos => hk.orFail d st (next st pos)

theorem refines_tryStrings (x : Subject) {last last' : Matcher} (h : Refines last last') (strings : List Text) :
    Refines (tryStrings x last strings) (tryStrings x last' strings) := by
  induction strings with
  | nil => exact h
  | cons str strings ih =>
    intro k k' hk d st pos
    exact (hk.orFail d st _).orElse fun st => ih k k' hk d st pos

theorem exhausted_setCapture (cap : Option ℕ) (value : Capture) (st : RxState) :
    (setCapture cap value st).exhausted = st.exhausted := by
  cases cap <;> rfl

theorem exhausted_ite_withFlags (mods : Bool) (outer st : RxState) :
    (if mods then withFlags outer st else st).exhausted = st.exhausted := by
  split_ifs <;> rfl

theorem refines_group (cap : Option ℕ) (on off : Modifiers) {body body' : Matcher} (h : Refines body body') :
    Refines (group cap on off body) (group cap on off body') := by
  intro k k' hk d st pos
  have hinside := exhausted_ite_withFlags (on.any || off.any) (modified on off st)
  have houtside := exhausted_ite_withFlags (on.any || off.any) st
  refine Outcome.Follows.onFail (Outcome.Follows.mapState ?_ houtside) (exhausted_setCapture cap _)
  refine (h _ _ ?_ d _ pos).of_start fun hst => (hinside st).trans hst
  intro d now stop
  refine ((hk d _ stop).of_start fun hnow => ?_).onFail hinside
  rw [houtside, exhausted_setCapture]
  exact hnow

theorem refines_look (backward negative : Bool) {body body' : Matcher} (h : Refines body body') :
    Refines (look backward negative body) (look backward negative body') := by
  intro k k' hk d st pos
  have hinner := h accept accept accept_follows d { st with backward := backward } pos
  refine Outcome.Follows.of_start (hinner.andThen (lookedAt negative st fun now => k d now pos)
    (lookedAt negative st fun now => k' d now pos) fun inner => ?_) id
  -- what comes next starts with the mark of the match inside
  rw [lookedAt, lookedAt]
  split_ifs
  · exact (hk d _ pos).of_start id
  · exact Outcome.Follows.refl id
  · exact Outcome.Follows.refl id
  · exact (hk d _ pos).of_start id

/-! ## Repetition -/

section Simple

variable {once once' : Matcher} (h : Refines once once') (q : Quantifier) {k k' : Cont} (hk : k.Follows k')

include h hk in
theorem repeatLazy_follows (d fuel : ℕ) (st : RxState) (pos n : ℕ) :
    (repeatLazy once q k d fuel st pos n).Follows st (repeatLazy once' q k' d fuel st pos n) := by
  induction fuel generalizing st pos n with
  | zero => exact Outcome.Follows.of_exhausted rfl
  | succ fuel ih =>
    rw [repeatLazy, repeatLazy]
    refine Outcome.Follows.orElse ?_ fun st => ?_
    · split_ifs
      · exact hk d st pos
      · exact Outcome.Follows.failed st
    by_cases hfull : q.full n = true
    · rw [if_pos hfull, if_pos hfull]
      exact Outcome.Follows.failed st
    rw [if_neg hfull, if_neg hfull]
    -- a turn, and what comes after it
    refine (h accept accept accept_follows d st pos).andThen
      (fun turn => if turn.hit.getD pos = pos then failed turn.st
        else repeatLazy once q k d fuel turn.st (turn.hit.getD pos) (n + 1))
      (fun turn => if turn.hit.getD pos = pos then failed turn.st
        else repeatLazy once' q k' d fuel turn.st (turn.hit.getD pos) (n + 1)) fun turn => ?_
    split_ifs
    · exact Outcome.Follows.failed turn.st
    · exact ih turn.st (turn.hit.getD pos) (n + 1)

include h in
theorem runOf_follows (d fuel : ℕ) (st : RxState) (pos : ℕ) (shorter : List ℕ) :
    (st.exhausted = true → (runOf once q d fuel st pos shorter).2.exhausted = true) ∧
      ((runOf once q d fuel st pos shorter).2.exhausted = false →
        runOf once' q d fuel st pos shorter = runOf once q d fuel st pos shorter) := by
  induction fuel generalizing st pos shorter with
  | zero => exact ⟨fun _ => rfl, fun h => Bool.noConfusion h⟩
  | succ fuel ih =>
    have hturn := h accept accept accept_follows d st pos
    rw [runOf, runOf]
    by_cases hfull : q.full shorter.length = true
    · rw [if_pos hfull, if_pos hfull]
      exact ⟨id, fun _ => rfl⟩
    rw [if_neg hfull, if_neg hfull]
    dsimp only
    by_cases hstill : (once d st pos accept).hit.getD pos = pos
    · rw [if_pos hstill]
      refine ⟨hturn.sticky, fun hne => ?_⟩
      rw [hturn.same hne, if_pos hstill]
    · rw [if_neg hstill]
      obtain ⟨hsticky, hsame⟩ := ih (once d st pos accept).st ((once d st pos accept).hit.getD pos) (pos :: shorter)
      refine ⟨fun hst => hsticky (hturn.sticky hst), fun hne => ?_⟩
      have hmid : (once d st pos accept).st.exhausted = false :=
        Bool.eq_false_iff.mpr fun hmid => Bool.eq_false_iff.mp hne (hsticky hmid)
      rw [hturn.same hmid, if_neg hstill]
      exact hsame hne

include hk in
theorem offer_follows (d : ℕ) (st : RxState) (ends : List ℕ) :
    (offer q k d st ends).Follows st (offer q k' d st ends) := by
  induction ends generalizing st with
  | nil => exact Outcome.Follows.failed st
  | cons pos shorter ih =>
    refine Outcome.Follows.orElse ?_ ih
    split_ifs
    · exact hk d st pos
    · exact Outcome.Follows.failed st

include h in
theorem refines_repeatSimple (x : Subject) : Refines (repeatSimple once q x) (repeatSimple once' q x) := by
  intro k k' hk d st pos
  rw [repeatSimple, repeatSimple]
  split_ifs
  · obtain ⟨hsticky, hsame⟩ := runOf_follows h q d (x.s.length + 2) st pos []
    have hoffer := offer_follows q hk d (runOf once q d (x.s.length + 2) st pos []).2
      (runOf once q d (x.s.length + 2) st pos []).1
    refine ⟨fun hst => hoffer.sticky (hsticky hst), fun hne => ?_⟩
    dsimp only
    rw [hsame (hoffer.start_eq_false hne)]
    exact hoffer.same hne
  · exact repeatLazy_follows h q hk d (x.s.length + 2) st pos 0

end Simple

section General

variable {once once' : Matcher} (h : Refines once once') (q : Quantifier) {k k' : Cont} (hk : k.Follows k')

include h hk in
theorem oneMore_follows (d pos n : ℕ) (st : RxState) :
    (oneMore once q d pos n k st).Follows st (oneMore once' q d pos n k' st) := by
  rw [oneMore, oneMore]
  split_ifs
  · exact Outcome.Follows.failed st
  · refine Outcome.Follows.onFail (Outcome.Follows.of_start (h k k' hk d _ pos) ?_) ?_
    · exact id
    · exact fun _ => rfl

include h hk in
theorem repeatFrom_follows {fuel fuel' : ℕ} (hfuel : fuel ≤ fuel') (d : ℕ) (st : RxState) (pos n : ℕ) :
    (repeatFrom once q k fuel d st pos n).Follows st (repeatFrom once' q k' fuel' d st pos n) := by
  induction fuel generalizing fuel' d st pos n with
  | zero => exact Outcome.Follows.of_exhausted rfl
  | succ fuel ih =>
    obtain ⟨fuel', rfl⟩ : ∃ m, fuel' = m + 1 := ⟨fuel' - 1, by omega⟩
    have ih := fun d st pos n => ih (Nat.le_of_succ_le_succ hfuel) d st pos n
    -- one more repetition goes on with those after it
    have hnext : Cont.Follows
        (fun d st next => if next ≠ pos then repeatFrom once q k fuel d st next (n + 1)
          else if n < q.min then repeatFrom once q k fuel d st next q.min else failed st)
        (fun d st next => if next ≠ pos then repeatFrom once' q k' fuel' d st next (n + 1)
          else if n < q.min then repeatFrom once' q k' fuel' d st next q.min else failed st) := by
      intro d st next
      dsimp only
      by_cases hmoved : next ≠ pos
      · rw [if_pos hmoved, if_pos hmoved]
        exact ih d st next (n + 1)
      rw [if_neg hmoved, if_neg hmoved]
      split_ifs
      · exact ih d st next q.min
      · exact Outcome.Follows.failed st
    have hdone : ∀ st : RxState, (if q.min ≤ n then k d st pos else failed st).Follows st
        (if q.min ≤ n then k' d st pos else failed st) := by
      intro st
      split_ifs
      · exact hk d st pos
      · exact Outcome.Follows.failed st
    have hmore := oneMore_follows h q hnext d pos n
    rw [repeatFrom, repeatFrom, inOrder, inOrder]
    by_cases hgreedy : q.greedy = true
    · rw [if_pos hgreedy, if_pos hgreedy]
      exact (hmore st).orElse hdone
    · rw [if_neg hgreedy, if_neg hgreedy]
      exact (hdone st).orElse hmore

end General

/-! ## Sequences and alternatives -/

theorem refines_matchSeq {pieces pieces' : List Matcher} (h : List.Forall₂ Refines pieces pieces') (left : ℕ) :
    Refines (matchSeq pieces left) (matchSeq pieces' left) := by
  induction left with
  | zero => exact fun _ _ hk d st pos => hk d st pos
  | succ left ih =>
    intro k k' hk d st pos
    rw [matchSeq, matchSeq, ← h.length_eq]
    dsimp only
    generalize (if st.backward then _ else _ : ℕ) = place
    cases hplace : pieces[place]? with
    | none =>
      rw [List.getElem?_eq_none_iff, h.length_eq, ← List.getElem?_eq_none_iff] at hplace
      rw [hplace]
      exact Outcome.Follows.failed st
    | some piece =>
      obtain ⟨hlt, hpiece⟩ := List.getElem?_eq_some_iff.mp hplace
      have hlt' : place < pieces'.length := h.length_eq ▸ hlt
      have hboth := List.Forall₂.get h hlt hlt'
      rw [List.getElem?_eq_getElem hlt']
      refine (hpiece ▸ hboth : Refines piece _) _ _ ?_ d st pos
      exact fun d st pos => ih k k' hk d st pos

theorem refines_firstOf {alts alts' : List Matcher} (h : List.Forall₂ Refines alts alts') :
    Refines (firstOf alts) (firstOf alts') := by
  induction h with
  | nil => exact fun _ _ _ _ st _ => Outcome.Follows.failed st
  | cons hfirst _ ih =>
    intro k k' hk d st pos
    exact (hfirst k k' hk d st pos).orElse fun st => ih k k' hk d st pos

/-! ## The matcher under larger limits -/

/-- Limits that are no smaller. -/
structure Limits.le (lim lim' : Limits) : Prop where
  maxDepth : lim.maxDepth ≤ lim'.maxDepth
  maxSteps : lim.maxSteps ≤ lim'.maxSteps

instance : LE Limits := ⟨Limits.le⟩

section Matching

variable {lim lim' : Limits} (hlim : lim ≤ lim') (x : Subject)

include hlim in
theorem refines_guarded (step : Bool) {m m' : Matcher} (h : Refines m m') :
    Refines (guarded lim step m) (guarded lim' step m') := by
  obtain ⟨hdepth, hsteps⟩ := hlim
  intro k k' hk d st pos
  rw [guarded, guarded, budget, budget]
  by_cases hspent : st.exhausted = true ∨ d + 1 > lim.maxDepth
  · rw [if_pos hspent]
    exact Outcome.Follows.of_exhausted rfl
  have hspent' : ¬ (st.exhausted = true ∨ d + 1 > lim'.maxDepth) :=
    fun h => hspent (h.imp_right fun hd => hdepth.trans_lt hd)
  rw [if_neg hspent, if_neg hspent']
  cases step with
  | false => exact h k k' hk (d + 1) st pos
  | true =>
    by_cases hlast : st.steps + 1 > lim.maxSteps
    · dsimp only
      rw [if_pos rfl, if_pos hlast]
      exact Outcome.Follows.of_exhausted rfl
    · have hlast' : ¬ st.steps + 1 > lim'.maxSteps := fun h => hlast (hsteps.trans_lt h)
      dsimp only
      rw [if_pos rfl, if_pos rfl, if_neg hlast, if_neg hlast']
      exact (h k k' hk (d + 1) _ pos).of_start id

include hlim in
theorem refines_quantified (q : Quantifier) (simple : Bool) {once once' : Matcher} (h : Refines once once') :
    Refines (quantified lim x q simple once) (quantified lim' x q simple once') := by
  refine refines_guarded hlim true ?_
  intro k k' hk d st pos
  dsimp only
  split_ifs
  · exact refines_repeatSimple h q x k k' hk d st pos
  · exact repeatFrom_follows h q hk (Nat.succ_le_succ hlim.maxDepth) d st pos 0

end Matching

mutual

theorem refines_matchAtom {lim lim' : Limits} (hlim : lim ≤ lim') (x : Subject) :
    ∀ atom : Atom, Refines (matchAtom lim x atom) (matchAtom lim' x atom)
  | .lit _ _ => refines_single _
  | .any => refines_single _
  | .cls cc => refines_tryStrings x (refines_single _) cc.strings
  | .grp sub cap on off => refines_group cap on off (refines_firstOf (refines_matchSeqs hlim x sub))
  | .bol => refines_single _
  | .eol => refines_single _
  | .wordb => refines_single _
  | .nwordb => refines_single _
  | .ahead sub => refines_look false false (refines_firstOf (refines_matchSeqs hlim x sub))
  | .nahead sub => refines_look false true (refines_firstOf (refines_matchSeqs hlim x sub))
  | .behind sub => refines_look true false (refines_firstOf (refines_matchSeqs hlim x sub))
  | .nbehind sub => refines_look true true (refines_firstOf (refines_matchSeqs hlim x sub))
  | .backref _ _ => refines_single _

theorem refines_matchPiece {lim lim' : Limits} (hlim : lim ≤ lim') (x : Subject) :
    ∀ piece : Piece, Refines (matchPiece lim x piece) (matchPiece lim' x piece)
  | .mk atom q =>
    refines_quantified hlim x q atom.simple (refines_guarded hlim false (refines_matchAtom hlim x atom))

theorem refines_matchPieces {lim lim' : Limits} (hlim : lim ≤ lim') (x : Subject) :
    ∀ pieces : List Piece, List.Forall₂ Refines (matchPieces lim x pieces) (matchPieces lim' x pieces)
  | [] => List.Forall₂.nil
  | piece :: pieces =>
    List.Forall₂.cons (refines_matchPiece hlim x piece) (refines_matchPieces hlim x pieces)

theorem refines_matchSeqs {lim lim' : Limits} (hlim : lim ≤ lim') (x : Subject) :
    ∀ alts : List (List Piece), List.Forall₂ Refines (matchSeqs lim x alts) (matchSeqs lim' x alts)
  | [] => List.Forall₂.nil
  | sq :: alts => by
    have hpieces := refines_matchPieces hlim x sq
    rw [matchSeqs, matchSeqs]
    refine List.Forall₂.cons ?_ (refines_matchSeqs hlim x alts)
    rw [← hpieces.length_eq]
    exact refines_matchSeq hpieces _

end

theorem refines_matchAlt {lim lim' : Limits} (hlim : lim ≤ lim') (x : Subject) (alts : RxAlt) :
    Refines (matchAlt lim x alts) (matchAlt lim' x alts) :=
  refines_firstOf (refines_matchSeqs hlim x alts)

/-! ## Searches -/

/-- Limits of a search that are no smaller. -/
structure SearchLimits.le (lim lim' : SearchLimits) : Prop where
  maxDepth : lim.maxDepth ≤ lim'.maxDepth
  maxSteps : lim.maxSteps ≤ lim'.maxSteps
  maxSearchSteps : lim.maxSearchSteps ≤ lim'.maxSearchSteps

instance : LE SearchLimits := ⟨SearchLimits.le⟩

instance (lim lim' : SearchLimits) : Decidable (lim ≤ lim') :=
  decidable_of_iff (lim.maxDepth ≤ lim'.maxDepth ∧ lim.maxSteps ≤ lim'.maxSteps ∧
    lim.maxSearchSteps ≤ lim'.maxSearchSteps)
    ⟨fun h => ⟨h.1, h.2.1, h.2.2⟩, fun h => ⟨h.maxDepth, h.maxSteps, h.maxSearchSteps⟩⟩

section Search

variable {lim lim' : SearchLimits} (hlim : lim ≤ lim') (x : Subject) {searchSteps searchSteps' : ℕ}
  (hsteps : searchSteps ≤ searchSteps')

include hlim hsteps in
theorem attempt_follows (start steps : ℕ) :
    (attempt lim x searchSteps start steps).Follows (startState x.p steps)
      (attempt lim' x searchSteps' start steps) := by
  have hboth : (⟨lim.maxDepth, min (steps + lim.maxSteps) searchSteps⟩ : Limits) ≤
      ⟨lim'.maxDepth, min (steps + lim'.maxSteps) searchSteps'⟩ :=
    ⟨hlim.maxDepth, min_le_min (Nat.add_le_add_left hlim.maxSteps steps) hsteps⟩
  exact refines_matchAlt hboth x x.p.root accept accept accept_follows 0 (startState x.p steps) start

include hlim hsteps in
/-- From each start on, a search that does not give up gives the answer of any larger limits. -/
theorem searchFrom_of_le (anchored : Bool) (left start steps : ℕ)
    (hne : (searchFrom lim x searchSteps anchored left start steps).exhausted = false) :
    searchFrom lim' x searchSteps' anchored left start steps =
      searchFrom lim x searchSteps anchored left start steps := by
  induction left generalizing start steps with
  | zero => rfl
  | succ left ih =>
    have hattempt := attempt_follows hlim x hsteps start steps
    rw [searchFrom] at hne ⊢
    rw [searchFrom]
    by_cases hinside : insideSequence x.s start
    · rw [if_pos hinside] at hne ⊢
      rw [if_pos hinside]
      split_ifs at hne ⊢
      · rfl
      · exact ih _ _ hne
    rw [if_neg hinside] at hne ⊢
    rw [if_neg hinside]
    dsimp only at hne ⊢
    by_cases hspent : (attempt lim x searchSteps start steps).st.exhausted = true
    · rw [if_pos hspent] at hne
      exact absurd hne Bool.noConfusion
    rw [hattempt.same (Bool.eq_false_iff.mpr hspent)]
    rw [if_neg hspent] at hne ⊢
    rw [if_neg hspent]
    cases hhit : (attempt lim x searchSteps start steps).hit with
    | some stop => rfl
    | none =>
      rw [hhit] at hne
      dsimp only at hne ⊢
      split_ifs at hne ⊢
      · rfl
      · exact ih _ _ hne

theorem found_of_exhausted (anchored : Bool) (left start steps : ℕ)
    (h : (searchFrom lim x searchSteps anchored left start steps).exhausted = true) :
    (searchFrom lim x searchSteps anchored left start steps).found = none := by
  induction left generalizing start steps with
  | zero => rfl
  | succ left ih =>
    rw [searchFrom] at h ⊢
    by_cases hinside : insideSequence x.s start
    · rw [if_pos hinside] at h ⊢
      split_ifs at h ⊢
      exact ih _ _ h
    rw [if_neg hinside] at h ⊢
    dsimp only at h ⊢
    by_cases hspent : (attempt lim x searchSteps start steps).st.exhausted = true
    · rw [if_pos hspent]
    · rw [if_neg hspent] at h ⊢
      cases hhit : (attempt lim x searchSteps start steps).hit with
      | some stop =>
        rw [hhit] at h
        exact absurd h Bool.noConfusion
      | none =>
        rw [hhit] at h
        dsimp only at h ⊢
        split_ifs at h ⊢
        exact ih _ _ h

end Search

/-! ## Spent budgets -/

theorem Limits.le_refl (lim : Limits) : lim ≤ lim := ⟨le_rfl, le_rfl⟩

theorem Cont.Sticky.follows {k : Cont} (hk : k.Sticky) : k.Follows k :=
  fun d st pos => Outcome.Follows.refl (hk d st pos)

theorem sticky_matchAlt (lim : Limits) (x : Subject) (alts : RxAlt) {k : Cont} (hk : k.Sticky) :
    Cont.Sticky fun d st pos => matchAlt lim x alts d st pos k :=
  fun d st pos => (refines_matchAlt lim.le_refl x alts k k hk.follows d st pos).sticky

theorem exhausted_look {body : Matcher} {backward negative : Bool} {k : Cont} (hk : k.Sticky) {d : ℕ}
    {st : RxState} {pos : ℕ}
    (h : (body d { st with backward := backward } pos accept).st.exhausted = true) :
    (look backward negative body d st pos k).st.exhausted = true := by
  rw [look, lookedAt]
  split_ifs
  · exact hk d _ pos h
  · exact h
  · exact h
  · exact hk d _ pos h

theorem exhausted_firstOf {alt : Matcher} {alts : List Matcher} {k : Cont}
    (hrest : Cont.Sticky fun d st pos => firstOf alts d st pos k) {d : ℕ} {st : RxState} {pos : ℕ}
    (h : (alt d st pos k).st.exhausted = true) : (firstOf (alt :: alts) d st pos k).st.exhausted = true := by
  rw [firstOf]
  dsimp only
  rw [Outcome.orElse]
  cases hhit : (alt d st pos k).hit with
  | some stop => exact h
  | none => exact hrest d _ pos h

/-- The answer of a search that does not give up is that of any larger limits. One that gives up has
none: a match that runs out of budget anywhere is one that runs out of it, and neither a negative
lookahead nor another alternative makes more of it. -/
theorem rxSearch_budget (x : Subject) (start : ℕ) (anchored : Bool) :
    (∀ lim lim', lim ≤ lim' → (rxSearch lim x start anchored).exhausted = false →
      rxSearch lim' x start anchored = rxSearch lim x start anchored) ∧
    (∀ lim, (rxSearch lim x start anchored).exhausted = true → (rxSearch lim x start anchored).found = none) ∧
    ∀ (lim : Limits) (k : Cont), k.Sticky → ∀ d st pos,
      (∀ alts, st.exhausted = true → (matchAlt lim x alts d st pos k).st.exhausted = true) ∧
      (∀ sub, (matchAlt lim x sub d { st with backward := false } pos accept).st.exhausted = true →
        (matchAtom lim x (.nahead sub) d st pos k).st.exhausted = true) ∧
      ∀ sq alts, (matchAlt lim x [sq] d st pos k).st.exhausted = true →
        (matchAlt lim x (sq :: alts) d st pos k).st.exhausted = true := by
  refine ⟨fun lim lim' hlim hne => ?_, fun lim h => ?_, fun lim k hk d st pos => ⟨fun alts => ?_, ?_, ?_⟩⟩
  · exact searchFrom_of_le hlim x (Nat.add_le_add_right hlim.maxSearchSteps _) anchored _ start 0 hne
  · exact found_of_exhausted x anchored _ start 0 h
  · exact sticky_matchAlt lim x alts hk d st pos
  · exact fun sub h => exhausted_look hk h
  · intro sq alts h
    refine exhausted_firstOf (sticky_matchAlt lim x alts hk) ?_
    rw [matchAlt, matchSeqs, matchSeqs, firstOf] at h
    dsimp only at h
    rw [Outcome.orElse] at h
    split at h <;> exact h

/-- A pattern that matches one byte, under small limits and under larger ones. -/
theorem rxSearch_any : rxSearch ⟨9, 9, 9⟩
      ⟨[0x61], ⟨[[.mk .any ⟨1, some 1, true, 0, 0⟩]], 0, false, false, false, false, false, []⟩, ⟨id, fun _ => []⟩⟩
      0 false =
    rxSearch ⟨5, 5, 5⟩
      ⟨[0x61], ⟨[[.mk .any ⟨1, some 1, true, 0, 0⟩]], 0, false, false, false, false, false, []⟩, ⟨id, fun _ => []⟩⟩
      0 false :=
  (rxSearch_budget _ 0 false).1 ⟨5, 5, 5⟩ ⟨9, 9, 9⟩ (by decide) (by decide)

end CtBrowser.Script.Regex
