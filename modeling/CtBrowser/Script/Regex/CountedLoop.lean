import CtBrowser.Script.Regex.Termination

/-!
# The counted loop

A repeated atom that takes one character is matched in a loop, not by one call inside the other: greedily, by
running as far as it goes and then offering the ends, the last first; lazily, by one turn whenever what comes
next has failed. The loop gives what the calls give. But it stays at the depth it starts at, where the calls go
one level deeper with each turn, so it goes on where they give up.

## Main definitions

- `Cont.Shallow` — what comes next goes the same way from a lesser depth.

## Main results

- `countedLoop_follows` — the loop gives the outcome of the calls, unless they give up.
- `countedLoop_deeper` — a run on which they give up and the loop does not.
-/

namespace CtBrowser.Script.Regex

/-- From a lesser depth it goes the same way, unless it gives up at the greater one. -/
def Cont.Shallow (k : Cont) : Prop := ∀ d d' st pos, d ≤ d' → (k d' st pos).Follows st (k d st pos)

theorem Cont.Shallow.follows {k : Cont} (hk : k.Shallow) : k.Follows k := fun d st pos => hk d d st pos le_rfl

/-! ## Outcomes -/

namespace Outcome

theorem exhausted_of_orElse {o : Outcome} {second : RxState → Outcome}
    (hsticky : ∀ st, st.exhausted = true → (second st).st.exhausted = true)
    (hne : (o.orElse second).st.exhausted = false) : o.st.exhausted = false := by
  obtain ⟨hit, st⟩ := o
  cases hit with
  | some stop => exact hne
  | none => exact Bool.eq_false_iff.mpr fun hst => Bool.eq_false_iff.mp hne (hsticky st hst)

theorem exhausted_second {o : Outcome} {second : RxState → Outcome} (hhit : o.hit = none)
    (hne : (o.orElse second).st.exhausted = false) : (second o.st).st.exhausted = false := by
  rwa [orElse, hhit] at hne

end Outcome

/-! ## Turns -/

section Turns

variable (lim : Limits) (next : RxState → ℕ → Option ℕ) {q : Quantifier} (hcaps : q.capsHi ≤ q.capsLo)

theorem turn_orFail {d : ℕ} {st : RxState} (hd : d + 1 ≤ lim.maxDepth) (hst : st.exhausted = false) (pos : ℕ)
    (rest : Cont) : guarded lim false (single next) d st pos rest = rest.orFail (d + 1) st (next st pos) := by
  have hdepth : ¬ (st.exhausted = true ∨ d + 1 > lim.maxDepth) :=
    fun hspent => hspent.elim (fun hex => Bool.false_ne_true (hst.symm.trans hex)) (by omega)
  rw [guarded, budget, if_neg hdepth]
  rfl

theorem turn_spent {d : ℕ} {st : RxState} (h : st.exhausted = true ∨ d + 1 > lim.maxDepth) (pos : ℕ) (rest : Cont) :
    guarded lim false (single next) d st pos rest = failed { st with exhausted := true } := by
  rw [guarded, budget, if_pos h]

include hcaps in
theorem oneMore_eq (once : Matcher) (d pos n : ℕ) (rest : Cont) (st : RxState) :
    oneMore once q d pos n rest st = if q.full n then failed st else once d st pos rest := by
  have hclear : clearCaptures q st.caps = st.caps := if_neg (not_lt.mpr hcaps)
  have hrestore : (fun now : RxState => { now with caps := restoreCaptures q st.caps now.caps }) = fun now => now := by
    funext now
    rw [restoreCaptures, if_neg (not_lt.mpr hcaps)]
  rw [oneMore, hclear, hrestore, Outcome.onFail_id]

end Turns

section Loop

variable {lim : Limits} {s : Text} {next : RxState → ℕ → Option ℕ} (hnext : Advances s next) {q : Quantifier}
  (hcaps : q.capsHi ≤ q.capsLo) {k : Cont} (hk : k.Shallow)

include hk in
theorem afterLast_follows {d d' : ℕ} (hd : d ≤ d') (pos n : ℕ) (st : RxState) :
    (afterLast q k d' pos n st).Follows st (afterLast q k d pos n st) := by
  rw [afterLast, afterLast]
  split_ifs
  · exact hk d d' st pos hd
  · exact Outcome.Follows.failed st

include hk in
theorem repeatFrom_sticky (fuel d : ℕ) (st : RxState) (pos n : ℕ) (hst : st.exhausted = true) :
    (repeatFrom (guarded lim false (single next)) q k fuel d st pos n).st.exhausted = true :=
  (repeatFrom_follows (refines_guarded ⟨le_rfl, le_rfl⟩ false (refines_single next)) q hk.follows (le_refl fuel) d st pos
    n).sticky hst

theorem Advances.ne (h : Advances s next) {st : RxState} {pos r : ℕ} (hr : next st pos = some r) : r ≠ pos := by
  rintro rfl
  exact lt_irrefl _ (h st r r hr)

include hnext hcaps in
theorem again_turn (fuel : ℕ) {d : ℕ} {st : RxState} (hd : d + 1 ≤ lim.maxDepth) (hst : st.exhausted = false)
    {pos : ℕ} (n : ℕ) (hfull : ¬ q.full n = true) :
    oneMore (guarded lim false (single next)) q d pos n
        (again (guarded lim false (single next)) q k fuel pos n) st =
      (next st pos).elim (failed st) fun r =>
        repeatFrom (guarded lim false (single next)) q k fuel (d + 1) st r (n + 1) := by
  rw [oneMore_eq hcaps, if_neg hfull, turn_orFail lim next hd hst]
  cases hr : next st pos with
  | none => rfl
  | some r => exact if_pos (hnext.ne hr)

include hcaps hk in
theorem depth_of_repeatFrom {fuel d : ℕ} {st : RxState} {pos n : ℕ} (hfull : ¬ q.full n = true)
    (hst : (q.greedy = true ∧ st.exhausted = false) ∨ q.greedy = false ∧ (afterLast q k d pos n st).hit = none)
    (hne : (repeatFrom (guarded lim false (single next)) q k (fuel + 1) d st pos n).st.exhausted = false) :
    d + 1 ≤ lim.maxDepth := by
  by_contra hdeep
  have hmore (now : RxState) : (oneMore (guarded lim false (single next)) q d pos n
      (again (guarded lim false (single next)) q k fuel pos n) now).st.exhausted = true := by
    rw [oneMore_eq hcaps, if_neg hfull, turn_spent lim next (.inr (not_le.mp hdeep))]
    rfl
  rw [repeatFrom_succ, inOrder] at hne
  rcases hst with ⟨hgreedy, -⟩ | ⟨hlazy, hhit⟩
  · rw [if_pos hgreedy] at hne
    have hfirst := Outcome.exhausted_of_orElse (fun now hnow => (afterLast_follows hk le_rfl pos n now).sticky hnow) hne
    exact Bool.false_ne_true (hfirst.symm.trans (hmore st))
  · rw [if_neg (Bool.not_eq_true _ ▸ hlazy), Outcome.orElse, hhit] at hne
    exact Bool.false_ne_true (hne.symm.trans (hmore _))

include hk in
theorem afterLast_orElse {d d' : ℕ} (hd : d ≤ d') (pos n : ℕ) (st : RxState) (third : RxState → Outcome)
    (hne : (afterLast q k d' pos n st).st.exhausted = false) :
    (afterLast q k d pos n st).orElse third = (afterLast q k d' pos n st).orElse third := by
  rw [(afterLast_follows hk hd pos n st).same hne]

include hnext hcaps hk in
/-- Greedily: the ends of the longer runs are offered, and then those of the shorter ones. -/
theorem offer_runOf (hgreedy : q.greedy = true) {d₀ : ℕ} (fuelRun : ℕ) {st : RxState} (hst : st.exhausted = false)
    {fuel d pos n : ℕ} (hd : d₀ ≤ d) (shorter : List ℕ) (hn : shorter.length = n)
    (hfuel : remaining s st.backward pos < fuelRun)
    (hne : (repeatFrom (guarded lim false (single next)) q k fuel d st pos n).st.exhausted = false) :
    offer q k d₀ (runOf (guarded lim false (single next)) q d₀ fuelRun st pos shorter).2
        (runOf (guarded lim false (single next)) q d₀ fuelRun st pos shorter).1 =
      (repeatFrom (guarded lim false (single next)) q k fuel d st pos n).orElse fun st => offer q k d₀ st shorter := by
  subst hn
  induction fuelRun generalizing fuel d pos shorter with
  | zero => exact absurd hfuel (Nat.not_lt_zero _)
  | succ fuelRun ih =>
    obtain ⟨fuel, rfl⟩ : ∃ f, fuel = f + 1 := by
      cases fuel with
      | zero => exact absurd hne (by rw [repeatFrom]; rintro ⟨⟩)
      | succ fuel => exact ⟨fuel, rfl⟩
    have hlast (now : RxState) (hnow : now.exhausted = true) :
        (afterLast q k d pos shorter.length now).st.exhausted = true :=
      (afterLast_follows hk le_rfl pos _ now).sticky hnow
    by_cases hfull : q.full shorter.length = true
    · rw [repeatFrom_succ, inOrder, if_pos hgreedy, oneMore_eq hcaps, if_pos hfull, Outcome.failed_orElse] at hne ⊢
      rw [runOf, if_pos hfull, offer]
      exact afterLast_orElse hk hd pos shorter.length st _ hne
    have hroom := depth_of_repeatFrom hcaps hk hfull (.inl ⟨hgreedy, hst⟩) hne
    rw [repeatFrom_succ, inOrder, if_pos hgreedy, again_turn hnext hcaps fuel hroom hst _ hfull] at hne ⊢
    rw [runOf, if_neg hfull, turn_eq (by omega) hst next pos]
    dsimp only
    cases hr : next st pos with
    | none =>
      rw [hr] at hne
      rw [if_pos Option.getD_none, offer]
      exact afterLast_orElse hk hd pos shorter.length st _ hne
    | some r =>
      rw [hr] at hne
      have hinner := Outcome.exhausted_of_orElse hlast hne
      have hless := hnext st pos r hr
      rw [Option.getD_some, Option.elim_some, if_neg (hnext.ne hr), Outcome.orElse_assoc]
      rw [ih (Nat.le_succ_of_le hd) (pos :: shorter) (hless.trans_le (Nat.lt_succ_iff.mp hfuel)) hinner]
      refine Outcome.orElse_congr fun hhit => ?_
      rw [offer]
      exact afterLast_orElse hk hd pos shorter.length _ _ (Outcome.exhausted_second hhit hne)

include hnext hcaps hk in
/-- Lazily: turn by turn. -/
theorem repeatLazy_eq (hlazy : q.greedy = false)
    (hback : ∀ d st pos, (k d st pos).hit = none → (k d st pos).st.backward = st.backward) {d₀ : ℕ} (fuelLoop : ℕ)
    {st : RxState} {fuel d pos n : ℕ} (hd : d₀ ≤ d) (hfuel : remaining s st.backward pos < fuelLoop)
    (hne : (repeatFrom (guarded lim false (single next)) q k fuel d st pos n).st.exhausted = false) :
    repeatLazy (guarded lim false (single next)) q k d₀ fuelLoop st pos n =
      repeatFrom (guarded lim false (single next)) q k fuel d st pos n := by
  induction fuelLoop generalizing fuel d st pos n with
  | zero => exact absurd hfuel (Nat.not_lt_zero _)
  | succ fuelLoop ih =>
    obtain ⟨fuel, rfl⟩ : ∃ f, fuel = f + 1 := by
      cases fuel with
      | zero => exact absurd hne (by rw [repeatFrom]; rintro ⟨⟩)
      | succ fuel => exact ⟨fuel, rfl⟩
    have hgreedy : ¬ q.greedy = true := Bool.not_eq_true _ ▸ hlazy
    have hroom := fun hfull hhit =>
      @depth_of_repeatFrom lim next q hcaps k hk fuel d st pos n hfull (.inr ⟨hlazy, hhit⟩) hne
    rw [repeatFrom_succ, inOrder, if_neg hgreedy] at hne ⊢
    have hmark (now : RxState) (hnow : now.exhausted = true) :
        (oneMore (guarded lim false (single next)) q d pos n
          (again (guarded lim false (single next)) q k fuel pos n) now).st.exhausted = true := by
      rw [oneMore_eq hcaps]
      split_ifs
      · exact hnow
      · rw [turn_spent lim next (.inl hnow)]
        rfl
    have hfirst := Outcome.exhausted_of_orElse hmark hne
    rw [repeatLazy]
    have hsame : (if q.min ≤ n then k d₀ st pos else failed st) = afterLast q k d pos n st :=
      (afterLast_follows hk hd pos n st).same hfirst
    rw [hsame]
    refine Outcome.orElse_congr fun hhit => ?_
    have hnow : (afterLast q k d pos n st).st.backward = st.backward := by
      rw [afterLast] at hhit ⊢
      split_ifs at hhit ⊢
      · exact hback d st pos hhit
      · rfl
    have hne := Outcome.exhausted_second hhit hne
    have hroom := fun hfull => hroom hfull hhit
    generalize (afterLast q k d pos n st).st = now at hne hfirst hnow
    by_cases hfull : q.full n = true
    · rw [if_pos hfull, oneMore_eq hcaps, if_pos hfull]
    have hdeep := hroom hfull
    rw [again_turn hnext hcaps fuel hdeep hfirst n hfull] at hne ⊢
    rw [if_neg hfull, turn_eq (by omega) hfirst next pos]
    dsimp only
    cases hr : next now pos with
    | none => rw [if_pos Option.getD_none, Option.elim_none]
    | some r =>
      rw [hr] at hne
      have hless := hnext now pos r hr
      rw [hnow] at hless
      rw [Option.getD_some, Option.elim_some, if_neg (hnext.ne hr)]
      refine ih (Nat.le_succ_of_le hd) ?_ hne
      rw [hnow]
      exact hless.trans_le (Nat.lt_succ_iff.mp hfuel)

end Loop

/-- The loop over an atom that takes one character and has no captures gives the outcome of the calls one inside
the other, the captures and all of the state, in either order and in either direction, unless these give up. What
comes next goes the same way from a lesser depth and leaves the direction when it fails. -/
theorem countedLoop_follows (lim : Limits) (x : Subject) {atom : Atom} (hsimple : atom.simple = true) (q : Quantifier)
    (hcaps : q.capsHi ≤ q.capsLo) (k : Cont) (hk : k.Shallow)
    (hback : ∀ d st pos, (k d st pos).hit = none → (k d st pos).st.backward = st.backward)
    (fuel d : ℕ) (st : RxState) {pos : ℕ} (hpos : pos ≤ x.s.length) :
    (repeatFrom (matchOnce lim x atom) q k fuel d st pos 0).Follows st
      (repeatSimple (matchOnce lim x atom) q x d st pos k) := by
  obtain ⟨next, hatom, hnext⟩ := @exists_advances lim x atom hsimple
  have hleft := @remaining_le x.s st.backward pos hpos
  rw [matchOnce, hatom]
  refine ⟨repeatFrom_sticky hk fuel d st pos 0, fun hne => ?_⟩
  have hst : st.exhausted = false :=
    Bool.eq_false_iff.mpr fun hst => Bool.eq_false_iff.mp hne (repeatFrom_sticky hk fuel d st pos 0 hst)
  rw [repeatSimple]
  dsimp only
  split_ifs with hgreedy
  · rw [offer_runOf hnext hcaps hk hgreedy (x.s.length + 2) hst le_rfl [] rfl (by omega) hne]
    exact Outcome.orElse_failed _
  · exact repeatLazy_eq hnext hcaps hk (Bool.not_eq_true _ ▸ hgreedy) hback (x.s.length + 2) le_rfl (by omega) hne

/-! ## Deep runs -/

/-- Any number of times, the most first. -/
def anyNumber : Quantifier := ⟨0, none, true, 0, 0⟩

theorem anyNumber_not_full (n : ℕ) : ¬ anyNumber.full n = true := Bool.false_ne_true

theorem repeatFrom_exhausted {lim : Limits} {s : Text} {next : RxState → ℕ → Option ℕ} (hnext : Advances s next)
    {k : Cont} (hk : k.Shallow) {st : RxState} (m : ℕ) {fuel d pos n : ℕ}
    (hrun : ∀ i < m, next st (pos + i) = some (pos + i + 1)) (hm : lim.maxDepth < d + m) :
    (repeatFrom (guarded lim false (single next)) anyNumber k fuel d st pos n).st.exhausted = true := by
  have hcaps : anyNumber.capsHi ≤ anyNumber.capsLo := le_rfl
  by_contra hne
  rw [Bool.not_eq_true] at hne
  have hst : st.exhausted = false :=
    Bool.eq_false_iff.mpr fun hst => Bool.eq_false_iff.mp hne (repeatFrom_sticky hk fuel d st pos n hst)
  induction m generalizing fuel d pos n with
  | zero =>
    cases fuel with
    | zero => exact absurd hne (by rw [repeatFrom]; rintro ⟨⟩)
    | succ fuel =>
      have hroom := depth_of_repeatFrom hcaps hk (anyNumber_not_full n) (.inl ⟨rfl, hst⟩) hne
      omega
  | succ m ih =>
    cases fuel with
    | zero => exact absurd hne (by rw [repeatFrom]; rintro ⟨⟩)
    | succ fuel =>
      have hroom := depth_of_repeatFrom hcaps hk (anyNumber_not_full n) (.inl ⟨rfl, hst⟩) hne
      have hfirst := hrun 0 (Nat.succ_pos m)
      rw [Nat.add_zero] at hfirst
      rw [repeatFrom_succ, inOrder, if_pos (show anyNumber.greedy = true from rfl),
        again_turn hnext hcaps fuel hroom hst n (anyNumber_not_full n), hfirst] at hne
      have hinner := Outcome.exhausted_of_orElse (fun now hnow => (afterLast_follows hk le_rfl pos n now).sticky hnow) hne
      refine ih (fun i hi => ?_) (by omega) hinner
      have hplace : pos + 1 + i = pos + (i + 1) := by omega
      rw [hplace]
      exact hrun (i + 1) (Nat.succ_lt_succ hi)

theorem shallow_accept : accept.Shallow := fun _ _ _ _ _ => Outcome.Follows.refl id

theorem offer_accept (q : Quantifier) (d : ℕ) (st : RxState) (ends : List ℕ) :
    (offer q accept d st ends).st = st := by
  induction ends with
  | nil => rfl
  | cons pos shorter ih =>
    rw [offer]
    split_ifs
    · rfl
    · exact ih

/-- The subject of `/a*/` on some number of letters. -/
def letters (n : ℕ) : Subject :=
  plainSubject (List.replicate n 0x61) [[.mk (.lit 0x61 []) anyNumber]] 0

theorem litAt_letters {n pos : ℕ} (hpos : pos < n) :
    litAt (letters n) (startState (letters n).p 0) pos 0x61 [] = some (pos + 1) := by
  simp only [letters, plainSubject, startState, litAt, Subject.folds, atEdge, byteBeside, advance]
  simp [hpos]

theorem letters_calls {lim : Limits} {n : ℕ} (hdeep : lim.maxDepth < n) (fuel : ℕ) :
    (repeatFrom (matchOnce lim (letters n) (.lit 0x61 [])) anyNumber accept fuel 0 (startState (letters n).p 0) 0
      0).st.exhausted = true := by
  refine repeatFrom_exhausted (advances_litAt (letters n) 0x61 []) shallow_accept n (fun i hi => ?_) (by omega)
  rw [Nat.zero_add]
  exact litAt_letters hi

theorem letters_loop {lim : Limits} (hdeep : 0 < lim.maxDepth) (n : ℕ) :
    (repeatSimple (matchOnce lim (letters n) (.lit 0x61 [])) anyNumber (letters n) 0 (startState (letters n).p 0) 0
      accept).st.exhausted = false := by
  have hleft := @remaining_le (letters n).s (startState (letters n).p 0).backward 0 (Nat.zero_le _)
  obtain ⟨ends, hrun, -⟩ := @runOf_spec (letters n).s lim 0 _ (lands_litAt (letters n) 0x61 [])
    (advances_litAt (letters n) 0x61 []) anyNumber (startState (letters n).p 0) hdeep rfl ((letters n).s.length + 2) 0 []
    (Nat.zero_le _) (by omega)
  rw [repeatSimple]
  dsimp only
  rw [if_pos (show anyNumber.greedy = true from rfl), matchOnce, matchAtom, hrun, offer_accept]
  rfl

theorem countedLoop_follows_letters :
    let st := startState (letters 2).p 0
    let calls := repeatFrom (matchOnce ⟨2500, 10000000⟩ (letters 2) (.lit 0x61 [])) anyNumber accept 4 0 st 0 0
    calls.st.exhausted = false ∧
      calls.Follows st (repeatSimple (matchOnce ⟨2500, 10000000⟩ (letters 2) (.lit 0x61 [])) anyNumber (letters 2) 0 st 0
        accept) := by
  refine ⟨by decide, ?_⟩
  have haccept (d : ℕ) (st : RxState) (pos : ℕ) (h : (accept d st pos).hit = none) :
      (accept d st pos).st.backward = st.backward := rfl
  exact countedLoop_follows _ (letters 2) rfl anyNumber le_rfl accept shallow_accept haccept 4 0 _ (Nat.zero_le _)

/-- On a text of 2501 letters the calls for `/a*/` give up, and the loop does not. -/
theorem countedLoop_deeper :
    (repeatFrom (matchOnce ⟨2500, 10000000⟩ (letters 2501) (.lit 0x61 [])) anyNumber accept 2503 0
        (startState (letters 2501).p 0) 0 0).st.exhausted = true ∧
      (repeatSimple (matchOnce ⟨2500, 10000000⟩ (letters 2501) (.lit 0x61 [])) anyNumber (letters 2501) 0
        (startState (letters 2501).p 0) 0 accept).st.exhausted = false :=
  ⟨letters_calls (by norm_num) 2503, letters_loop (by norm_num) 2501⟩

end CtBrowser.Script.Regex
