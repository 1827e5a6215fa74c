import CtBrowser.Shell.Net.Url.PunycodeDeltas

/-!
# Punycode both ways

The encoder finds the placements of a label, in order, and writes them as deltas. So the decoder gives
the label back, if it can count that far; and a text is encoded back as it was, but for a hyphen that
stands before nothing basic.

## Main definitions

- `Follows` — what the encoder's variables say about where the decoder will stand.

## Main results

- `foldlM_encodeOne`, `foldlM_encodeOne_isSome` — the inner loop.
- `encodeRounds_eq`, `encodeRounds_isSome` — the outer loop.
- `punycode_decode_iff` — when each direction undoes the other.
-/

namespace CtBrowser.Shell.Url

open Foundations

namespace Punycode

/-- The encoder has come to index `i` of the code point `n`, and the decoder is going to stand at `s`. -/
structure Follows (basic : ℕ) (e : Encoding) (s : Stand) (n i : ℕ) : Prop where
  handled : e.handled = s.handled
  bias : e.bias = s.bias
  count : s.i + e.delta = (n - s.n) * (s.handled + 1) + i
  le : s.n ≤ n
  basic_le : basic ≤ s.handled
  first : s.handled = basic ↔ s.i = 0

/-! ## The inner loop -/

theorem encodeOne_of_lt {n basic c : ℕ} {e : Encoding} (hc : c < n) (hdelta : e.delta ≠ maxWord) :
    encodeOne n basic e c = some { e with delta := e.delta + 1 } := by
  rw [encodeOne, if_pos hc, if_neg hdelta]

theorem encodeOne_of_gt {n basic c : ℕ} {e : Encoding} (hc : n < c) : encodeOne n basic e c = some e := by
  rw [encodeOne, if_neg hc.not_gt, if_pos hc.ne']

theorem Follows.pass {basic n i : ℕ} {e : Encoding} {s : Stand} (h : Follows basic e s n i) :
    Follows basic { e with delta := e.delta + 1 } s n (i + 1) where
  handled := h.handled
  bias := h.bias
  count := by
    have := h.count
    dsimp only
    omega
  le := h.le
  basic_le := h.basic_le
  first := h.first

theorem Follows.delta {basic n i : ℕ} {e : Encoding} {s : Stand} (h : Follows basic e s n i) :
    s.delta (n, i) = e.delta := by
  have := h.count
  rw [Stand.delta]
  dsimp only
  omega

theorem encodeOne_self {basic n i : ℕ} {e : Encoding} {s : Stand} (h : Follows basic e s n i)
    (hlength : s.handled < maxWord) : ∃ e', encodeOne n basic e n = some e' ∧
      e'.out = e.out ++ encodeDigits (s.delta (n, i)) base s.bias ∧ Follows basic e' (s.next (n, i)) n (i + 1) := by
  have hword : word (e.handled + 1) = s.handled + 1 := by rw [h.handled, word_of_lt hlength]
  refine ⟨_, by rw [encodeOne, if_neg (lt_irrefl n), if_neg (not_not.mpr rfl)], ?_, ?_⟩
  · rw [h.delta, h.bias]
  · refine ⟨hword, ?_, ?_, le_rfl, h.basic_le.trans (Nat.le_succ _), ?_⟩
    · dsimp only [Stand.next]
      rw [hword, h.delta]
      refine congrArg (adapt _ _) (decide_eq_decide.mpr ?_)
      rw [h.handled, h.first]
    · dsimp only [Stand.next]
      rw [Nat.sub_self, Nat.zero_mul, Nat.zero_add]
    · have := h.basic_le
      dsimp only [Stand.next]
      omega

/-- The code points that equal `n` are encoded as its placements. -/
theorem foldlM_encodeOne {basic n i : ℕ} {l : List ℕ} {e e' : Encoding} {s : Stand} (h : Follows basic e s n i)
    (hlength : s.handled + (placesOf n i l).length ≤ maxWord) (hl : l.foldlM (encodeOne n basic) e = some e') :
    e'.out = e.out ++ encodeSteps s (placesOf n i l) ∧
      Follows basic e' ((placesOf n i l).foldl Stand.next s) n (i + (l.filter (· ≤ n)).length) := by
  induction l generalizing i e s with
  | nil =>
    cases hl
    exact ⟨(List.append_nil _).symm, h⟩
  | cons c l ih =>
    rw [List.foldlM_cons] at hl
    obtain ⟨e₁, he₁, hl⟩ := Option.bind_eq_some_iff.mp hl
    rw [placesOf] at hlength ⊢
    rcases lt_trichotomy c n with hc | hc | hc
    · rw [if_pos hc] at hlength ⊢
      have hdelta : e.delta ≠ maxWord := fun hdelta => by
        rw [encodeOne, if_pos hc, if_pos hdelta] at he₁
        cases he₁
      rw [encodeOne_of_lt hc hdelta] at he₁
      cases he₁
      rw [List.filter_cons_of_pos (by simpa using hc.le), List.length_cons, ← Nat.add_assoc, Nat.add_right_comm]
      exact ih (e := { e with delta := e.delta + 1 }) h.pass hlength hl
    · subst hc
      rw [if_neg (lt_irrefl c), if_pos rfl] at hlength ⊢
      rw [List.length_cons] at hlength
      obtain ⟨e₂, he₂, hout, hnext⟩ := encodeOne_self h (by omega)
      obtain rfl : e₂ = e₁ := Option.some.inj (he₂.symm.trans he₁)
      obtain ⟨hrest, hend⟩ := ih hnext (by dsimp only [Stand.next]; omega) hl
      rw [List.filter_cons_of_pos (by simp), List.length_cons, ← Nat.add_assoc, Nat.add_right_comm]
      refine ⟨?_, hend⟩
      rw [hrest, hout, encodeSteps, List.append_assoc]
    · rw [if_neg hc.not_gt, if_neg hc.ne'] at hlength ⊢
      rw [encodeOne_of_gt hc] at he₁
      cases he₁
      rw [List.filter_cons_of_neg (by simpa using hc)]
      exact ih h hlength hl

/-- The inner loop refuses nothing the decoder can count to. -/
theorem foldlM_encodeOne_isSome {basic n i : ℕ} {l : List ℕ} {e : Encoding} {s : Stand} (h : Follows basic e s n i)
    (hi : i + l.length ≤ maxWord) (hlength : s.handled + (placesOf n i l).length ≤ maxWord)
    (hfits : Fits s.n s.handled (placesOf n i l)) (hnil : placesOf n i l = [] → s.n = n) :
    ∃ e', l.foldlM (encodeOne n basic) e = some e' := by
  induction l generalizing i e s with
  | nil => exact ⟨e, rfl⟩
  | cons c l ih =>
    rw [List.length_cons] at hi
    rw [placesOf] at hlength hfits hnil
    rw [List.foldlM_cons]
    rcases lt_trichotomy c n with hc | hc | hc
    · rw [if_pos hc] at hlength hfits hnil
      have hcount := h.count
      have hdelta : e.delta ≠ maxWord := by
        cases hplaces : placesOf n (i + 1) l with
        | nil =>
          -- nothing is left to encode, so the count began in this round
          rw [hnil hplaces, Nat.sub_self, Nat.zero_mul] at hcount
          omega
        | cons step steps =>
          obtain ⟨hn, hstep, -⟩ := mem_placesOf (hplaces ▸ List.mem_cons_self .. : step ∈ placesOf n (i + 1) l)
          rw [hplaces] at hfits
          have hfit := hfits.1
          rw [hn] at hfit
          omega
      rw [encodeOne_of_lt hc hdelta]
      exact ih h.pass (by omega) hlength hfits hnil
    · subst hc
      rw [if_neg (lt_irrefl c), if_pos rfl] at hlength hfits
      rw [List.length_cons] at hlength
      obtain ⟨e₁, he₁, -, hnext⟩ := encodeOne_self h (by omega)
      rw [he₁]
      exact ih hnext (by omega) (by dsimp only [Stand.next]; omega) hfits.2 fun _ => rfl
    · rw [if_neg hc.not_gt, if_neg hc.ne'] at hlength hfits hnil
      rw [encodeOne_of_gt hc]
      exact ih h (by omega) hlength hfits hnil

/-! ## One round -/

/-- The code point of a round is the least that is left. -/
theorem nextPoint_spec {l : List ℕ} {n : ℕ} (hrange : ∀ c ∈ l, c < 0x110000) (hleft : ∃ c ∈ l, n ≤ c) :
    nextPoint l n ∈ l ∧ n ≤ nextPoint l n ∧ ∀ c ∈ l, n ≤ c → nextPoint l n ≤ c := by
  have hfold : ∀ (l : List ℕ) (m : ℕ),
      (∀ c ∈ l, n ≤ c → l.foldl (fun m c => if n ≤ c ∧ c < m then c else m) m ≤ c) ∧
      (l.foldl (fun m c => if n ≤ c ∧ c < m then c else m) m = m ∨
        l.foldl (fun m c => if n ≤ c ∧ c < m then c else m) m ∈ l ∧
          n ≤ l.foldl (fun m c => if n ≤ c ∧ c < m then c else m) m) ∧
      l.foldl (fun m c => if n ≤ c ∧ c < m then c else m) m ≤ m := by
    intro l
    induction l with
    | nil => exact fun m => ⟨fun c hc => absurd hc List.not_mem_nil, Or.inl rfl, le_rfl⟩
    | cons c l ih =>
      intro m
      obtain ⟨hleast, hsource, hle⟩ := ih (if n ≤ c ∧ c < m then c else m)
      rw [List.foldl_cons]
      refine ⟨List.forall_mem_cons.mpr ⟨fun hc => hle.trans ?_, hleast⟩, ?_, hle.trans ?_⟩
      · split_ifs with h
        · exact le_rfl
        · exact not_lt.mp fun hlt => h ⟨hc, hlt⟩
      · rcases hsource with h | ⟨hmem, hn⟩
        · rw [h]
          split_ifs with hc
          · exact Or.inr ⟨List.mem_cons_self .., hc.1⟩
          · exact Or.inl rfl
        · exact Or.inr ⟨List.mem_cons_of_mem c hmem, hn⟩
      · split_ifs with h
        · exact h.2.le
        · exact le_rfl
  obtain ⟨hleast, hsource, -⟩ := hfold l 0x110000
  obtain ⟨c, hc, hn⟩ := hleft
  rcases hsource with h | ⟨hmem, hle⟩
  · exact absurd (h ▸ hleast c hc hn) (hrange c hc).not_ge
  · exact ⟨hmem, hle, hleast⟩

theorem foldl_next {m : ℕ} {steps : List (ℕ × ℕ)} (hsteps : ∀ step ∈ steps, step.1 = m) (hne : steps ≠ [])
    (s : Stand) : (steps.foldl Stand.next s).n = m ∧ 0 < (steps.foldl Stand.next s).i := by
  obtain ⟨front, step, rfl⟩ := (List.eq_nil_or_concat steps).resolve_left hne
  rw [List.concat_eq_append] at hsteps ⊢
  rw [List.foldl_append]
  exact ⟨hsteps step (by simp), Nat.succ_pos _⟩

theorem handled_foldl_next (steps : List (ℕ × ℕ)) (s : Stand) :
    (steps.foldl Stand.next s).handled = s.handled + steps.length := by
  induction steps generalizing s with
  | nil => rfl
  | cons step steps ih =>
    rw [List.foldl_cons, ih, List.length_cons, Stand.next]
    dsimp only
    omega

theorem filter_le_eq (m : ℕ) (l : List ℕ) : l.filter (· ≤ m) = l.filter (· < m + 1) := by
  simp only [Nat.lt_succ_iff]

/-- What holds when a round begins: all below `n` are handled. -/
structure Round (l : List ℕ) (basic : ℕ) (e : Encoding) (s : Stand) (n : ℕ) : Prop where
  follows : Follows basic e s n 0
  handled : s.handled = (l.filter (· < n)).length
  range : ∀ c ∈ l, c < 0x110000
  length : l.length ≤ maxWord

section Rounds

variable {l : List ℕ} {basic n : ℕ} {e : Encoding} {s : Stand}

theorem Round.handled_le (h : Round l basic e s n) : e.handled ≤ l.length := by
  rw [h.follows.handled, h.handled]
  exact List.length_filter_le _ l

theorem Round.done (h : Round l basic e s n) (hdone : l.length ≤ e.handled) : placements n 0x110000 l = [] := by
  have hall : ∀ c ∈ l, c < n := by
    rw [h.follows.handled, h.handled] at hdone
    have := List.length_filter_eq_length_iff.mp ((List.length_filter_le _ l).antisymm hdone)
    exact fun c hc => of_decide_eq_true (this c hc)
  exact placements_eq_nil fun c hc hn => absurd (hall c hc) hn.not_gt

theorem Round.left (h : Round l basic e s n) (hleft : e.handled < l.length) : ∃ c ∈ l, n ≤ c := by
  rw [h.follows.handled, h.handled] at hleft
  obtain ⟨c, hc, hn⟩ := List.length_filter_lt_length_iff_exists.mp hleft
  exact ⟨c, hc, not_lt.mp (by simpa using hn)⟩

variable (h : Round l basic e s n) (hleft : e.handled < l.length)
include h hleft

theorem Round.placements_eq : placements n 0x110000 l =
    placesOf (nextPoint l n) 0 l ++ placements (nextPoint l n + 1) 0x110000 l := by
  obtain ⟨hmem, hle, hleast⟩ := nextPoint_spec h.range (h.left hleft)
  have hlt := h.range _ hmem
  rw [placements_split hle hlt.le, placements_eq_nil hleast, List.nil_append, placements_succ hlt]

theorem Round.placesOf_ne_nil : placesOf (nextPoint l n) 0 l ≠ [] :=
  Foundations.placesOf_ne_nil (nextPoint_spec h.range (h.left hleft)).1 0

theorem Round.start : Follows basic
    { e with delta := e.delta + word (nextPoint l n + 2 ^ 32 - n) * word (e.handled + 1) } s (nextPoint l n) 0 ∧
    word (nextPoint l n + 2 ^ 32 - n) = nextPoint l n - n ∧ word (e.handled + 1) = s.handled + 1 := by
  obtain ⟨hmem, hle, -⟩ := nextPoint_spec h.range (h.left hleft)
  have hrange := h.range _ hmem
  have hgap : word (nextPoint l n + 2 ^ 32 - n) = nextPoint l n - n := by
    rw [word]
    omega
  have hlength := h.length
  have hpoints : word (e.handled + 1) = s.handled + 1 := by
    rw [word_of_lt (by omega), h.follows.handled]
  refine ⟨⟨h.follows.handled, h.follows.bias, ?_, h.follows.le.trans hle, h.follows.basic_le, h.follows.first⟩, hgap,
    hpoints⟩
  have hsplit : (nextPoint l n - s.n) * (s.handled + 1) =
      (n - s.n) * (s.handled + 1) + (nextPoint l n - n) * (s.handled + 1) := by
    rw [← Nat.add_mul]
    have := h.follows.le
    congr 1
    omega
  have hcount := h.follows.count
  dsimp only
  rw [hgap, hpoints, hsplit]
  omega

theorem Round.handled_add : s.handled + (placesOf (nextPoint l n) 0 l).length =
    (l.filter (· < nextPoint l n + 1)).length := by
  obtain ⟨-, hle, hleast⟩ := nextPoint_spec h.range (h.left hleft)
  have hsame : l.filter (· < n) = l.filter (· < nextPoint l n) := by
    refine List.filter_congr fun c hc => decide_eq_decide.mpr ⟨fun hlt => hlt.trans_le hle, fun hlt => ?_⟩
    by_contra hn
    exact absurd (hleast c hc (not_lt.mp hn)) hlt.not_ge
  rw [h.handled, hsame, length_placesOf, filter_le_eq]

theorem Round.next {e' : Encoding} (he' : l.foldlM (encodeOne (nextPoint l n) basic)
      { e with delta := e.delta + word (nextPoint l n + 2 ^ 32 - n) * word (e.handled + 1) } = some e') :
    e'.out = e.out ++ encodeSteps s (placesOf (nextPoint l n) 0 l) ∧
      Round l basic { e' with delta := word (e'.delta + 1) }
        ((placesOf (nextPoint l n) 0 l).foldl Stand.next s) (nextPoint l n + 1) := by
  have hadd := h.handled_add hleft
  have hfilter := List.length_filter_le (fun c => decide (c < nextPoint l n + 1)) l
  have hlength := h.length
  obtain ⟨hout, hend⟩ := foldlM_encodeOne (h.start hleft).1 (by omega) he'
  obtain ⟨hn, hi⟩ := foldl_next (fun step hstep => (mem_placesOf hstep).1) (h.placesOf_ne_nil hleft) s
  have hhandled := handled_foldl_next (placesOf (nextPoint l n) 0 l) s
  refine ⟨hout, ⟨⟨hend.handled, hend.bias, ?_, ?_, hend.basic_le, hend.first⟩, by rw [hhandled, hadd], h.range,
    h.length⟩⟩
  · have hcount := hend.count
    rw [hn, Nat.sub_self, Nat.zero_mul, filter_le_eq] at hcount
    dsimp only
    rw [hn, Nat.add_sub_cancel_left, Nat.one_mul, word_of_lt (by omega)]
    omega
  · rw [hn]
    exact Nat.le_succ _

end Rounds

/-! ## The outer loop -/

theorem encodeRounds_succ {l : List ℕ} {basic n rounds : ℕ} {e : Encoding} (hleft : e.handled < l.length) :
    encodeRounds l basic (rounds + 1) n e =
      if (maxWord - e.delta) / word (e.handled + 1) < word (nextPoint l n + 2 ^ 32 - n) then none
      else (l.foldlM (encodeOne (nextPoint l n) basic)
          { e with delta := e.delta + word (nextPoint l n + 2 ^ 32 - n) * word (e.handled + 1) }).bind fun e =>
        encodeRounds l basic rounds (nextPoint l n + 1) { e with delta := word (e.delta + 1) } := by
  rw [encodeRounds, if_neg hleft.not_ge]
  rfl

theorem encodeRounds_done {l : List ℕ} {basic n rounds : ℕ} {e : Encoding} (hdone : l.length ≤ e.handled) :
    encodeRounds l basic (rounds + 1) n e = some e.out := by
  rw [encodeRounds, if_pos hdone]

/-- What is left of a label is encoded as its placements. -/
theorem encodeRounds_eq {l : List ℕ} {basic n rounds : ℕ} {e : Encoding} {s : Stand} {out : Text}
    (h : Round l basic e s n) (hout : encodeRounds l basic rounds n e = some out) :
    out = e.out ++ encodeSteps s (placements n 0x110000 l) := by
  induction rounds generalizing n e s with
  | zero => cases hout
  | succ rounds ih =>
    rcases Nat.lt_or_ge e.handled l.length with hleft | hdone
    · rw [encodeRounds_succ hleft] at hout
      split_ifs at hout with hrefused
      obtain ⟨e', he', hout⟩ := Option.bind_eq_some_iff.mp hout
      obtain ⟨hround, hnext⟩ := h.next hleft he'
      rw [ih hnext hout, h.placements_eq hleft, encodeSteps_append, ← List.append_assoc, hround]
    · rw [encodeRounds_done hdone] at hout
      cases hout
      rw [h.done hdone, encodeSteps, List.append_nil]

theorem fits_append {n handled : ℕ} {a b : List (ℕ × ℕ)} (h : Fits n handled (a ++ b)) (s : Stand) (hn : s.n = n)
    (hhandled : s.handled = handled) :
    Fits n handled a ∧ Fits (a.foldl Stand.next s).n (a.foldl Stand.next s).handled b := by
  induction a generalizing n handled s with
  | nil => exact ⟨trivial, by rw [List.foldl_nil, hn, hhandled]; exact h⟩
  | cons step a ih =>
    obtain ⟨hfirst, hrest⟩ := ih h.2 (s.next step) rfl (by rw [Stand.next, hhandled])
    exact ⟨⟨h.1, hfirst⟩, hrest⟩

/-- The encoder refuses nothing the decoder can count to. -/
theorem encodeRounds_isSome {l : List ℕ} {basic n rounds : ℕ} {e : Encoding} {s : Stand}
    (h : Round l basic e s n) (hfits : Fits s.n s.handled (placements n 0x110000 l))
    (hrounds : l.length < rounds + e.handled) : ∃ out, encodeRounds l basic rounds n e = some out := by
  induction rounds generalizing n e s with
  | zero => exact absurd h.handled_le (by omega)
  | succ rounds ih =>
    rcases Nat.lt_or_ge e.handled l.length with hleft | hdone
    · obtain ⟨hstart, hgap, hpoints⟩ := h.start hleft
      obtain ⟨-, hle, -⟩ := nextPoint_spec h.range (h.left hleft)
      have hne := h.placesOf_ne_nil hleft
      have hadd := h.handled_add hleft
      have hfilter := List.length_filter_le (fun c => decide (c < nextPoint l n + 1)) l
      have hlength := h.length
      rw [h.placements_eq hleft] at hfits
      obtain ⟨hround, hlater⟩ := fits_append hfits s rfl rfl
      -- the first placement of the round is within reach, and so is its code point
      have hreach : e.delta + (nextPoint l n - n) * (s.handled + 1) ≤ maxWord := by
        cases hplaces : placesOf (nextPoint l n) 0 l with
        | nil => exact absurd hplaces hne
        | cons step steps =>
          have hstep := (mem_placesOf (hplaces ▸ List.mem_cons_self .. : step ∈ placesOf (nextPoint l n) 0 l)).1
          have hfit := (hplaces ▸ hround).1
          have hcount := hstart.count
          dsimp only at hcount
          rw [hgap, hpoints] at hcount
          rw [hstep] at hfit
          omega
      have hgap' : ¬ (maxWord - e.delta) / word (e.handled + 1) < word (nextPoint l n + 2 ^ 32 - n) := by
        rw [hgap, hpoints, not_lt, Nat.le_div_iff_mul_le (by omega : 0 < s.handled + 1)]
        omega
      obtain ⟨e', he'⟩ := foldlM_encodeOne_isSome hstart (by omega) (by omega) hround fun hnil => absurd hnil hne
      obtain ⟨-, hnext⟩ := h.next hleft he'
      have hhandled := handled_foldl_next (placesOf (nextPoint l n) 0 l) s
      have hmore : 0 < (placesOf (nextPoint l n) 0 l).length := List.length_pos_iff.mpr hne
      have hgrown := hnext.follows.handled
      have hbefore := h.follows.handled
      dsimp only at hgrown
      obtain ⟨out, hout⟩ := ih hnext hlater (by dsimp only; omega)
      exact ⟨out, by rw [encodeRounds_succ hleft, if_neg hgap', he']; exact hout⟩
    · exact ⟨e.out, encodeRounds_done hdone⟩

/-! ## Labels -/

/-- The basic code points of a label. -/
def basicPoints (label : List ℕ) : List ℕ := label.filter (· < 0x80)

/-- The placements of the other code points of a label. -/
def labelSteps (label : List ℕ) : List (ℕ × ℕ) := placements 0x80 0x110000 label

/-- What comes before the deltas: the basic code points and a hyphen, if there are any. -/
def basicText (basic : List ℕ) : Text := if basic = [] then [] else basic.map byte ++ [byte '-'.toNat]

/-- Where both coders begin. -/
def startStand (basic : List ℕ) : Stand := ⟨0x80, 0, basic.length, 72⟩

theorem round_start {label : List ℕ} (hscalar : ∀ c ∈ label, IsScalar c) (hlength : label.length ≤ maxWord)
    (out : Text) : Round label (basicPoints label).length { out, handled := (basicPoints label).length }
      (startStand (basicPoints label)) 0x80 where
  follows := {
    handled := rfl
    bias := rfl
    count := by simp [startStand]
    le := le_rfl
    basic_le := le_rfl
    first := iff_of_true rfl rfl }
  handled := rfl
  range := fun c hc => Nat.lt_succ_of_le (hscalar c hc).1
  length := hlength

theorem punycode_eq_rounds {label : List ℕ} (hlength : label.length ≤ maxWord) :
    punycode label = encodeRounds label (basicPoints label).length (label.length + 1) 0x80
      { out := basicText (basicPoints label), handled := (basicPoints label).length } := by
  have hle : (basicPoints label).length ≤ maxWord := (List.length_filter_le _ label).trans hlength
  have hword : word ((basicPoints label).map byte).length = (basicPoints label).length := by
    rw [List.length_map, word_of_lt hle]
  have hnil : (if (basicPoints label).length = 0 then (basicPoints label).map byte
      else (basicPoints label).map byte ++ [byte '-'.toNat]) = basicText (basicPoints label) := by
    rw [basicText]
    split_ifs with h₁ h₂ h₂
    · rw [h₂, List.map_nil]
    · exact absurd (List.length_eq_zero_iff.mp h₁) h₂
    · exact absurd (List.length_eq_zero_iff.mpr h₂) h₁
    · rfl
  rw [punycode]
  show encodeRounds label (word ((basicPoints label).map byte).length) (label.length + 1) 0x80 {
      out := if word ((basicPoints label).map byte).length = 0 then (basicPoints label).map byte
        else (basicPoints label).map byte ++ [byte '-'.toNat]
      handled := word ((basicPoints label).map byte).length } = _
  rw [hword, hnil]

theorem encodeRounds_length {l : List ℕ} {basic n rounds : ℕ} {e : Encoding} {out : Text} (he : e.handled ≤ maxWord)
    (hout : encodeRounds l basic rounds n e = some out) : l.length ≤ maxWord := by
  have hfold : ∀ (cs : List ℕ) (m : ℕ) (e e' : Encoding), e.handled ≤ maxWord →
      cs.foldlM (encodeOne m basic) e = some e' → e'.handled ≤ maxWord := by
    intro cs m
    induction cs with
    | nil =>
      intro e e' he h
      cases h
      exact he
    | cons c cs ih =>
      intro e e' he h
      rw [List.foldlM_cons] at h
      obtain ⟨e₁, he₁, h⟩ := Option.bind_eq_some_iff.mp h
      refine ih e₁ e' ?_ h
      rw [encodeOne] at he₁
      split_ifs at he₁
      · cases he₁
        exact he
      · cases he₁
        exact he
      · cases he₁
        exact word_le _
  induction rounds generalizing n e with
  | zero => cases hout
  | succ rounds ih =>
    rcases Nat.lt_or_ge e.handled l.length with hleft | hdone
    · rw [encodeRounds_succ hleft] at hout
      split_ifs at hout with hrefused
      obtain ⟨e', he', hout⟩ := Option.bind_eq_some_iff.mp hout
      exact ih (e := { e' with delta := word (e'.delta + 1) }) (hfold l _ _ e' (by exact he) he') hout
    · exact hdone.trans he

theorem eq_of_punycode {label : List ℕ} {text : Text} (hscalar : ∀ c ∈ label, IsScalar c)
    (h : punycode label = some text) : label.length ≤ maxWord ∧
      text = basicText (basicPoints label) ++ encodeSteps (startStand (basicPoints label)) (labelSteps label) := by
  have hlength : label.length ≤ maxWord := encodeRounds_length (word_le _) h
  rw [punycode_eq_rounds hlength] at h
  exact ⟨hlength, encodeRounds_eq (round_start hscalar hlength _) h⟩

theorem punycode_of_fits {label : List ℕ} (hscalar : ∀ c ∈ label, IsScalar c) (hlength : label.length ≤ maxWord)
    (hfits : Fits 0x80 (basicPoints label).length (labelSteps label)) :
    punycode label = some
      (basicText (basicPoints label) ++ encodeSteps (startStand (basicPoints label)) (labelSteps label)) := by
  obtain ⟨text, htext⟩ := encodeRounds_isSome (round_start hscalar hlength (basicText (basicPoints label)))
    hfits (Nat.lt_add_right _ (Nat.lt_succ_self label.length))
  rw [← punycode_eq_rounds hlength] at htext
  rw [htext, (eq_of_punycode hscalar htext).2]

/-! ## Texts -/

/-- The hyphen after the basic code points. -/
def hyphen : UInt8 := byte '-'.toNat

theorem hyphen_notMem_encodeSteps (s : Stand) (steps : List (ℕ × ℕ)) : hyphen ∉ encodeSteps s steps := by
  induction steps generalizing s with
  | nil => exact List.not_mem_nil
  | cons step steps ih =>
    intro h
    rw [encodeSteps] at h
    rcases List.mem_append.mp h with h | h
    · obtain ⟨d, hd, hdigit⟩ := mem_encodeDigits h
      exact (digit_plain d hd).2.1 hdigit.symm
    · exact ih _ h

theorem length_le_encodeSteps (s : Stand) (steps : List (ℕ × ℕ)) : steps.length ≤ (encodeSteps s steps).length := by
  induction steps generalizing s with
  | nil => exact le_rfl
  | cons step steps ih =>
    rw [encodeSteps, List.length_append, List.length_cons]
    have hdigits := List.length_pos_iff.mpr (encodeDigits_ne_nil (s.delta step) base s.bias)
    have hrest := ih (s.next step)
    omega

theorem punycodeDecode_of_notMem {rest : Text} (h : hyphen ∉ rest) :
    punycodeDecode rest = decodeDeltas rest.length { out := [] } rest := by
  rw [hyphen] at h
  rw [punycodeDecode, if_neg h, if_neg h]
  rfl

theorem punycodeDecode_append (front : Text) {rest : Text} (h : hyphen ∉ rest) :
    punycodeDecode (front ++ hyphen :: rest) =
      if front.all (·.toNat < 0x80) then decodeDeltas rest.length { out := front.map UInt8.toNat } rest else none := by
  have hmem : byte '-'.toNat ∈ front ++ hyphen :: rest := by simp [hyphen]
  have hall : ∀ b ∈ rest.reverse, decide (b ≠ byte '-'.toNat) = true := fun b hb =>
    decide_eq_true fun heq => h (by rw [hyphen, ← heq]; exact List.mem_reverse.mp hb)
  have hsplit : (front ++ hyphen :: rest).reverse = rest.reverse ++ hyphen :: front.reverse := by simp
  have hstop : ¬ decide (hyphen ≠ byte '-'.toNat) = true := by simp [hyphen]
  rw [punycodeDecode, if_pos hmem, if_pos hmem, hsplit, List.dropWhile_append_of_pos hall, List.takeWhile_append_of_pos hall,
    List.dropWhile_cons_of_neg (p := fun b => decide (b ≠ byte '-'.toNat)) hstop,
    List.takeWhile_cons_of_neg (p := fun b => decide (b ≠ byte '-'.toNat)) hstop, List.drop_one, List.tail_cons,
    List.append_nil, List.reverse_reverse, List.reverse_reverse]

theorem punycodeDecode_text {basic : List ℕ} (hbasic : ∀ c ∈ basic, c < 0x80) (steps : List (ℕ × ℕ)) :
    punycodeDecode (basicText basic ++ encodeSteps (startStand basic) steps) =
      decodeDeltas (encodeSteps (startStand basic) steps).length { out := basic }
        (encodeSteps (startStand basic) steps) := by
  have hrest := hyphen_notMem_encodeSteps (startStand basic) steps
  have hbyte : ∀ c ∈ basic, (byte c).toNat = c := fun c hc => toNat_byte ((hbasic c hc).trans (by norm_num))
  rw [basicText]
  split_ifs with hnil
  · subst hnil
    exact punycodeDecode_of_notMem hrest
  · have hback : (basic.map byte).map UInt8.toNat = basic := by
      rw [List.map_map]
      exact (List.map_congr_left hbyte).trans (List.map_id basic)
    rw [List.append_assoc, List.singleton_append, ← hyphen, punycodeDecode_append _ hrest, hback, if_pos]
    refine List.all_eq_true.mpr fun b hb => decide_eq_true ?_
    obtain ⟨c, hc, rfl⟩ := List.mem_map.mp hb
    rw [hbyte c hc]
    exact hbasic c hc

theorem punycode_of_decoded {basic label : List ℕ} {rest : Text} (hbasic : ∀ c ∈ basic, c < 0x80)
    (hcapital : ∀ c ∈ rest, NoCapital c) (hlength : label.length ≤ maxWord)
    (h : decodeDeltas rest.length { out := basic } rest = some label) :
    punycode label = some (basicText basic ++ rest) := by
  obtain ⟨steps, hsteps⟩ := eq_encodeSteps (d := { out := basic }) hcapital (Nat.zero_le _) hlength h
  have hlow : ∀ step ∈ steps, 0x80 ≤ step.1 := hsteps.order.le
  -- its basic code points and its placements are those that were read
  have hpoints : basicPoints label = basic := by
    rw [basicPoints, ← hsteps.placed, filter_placeAll hlow, List.filter_eq_self.mpr]
    exact fun c hc => decide_eq_true (hbasic c hc)
  have hplaced : labelSteps label = steps := by
    have hall := placements_placeAll (l := basic) (le_refl 0x80) hsteps.order
      (fun step hstep => Nat.lt_succ_of_le (hsteps.scalar step hstep).1) (fun c hc => (hbasic c hc).le)
      fun c hc => hbasic c (List.mem_of_mem_drop hc)
    have hnone : placements 0x80 0x110000 basic = [] :=
      placements_eq_nil fun c hc hlarge => absurd (hbasic c hc) hlarge.not_gt
    rw [labelSteps, ← hsteps.placed]
    exact hall.trans (by rw [hnone, List.nil_append])
  have hscalar : ∀ c ∈ label, IsScalar c := by
    intro c hc
    rcases mem_placeAll (hsteps.placed ▸ hc) with hc | ⟨step, hstep, rfl⟩
    · have hsmall := hbasic c hc
      exact ⟨by omega, by rw [isSurrogate]; omega⟩
    · exact hsteps.scalar step hstep
  have hfits : Fits 0x80 (basicPoints label).length (labelSteps label) := by
    rw [hpoints, hplaced]
    exact hsteps.fits
  rw [punycode_of_fits hscalar hlength hfits, hpoints, hplaced, hsteps.text_eq]
  rfl

theorem split_last_hyphen {text : Text} (h : hyphen ∈ text) :
    ∃ front rest, text = front ++ hyphen :: rest ∧ hyphen ∉ rest := by
  obtain ⟨a, b, hab, hnot⟩ := List.eq_append_cons_of_mem (List.mem_reverse.mpr h)
  refine ⟨b.reverse, a.reverse, ?_, mt List.mem_reverse.mp hnot⟩
  rw [← List.reverse_reverse text, hab]
  simp

theorem foldlM_encodeOne_of_lt {n basic : ℕ} {e : Encoding} {l : List ℕ} (hl : ∀ c ∈ l, c < n)
    (hdelta : e.delta + l.length ≤ maxWord) :
    l.foldlM (encodeOne n basic) e = some { e with delta := e.delta + l.length } := by
  induction l generalizing e with
  | nil => rfl
  | cons c l ih =>
    obtain ⟨hc, hl⟩ := List.forall_mem_cons.mp hl
    rw [List.length_cons] at hdelta ⊢
    rw [List.foldlM_cons, encodeOne_of_lt hc (by omega)]
    refine (ih hl (by dsimp only; omega)).trans ?_
    rw [Nat.add_right_comm, Nat.add_assoc]

theorem nextPoint_append_of_lt {n : ℕ} {l : List ℕ} (hl : ∀ c ∈ l, c < n) (rest : List ℕ) :
    nextPoint (l ++ rest) n = nextPoint rest n := by
  rw [nextPoint, List.foldl_append, nextPoint]
  congr 1
  induction l with
  | nil => rfl
  | cons c l ih =>
    obtain ⟨hc, hl⟩ := List.forall_mem_cons.mp hl
    rw [List.foldl_cons, if_neg fun h => (hc.trans_le h.1).false]
    exact ih hl

/-- All placements of a label are within the 32 bits that the decoder counts in. -/
def InReach (label : List ℕ) : Prop := Fits 0x80 (basicPoints label).length (labelSteps label)

/-- The last hyphen of a text is its first byte. -/
def LoneHyphen (text : Text) : Prop := ∃ rest, text = hyphen :: rest ∧ hyphen ∉ rest

end Punycode

open Punycode in
/-- What is encoded is decoded exactly if all of it is in reach. A text in small letters that is decoded is
encoded back exactly if its last hyphen is not its first byte and the label has fewer than 2^32 code points. -/
theorem punycode_decode_iff (label : List ℕ) (text : Text) :
    ((∀ c ∈ label, IsScalar c) → punycode label = some text →
      (punycodeDecode text = some label ↔ InReach label)) ∧
    ((∀ b ∈ text, b.toNat < 0x80 ∧ NoCapital b) → punycodeDecode text = some label →
      (punycode label = some text ↔ ¬ LoneHyphen text ∧ label.length < 2 ^ 32)) := by
  constructor
  · intro hscalar h
    obtain ⟨hlength, rfl⟩ := eq_of_punycode hscalar h
    have hbasic : ∀ c ∈ basicPoints label, c < 0x80 := fun c hc => of_decide_eq_true (List.mem_filter.mp hc).2
    have hplaced : placeAll (basicPoints label) (labelSteps label) = label := by
      refine (placeAll_placements (by norm_num)).trans (List.filter_eq_self.mpr fun c hc => ?_)
      exact decide_eq_true (Nat.lt_succ_of_le (hscalar c hc).1)
    have horder : InOrder 0x80 0 (basicPoints label).length (labelSteps label) :=
      inOrder_placements (by norm_num) (Or.inr ⟨rfl, rfl⟩)
    have hcount : (basicPoints label).length + (labelSteps label).length ≤ maxWord := by
      rw [← horder.length_placeAll, hplaced]
      exact hlength
    rw [punycodeDecode_text hbasic]
    refine (decodeDeltas_encodeSteps (d := { out := basicPoints label }) (by norm_num) (Nat.zero_le _) horder
      (fun step hstep => hscalar _ (mem_placements hstep).2.2) hcount (length_le_encodeSteps _ _) label).trans ?_
    exact and_iff_left hplaced
  · intro htext h
    by_cases hlength : label.length ≤ maxWord
    · have hlt : label.length < 2 ^ 32 := Nat.lt_succ_of_le hlength
      rw [and_iff_left hlt]
      by_cases hmem : hyphen ∈ text
      · obtain ⟨front, rest, rfl, hrest⟩ := split_last_hyphen hmem
        rw [punycodeDecode_append front hrest] at h
        split_ifs at h with hfront
        have hbasic : ∀ c ∈ front.map UInt8.toNat, c < 0x80 := fun c hc => by
          obtain ⟨b, hb, rfl⟩ := List.mem_map.mp hc
          exact of_decide_eq_true (List.all_eq_true.mp hfront b hb)
        have hsmall : ∀ c ∈ rest, NoCapital c := fun c hc =>
          (htext c (List.mem_append_right _ (List.mem_cons_of_mem _ hc))).2
        rw [punycode_of_decoded hbasic hsmall hlength h, Option.some_inj]
        cases front with
        | nil =>
          -- the encoder writes no hyphen before deltas alone
          refine iff_of_false (fun heq => ?_) fun hlone => hlone ⟨rest, rfl, hrest⟩
          have := congrArg List.length heq
          simp [basicText] at this
        | cons b front =>
          refine iff_of_true ?_ ?_
          · have hback : ((b :: front).map UInt8.toNat).map byte = b :: front := by
              rw [List.map_map]
              exact (List.map_congr_left fun x _ => UInt8.ofNat_toNat).trans (List.map_id _)
            rw [basicText, if_neg (by simp), hback, List.append_assoc]
            rfl
          · rintro ⟨rest', heq, hnot⟩
            obtain ⟨-, rfl⟩ := List.cons.inj heq
            exact hnot (List.mem_append_right _ (List.mem_cons_self ..))
      · rw [punycodeDecode_of_notMem hmem] at h
        have hback := punycode_of_decoded (by simp) (fun c hc => (htext c hc).2) hlength h
        refine iff_of_true hback ?_
        rintro ⟨rest, rfl, -⟩
        exact hmem (List.mem_cons_self ..)
    · refine iff_of_false (fun hback => hlength (encodeRounds_length (word_le _) hback)) fun hlt => ?_
      exact hlength (Nat.le_of_lt_succ hlt.2)

open Punycode in
/-- The two directions at `ü`, which is `tda`. -/
theorem punycode_decode_umlaut :
    (punycodeDecode (ascii "tda") = some [0xFC] ↔ InReach [0xFC]) ∧
    (punycode [0xFC] = some (ascii "tda") ↔ ¬ LoneHyphen (ascii "tda") ∧ [0xFC].length < 2 ^ 32) :=
  ⟨(punycode_decode_iff [0xFC] (ascii "tda")).1 (by decide +kernel) (by decide +kernel),
    (punycode_decode_iff [0xFC] (ascii "tda")).2 (by decide +kernel) (by decide)⟩

/-- A label whose last code point is out of the decoder's reach. -/
def farLabel : List ℕ := List.replicate 4093 'a'.toNat ++ [0x80, 0x100180]

namespace Punycode

/-- The encoder goes through its two rounds. -/
theorem punycode_farLabel : punycode farLabel =
    some (List.replicate 4093 (byte 'a'.toNat) ++ hyphen :: ascii "7ld451870604b") := by
  have hsmall : ∀ n, 0x80 ≤ n → ∀ c ∈ List.replicate 4093 'a'.toNat, c < n := fun n hn c hc => by
    rw [List.eq_of_mem_replicate hc]
    exact lt_of_lt_of_le (by decide) hn
  have hfilter : farLabel.filter (· < 0x80) = List.replicate 4093 'a'.toNat := by
    rw [farLabel, List.filter_append, List.filter_replicate]
    exact List.append_nil _
  have hbasic : word ((List.replicate 4093 'a'.toNat).map byte).length = 4093 := by
    rw [List.length_map, List.length_replicate]
    decide
  have hlength : farLabel.length = 4095 := by
    rw [farLabel, List.length_append, List.length_replicate]
    rfl
  have hfirst : encodeDigits 4093 base 72 = ascii "7ld" := by decide +kernel
  have hsecond : encodeDigits 4294967040 base 4 = ascii "451870604b" := by decide +kernel
  have hround (n : ℕ) (hn : 0x80 ≤ n) (e : Encoding) (he : e.delta + 4093 ≤ maxWord) :
      farLabel.foldlM (encodeOne n 4093) e =
        [0x80, 0x100180].foldlM (encodeOne n 4093) { e with delta := e.delta + 4093 } := by
    rw [farLabel, List.foldlM_append, foldlM_encodeOne_of_lt (hsmall n hn)
      (by rwa [List.length_replicate]), List.length_replicate]
    rfl
  have hnext (n : ℕ) (hn : 0x80 ≤ n) : nextPoint farLabel n = nextPoint [0x80, 0x100180] n :=
    nextPoint_append_of_lt (hsmall n hn) _
  have hself (n : ℕ) (e : Encoding) : encodeOne n 4093 e n = some {
      out := e.out ++ encodeDigits e.delta base e.bias
      bias := adapt e.delta (word (e.handled + 1)) (e.handled = 4093)
      handled := word (e.handled + 1) } := by
    rw [encodeOne, if_neg (lt_irrefl n), if_neg (not_not.mpr rfl)]
  have hone (e : Encoding) : [0x80, 0x100180].foldlM (encodeOne 0x80 4093) e = some {
      out := e.out ++ encodeDigits e.delta base e.bias
      bias := adapt e.delta (word (e.handled + 1)) (e.handled = 4093)
      handled := word (e.handled + 1) } := by
    rw [List.foldlM_cons, hself, Option.bind_eq_bind, Option.bind_some, List.foldlM_cons,
      encodeOne_of_gt (by decide)]
    rfl
  have htwo (e : Encoding) (he : e.delta ≠ maxWord) :
      [0x80, 0x100180].foldlM (encodeOne 0x100180 4093) e = some {
        out := e.out ++ encodeDigits (e.delta + 1) base e.bias
        bias := adapt (e.delta + 1) (word (e.handled + 1)) (e.handled = 4093)
        handled := word (e.handled + 1) } := by
    rw [List.foldlM_cons, encodeOne_of_lt (by decide) he, Option.bind_eq_bind, Option.bind_some,
      List.foldlM_cons, hself]
    rfl
  have hbias : adapt 4093 4094 (decide (4093 = 4093)) = 4 := by decide +kernel
  have hword : word (4093 + 1) = 4094 ∧ word (4094 + 1) = 4095 ∧ word (0 + 1) = 1 := by decide
  have hgap : word (0x80 + 2 ^ 32 - 0x80) = 0 ∧ word (0x100180 + 2 ^ 32 - (0x80 + 1)) = 0x1000FF := by decide
  have hpoint : nextPoint [0x80, 0x100180] 0x80 = 0x80 ∧ nextPoint [0x80, 0x100180] (0x80 + 1) = 0x100180 := by
    decide
  have hroundOne (out : Text) : encodeRounds farLabel 4093 (4095 + 1) 0x80 { out, handled := 4093 } =
      encodeRounds farLabel 4093 (4094 + 1) (0x80 + 1)
        { out := out ++ ascii "7ld", delta := 1, bias := 4, handled := 4094 } := by
    rw [encodeRounds_succ (by rw [hlength]; norm_num), hnext _ le_rfl, hpoint.1, hgap.1, if_neg (Nat.not_lt_zero _),
      hround _ le_rfl _ (by dsimp only; rw [Nat.zero_mul]; decide), hone, Option.bind_some]
    dsimp only
    rw [hword.1, hword.2.2, Nat.zero_mul, Nat.zero_add, hfirst, hbias]
  have hroundTwo (out : Text) : encodeRounds farLabel 4093 (4094 + 1) (0x80 + 1)
      { out, delta := 1, bias := 4, handled := 4094 } = some (out ++ ascii "451870604b") := by
    rw [encodeRounds_succ (by rw [hlength]; norm_num), hnext _ (by norm_num), hpoint.2, hgap.2]
    dsimp only
    rw [hword.2.1, if_neg (by decide), hround _ (by norm_num) _ (by dsimp only; decide), htwo _ (by dsimp only; decide), Option.bind_some]
    dsimp only
    rw [hword.2.1, encodeRounds_done (by rw [hlength])]
    exact congrArg (fun tail => some (out ++ tail)) hsecond
  rw [punycode, hfilter, hbasic, hlength]
  refine (hroundOne _).trans ((hroundTwo _).trans ?_)
  rw [if_neg (by norm_num), List.map_replicate, List.append_assoc, List.append_assoc]
  rfl

theorem punycodeDecode_farLabel :
    punycodeDecode (List.replicate 4093 (byte 'a'.toNat) ++ hyphen :: ascii "7ld451870604b") = none := by
  have hlost : decodeDeltas 13 { out := List.replicate 4093 97 } (ascii "7ld451870604b") = none := by
    decide +kernel
  rw [punycodeDecode_append _ (by decide), List.map_replicate]
  split_ifs
  · exact hlost
  · rfl

end Punycode

open Punycode in
/-- Not all that is encoded is decoded; and a hyphen that stands before deltas alone is lost. -/
theorem punycode_decode_fails :
    (∃ label text, (∀ c ∈ label, IsScalar c) ∧ (∃ c ∈ label, 0x80 ≤ c) ∧ punycode label = some text ∧
      punycodeDecode text ≠ some label) ∧
    (∃ text label, (∀ b ∈ text, b.toNat < 0x80 ∧ NoCapital b) ∧ punycodeDecode text = some label ∧
      (∃ c ∈ label, 0x80 ≤ c) ∧ punycode label ≠ some text) := by
  refine ⟨?_, ascii "-tda", [0xFC], by decide +kernel, by decide +kernel, by decide, by decide +kernel⟩
  have hscalar : ∀ c ∈ farLabel, IsScalar c := by
    intro c hc
    rcases List.mem_append.mp hc with hc | hc
    · rw [List.eq_of_mem_replicate hc]
      decide
    · simp only [List.mem_cons, List.not_mem_nil, or_false] at hc
      rcases hc with rfl | rfl
      all_goals decide
  refine ⟨farLabel, _, hscalar, ⟨0x80, List.mem_append_right _ (List.mem_cons_self ..), le_rfl⟩, punycode_farLabel, ?_⟩
  rw [punycodeDecode_farLabel]
  exact (Option.some_ne_none farLabel).symm

end CtBrowser.Shell.Url
