import CtBrowser.Foundations.Placements
import CtBrowser.Shell.Net.Url.PunycodeNumbers

/-!
# The deltas of Punycode

A label is the placements of its code points above U+007F among the others. Each is written as a
delta from where the one before it left off. The decoder reads the deltas back as those placements,
and places them.

## Main definitions

- `Stand`, `encodeSteps` — where a coder stands, and placements as they are written from there.
- `Fits` — the placements a decoder can come to in 32 bits.

## Main results

- `decodeDeltas_encodeSteps` — placements in order are read back, exactly when they fit.
- `eq_encodeSteps` — a text that is read in small letters is what its placements are written as.
-/

namespace CtBrowser.Shell.Url

open Foundations

namespace Punycode

/-- Where a coder stands: the code point and the index it has come to, how many code points are there,
and the bias. -/
structure Stand where
  n : ℕ
  i : ℕ
  handled : ℕ
  bias : ℕ
deriving DecidableEq, Repr

/-- How far it is to a placement. -/
def Stand.delta (s : Stand) (step : ℕ × ℕ) : ℕ := (step.1 - s.n) * (s.handled + 1) + step.2 - s.i

/-- Where a coder stands after a placement. -/
def Stand.next (s : Stand) (step : ℕ × ℕ) : Stand where
  n := step.1
  i := step.2 + 1
  handled := s.handled + 1
  bias := adapt (s.delta step) (s.handled + 1) (s.i = 0)

/-- Placements as they are written. -/
def encodeSteps : Stand → List (ℕ × ℕ) → Text
  | _, [] => []
  | s, step :: steps => encodeDigits (s.delta step) base s.bias ++ encodeSteps (s.next step) steps

/-- The placements that a decoder can count to in 32 bits, from a code point and with so many there. -/
def Fits : ℕ → ℕ → List (ℕ × ℕ) → Prop
  | _, _, [] => True
  | n, handled, step :: steps =>
    (step.1 - n) * (handled + 1) + step.2 ≤ maxWord ∧ Fits step.1 (handled + 1) steps

instance (n handled : ℕ) (steps : List (ℕ × ℕ)) : Decidable (Fits n handled steps) := by
  induction steps generalizing n handled with
  | nil => exact isTrue trivial
  | cons step steps ih => exact @instDecidableAnd _ _ (Nat.decLe _ _) (ih _ _)

/-- Where the decoder stands. -/
def Decoding.stand (d : Decoding) : Stand := ⟨d.n, d.i, d.out.length, d.bias⟩

/-- The decoder after a placement. -/
def Decoding.place (d : Decoding) (step : ℕ × ℕ) : Decoding where
  out := d.out.insertIdx step.2 step.1
  n := step.1
  i := step.2 + 1
  bias := adapt (d.stand.delta step) (d.out.length + 1) (d.i = 0)

/-- A Unicode scalar value. -/
def IsScalar (c : ℕ) : Prop := c ≤ 0x10FFFF ∧ ¬ isSurrogate c

instance (c : ℕ) : Decidable (IsScalar c) := inferInstanceAs (Decidable (_ ∧ _))

/-! ## One delta -/

theorem Stand.add_delta {s : Stand} {step : ℕ × ℕ} (h : s.n < step.1 ∨ s.n = step.1 ∧ s.i ≤ step.2)
    (hi : s.i ≤ s.handled + 1) :
    s.i + s.delta step = (step.1 - s.n) * (s.handled + 1) + step.2 := by
  rw [Stand.delta]
  rcases h with h | ⟨-, h⟩
  · have hone : s.handled + 1 ≤ (step.1 - s.n) * (s.handled + 1) :=
      Nat.le_mul_of_pos_left _ (Nat.sub_pos_of_lt h)
    omega
  · omega

theorem length_place {d : Decoding} {step : ℕ × ℕ} (h : step.2 ≤ d.out.length) :
    (d.place step).out.length = d.out.length + 1 :=
  List.length_insertIdx_of_le_length h _

theorem stand_place {d : Decoding} {step : ℕ × ℕ} (h : step.2 ≤ d.out.length) :
    (d.place step).stand = d.stand.next step := by
  rw [Decoding.stand, length_place h]
  rfl

theorem inserted_eq {d : Decoding} {step : ℕ × ℕ} (h : d.n < step.1 ∨ d.n = step.1 ∧ d.i ≤ step.2)
    (hd : d.i ≤ d.out.length) (hi : step.2 ≤ d.out.length) (hscalar : IsScalar step.1)
    (hlength : d.out.length < maxWord) :
    inserted d (d.i + d.stand.delta step) = some (d.place step) := by
  have hsum : d.i + d.stand.delta step = (step.1 - d.n) * (d.out.length + 1) + step.2 :=
    Stand.add_delta (s := d.stand) h (Nat.le_succ_of_le hd)
  have hdelta : d.i + d.stand.delta step - d.i = d.stand.delta step := Nat.add_sub_cancel_left ..
  have hn : d.n ≤ step.1 := h.elim le_of_lt fun h => h.1.le
  have hmod : ((step.1 - d.n) * (d.out.length + 1) + step.2) % (d.out.length + 1) = step.2 := by
    rw [Nat.mul_add_mod_self_right, Nat.mod_eq_of_lt (Nat.lt_succ_of_le hi)]
  have hdiv : ((step.1 - d.n) * (d.out.length + 1) + step.2) / (d.out.length + 1) = step.1 - d.n := by
    rw [mul_comm, Nat.mul_add_div (Nat.succ_pos _), Nat.div_eq_of_lt (Nat.lt_succ_of_le hi), Nat.add_zero]
  rw [inserted, word_of_lt hlength, hdelta, hsum, hmod, hdiv, Nat.add_sub_cancel' hn]
  have hle := hscalar.1
  rw [if_neg (by omega), if_neg (not_or.mpr ⟨by omega, hscalar.2⟩)]
  rfl

theorem of_inserted {d d' : Decoding} {i : ℕ} (hi : d.i ≤ i) (hlength : d.out.length < maxWord)
    (h : inserted d i = some d') : ∃ step : ℕ × ℕ,
      (d.n < step.1 ∨ d.n = step.1 ∧ d.i ≤ step.2) ∧ step.2 ≤ d.out.length ∧ IsScalar step.1 ∧
      (step.1 - d.n) * (d.out.length + 1) + step.2 = i := by
  rw [inserted, word_of_lt hlength] at h
  split_ifs at h with hrange
  dsimp only at h
  split_ifs at h with hscalar
  obtain ⟨hle, hsurrogate⟩ := not_or.mp hscalar
  refine ⟨(d.n + i / (d.out.length + 1), i % (d.out.length + 1)), ?_, ?_, ⟨not_lt.mp hle, hsurrogate⟩, ?_⟩
  · rcases Nat.eq_zero_or_pos (i / (d.out.length + 1)) with hzero | hpos
    · refine Or.inr ⟨by dsimp only; omega, ?_⟩
      have := Nat.div_add_mod i (d.out.length + 1)
      rw [hzero, Nat.mul_zero, Nat.zero_add] at this
      exact hi.trans this.ge
    · exact Or.inl (Nat.lt_add_of_pos_right hpos)
  · exact Nat.le_of_lt_succ (Nat.mod_lt i (Nat.succ_pos _))
  · dsimp only
    rw [Nat.add_sub_cancel_left, mul_comm, Nat.div_add_mod]

theorem length_of_inserted {d d' : Decoding} {i : ℕ} (hi : i ≤ maxWord) (hlength : d.out.length ≤ maxWord)
    (h : inserted d i = some d') : d'.out.length = d.out.length + 1 := by
  have hindex : i % word (d.out.length + 1) ≤ d.out.length := by
    rcases hlength.lt_or_eq with hlt | heq
    · rw [word_of_lt hlt]
      exact Nat.le_of_lt_succ (Nat.mod_lt i (Nat.succ_pos _))
    · exact (Nat.mod_le i _).trans (hi.trans heq.ge)
  rw [inserted] at h
  split_ifs at h with hrange
  dsimp only at h
  split_ifs at h with hscalar
  cases h
  exact List.length_insertIdx_of_le_length hindex _

/-! ## All deltas -/

theorem encodeSteps_append (s : Stand) (a b : List (ℕ × ℕ)) :
    encodeSteps s (a ++ b) = encodeSteps s a ++ encodeSteps (a.foldl Stand.next s) b := by
  induction a generalizing s with
  | nil => rfl
  | cons step a ih => rw [List.cons_append, encodeSteps, encodeSteps, ih, List.append_assoc, List.foldl_cons]

theorem decodeDeltas_cons {limit : ℕ} {d : Decoding} {text : Text} (h : text ≠ []) :
    decodeDeltas (limit + 1) d text = (decodeDigits d.bias d.i 1 base text).bind fun r =>
      (inserted d r.1).bind fun d => decodeDeltas limit d r.2 := by
  cases text with
  | nil => exact absurd rfl h
  | cons c text => rfl

/-- Placements in order are read back, exactly when they fit. -/
theorem decodeDeltas_encodeSteps {limit : ℕ} {d : Decoding} {steps : List (ℕ × ℕ)} (hbias : d.bias ≤ 226)
    (hi : d.i ≤ d.out.length) (horder : InOrder d.n d.i d.out.length steps)
    (hscalar : ∀ step ∈ steps, IsScalar step.1) (hlength : d.out.length + steps.length ≤ maxWord)
    (hlimit : steps.length ≤ limit) (l : List ℕ) :
    decodeDeltas limit d (encodeSteps d.stand steps) = some l ↔
      Fits d.n d.out.length steps ∧ placeAll d.out steps = l := by
  induction steps generalizing limit d with
  | nil =>
    rw [encodeSteps, decodeDeltas, Option.some_inj, placeAll_nil]
    exact ⟨fun h => ⟨trivial, h⟩, And.right⟩
  | cons step steps ih =>
    obtain ⟨hstart, hplace, horder⟩ := horder
    obtain ⟨hhere, hscalar⟩ := List.forall_mem_cons.mp hscalar
    rw [List.length_cons] at hlength hlimit
    obtain ⟨limit, rfl⟩ : ∃ m, limit = m + 1 := ⟨limit - 1, by omega⟩
    have hsum : d.i + d.stand.delta step = (step.1 - d.n) * (d.out.length + 1) + step.2 :=
      Stand.add_delta (s := d.stand) hstart (Nat.le_succ_of_le hi)
    have hne : encodeSteps d.stand (step :: steps) ≠ [] := by
      rw [encodeSteps]
      exact List.append_ne_nil_of_left_ne_nil (encodeDigits_ne_nil _ _ _) _
    rw [decodeDeltas_cons hne, encodeSteps, Fits]
    have hdigits : decodeDigits d.bias d.i 1 base
        (encodeDigits (d.stand.delta step) base d.stand.bias ++ encodeSteps (d.stand.next step) steps) = _ :=
      decodeDigits_encodeDigits hbias (by omega : d.i ≤ maxWord) _ _
    rw [hdigits, hsum]
    by_cases hfits : (step.1 - d.n) * (d.out.length + 1) + step.2 ≤ maxWord
    · -- the next code point is placed, and the decoder goes on from there
      have hgrown := length_place hplace
      have hrest := @ih limit (d.place step) (adapt_le (by omega) _)
        (by rw [hgrown]; exact Nat.succ_le_succ hplace) (by rw [hgrown]; exact horder) hscalar
        (by rw [hgrown]; omega) (by omega)
      rw [stand_place hplace, hgrown] at hrest
      rw [if_pos hfits, and_iff_right hfits, ← hsum, Option.bind_some]
      dsimp only
      rw [inserted_eq hstart hi hplace hhere (by omega), Option.bind_some]
      exact hrest
    · rw [if_neg hfits, Option.bind_none]
      exact ⟨fun h => (by cases h), fun h => absurd h.1.1 hfits⟩

theorem length_le_of_decodeDeltas {limit : ℕ} {d : Decoding} {text : Text} {l : List ℕ}
    (h : decodeDeltas limit d text = some l) : d.out.length ≤ l.length := by
  induction limit generalizing d text with
  | zero =>
    cases text with
    | nil => exact (Option.some.inj h) ▸ le_rfl
    | cons c text => cases h
  | succ limit ih =>
    cases text with
    | nil => exact (Option.some.inj h) ▸ le_rfl
    | cons c text =>
      rw [decodeDeltas_cons (List.cons_ne_nil _ _)] at h
      obtain ⟨r, -, h⟩ := Option.bind_eq_some_iff.mp h
      obtain ⟨d', hd', h⟩ := Option.bind_eq_some_iff.mp h
      refine le_trans ?_ (ih h)
      rw [inserted] at hd'
      split_ifs at hd' with hrange
      dsimp only at hd'
      split_ifs at hd' with hscalar
      cases hd'
      exact List.length_le_length_insertIdx

/-- Placements in order that a text in small letters is read as. -/
structure ReadAs (d : Decoding) (text : Text) (l : List ℕ) (steps : List (ℕ × ℕ)) : Prop where
  order : InOrder d.n d.i d.out.length steps
  scalar : ∀ step ∈ steps, IsScalar step.1
  fits : Fits d.n d.out.length steps
  text_eq : text = encodeSteps d.stand steps
  placed : placeAll d.out steps = l

theorem ReadAs.nil {d : Decoding} {l : List ℕ} (h : some d.out = some l) : ReadAs d [] l [] :=
  ⟨trivial, by simp, trivial, rfl, Option.some.inj h⟩

/-- A text that is read in small letters is what its placements are written as. -/
theorem eq_encodeSteps {limit : ℕ} {d : Decoding} {text : Text} {l : List ℕ}
    (hcapital : ∀ c ∈ text, NoCapital c) (hi : d.i ≤ d.out.length) (hlength : l.length ≤ maxWord)
    (h : decodeDeltas limit d text = some l) : ∃ steps, ReadAs d text l steps := by
  induction limit generalizing d text with
  | zero =>
    cases text with
    | nil => exact ⟨[], ReadAs.nil h⟩
    | cons c text => cases h
  | succ limit ih =>
    cases text with
    | nil => exact ⟨[], ReadAs.nil h⟩
    | cons c text =>
      have hout := (length_le_of_decodeDeltas h).trans hlength
      rw [decodeDeltas_cons (List.cons_ne_nil _ _)] at h
      obtain ⟨r, hr, h⟩ := Option.bind_eq_some_iff.mp h
      obtain ⟨d', hd', h⟩ := Option.bind_eq_some_iff.mp h
      obtain ⟨q, htext, hcount, hle⟩ := eq_encodeDigits hcapital one_pos (hi.trans hout) hr
      rw [Nat.mul_one] at hcount
      have hless : d.out.length < maxWord := by
        have hgrown := length_of_inserted hle hout hd'
        have := (length_le_of_decodeDeltas h).trans hlength
        omega
      -- what was read is the delta of the code point that was placed
      obtain ⟨step, hstart, hplace, hscalar, hstep⟩ := of_inserted (by omega : d.i ≤ r.1) hless hd'
      have hsum : d.i + d.stand.delta step = (step.1 - d.n) * (d.out.length + 1) + step.2 :=
        Stand.add_delta (s := d.stand) hstart (Nat.le_succ_of_le hi)
      have hq : q = d.stand.delta step := by omega
      obtain rfl : d' = d.place step := by
        rw [← hstep, ← hsum, inserted_eq hstart hi hplace hscalar hless] at hd'
        exact (Option.some.inj hd').symm
      have hmore : ∀ c ∈ r.2, NoCapital c := fun c hc =>
        hcapital c (htext ▸ List.mem_append_right _ hc)
      obtain ⟨steps, hsteps⟩ := ih hmore (by rw [length_place hplace]; exact Nat.succ_le_succ hplace) h
      have hgrown := length_place hplace
      refine ⟨step :: steps, ⟨hstart, hplace, hgrown ▸ hsteps.order⟩,
        List.forall_mem_cons.mpr ⟨hscalar, hsteps.scalar⟩, ⟨by omega, hgrown ▸ hsteps.fits⟩, ?_, hsteps.placed⟩
      rw [htext, hsteps.text_eq, stand_place hplace, hq]
      rfl

end Punycode

end CtBrowser.Shell.Url
