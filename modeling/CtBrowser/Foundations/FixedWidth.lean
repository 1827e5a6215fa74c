import Mathlib.Tactic

/-!
# Integers of a Fixed Width

Arithmetic of signed integers of a fixed width. An operation whose exact result the width does not
hold has no value, so a computation that has one never overflowed.

## Main definitions

- `Fits`, `fit` — the integers of a width, and a result if the width holds it.
- `int32`, `int64`, `int128` — results of the usual widths.
- `double` — an integer as a binary64 number, if it is one that every smaller one is, too.

## Main results

- `int32_eq`, `int64_eq`, `int128_eq`, `double_eq` — a result within the bounds has its value.
- `ediv_of_tdiv`, `floorDiv_eq`, `floorMod_eq` — division towards negative infinity.
-/

namespace CtBrowser.Foundations.FixedWidth

/-! ## Results -/

/-- The integers that a signed type of so many bits holds. -/
def Fits (bits : ℕ) (x : ℤ) : Prop := -2 ^ (bits - 1) ≤ x ∧ x < 2 ^ (bits - 1)

instance (bits : ℕ) (x : ℤ) : Decidable (Fits bits x) := inferInstanceAs (Decidable (_ ∧ _))

/-- A result, if the type holds it. -/
def fit (bits : ℕ) (x : ℤ) : Option ℤ := if Fits bits x then some x else none

def int32 (x : ℤ) : Option ℤ := fit 32 x

def int64 (x : ℤ) : Option ℤ := fit 64 x

def int128 (x : ℤ) : Option ℤ := fit 128 x

/-- A binary64 number of an integer, where none is lost. -/
def double (x : ℤ) : Option ℤ := if |x| ≤ 2 ^ 53 then some x else none

theorem fit_eq {bits : ℕ} {x : ℤ} (h : Fits bits x) : fit bits x = some x := if_pos h

theorem int32_eq {x : ℤ} (hlow : -2147483648 ≤ x) (hhigh : x < 2147483648) : int32 x = some x :=
  fit_eq ⟨hlow, hhigh⟩

theorem int64_eq {x : ℤ} (hlow : -9223372036854775808 ≤ x) (hhigh : x < 9223372036854775808) :
    int64 x = some x :=
  fit_eq ⟨hlow, hhigh⟩

theorem int128_eq {x : ℤ} (hlow : -170141183460469231731687303715884105728 ≤ x)
    (hhigh : x < 170141183460469231731687303715884105728) : int128 x = some x :=
  fit_eq ⟨hlow, hhigh⟩

theorem double_eq {x : ℤ} (hlow : -9007199254740992 ≤ x) (hhigh : x ≤ 9007199254740992) :
    double x = some x :=
  if_pos (abs_le.mpr ⟨hlow, hhigh⟩)

/-! ## Steps of a computation

One rule for each kind of step: its result fits, and the rest of the computation has the value for
a name that equals the result. -/

section Steps

variable {α β : Type} {rest : ℤ → Option β} {value : β}

theorem step {x : Option α} {a : α} {rest : α → Option β} (hx : x = some a)
    (h : rest a = some value) : x >>= rest = some value := by
  rw [hx]
  exact h

theorem step_int32 {x : ℤ} (hlow : -2147483648 ≤ x) (hhigh : x < 2147483648)
    (h : ∀ v, v = x → rest v = some value) : int32 x >>= rest = some value :=
  step (int32_eq hlow hhigh) (h x rfl)

theorem step_int64 {x : ℤ} (hlow : -9223372036854775808 ≤ x) (hhigh : x < 9223372036854775808)
    (h : ∀ v, v = x → rest v = some value) : int64 x >>= rest = some value :=
  step (int64_eq hlow hhigh) (h x rfl)

theorem step_int128 {x : ℤ} (hlow : -170141183460469231731687303715884105728 ≤ x)
    (hhigh : x < 170141183460469231731687303715884105728)
    (h : ∀ v, v = x → rest v = some value) : int128 x >>= rest = some value :=
  step (int128_eq hlow hhigh) (h x rfl)

theorem step_double {x : ℤ} (hlow : -9007199254740992 ≤ x) (hhigh : x ≤ 9007199254740992)
    (h : ∀ v, v = x → rest v = some value) : double x >>= rest = some value :=
  step (double_eq hlow hhigh) (h x rfl)

/-- The equation of a name, which arithmetic does not look into: in a long computation the bounds of the
names suffice for the next step, and the equations are only put together at its end. -/
def Named (v x : ℤ) : Prop := v = x

theorem step_int32_within {x : ℤ} (lo hi : ℤ) (hx : lo ≤ x ∧ x ≤ hi)
    (hfits : -2147483648 ≤ lo ∧ hi < 2147483648)
    (h : ∀ v, lo ≤ v ∧ v ≤ hi → Named v x → rest v = some value) : int32 x >>= rest = some value :=
  step (int32_eq (hfits.1.trans hx.1) (hx.2.trans_lt hfits.2)) (h x hx rfl)

theorem step_int64_within {x : ℤ} (lo hi : ℤ) (hx : lo ≤ x ∧ x ≤ hi)
    (hfits : -9223372036854775808 ≤ lo ∧ hi < 9223372036854775808)
    (h : ∀ v, lo ≤ v ∧ v ≤ hi → Named v x → rest v = some value) : int64 x >>= rest = some value :=
  step (int64_eq (hfits.1.trans hx.1) (hx.2.trans_lt hfits.2)) (h x hx rfl)

theorem step_int128_within {x : ℤ} (lo hi : ℤ) (hx : lo ≤ x ∧ x ≤ hi)
    (hfits : -170141183460469231731687303715884105728 ≤ lo ∧ hi < 170141183460469231731687303715884105728)
    (h : ∀ v, lo ≤ v ∧ v ≤ hi → Named v x → rest v = some value) : int128 x >>= rest = some value :=
  step (int128_eq (hfits.1.trans hx.1) (hx.2.trans_lt hfits.2)) (h x hx rfl)

theorem step_quotient_within {a b : ℤ} (lo hi : ℤ) (ha : 0 ≤ a) (hx : lo ≤ a / b ∧ a / b ≤ hi)
    (hfits : -9223372036854775808 ≤ lo ∧ hi < 9223372036854775808)
    (h : ∀ v, lo ≤ v ∧ v ≤ hi → Named v (a / b) → rest v = some value) : int64 (a.tdiv b) >>= rest = some value := by
  rw [Int.tdiv_eq_ediv_of_nonneg ha]
  exact step_int64_within lo hi hx hfits h

end Steps

/-! ## Division -/

/-- Division towards negative infinity, made of division towards zero. -/
def floorDiv (bits : ℕ) (a b : ℤ) : Option ℤ := do
  let q ← fit bits (a.tdiv b)
  if a.tmod b ≠ 0 ∧ (decide (a < 0) != decide (b < 0)) then fit bits (q - 1) else pure q

def floorMod (bits : ℕ) (a b : ℤ) : Option ℤ := do
  let q ← floorDiv bits a b
  let p ← fit bits (q * b)
  fit bits (a - p)

theorem tdiv_eq {a b : ℤ} (hb : 0 < b) :
    a.tdiv b = a / b + if a.tmod b ≠ 0 ∧ a < 0 then 1 else 0 := by
  rw [Int.tdiv_eq_ediv, Int.sign_eq_one_of_pos hb]
  have hdvd : b ∣ a ↔ a.tmod b = 0 := Int.dvd_iff_tmod_eq_zero
  by_cases ha : 0 ≤ a
  · rw [if_pos (.inl ha), if_neg fun h => absurd h.2 (not_lt.mpr ha)]
  · by_cases h : a.tmod b = 0
    · rw [if_pos (.inr (hdvd.mpr h)), if_neg fun hne => hne.1 h]
    · rw [if_neg fun hor => hor.elim ha fun hd => h (hdvd.mp hd), if_pos ⟨h, not_le.mp ha⟩]

theorem floorDiv_eq {bits : ℕ} {a b : ℤ} (hb : 0 < b) (ha : Fits bits a) :
    floorDiv bits a b = some (a / b) := by
  have hneg : ¬ b < 0 := not_lt.mpr hb.le
  have hquotient := tdiv_eq (a := a) hb
  have hlow : a < 0 → a ≤ a / b := fun h => by
    rw [Int.le_ediv_iff_mul_le hb]
    nlinarith
  have hhigh : 0 ≤ a → a / b ≤ a := fun h => Int.ediv_le_self b h
  have hnonneg : 0 ≤ a → 0 ≤ a / b := fun h => Int.ediv_nonneg h hb.le
  have hnegative : a < 0 → a / b < 0 := fun h => Int.ediv_neg_of_neg_of_pos h hb
  obtain ⟨hfirst, hlast⟩ := ha
  have hpos : (0 : ℤ) < 2 ^ (bits - 1) := by positivity
  rw [floorDiv]
  split_ifs at hquotient with h
  · have hfits : Fits bits (a.tdiv b) := ⟨by omega, by omega⟩
    have hless : Fits bits (a.tdiv b - 1) := ⟨by omega, by omega⟩
    simp only [fit_eq hfits, Option.bind_eq_bind, Option.bind_some]
    rw [if_pos ⟨h.1, by simp [h.2, hneg]⟩, fit_eq hless, hquotient]
    congr 1
    omega
  · have hfits : Fits bits (a.tdiv b) := ⟨by omega, by omega⟩
    simp only [fit_eq hfits, Option.bind_eq_bind, Option.bind_some]
    rw [if_neg, hquotient, add_zero]
    · rfl
    · rintro ⟨hmod, hsigns⟩
      have hnot : ¬ a < 0 := fun hlt => h ⟨hmod, hlt⟩
      simp [hnot, hneg] at hsigns

theorem floorMod_eq {bits : ℕ} {a b : ℤ} (hb : 0 < b) (ha : Fits bits a) (hab : Fits bits (a - b))
    (hbits : Fits bits b) : floorMod bits a b = some (a % b) := by
  have hmod : 0 ≤ a % b ∧ a % b < b := ⟨Int.emod_nonneg a hb.ne', Int.emod_lt_of_pos a hb⟩
  have hdiv : a / b * b = a - a % b := by
    linarith [Int.emod_add_mul_ediv a b]
  have hproduct : Fits bits (a / b * b) := by
    rw [hdiv]
    obtain ⟨-, hhigh⟩ := ha
    exact ⟨hab.1.trans (by omega), by omega⟩
  have hrest : a - a / b * b = a % b := by omega
  have hpos : (0 : ℤ) < 2 ^ (bits - 1) := by positivity
  have hfits : Fits bits (a % b) := ⟨by omega, hmod.2.trans hbits.2⟩
  simp only [floorMod, floorDiv_eq hb ha, Option.bind_eq_bind, Option.bind_some, fit_eq hproduct]
  rw [hrest, fit_eq hfits]

end CtBrowser.Foundations.FixedWidth
