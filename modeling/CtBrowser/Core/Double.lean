import Mathlib.Tactic
import Mathlib.Data.Int.Log

/-!
# Doubles

A Number, by what it stands for, and the rounding of a magnitude to the nearest one: to the nearest
multiple of the unit in the last place, the even one of two that are as near. A magnitude that rounds
to `2^1024` or more overflows, one that rounds to zero without being zero underflows.

## Main definitions

- `Double` — a Number.
- `roundMagnitude`, `Double.nearest` — rounding.
- `OutOfRange` — a magnitude that overflows or underflows.

## Main results

- `roundMagnitude_near`, `roundMagnitude_natCast` — how far rounding goes, and what is not rounded.
- `overflows_iff_of_outOfRange` — any magnitude within the range tells overflow from underflow.
-/

namespace CtBrowser

/-- A Number: a binary64 value. -/
inductive Double
  | nan
  | infinity (negative : Bool)
  | finite (negative : Bool) (magnitude : ℚ)
deriving DecidableEq, Repr

/-- The nearest integer, the even one of two. -/
def roundHalfEven (x : ℚ) : ℤ :=
  if x - ⌊x⌋ < 1 / 2 ∨ x - ⌊x⌋ = 1 / 2 ∧ Even ⌊x⌋ then ⌊x⌋ else ⌊x⌋ + 1

/-- The exponent of the unit in the last place of a magnitude: 53 bits, as far as there are bits. -/
def lastPlace (q : ℚ) : ℤ := max (Int.log 2 q - 52) (-1074)

/-- A magnitude rounded to 53 bits, the exponent unbounded above. -/
def roundMagnitude (q : ℚ) : ℚ := roundHalfEven (q / 2 ^ lastPlace q) * 2 ^ lastPlace q

/-- The rounded magnitude has no double. -/
def Overflows (q : ℚ) : Prop := 2 ^ 1024 ≤ roundMagnitude q

instance (q : ℚ) : Decidable (Overflows q) := inferInstanceAs (Decidable (_ ≤ _))

/-- The magnitude overflows, or all of it is rounded away. -/
def OutOfRange (q : ℚ) : Prop := Overflows q ∨ q ≠ 0 ∧ roundMagnitude q = 0

instance (q : ℚ) : Decidable (OutOfRange q) := inferInstanceAs (Decidable (_ ∨ _))

namespace Double

/-- The Number nearest to a magnitude with a sign. -/
def nearest (negative : Bool) (q : ℚ) : Double :=
  if Overflows q then infinity negative else finite negative (roundMagnitude q)

/-- The product with 1 or -1. -/
def signed (negative : Bool) : Double → Double
  | nan => nan
  | infinity n => infinity (negative ^^ n)
  | finite n q => finite (negative ^^ n) q

@[simp]
theorem signed_nearest (negative n : Bool) (q : ℚ) :
    (nearest n q).signed negative = nearest (negative ^^ n) q := by
  rw [nearest, nearest]
  split_ifs <;> rfl

theorem nearest_ne_nan (negative : Bool) (q : ℚ) : nearest negative q ≠ nan := by
  rw [nearest]
  split_ifs <;> simp

end Double

/-! ## Rounding -/

theorem floor_le_roundHalfEven (x : ℚ) : ⌊x⌋ ≤ roundHalfEven x := by
  rw [roundHalfEven]
  split_ifs <;> omega

theorem roundHalfEven_le (x : ℚ) : (roundHalfEven x : ℚ) ≤ x + 1 := by
  have hfloor : (⌊x⌋ : ℚ) ≤ x := Int.floor_le x
  rw [roundHalfEven]
  split_ifs
  · linarith
  · push_cast
    linarith

@[simp]
theorem roundHalfEven_intCast (n : ℤ) : roundHalfEven n = n := by
  have hfloor : (n : ℚ) - ⌊(n : ℚ)⌋ < 1 / 2 := by
    rw [Int.floor_intCast, sub_self]
    norm_num
  rw [roundHalfEven, if_pos (Or.inl hfloor), Int.floor_intCast]

@[simp]
theorem roundMagnitude_zero : roundMagnitude 0 = 0 := by
  have hzero := roundHalfEven_intCast 0
  rw [Int.cast_zero] at hzero
  rw [roundMagnitude, zero_div, hzero, Int.cast_zero, zero_mul]

theorem sub_one_le_roundHalfEven (x : ℚ) : x - 1 ≤ roundHalfEven x := by
  have hfloor : (⌊x⌋ : ℚ) ≤ roundHalfEven x := by exact_mod_cast floor_le_roundHalfEven x
  have hlt := Int.lt_floor_add_one x
  linarith

theorem abs_roundMagnitude_sub_le (q : ℚ) : |roundMagnitude q - q| ≤ 2 ^ lastPlace q := by
  have hunit : (0 : ℚ) < 2 ^ lastPlace q := by positivity
  have hlow := mul_le_mul_of_nonneg_right (sub_one_le_roundHalfEven (q / 2 ^ lastPlace q)) hunit.le
  have hhigh := mul_le_mul_of_nonneg_right (roundHalfEven_le (q / 2 ^ lastPlace q)) hunit.le
  rw [sub_mul, div_mul_cancel₀ _ hunit.ne', one_mul] at hlow
  rw [add_mul, div_mul_cancel₀ _ hunit.ne', one_mul] at hhigh
  rw [abs_sub_le_iff, roundMagnitude]
  constructor <;> linarith

theorem lastPlace_eq {q : ℚ} (h : 1 / 2 ≤ q) : lastPlace q = Int.log 2 q - 52 := by
  have hlog : -1 ≤ Int.log 2 q := by
    refine (Int.zpow_le_iff_le_log (by norm_num) (by linarith)).mp (le_trans ?_ h)
    norm_num
  exact max_eq_left (by omega)

theorem zpow_lastPlace_le {q : ℚ} (h : 1 / 2 ≤ q) : (2 : ℚ) ^ lastPlace q ≤ q * 2⁻¹ ^ 52 := by
  have hlog : ((2 : ℕ) : ℚ) ^ Int.log 2 q ≤ q := Int.zpow_log_le_self (by norm_num) (by linarith)
  rw [lastPlace_eq h, zpow_sub₀ two_ne_zero, inv_pow, div_eq_mul_inv]
  exact mul_le_mul_of_nonneg_right (by exact_mod_cast hlog) (by positivity)

/-- Rounding a magnitude with 53 bits is off by a part in `2 ^ 52` at most. -/
theorem roundMagnitude_near {q : ℚ} (h : 1 / 2 ≤ q) : |roundMagnitude q - q| ≤ q * 2⁻¹ ^ 52 :=
  (abs_roundMagnitude_sub_le q).trans (zpow_lastPlace_le h)

/-- An integer of 53 bits is not rounded. -/
theorem roundMagnitude_natCast {n : ℕ} (hn : n < 2 ^ 53) : roundMagnitude n = n := by
  have hplace : lastPlace n ≤ 0 := by
    have hlog : Nat.log 2 n ≤ 52 := Nat.lt_succ_iff.mp (Nat.log_lt_of_lt_pow' (by norm_num) hn)
    rw [lastPlace, Int.log_natCast]
    omega
  obtain ⟨k, hk⟩ := Int.eq_ofNat_of_zero_le (neg_nonneg.mpr hplace)
  have hunit : ((2 : ℚ) ^ lastPlace n)⁻¹ = 2 ^ k := by rw [← zpow_neg, hk, zpow_natCast]
  have hwhole : (n : ℚ) / 2 ^ lastPlace n = ((n * 2 ^ k : ℕ) : ℤ) := by
    rw [div_eq_mul_inv, hunit]
    push_cast
    rfl
  rw [roundMagnitude, hwhole, roundHalfEven_intCast, ← hwhole, div_mul_cancel₀ _ (by positivity)]

theorem two_pow_le_roundMagnitude {q : ℚ} {k : ℕ} (h : 2 ^ k ≤ q) : 2 ^ k ≤ roundMagnitude q := by
  have hone : (1 : ℚ) ≤ 2 ^ k := one_le_pow₀ (by norm_num)
  have hpos : 0 < q := by linarith
  have hlog : (k : ℤ) ≤ Int.log 2 q := by
    refine (Int.zpow_le_iff_le_log (by norm_num) hpos).mp ?_
    rw [zpow_natCast]
    exact_mod_cast h
  have hunit : (0 : ℚ) < 2 ^ lastPlace q := by positivity
  -- the power of two below the magnitude is a multiple of the unit
  have htop : (2 : ℚ) ^ Int.log 2 q = 2 ^ 52 * 2 ^ lastPlace q := by
    rw [lastPlace_eq (by linarith), ← zpow_natCast, ← zpow_add₀ two_ne_zero, Nat.cast_ofNat,
      add_sub_cancel]
  have hfloor : (2 : ℤ) ^ 52 ≤ ⌊q / 2 ^ lastPlace q⌋ := by
    rw [Int.le_floor, le_div_iff₀ hunit, Int.cast_pow, Int.cast_ofNat, ← htop]
    exact_mod_cast Int.zpow_log_le_self (by norm_num) hpos
  have hround : ((2 : ℤ) ^ 52 : ℚ) ≤ roundHalfEven (q / 2 ^ lastPlace q) := by
    exact_mod_cast hfloor.trans (floor_le_roundHalfEven _)
  calc (2 : ℚ) ^ k = 2 ^ (k : ℤ) := (zpow_natCast 2 k).symm
    _ ≤ 2 ^ Int.log 2 q := zpow_le_zpow_right₀ (by norm_num) hlog
    _ ≤ roundMagnitude q := by
      rw [htop, roundMagnitude]
      exact mul_le_mul_of_nonneg_right (by exact_mod_cast hround) hunit.le

/-! ## Magnitudes around ten -/

theorem roundMagnitude_ne_zero {q : ℚ} (h : 10 ≤ q) : roundMagnitude q ≠ 0 := by
  have hpos : 0 < q := by linarith
  have hlog : 0 ≤ Int.log 2 q := by
    rw [← Int.log_one_right (R := ℚ) 2]
    exact Int.log_mono_right one_pos (by linarith)
  have hplace : (2 : ℚ) ^ lastPlace q ≤ q := by
    refine le_trans (zpow_le_zpow_right₀ (by norm_num) ?_) (Int.zpow_log_le_self (by norm_num) hpos)
    exact max_le (sub_le_self _ (by norm_num)) (le_trans (by norm_num) hlog)
  have hunit : (0 : ℚ) < 2 ^ lastPlace q := by positivity
  have hone : 1 ≤ ⌊q / 2 ^ lastPlace q⌋ := Int.le_floor.mpr (by
    rw [Int.cast_one, le_div_iff₀ hunit, one_mul]
    exact hplace)
  have hround : (1 : ℤ) ≤ roundHalfEven (q / 2 ^ lastPlace q) := hone.trans (floor_le_roundHalfEven _)
  refine mul_ne_zero ?_ hunit.ne'
  exact_mod_cast (by omega : roundHalfEven (q / 2 ^ lastPlace q) ≠ 0)

theorem roundMagnitude_le {q : ℚ} (hq : 0 ≤ q) (h : q < 10) : roundMagnitude q ≤ q + 1 := by
  have hlog : Int.log 2 q ≤ 3 := by
    rcases hq.eq_or_lt with rfl | hpos
    · simp
    have hlt : Int.log 2 q < 4 := (Int.lt_zpow_iff_log_lt (by norm_num) hpos).mp (h.trans (by norm_num))
    omega
  have hunit : (0 : ℚ) < 2 ^ lastPlace q := by positivity
  have hplace : (2 : ℚ) ^ lastPlace q ≤ 1 := by
    refine zpow_le_one_of_nonpos₀ (by norm_num) ?_
    rw [lastPlace]
    omega
  have hround : roundMagnitude q ≤ q + 2 ^ lastPlace q := by
    have hmul := mul_le_mul_of_nonneg_right (roundHalfEven_le (q / 2 ^ lastPlace q)) hunit.le
    rwa [add_mul, div_mul_cancel₀ _ hunit.ne', one_mul] at hmul
  linarith

theorem not_overflows {q : ℚ} (hq : 0 ≤ q) (h : q < 10) : ¬ Overflows q := by
  rw [Overflows, not_le]
  calc roundMagnitude q ≤ q + 1 := roundMagnitude_le hq h
    _ < 2 ^ 4 := by linarith
    _ ≤ 2 ^ 1024 := pow_le_pow_right₀ (by norm_num) (by norm_num)

/-- Out of the range, ten tells overflow from underflow. -/
theorem overflows_iff_of_outOfRange {q : ℚ} (hq : 0 ≤ q) (h : OutOfRange q) : Overflows q ↔ 10 ≤ q := by
  constructor
  · intro hover
    by_contra hlt
    exact not_overflows hq (not_le.mp hlt) hover
  · rintro hten
    rcases h with hover | ⟨-, hzero⟩
    · exact hover
    · exact absurd hzero (roundMagnitude_ne_zero hten)

end CtBrowser
