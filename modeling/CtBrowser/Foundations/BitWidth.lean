import Mathlib.Tactic
import Mathlib.Analysis.SpecialFunctions.Log.Base

/-!
# The Width of an Integer

The number of bits of the magnitude of an integer, and what arithmetic makes of it. A product is as
wide as its factors together or one bit less; how wide a power is only a logarithm tells.

## Main definitions

- `bitWidth` — the number of bits.

## Main results

- `bitWidth_le_iff`, `lt_bitWidth_iff` — a width is a bound of the magnitude.
- `bitWidth_mul_le`, `le_bitWidth_mul` — the width of a product.
- `bitWidth_pow_le`, `lt_bitWidth_pow`, `bitWidth_pow_eq` — the width of a power.
-/

namespace CtBrowser.Foundations.BitWidth

/-- The significant bits of a magnitude, none for zero. -/
def bitWidth (a : ℤ) : ℕ := if a = 0 then 0 else a.natAbs.log2 + 1

@[simp]
theorem bitWidth_zero : bitWidth 0 = 0 := rfl

theorem bitWidth_le_iff {a : ℤ} {n : ℕ} : bitWidth a ≤ n ↔ a.natAbs < 2 ^ n := by
  rw [bitWidth]
  split_ifs with ha
  · rw [ha, Int.natAbs_zero]
    exact iff_of_true (Nat.zero_le n) (Nat.two_pow_pos n)
  · rw [Nat.succ_le_iff, Nat.log2_lt (Int.natAbs_ne_zero.mpr ha)]

theorem lt_bitWidth_iff {a : ℤ} {n : ℕ} : n < bitWidth a ↔ 2 ^ n ≤ a.natAbs := by
  rw [← not_le, bitWidth_le_iff, not_lt]

theorem bitWidth_pos {a : ℤ} (ha : a ≠ 0) : 0 < bitWidth a := by
  rw [bitWidth, if_neg ha]
  exact Nat.succ_pos _

/-- A magnitude that is not zero reaches its highest bit, and no other is above it. -/
theorem natAbs_bounds {a : ℤ} (ha : a ≠ 0) :
    2 ^ (bitWidth a - 1) ≤ a.natAbs ∧ a.natAbs < 2 ^ bitWidth a :=
  ⟨lt_bitWidth_iff.mp (Nat.sub_lt (bitWidth_pos ha) one_pos), bitWidth_le_iff.mp le_rfl⟩

/-! ## Shifts -/

/-- A shift to the left adds as many bits. -/
theorem bitWidth_shift {a : ℤ} (ha : a ≠ 0) (n : ℕ) : bitWidth (a * 2 ^ n) = bitWidth a + n := by
  obtain ⟨hlow, hhigh⟩ := natAbs_bounds ha
  have hpos := bitWidth_pos ha
  have hshift : (a * 2 ^ n).natAbs = a.natAbs * 2 ^ n := by
    rw [Int.natAbs_mul, Int.natAbs_pow]
    rfl
  refine le_antisymm (bitWidth_le_iff.mpr ?_) ?_
  · rw [hshift, pow_add]
    exact Nat.mul_lt_mul_of_pos_right hhigh (Nat.two_pow_pos n)
  · have hlast : 2 ^ (bitWidth a - 1 + n) ≤ (a * 2 ^ n).natAbs := by
      rw [hshift, pow_add]
      exact Nat.mul_le_mul_right _ hlow
    have := lt_bitWidth_iff.mpr hlast
    omega

theorem bitWidth_two_pow (n : ℕ) : bitWidth (2 ^ n) = n + 1 := by
  have h := bitWidth_shift one_ne_zero n
  rwa [one_mul, show bitWidth 1 = 1 from rfl, add_comm] at h

/-- A shift to the right past the width leaves the sign. -/
theorem ediv_of_bitWidth_le {a : ℤ} {n : ℕ} (h : bitWidth a ≤ n) :
    a / 2 ^ n = if a < 0 then -1 else 0 := by
  rw [bitWidth_le_iff] at h
  have hcast : (a.natAbs : ℤ) < 2 ^ n := by exact_mod_cast h
  split_ifs with hneg
  · refine (Int.ediv_eq_iff_of_pos (by positivity)).mpr ⟨?_, ?_⟩ <;> omega
  · exact Int.ediv_eq_zero_of_lt (not_lt.mp hneg) (by omega)

/-! ## Products -/

theorem bitWidth_mul_le (a b : ℤ) : bitWidth (a * b) ≤ bitWidth a + bitWidth b := by
  rw [bitWidth_le_iff, Int.natAbs_mul, pow_add]
  have ha : a.natAbs < 2 ^ bitWidth a := bitWidth_le_iff.mp le_rfl
  have hb : b.natAbs < 2 ^ bitWidth b := bitWidth_le_iff.mp le_rfl
  exact Nat.mul_lt_mul'' ha hb

theorem le_bitWidth_mul {a b : ℤ} (ha : a ≠ 0) (hb : b ≠ 0) :
    bitWidth a + bitWidth b ≤ bitWidth (a * b) + 1 := by
  have hpos := bitWidth_pos ha
  have hpos' := bitWidth_pos hb
  have hlow : 2 ^ (bitWidth a - 1 + (bitWidth b - 1)) ≤ (a * b).natAbs := by
    rw [Int.natAbs_mul, pow_add]
    exact Nat.mul_le_mul (natAbs_bounds ha).1 (natAbs_bounds hb).1
  have := lt_bitWidth_iff.mpr hlow
  omega

/-! ## Powers -/

theorem bitWidth_pow_le (a : ℤ) {n : ℕ} (hn : 0 < n) : bitWidth (a ^ n) ≤ bitWidth a * n := by
  rw [bitWidth_le_iff, Int.natAbs_pow, pow_mul]
  exact Nat.pow_lt_pow_left (bitWidth_le_iff.mp le_rfl) hn.ne'

theorem lt_bitWidth_pow {a : ℤ} (ha : a ≠ 0) (n : ℕ) : (bitWidth a - 1) * n < bitWidth (a ^ n) := by
  rw [lt_bitWidth_iff, Int.natAbs_pow, pow_mul]
  exact Nat.pow_le_pow_left (natAbs_bounds ha).1 n

/-- The width of a power by the logarithm of its base. -/
theorem bitWidth_pow_eq {a : ℤ} (ha : a ≠ 0) (n : ℕ) :
    bitWidth (a ^ n) = ⌊Real.logb 2 a.natAbs * n⌋₊ + 1 := by
  have hfloor := Real.natFloor_logb_natCast 2 (a.natAbs ^ n)
  rw [Nat.cast_pow, Real.logb_pow, mul_comm, Nat.cast_ofNat] at hfloor
  rw [bitWidth, if_neg (pow_ne_zero n ha), Int.natAbs_pow, Nat.log2_eq_log_two, hfloor]

end CtBrowser.Foundations.BitWidth
