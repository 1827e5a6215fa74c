import CtBrowser.Core.Double
import CtBrowser.Foundations.BitWidth

/-!
# BigInt

Arithmetic of integers of any width, with a limit on the width of a result. What would be wider is
refused before it is computed, by the widths of the operands.

## Main definitions

- `maxBigintBits` — the limit.
- `bigintMul`, `bigintPow`, `bigintShl`, `bigintShr` — the operations that know it.

## Main results

- `bigint_shifts` — when a shift is refused, and that it is the floor else.
- `bigint_products` — a product or a power is exact, and how near to the limit one is refused.
-/

namespace CtBrowser.Script.BigInt

open CtBrowser.Foundations.BitWidth

/-- The widest result. -/
def maxBigintBits : ℕ := 2 ^ 30

/-- The product. -/
def bigintMul (a b : ℤ) : Option ℤ :=
  if bitWidth a + bitWidth b > maxBigintBits then none else some (a * b)

/-- The power. The width of the result is estimated in doubles, by a logarithm of the base or, where
the base is no double, by its width. -/
def bigintPow (log2 : ℕ → ℚ) (a b : ℤ) : Option ℤ :=
  if b < 0 then none
  else if b > 0xFFFFFFFF then none
  else
    let exponent := b.toNat
    let width := bitWidth a
    let log2Base := if width ≤ 53 then log2 (max 1 a.natAbs) else roundMagnitude (width - 1 : ℕ)
    if roundMagnitude (log2Base * exponent) ≥ maxBigintBits then none else some (a ^ exponent)

/-- The highest count that is not refused, or taken to be past any width. -/
def maxShift : ℕ := 0x10000000

/-- A shift to the left by a count that is not negative. -/
def shiftLeft (a b : ℤ) : Option ℤ :=
  if b > maxShift then none
  else
    let count := b.toNat
    if a ≠ 0 ∧ bitWidth a + count > maxBigintBits then none else some (a * 2 ^ count)

/-- A shift to the right by a count that is not negative. -/
def shiftRight (a b : ℤ) : Option ℤ :=
  if b > maxShift then some (if a < 0 then -1 else 0) else some (a / 2 ^ b.toNat)

/-- A shift to the left; by a negative count, to the right. -/
def bigintShl (a b : ℤ) : Option ℤ := if b < 0 then shiftRight a (-b) else shiftLeft a b

/-- A shift to the right; by a negative count, to the left. -/
def bigintShr (a b : ℤ) : Option ℤ := if b < 0 then shiftLeft a (-b) else shiftRight a b

/-! ## Shifts -/

theorem shiftLeft_eq (a : ℤ) (n : ℕ) : shiftLeft a n =
    if n ≤ maxShift ∧ bitWidth (a * 2 ^ n) ≤ maxBigintBits then some (a * 2 ^ n) else none := by
  have hcount : (n : ℤ) > maxShift ↔ ¬ n ≤ maxShift := by
    rw [gt_iff_lt, Nat.cast_lt, not_le]
  have hwidth : (a ≠ 0 ∧ bitWidth a + n > maxBigintBits) ↔ ¬ bitWidth (a * 2 ^ n) ≤ maxBigintBits := by
    by_cases ha : a = 0
    · rw [ha, zero_mul, bitWidth_zero]
      exact iff_of_false (fun h => h.1 rfl) (not_not.mpr (Nat.zero_le _))
    · rw [bitWidth_shift ha, not_le]
      exact and_iff_right ha
  rw [shiftLeft]
  dsimp only
  rw [Int.toNat_natCast]
  by_cases hn : n ≤ maxShift
  · rw [if_neg (mt hcount.mp (not_not.mpr hn)), if_congr hwidth rfl rfl]
    by_cases hfits : bitWidth (a * 2 ^ n) ≤ maxBigintBits
    · rw [if_neg (not_not.mpr hfits), if_pos ⟨hn, hfits⟩]
    · rw [if_pos hfits, if_neg fun h => hfits h.2]
  · rw [if_pos (hcount.mpr hn), if_neg fun h => hn h.1]

theorem shiftRight_eq (a : ℤ) (n : ℕ) : shiftRight a n =
    some (if n ≤ maxShift ∨ bitWidth a ≤ n then a / 2 ^ n else if a < 0 then -1 else 0) := by
  have hcount : (n : ℤ) > maxShift ↔ ¬ n ≤ maxShift := by
    rw [gt_iff_lt, Nat.cast_lt, not_le]
  rw [shiftRight, Int.toNat_natCast]
  by_cases hn : n ≤ maxShift
  · rw [if_neg (mt hcount.mp (not_not.mpr hn)), if_pos (Or.inl hn)]
  · rw [if_pos (hcount.mpr hn)]
    by_cases hpast : bitWidth a ≤ n
    · rw [if_pos (Or.inr hpast), ediv_of_bitWidth_le hpast]
    · rw [if_neg (not_or.mpr ⟨hn, hpast⟩)]

theorem bigintShl_natCast (a : ℤ) (n : ℕ) : bigintShl a n = shiftLeft a n := if_neg (by omega)

theorem bigintShr_natCast (a : ℤ) (n : ℕ) : bigintShr a n = shiftRight a n := if_neg (by omega)

/-- A shift to the left by a count up to the highest one is refused just if the result is too wide, and by
a higher one in any case. A shift to the right is never refused, and is the floor but for a count above
the highest one of a value that is wider than it. A negative count shifts the other way. -/
theorem bigint_shifts (a : ℤ) (n : ℕ) :
    bigintShl a n =
        (if n ≤ maxShift ∧ bitWidth (a * 2 ^ n) ≤ maxBigintBits then some (a * 2 ^ n) else none) ∧
      bigintShr a n =
        some (if n ≤ maxShift ∨ bitWidth a ≤ n then a / 2 ^ n else if a < 0 then -1 else 0) ∧
      bigintShl a (-(n + 1)) = bigintShr a (n + 1) ∧ bigintShr a (-(n + 1)) = bigintShl a (n + 1) := by
  have hneg : -((n : ℤ) + 1) < 0 := by omega
  have hpos : ¬ (n : ℤ) + 1 < 0 := by omega
  refine ⟨?_, ?_, ?_, ?_⟩
  · rw [bigintShl_natCast, shiftLeft_eq]
  · rw [bigintShr_natCast, shiftRight_eq]
  · rw [bigintShl, bigintShr, if_pos hneg, if_neg hpos, neg_neg]
  · rw [bigintShr, bigintShl, if_pos hneg, if_neg hpos, neg_neg]

/-- By one more than the highest count, one is not shifted to the left, though the result is not too wide, and
a power of two is shifted to the right too far; and what is too wide is shifted by none. -/
theorem shifts_past_highest :
    (bigintShl 1 (maxShift + 1 : ℕ) = none ∧ bitWidth (1 * 2 ^ (maxShift + 1)) ≤ maxBigintBits) ∧
      (bigintShr (2 ^ (maxShift + 1)) (maxShift + 1 : ℕ) = some 0 ∧
        (2 : ℤ) ^ (maxShift + 1) / 2 ^ (maxShift + 1) = 1) ∧
      maxBigintBits < bitWidth (2 ^ maxBigintBits) ∧
      bigintShr (2 ^ maxBigintBits) (0 : ℕ) = some (2 ^ maxBigintBits) := by
  have hmore : ¬ maxShift + 1 ≤ maxShift := Nat.not_succ_le_self _
  have hroom : maxShift + 1 + 1 ≤ maxBigintBits := by
    rw [maxShift, maxBigintBits]
    norm_num
  refine ⟨⟨?_, ?_⟩, ⟨?_, ?_⟩, ?_, ?_⟩
  · rw [bigintShl_natCast, shiftLeft_eq, if_neg fun h => hmore h.1]
  · rw [one_mul, bitWidth_two_pow]
    exact hroom
  · have hwide : ¬ bitWidth (2 ^ (maxShift + 1)) ≤ maxShift + 1 := by
      rw [bitWidth_two_pow]
      exact Nat.not_succ_le_self _
    have hsign : ¬ (2 : ℤ) ^ (maxShift + 1) < 0 := not_lt.mpr (by positivity)
    rw [bigintShr_natCast, shiftRight_eq, if_neg (not_or.mpr ⟨hmore, hwide⟩), if_neg hsign]
  · exact Int.ediv_self (by positivity)
  · rw [bitWidth_two_pow]
    exact Nat.lt_succ_self _
  · rw [bigintShr_natCast, shiftRight_eq, if_pos (Or.inl (Nat.zero_le _)), pow_zero, Int.ediv_one]

/-! ## Products -/

theorem bigintMul_eq_some_iff {a b c : ℤ} :
    bigintMul a b = some c ↔ bitWidth a + bitWidth b ≤ maxBigintBits ∧ c = a * b := by
  rw [bigintMul]
  split_ifs with hwide
  · exact iff_of_false (by simp) fun h => absurd h.1 (not_le.mpr hwide)
  · rw [Option.some.injEq, eq_comm]
    exact (and_iff_right (not_lt.mp hwide)).symm

theorem bigintMul_eq_none_iff {a b : ℤ} : bigintMul a b = none ↔ maxBigintBits < bitWidth a + bitWidth b := by
  rw [bigintMul, ite_eq_left_iff, gt_iff_lt]
  exact ⟨fun h => by_contra fun hnarrow => absurd (h hnarrow) (by simp), fun h hnarrow => absurd h hnarrow⟩

/-! ## Powers -/

/-- The logarithm of the base that a power is estimated by. -/
def log2Base (log2 : ℕ → ℚ) (a : ℤ) : ℚ :=
  if bitWidth a ≤ 53 then log2 (max 1 a.natAbs) else roundMagnitude (bitWidth a - 1 : ℕ)

/-- The estimate of the width of a power. -/
def estimate (log2 : ℕ → ℚ) (a : ℤ) (n : ℕ) : ℚ := roundMagnitude (log2Base log2 a * n)

theorem bigintPow_natCast (log2 : ℕ → ℚ) (a : ℤ) (n : ℕ) : bigintPow log2 a n =
    if n ≤ 0xFFFFFFFF ∧ estimate log2 a n < maxBigintBits then some (a ^ n) else none := by
  have hcount : (n : ℤ) > 0xFFFFFFFF ↔ ¬ n ≤ 0xFFFFFFFF := by omega
  rw [bigintPow, if_neg (by omega)]
  dsimp only
  rw [Int.toNat_natCast]
  change (if (n : ℤ) > 0xFFFFFFFF then none
    else if (maxBigintBits : ℚ) ≤ estimate log2 a n then none else some (a ^ n)) = _
  by_cases hn : n ≤ 0xFFFFFFFF
  · rw [if_neg (mt hcount.mp (not_not.mpr hn))]
    by_cases hfits : estimate log2 a n < maxBigintBits
    · rw [if_neg (not_le.mpr hfits), if_pos ⟨hn, hfits⟩]
    · rw [if_pos (not_lt.mp hfits), if_neg fun h => hfits h.2]
  · rw [if_pos (hcount.mpr hn), if_neg fun h => hn h.1]

theorem bigintPow_nonneg {log2 : ℕ → ℚ} {a b c : ℤ} (h : bigintPow log2 a b = some c) : 0 ≤ b := by
  by_contra hneg
  rw [bigintPow, if_pos (not_le.mp hneg)] at h
  cases h

theorem bigintPow_eq_some_iff {log2 : ℕ → ℚ} {a c : ℤ} {n : ℕ} : bigintPow log2 a n = some c ↔
    (n ≤ 0xFFFFFFFF ∧ estimate log2 a n < maxBigintBits) ∧ c = a ^ n := by
  rw [bigintPow_natCast]
  split_ifs with h
  · rw [Option.some.injEq, eq_comm]
    exact (and_iff_right h).symm
  · exact iff_of_false (by simp) fun hc => h hc.1

theorem bigintPow_eq_none_iff {log2 : ℕ → ℚ} {a : ℤ} {n : ℕ} : bigintPow log2 a n = none ↔
    (n ≤ 0xFFFFFFFF → maxBigintBits ≤ estimate log2 a n) := by
  rw [bigintPow_natCast, ite_eq_right_iff]
  simp [not_lt]

theorem roundMagnitude_mul_lt_iff (w n : ℕ) :
    roundMagnitude (roundMagnitude w * n) < maxBigintBits ↔ w * n < maxBigintBits := by
  have hlimit : ((maxBigintBits : ℕ) : ℚ) = 2 ^ 30 := by norm_num [maxBigintBits]
  constructor
  · rw [← not_le, ← not_le, not_imp_not]
    intro hwide
    rw [hlimit]
    refine two_pow_le_roundMagnitude ?_
    rcases lt_or_ge w (2 ^ 53) with hw | hw
    · rw [roundMagnitude_natCast hw, ← hlimit]
      exact_mod_cast hwide
    · have hn : 1 ≤ n := Nat.one_le_iff_ne_zero.mpr (by rintro rfl; simp [maxBigintBits] at hwide)
      have hround : (2 : ℚ) ^ 53 ≤ roundMagnitude w := two_pow_le_roundMagnitude (by exact_mod_cast hw)
      have hcast : (1 : ℚ) ≤ n := by exact_mod_cast hn
      nlinarith
  · intro hnarrow
    have hsmall : w * n < 2 ^ 53 := hnarrow.trans (by norm_num [maxBigintBits])
    rcases Nat.eq_zero_or_pos n with rfl | hn
    · rw [Nat.cast_zero, mul_zero, roundMagnitude_zero, hlimit]
      positivity
    · have hw : w < 2 ^ 53 := lt_of_le_of_lt (Nat.le_mul_of_pos_right w hn) hsmall
      rw [roundMagnitude_natCast hw, ← Nat.cast_mul, roundMagnitude_natCast hsmall, Nat.cast_lt]
      exact hnarrow

theorem estimate_lt_iff_of_wide (log2 : ℕ → ℚ) {a : ℤ} (ha : 53 < bitWidth a) (n : ℕ) :
    estimate log2 a n < maxBigintBits ↔ (bitWidth a - 1) * n < maxBigintBits := by
  rw [estimate, log2Base, if_neg (not_le.mpr ha), roundMagnitude_mul_lt_iff]

theorem bitWidth_pow_lt_of_wide {a : ℤ} {n : ℕ} (ha : 53 < bitWidth a) (h : (bitWidth a - 1) * n < maxBigintBits) :
    bitWidth (a ^ n) < maxBigintBits + n ∧ 53 * n < maxBigintBits := by
  have hleast : 53 * n ≤ (bitWidth a - 1) * n := Nat.mul_le_mul_right n (by omega)
  refine ⟨?_, lt_of_le_of_lt hleast h⟩
  rcases Nat.eq_zero_or_pos n with rfl | hn
  · rw [pow_zero]
    decide
  · have hsum : bitWidth a * n = (bitWidth a - 1) * n + n := by
      rw [← Nat.succ_mul, Nat.succ_eq_add_one, Nat.sub_add_cancel (by omega)]
    calc bitWidth (a ^ n) ≤ bitWidth a * n := bitWidth_pow_le a hn
      _ < maxBigintBits + n := by omega

/-- A logarithm that is right but for a part in `2 ^ 40`. -/
def IsLog2At (log2 : ℕ → ℚ) (n : ℕ) : Prop :=
  |(log2 n : ℝ) - Real.logb 2 n| ≤ Real.logb 2 n * 2⁻¹ ^ 40

/-- The estimate by such a logarithm is off by less than one at the limit. -/
theorem estimate_near (log2 : ℕ → ℚ) {a : ℤ} (ha : bitWidth a ≤ 53) (hlog : IsLog2At log2 (max 1 a.natAbs)) (n : ℕ) :
    (estimate log2 a n < maxBigintBits → Real.logb 2 (max 1 a.natAbs : ℕ) * n < maxBigintBits + 1) ∧
      (maxBigintBits ≤ estimate log2 a n → (maxBigintBits : ℝ) - 1 ≤ Real.logb 2 (max 1 a.natAbs : ℕ) * n) := by
  have hlimit : ((maxBigintBits : ℕ) : ℚ) = 2 ^ 30 := by norm_num [maxBigintBits]
  have hlimit' : ((maxBigintBits : ℕ) : ℝ) = 2 ^ 30 := by norm_num [maxBigintBits]
  rw [estimate, log2Base, if_pos ha, hlimit, hlimit']
  rw [IsLog2At, abs_sub_le_iff] at hlog
  have hone : 1 ≤ max 1 a.natAbs := le_max_left 1 _
  generalize max 1 a.natAbs = m at hlog hone ⊢
  have hn : (0 : ℝ) ≤ n := Nat.cast_nonneg n
  have hhigh := mul_le_mul_of_nonneg_right hlog.1 hn
  have hlow := mul_le_mul_of_nonneg_right hlog.2 hn
  have hpos : 0 ≤ Real.logb 2 m * n := mul_nonneg (Real.logb_nonneg (by norm_num) (by exact_mod_cast hone)) hn
  have hest : (((log2 m * n : ℚ)) : ℝ) = log2 m * n := by push_cast; rfl
  rw [sub_mul, ← hest, mul_right_comm] at hhigh hlow
  generalize Real.logb 2 m * n = x at hhigh hlow hpos ⊢
  generalize log2 m * n = q at hhigh hlow ⊢
  norm_num at hhigh hlow
  have hsign : (0 : ℝ) ≤ q := by linarith
  constructor
  · intro h
    have hq : q < 2 ^ 30 := not_le.mp fun hle => absurd (two_pow_le_roundMagnitude hle) (not_le.mpr h)
    have hcast : (q : ℝ) < ((2 ^ 30 : ℚ) : ℝ) := Rat.cast_lt.mpr hq
    norm_num at hcast ⊢
    linarith
  · intro h
    have hlarge : 1 / 2 ≤ q := by
      by_contra hsmall
      have hnonneg : 0 ≤ q := by exact_mod_cast hsign
      have hround := roundMagnitude_le hnonneg (by linarith)
      linarith
    have hround : roundMagnitude q ≤ q + q * 2⁻¹ ^ 52 := by linarith [(abs_sub_le_iff.mp (roundMagnitude_near hlarge)).1]
    have hcast : ((2 ^ 30 : ℚ) : ℝ) ≤ ((q + q * 2⁻¹ ^ 52 : ℚ) : ℝ) := Rat.cast_le.mpr (h.trans hround)
    norm_num at hcast ⊢
    linarith

/-- A power of a base that is a double, by an estimate below the limit and by one that reaches it. -/
theorem bitWidth_pow_of_narrow (log2 : ℕ → ℚ) {a : ℤ} (ha : bitWidth a ≤ 53) (hlog : IsLog2At log2 (max 1 a.natAbs))
    (n : ℕ) :
    (estimate log2 a n < maxBigintBits → bitWidth (a ^ n) ≤ maxBigintBits + 1) ∧
      (maxBigintBits ≤ estimate log2 a n → maxBigintBits ≤ bitWidth (a ^ n)) := by
  obtain ⟨hbelow, hreached⟩ := estimate_near log2 ha hlog n
  rcases eq_or_ne a 0 with rfl | hne
  · constructor
    · intro
      rcases Nat.eq_zero_or_pos n with rfl | hn
      · rw [pow_zero]
        decide
      · rw [zero_pow hn.ne']
        exact Nat.zero_le _
    · intro h
      have hone := hreached h
      norm_num [maxBigintBits] at hone
  · have hbase : max 1 a.natAbs = a.natAbs := max_eq_right (Int.natAbs_pos.mpr hne)
    rw [hbase] at hbelow hreached
    rw [bitWidth_pow_eq hne]
    constructor
    · intro h
      have hfloor : ⌊Real.logb 2 a.natAbs * n⌋₊ < maxBigintBits + 1 := by
        rw [Nat.floor_lt' (by omega)]
        exact_mod_cast hbelow h
      omega
    · intro h
      have hfloor : maxBigintBits - 1 ≤ ⌊Real.logb 2 a.natAbs * n⌋₊ := by
        refine Nat.le_floor ?_
        rw [Nat.cast_sub (by decide)]
        exact_mod_cast hreached h
      omega

/-- A product and a power are exact, and a product is not too wide. A product that is refused is as wide as the
limit or wider, but where a factor is zero. A power of a base that is a double is one bit too wide at most, and as
wide as the limit where it is refused; of any other base, it is wider than the limit by less than the exponent,
which is less than a part in 53 of it, and is too wide where it is refused. No power is taken to a negative
exponent or one of more than 32 bits. -/
theorem bigint_products (log2 : ℕ → ℚ) (a b : ℤ) (hlog : bitWidth a ≤ 53 → IsLog2At log2 (max 1 a.natAbs)) :
    (∀ c, bigintMul a b = some c → c = a * b ∧ bitWidth c ≤ maxBigintBits) ∧
      (bigintMul a b = none → maxBigintBits < bitWidth a + bitWidth b ∧
        (a ≠ 0 → b ≠ 0 → maxBigintBits ≤ bitWidth (a * b))) ∧
      (∀ c, bigintPow log2 a b = some c → 0 ≤ b ∧ b ≤ 0xFFFFFFFF ∧ c = a ^ b.toNat ∧
        if bitWidth a ≤ 53 then bitWidth c ≤ maxBigintBits + 1
        else bitWidth c < maxBigintBits + b.toNat ∧ 53 * b.toNat < maxBigintBits) ∧
      (bigintPow log2 a b = none → b < 0 ∨ 0xFFFFFFFF < b ∨
        if bitWidth a ≤ 53 then maxBigintBits ≤ bitWidth (a ^ b.toNat)
        else maxBigintBits < bitWidth (a ^ b.toNat)) := by
  refine ⟨?_, ?_, ?_, ?_⟩
  · intro c h
    obtain ⟨hwidth, rfl⟩ := bigintMul_eq_some_iff.mp h
    exact ⟨rfl, (bitWidth_mul_le a b).trans hwidth⟩
  · intro h
    have hwide := bigintMul_eq_none_iff.mp h
    refine ⟨hwide, fun ha hb => ?_⟩
    have := le_bitWidth_mul ha hb
    omega
  · intro c h
    obtain ⟨n, rfl⟩ := Int.eq_ofNat_of_zero_le (bigintPow_nonneg h)
    obtain ⟨⟨hn, hestimate⟩, rfl⟩ := bigintPow_eq_some_iff.mp h
    refine ⟨Int.natCast_nonneg n, by omega, rfl, ?_⟩
    split_ifs with hnarrow
    · exact (bitWidth_pow_of_narrow log2 hnarrow (hlog hnarrow) n).1 hestimate
    · exact bitWidth_pow_lt_of_wide (not_le.mp hnarrow) ((estimate_lt_iff_of_wide log2 (not_le.mp hnarrow) n).mp hestimate)
  · intro h
    by_cases hneg : b < 0
    · exact .inl hneg
    obtain ⟨n, rfl⟩ := Int.eq_ofNat_of_zero_le (not_lt.mp hneg)
    refine .inr (or_iff_not_imp_left.mpr fun hn => ?_)
    have hestimate : maxBigintBits ≤ estimate log2 a n := bigintPow_eq_none_iff.mp h (by omega)
    rw [Int.toNat_natCast]
    split_ifs with hnarrow
    · exact (bitWidth_pow_of_narrow log2 hnarrow (hlog hnarrow) n).2 hestimate
    · have hwide := mt (estimate_lt_iff_of_wide log2 (not_le.mp hnarrow) n).mpr (not_lt.mpr hestimate)
      have hne : a ≠ 0 := by
        rintro rfl
        exact hnarrow (Nat.zero_le _)
      exact lt_of_le_of_lt (not_lt.mp hwide) (lt_bitWidth_pow hne n)

theorem bigint_products_two :
    (∀ c, bigintMul 2 3 = some c → c = 2 * 3 ∧ bitWidth c ≤ maxBigintBits) ∧
      (∀ c, bigintPow (fun n => (n.log2 : ℚ)) 2 3 = some c → 0 ≤ (3 : ℤ) ∧ (3 : ℤ) ≤ 0xFFFFFFFF ∧
        c = 2 ^ (3 : ℤ).toNat ∧ if bitWidth 2 ≤ 53 then bitWidth c ≤ maxBigintBits + 1
        else bitWidth c < maxBigintBits + (3 : ℤ).toNat ∧ 53 * (3 : ℤ).toNat < maxBigintBits) := by
  have hlog : IsLog2At (fun n => (n.log2 : ℚ)) 2 := by
    have hbase : Nat.log2 2 = 1 := by decide
    have hreal : Real.logb 2 ((2 : ℕ) : ℝ) = 1 := by
      rw [Nat.cast_ofNat]
      exact Real.logb_self_eq_one (by norm_num)
    rw [IsLog2At, hreal, hbase]
    norm_num
  obtain ⟨hmul, -, hpow, -⟩ := bigint_products (fun n => (n.log2 : ℚ)) 2 3 fun _ => hlog
  exact ⟨hmul, hpow⟩

/-- A product of the width of the limit is refused, and so is a power of one; and a power of `3 * 2 ^ 53`
is wider than the limit. -/
theorem products_past_limit :
    (bigintMul (2 ^ 2 ^ 29) (2 ^ (2 ^ 29 - 1)) = none ∧ bitWidth (2 ^ 2 ^ 29 * 2 ^ (2 ^ 29 - 1)) ≤ maxBigintBits) ∧
      (bigintPow (fun n => (n.log2 : ℚ)) 1 (2 ^ 32 : ℕ) = none ∧ bitWidth (1 ^ 2 ^ 32) ≤ maxBigintBits) ∧
      bigintPow (fun n => (n.log2 : ℚ)) (3 * 2 ^ 53) (2 * 9900000 : ℕ) = some ((3 * 2 ^ 53) ^ (2 * 9900000)) ∧
        maxBigintBits < bitWidth ((3 * 2 ^ 53) ^ (2 * 9900000)) := by
  have hbase : bitWidth (3 * 2 ^ 53) = 55 := by decide
  have hsquare : bitWidth ((3 * 2 ^ 53) ^ 2) = 110 := by decide
  refine ⟨⟨?_, ?_⟩, ⟨?_, ?_⟩, ?_, ?_⟩
  · rw [bigintMul_eq_none_iff, bitWidth_two_pow, bitWidth_two_pow]
    norm_num [maxBigintBits]
  · rw [← pow_add, bitWidth_two_pow]
    norm_num [maxBigintBits]
  · rw [bigintPow_eq_none_iff]
    norm_num
  · rw [one_pow]
    decide
  · have hwide : 53 < bitWidth (3 * 2 ^ 53) := by
      rw [hbase]
      norm_num
    rw [bigintPow_eq_some_iff, estimate_lt_iff_of_wide _ hwide, hbase]
    exact ⟨⟨by norm_num, by norm_num [maxBigintBits]⟩, rfl⟩
  · rw [pow_mul]
    refine lt_trans ?_ (lt_bitWidth_pow (by norm_num) 9900000)
    rw [hsquare]
    norm_num [maxBigintBits]

end CtBrowser.Script.BigInt
