import CtBrowser.Core.Double

/-!
# Arithmetic of doubles

Truncation, remainder, rounding to an integer, sum and order, as IEEE 754 and the C++ library define
them. Only a sum is rounded; the others are exact.

## Main definitions

- `Double.value`, `Double.ofValue` — a finite Number and its value.
- `Double.extended` — the value with the infinities.
- `Double.trunc`, `Double.fmod`, `Double.nearbyint`, `Double.plus`, `Double.lt`,
  `Double.le`, `Double.eq`.

## Main results

- `Double.plus_eq_ofValue` — a sum that is an integer of 53 bits is exact.
- `Double.lt_iff`, `Double.eq_iff` — the order and equality of values.
- `Double.fmod_trunc` — the remainder of a truncated Number is that of integers.
-/

namespace CtBrowser

/-- The integer that is left when the fraction is cut off. -/
def truncate (q : ℚ) : ℤ := if 0 ≤ q then ⌊q⌋ else ⌈q⌉

namespace Double

/-! ## Operations -/

/-- The value of a finite Number. -/
def value (negative : Bool) (magnitude : ℚ) : ℚ := if negative then -magnitude else magnitude

/-- The sign of a finite Number; that of one that is not zero is the sign of its value. -/
def signBit (negative : Bool) (magnitude : ℚ) : Bool :=
  if value negative magnitude = 0 then negative else decide (value negative magnitude < 0)

/-- The Number of a value that has one, a zero with the sign that is given. -/
def ofValue (negative : Bool) (x : ℚ) : Double := finite (if x = 0 then negative else decide (x < 0)) |x|

def isFinite : Double → Bool
  | finite .. => true
  | _ => false

/-- The integral part. -/
def trunc : Double → Double
  | finite n q => ofValue (signBit n q) (truncate (value n q))
  | v => v

/-- The remainder, of the sign of the dividend. -/
def fmod : Double → ℚ → Double
  | finite n q, m => ofValue (signBit n q) (value n q - m * truncate (value n q / m))
  | _, _ => nan

/-- The nearest integer, the even one of two. -/
def nearbyint : Double → Double
  | finite n q => ofValue (signBit n q) (roundHalfEven (value n q))
  | v => v

/-- The sum, rounded. -/
def plus : Double → Double → Double
  | finite n q, finite n' q' =>
    let x := value n q + value n' q'
    if x = 0 then finite (n && n') 0 else nearest (decide (x < 0)) |x|
  | nan, _ => nan
  | _, nan => nan
  | infinity n, infinity n' => if n = n' then infinity n else nan
  | infinity n, finite .. => infinity n
  | finite .., infinity n => infinity n

/-- Whether one is less than the other; no NaN is. -/
def lt : Double → Double → Bool
  | nan, _ => false
  | _, nan => false
  | infinity n, infinity n' => n && !n'
  | infinity n, finite .. => n
  | finite .., infinity n => !n
  | finite n q, finite n' q' => decide (value n q < value n' q')

/-- Whether one is at most the other; no NaN is. -/
def le : Double → Double → Bool
  | nan, _ => false
  | _, nan => false
  | infinity n, infinity n' => n || !n'
  | infinity n, finite .. => n
  | finite .., infinity n => !n
  | finite n q, finite n' q' => decide (value n q ≤ value n' q')

/-- Equality; the two zeros are equal, and no NaN is equal to anything. -/
def eq : Double → Double → Bool
  | nan, _ => false
  | _, nan => false
  | infinity n, infinity n' => n == n'
  | finite n q, finite n' q' => decide (value n q = value n' q')
  | _, _ => false

/-- The value with the infinities; a NaN has none. -/
def extended : Double → Option (WithBot (WithTop ℚ))
  | nan => none
  | infinity n => some (if n then ⊥ else ⊤)
  | finite n q => some ((value n q : WithTop ℚ) : WithBot (WithTop ℚ))

/-! ## Values -/

@[simp]
theorem value_ofValue (n : Bool) (x : ℚ) : value (if x = 0 then n else decide (x < 0)) |x| = x := by
  rw [value]
  by_cases hzero : x = 0
  · rw [hzero, abs_zero, neg_zero, ite_self]
  · rw [if_neg hzero]
    by_cases hneg : x < 0
    · rw [if_pos (decide_eq_true hneg), abs_of_neg hneg, neg_neg]
    · rw [if_neg (by simpa using hneg), abs_of_nonneg (not_lt.mp hneg)]

theorem ofValue_of_pos {x : ℚ} (h : 0 < x) (n : Bool) : ofValue n x = finite false x := by
  rw [ofValue, if_neg h.ne', decide_eq_false (not_lt.mpr h.le), abs_of_pos h]

theorem ofValue_of_nonneg {x : ℚ} (h : 0 ≤ x) : ofValue false x = finite false x := by
  rcases h.eq_or_lt with rfl | hpos
  · rw [ofValue, if_pos rfl, abs_zero]
  · exact ofValue_of_pos hpos false

theorem ofValue_of_ne {x : ℚ} (h : x ≠ 0) (n n' : Bool) : ofValue n x = ofValue n' x := by
  rw [ofValue, ofValue, if_neg h, if_neg h]

theorem nearest_natCast (n : Bool) {k : ℕ} (hk : k < 2 ^ 53) : nearest n k = finite n k := by
  have hsmall : ¬ Overflows k := by
    rw [Overflows, roundMagnitude_natCast hk, not_le]
    calc ((k : ℕ) : ℚ) < 2 ^ 53 := by exact_mod_cast hk
      _ ≤ 2 ^ 1024 := pow_le_pow_right₀ one_le_two (by norm_num)
  rw [nearest, if_neg hsmall, roundMagnitude_natCast hk]

theorem signBit_eq_false {n : Bool} {q : ℚ} (h : 0 ≤ value n q) (hn : value n q = 0 → n = false) :
    signBit n q = false := by
  rw [signBit]
  split_ifs with hzero
  · exact hn hzero
  · exact decide_eq_false (not_lt.mpr h)

theorem plus_eq_ofValue {n n' : Bool} {q q' : ℚ} {k : ℤ} (h : value n q + value n' q' = k) (hk : |k| < 2 ^ 53) :
    plus (finite n q) (finite n' q') = ofValue (n && n') k := by
  rw [plus, h]
  by_cases hzero : (k : ℚ) = 0
  · rw [if_pos hzero, hzero, ofValue, if_pos rfl, abs_zero]
  · have hnat : |(k : ℚ)| = (k.natAbs : ℕ) := by rw [Nat.cast_natAbs, Int.cast_abs]
    have hsmall : k.natAbs < 2 ^ 53 := by
      rw [Int.abs_eq_natAbs] at hk
      exact_mod_cast hk
    rw [if_neg hzero, ofValue, if_neg hzero, hnat, nearest_natCast _ hsmall]

/-! ## Integers -/

@[simp]
theorem truncate_intCast (k : ℤ) : truncate k = k := by
  rw [truncate, Int.floor_intCast, Int.ceil_intCast, ite_self]

theorem truncate_div (t : ℤ) (m : ℕ) : truncate ((t : ℚ) / m) = t.tdiv m := by
  rcases Int.lt_or_le t 0 with hneg | hpos
  · obtain ⟨k, hk⟩ := Int.eq_ofNat_of_zero_le (by omega : 0 ≤ -t)
    obtain rfl : t = -k := by omega
    rw [Int.neg_tdiv]
    have hceil : ⌈((-(k : ℤ) : ℤ) : ℚ) / m⌉ = -((k : ℤ) / m) := by
      rw [Int.cast_neg, neg_div, Int.ceil_neg, Rat.floor_intCast_div_natCast]
    have hdiv : (k : ℤ).tdiv m = k / m := Int.tdiv_eq_ediv_of_nonneg (by omega)
    rw [hdiv, truncate, hceil]
    split_ifs with h
    · -- the quotient is zero
      have hq : ((-(k : ℤ) : ℤ) : ℚ) / m = 0 := by
        refine le_antisymm ?_ h
        have hk : ((-(k : ℤ) : ℤ) : ℚ) ≤ 0 := by exact_mod_cast (by omega : (-(k : ℤ)) ≤ 0)
        exact div_nonpos_of_nonpos_of_nonneg hk (Nat.cast_nonneg m)
      rw [hq, Int.ceil_zero] at hceil
      rw [hq, Int.floor_zero, hceil]
    · rfl
  · rw [truncate, if_pos (div_nonneg (by exact_mod_cast hpos) (Nat.cast_nonneg m)), Rat.floor_intCast_div_natCast,
      Int.tdiv_eq_ediv_of_nonneg hpos]

theorem fmod_trunc (n : Bool) (q : ℚ) (m : ℕ) : ∃ s, fmod (trunc (finite n q)) m =
    ofValue s ((truncate (value n q)).tmod m : ℤ) := by
  have hfmod (s : Bool) (t : ℤ) : ∃ s', fmod (ofValue s t) m = ofValue s' (t.tmod m : ℤ) := by
    refine ⟨signBit (if (t : ℚ) = 0 then s else decide ((t : ℚ) < 0)) |(t : ℚ)|, ?_⟩
    rw [ofValue, fmod, value_ofValue, truncate_div, Int.tmod_def]
    push_cast
    rfl
  exact hfmod _ _

/-! ## The order of values -/

@[simp]
theorem nan_eq (y : Double) : nan.eq y = false := rfl

@[simp]
theorem eq_nan (x : Double) : x.eq nan = false := by
  cases x <;> rfl

theorem eq_comm (x y : Double) : x.eq y = y.eq x := by
  cases x <;> cases y <;> simp only [eq]
  · exact BEq.comm
  · exact decide_eq_decide.mpr ⟨Eq.symm, Eq.symm⟩

theorem extended_eq_none_iff {x : Double} : extended x = none ↔ x = nan := by
  cases x <;> simp [extended]

theorem coe_lt_top (q : ℚ) : ((q : WithTop ℚ) : WithBot (WithTop ℚ)) < ((⊤ : WithTop ℚ) : WithBot (WithTop ℚ)) :=
  WithBot.coe_lt_coe.mpr (WithTop.coe_lt_top q)

theorem lt_iff {x y : Double} {a b : WithBot (WithTop ℚ)} (hx : extended x = some a) (hy : extended y = some b) :
    x.lt y = true ↔ a < b := by
  cases x with
  | nan => cases hx
  | infinity n =>
    cases y with
    | nan => cases hy
    | infinity n' =>
      cases hx
      cases hy
      cases n <;> cases n' <;> simp [lt]
    | finite n' q' =>
      cases hx
      cases hy
      cases n
      · exact iff_of_false (by simp [lt]) (not_lt.mpr (coe_lt_top _).le)
      · exact iff_of_true rfl (WithBot.bot_lt_coe _)
  | finite n q =>
    cases y with
    | nan => cases hy
    | infinity n' =>
      cases hx
      cases hy
      cases n'
      · exact iff_of_true rfl (coe_lt_top _)
      · exact iff_of_false (by simp [lt]) not_lt_bot
    | finite n' q' =>
      cases hx
      cases hy
      rw [lt, decide_eq_true_eq]
      exact (WithBot.coe_lt_coe.trans WithTop.coe_lt_coe).symm

theorem eq_iff {x y : Double} {a b : WithBot (WithTop ℚ)} (hx : extended x = some a) (hy : extended y = some b) :
    x.eq y = true ↔ a = b := by
  cases x with
  | nan => cases hx
  | infinity n =>
    cases y with
    | nan => cases hy
    | infinity n' =>
      cases hx
      cases hy
      cases n <;> cases n' <;> simp [eq]
    | finite n' q' =>
      cases hx
      cases hy
      cases n
      · exact iff_of_false (by simp [eq]) (coe_lt_top _).ne'
      · exact iff_of_false (by simp [eq]) (WithBot.bot_lt_coe _).ne
  | finite n q =>
    cases y with
    | nan => cases hy
    | infinity n' =>
      cases hx
      cases hy
      cases n'
      · exact iff_of_false (by simp [eq]) (coe_lt_top _).ne
      · exact iff_of_false (by simp [eq]) (WithBot.bot_lt_coe _).ne'
    | finite n' q' =>
      cases hx
      cases hy
      rw [eq, decide_eq_true_eq]
      exact (WithBot.coe_inj.trans WithTop.coe_inj).symm

end Double

end CtBrowser
