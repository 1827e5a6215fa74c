import CtBrowser.Core.NumberReading

/-!
# The estimated order of a literal

The engine estimates whether a literal that is out of the range is too large or too small from its
digits and its exponent, in an `int`. The estimate is the order when nothing leaves the range of that.

## Main results

- `estimatedOrder_text`, `not_misestimated`.
-/

namespace CtBrowser.NumberFormat
open DecimalLiteral
variable {lit : DecimalLiteral}

theorem int32_eq_self {n : ℤ} (h : -2 ^ 31 ≤ n ∧ n < 2 ^ 31) : int32 n = n :=
  Int.bmod_eq_of_le (by omega) (by omega)

/-- The exponent of a literal as the library reads it. -/
theorem intFromChars_exponent (e : DecimalExponent) (h : -2 ^ 31 ≤ e.value ∧ e.value < 2 ^ 31) :
    intFromChars (if (signText e.minus ++ e.digits).head? = some 0x2B then (signText e.minus ++ e.digits).tail
      else signText e.minus ++ e.digits) = e.value := by
  have hdigits : leadingDigits e.digits = e.digits := by
    have happ : leadingDigits (e.digits ++ []) = e.digits := (leadingDigits_append e.allDigits (by simp [NoDigit])).1
    rwa [List.append_nil] at happ
  obtain ⟨d, ds, hds⟩ := List.exists_cons_of_ne_nil e.someDigit
  have hd : isDecimalDigit d := e.allDigits d (by simp [hds])
  have hplus : d ≠ 0x2B := by
    rintro rfl
    exact absurd hd (by decide)
  have hminus : d ≠ 0x2D := by
    rintro rfl
    exact absurd hd (by decide)
  have hunsigned (hvalue : e.value = digitsValue e.digits) : intFromChars e.digits = e.value := by
    have hnegative : decide (e.digits.head? = some 0x2D) = false := by simp [hds, hminus]
    simp only [intFromChars, hnegative, Bool.false_eq_true, if_false, hdigits, ← hvalue]
    rw [if_pos h]
  rw [DecimalExponent.value] at h hunsigned ⊢
  rcases hsign : e.minus with _ | _ | _
  · simp only [hsign, signText, List.nil_append, hds, List.head?_cons, Option.some.injEq, hplus, if_false]
    rw [← hds]
    simpa [hsign] using hunsigned (by simp [hsign])
  · have htext : signText (some false) ++ e.digits = 0x2B :: e.digits := rfl
    simp only [htext, List.head?_cons, if_true, List.tail_cons]
    simpa [hsign] using hunsigned (by simp [hsign])
  · have htext : signText (some true) ++ e.digits = 0x2D :: e.digits := rfl
    have hne : ¬ ((0x2D : UInt8) = 0x2B) := by decide
    rw [hsign, if_pos rfl] at h
    simp only [htext, List.head?_cons, Option.some.injEq, hne, if_false, intFromChars, decide_true, if_true,
      List.tail_cons, hdigits]
    rw [if_pos h]

theorem dropWhile_fraction (lit : DecimalLiteral) :
    (fractionText lit.fraction ++ exponentText lit.exponent).dropWhile (fun c => c == point || isDecimalDigit c) =
      exponentText lit.exponent := by
  have hfraction : ∀ c ∈ fractionText lit.fraction, (c == point || isDecimalDigit c) = true := by
    intro c hc
    rcases hfrac : lit.fraction with _ | ds
    · simp [hfrac, fractionText] at hc
    · have hdigits := lit.fractionDigits
      rw [hfrac] at hc hdigits
      rcases (by simpa [fractionText] using hc : c = point ∨ c ∈ ds) with rfl | hc
      · rfl
      · simp [hdigits c hc]
  rw [List.dropWhile_append_of_pos hfraction]
  rcases hexp : lit.exponent with _ | e
  · rfl
  · have hletter : isExponentLetter e.letter := e.isLetter
    have hpoint : e.letter ≠ point := by
      intro heq
      rw [heq] at hletter
      exact absurd hletter (by decide)
    simp [exponentText, DecimalExponent.text, not_digit_of_letter hletter, hpoint]

theorem noDigit_fraction (lit : DecimalLiteral) : NoDigit (fractionText lit.fraction ++ exponentText lit.exponent) := by
  rcases hfrac : lit.fraction with _ | ds
  · rcases hexp : lit.exponent with _ | e
    · simp [NoDigit, fractionText, exponentText]
    · simp [NoDigit, fractionText, exponentText, DecimalExponent.text, not_digit_of_letter e.isLetter]
  · intro c hc
    obtain rfl : point = c := by simpa [fractionText] using hc
    rfl

/-- The estimate before the exponent is added. -/
theorem significand_estimate (lit : DecimalLiteral) (hne : lit.value ≠ 0) (hlen : lit.text.length < 2 ^ 31) :
    let text := lit.text.dropWhile (· = zeroDigit)
    afterDigits text = fractionText lit.fraction ++ exponentText lit.exponent ∧
      (if 0 < (leadingDigits text).length then int32 ((leadingDigits text).length - 1)
        else if (afterDigits text).head? = some point then
          int32 (-((afterDigits text).tail.takeWhile (· = zeroDigit)).length - 1)
        else 0) = significandOrder lit.whole (lit.fraction.getD []) := by
  have hnoDigit := noDigit_fraction lit
  have hlong : lit.whole.length + (lit.fraction.getD []).length < 2 ^ 31 := by
    have hfraction : (lit.fraction.getD []).length ≤ (fractionText lit.fraction).length := by
      rcases lit.fraction with _ | ds <;> simp [fractionText]
    rw [text, List.length_append, List.length_append] at hlen
    omega
  by_cases hwhole : lit.whole.dropWhile (· = zeroDigit) = []
  · -- no digit but zeros before the point
    have hzeros : ∀ c ∈ lit.whole, decide (c = zeroDigit) = true := List.dropWhile_eq_nil_iff.mp hwhole
    have hdrop : lit.text.dropWhile (· = zeroDigit) = fractionText lit.fraction ++ exponentText lit.exponent := by
      rw [text, List.dropWhile_append_of_pos hzeros]
      rcases hrest : fractionText lit.fraction ++ exponentText lit.exponent with _ | ⟨c, rest⟩
      · rfl
      · have hc : isDecimalDigit c = false := hnoDigit c (by rw [hrest]; rfl)
        have hnotZero : ¬ c = zeroDigit := by
          rintro rfl
          exact absurd hc (by decide)
        simp [hnotZero]
    obtain ⟨ds, hfrac⟩ : ∃ ds, lit.fraction = some ds := by
      rcases hfrac : lit.fraction with _ | ds
      · refine absurd ?_ hne
        have hvalue : digitsValue lit.whole = 0 := digitsValue_zeros fun c hc => by simpa using hzeros c hc
        simp [value, hfrac, hvalue]
      · exact ⟨ds, rfl⟩
    have hnoDigits : ∀ c ∈ ([] : Text), isDecimalDigit c := by simp
    obtain ⟨hlead, hafter⟩ := leadingDigits_append hnoDigits hnoDigit
    rw [List.nil_append] at hlead hafter
    have hzeroCount : ((ds ++ exponentText lit.exponent).takeWhile (· = zeroDigit)).length =
        (ds.takeWhile (· = zeroDigit)).length := by
      have hnone : (exponentText lit.exponent).takeWhile (· = zeroDigit) = [] := by
        rcases hexp : lit.exponent with _ | e
        · rfl
        · have hnotZero : ¬ e.letter = zeroDigit := fun heq => absurd (heq ▸ e.isLetter) (by decide)
          simp [exponentText, DecimalExponent.text, hnotZero]
      rw [List.takeWhile_append, hnone, List.append_nil]
      split_ifs with hall
      · exact hall.symm
      · rfl
    have hle : (ds.takeWhile (· = zeroDigit)).length ≤ ds.length := (List.takeWhile_prefix _).length_le
    intro text
    simp only [text, hdrop, hlead, hafter, significandOrder, hwhole]
    rw [if_neg (by simp), if_pos (by simp [hfrac, fractionText]), if_pos trivial]
    refine ⟨trivial, ?_⟩
    simp only [hfrac, fractionText, Option.map_some, Option.getD_some, List.cons_append, List.tail_cons, hzeroCount]
    simp only [hfrac, Option.getD_some] at hlong
    exact int32_eq_self (by omega)
  · have hdrop : lit.text.dropWhile (· = zeroDigit) =
        lit.whole.dropWhile (· = zeroDigit) ++ (fractionText lit.fraction ++ exponentText lit.exponent) := by
      rw [text, List.dropWhile_append, if_neg (by simpa using hwhole)]
    have hdigits : ∀ c ∈ lit.whole.dropWhile (· = zeroDigit), isDecimalDigit c := fun c hc =>
      lit.wholeDigits c ((List.dropWhile_suffix _).subset hc)
    obtain ⟨hlead, hafter⟩ := leadingDigits_append hdigits hnoDigit
    have hpos : 0 < (lit.whole.dropWhile (· = zeroDigit)).length := List.length_pos_iff.mpr hwhole
    have hle : (lit.whole.dropWhile (· = zeroDigit)).length ≤ lit.whole.length := (List.dropWhile_suffix _).length_le
    intro text
    simp only [text, hdrop, hlead, hafter, significandOrder]
    rw [if_pos hpos, if_neg hwhole]
    exact ⟨trivial, int32_eq_self (by omega)⟩

/-- The order of a literal is estimated rightly when nothing leaves the range of an `int`. -/
theorem estimatedOrder_text (lit : DecimalLiteral) (hne : lit.value ≠ 0) (hlen : lit.text.length < 2 ^ 31)
    (hexp : -2 ^ 31 ≤ lit.exponentValue ∧ lit.exponentValue < 2 ^ 31) (horder : -2 ^ 31 ≤ lit.order ∧ lit.order < 2 ^ 31) :
    estimatedOrder lit.text = lit.order := by
  obtain ⟨hafter, hsignificand⟩ := significand_estimate lit hne hlen
  simp only [estimatedOrder, hsignificand]
  rw [hafter, dropWhile_fraction, order]
  rw [order] at horder
  rcases hexponent : lit.exponent with _ | e
  · simp [exponentText, exponentValue, hexponent]
  · have hvalue : lit.exponentValue = e.value := by simp [exponentValue, hexponent]
    rw [hvalue] at hexp horder ⊢
    simp only [exponentText, Option.map_some, Option.getD_some, DecimalExponent.text]
    rw [if_pos e.isLetter, intFromChars_exponent e hexp]
    exact int32_eq_self horder

theorem not_misestimated (lit : DecimalLiteral) (hlen : lit.text.length < 2 ^ 31)
    (hexp : -2 ^ 31 ≤ lit.exponentValue ∧ lit.exponentValue < 2 ^ 31) (horder : -2 ^ 31 ≤ lit.order ∧ lit.order < 2 ^ 31) :
    ¬ Misestimated lit.text lit := by
  rintro ⟨hrange, hwrong⟩
  have hne : lit.value ≠ 0 := by
    intro hzero
    rw [hzero] at hrange
    rcases hrange with hover | ⟨hne, -⟩
    · exact not_overflows le_rfl (by norm_num) hover
    · exact hne rfl
  exact hwrong (by rw [estimatedOrder_text lit hne hlen hexp horder])

end CtBrowser.NumberFormat
