import CtBrowser.Shell.Net.Url.Punycode

/-!
# The numbers of Punycode

A delta is written in digits of 36 whose thresholds end it. Its digits are read back as the delta,
added to where the decoder stands, exactly when the sum fits into 32 bits; and what is read in small
letters is written that way.

## Main results

- `adapt_le` — no bias is so large that the decoder's check of a weight refuses a number that fits.
- `decodeDigits_encodeDigits` — the digits of a delta are read back as it, or refused.
- `eq_encodeDigits` — the digits that are read are those of the delta.
-/

namespace CtBrowser.Shell.Url

namespace Punycode

/-! ## Digits -/

theorem digitValue_digit : ∀ d < base, digitValue (digit d) = d := by decide

/-- A byte that is no capital letter. -/
def NoCapital (c : UInt8) : Prop := ¬ ('A'.toNat ≤ c.toNat ∧ c.toNat ≤ 'Z'.toNat)

instance (c : UInt8) : Decidable (NoCapital c) := inferInstanceAs (Decidable (¬ _))

theorem digit_plain : ∀ d < base, NoCapital (digit d) ∧ digit d ≠ byte '-'.toNat ∧ (digit d).toNat < 0x80 := by
  decide

theorem digit_digitValue {c : UInt8} (hcapital : NoCapital c) (h : digitValue c < base) : digit (digitValue c) = c := by
  have hbyte : byte c.toNat = c := UInt8.ofNat_toNat
  rw [NoCapital] at hcapital
  rw [digitValue] at h ⊢
  split_ifs at h ⊢ with hsmall hdecimal
  · have hz : 'z'.toNat = 'a'.toNat + 25 := rfl
    rw [digit, if_pos (by omega), Nat.add_sub_cancel' hsmall.1, hbyte]
  · have hnine : '9'.toNat = '0'.toNat + 9 := rfl
    rw [digit, if_neg (by omega), Nat.add_sub_cancel, Nat.add_sub_cancel' hdecimal.1, hbyte]
  · exact absurd h (lt_irrefl base)

/-! ## The bias -/

theorem adaptLoop_le {delta k : ℕ} (j : ℕ) (h : delta < 456 * 35 ^ j) : adaptLoop delta k ≤ k + 36 * j + 35 := by
  have hlast : ∀ delta k : ℕ, k + 36 * delta / (delta + 38) ≤ k + 35 := fun delta k => by
    have : 36 * delta / (delta + 38) < 36 := Nat.div_lt_of_lt_mul (by omega)
    omega
  induction j generalizing delta k with
  | zero =>
    rw [adaptLoop, if_neg (by omega)]
    exact hlast delta k
  | succ j ih =>
    rw [adaptLoop]
    split_ifs
    · refine (ih ?_).trans (by rw [base]; omega)
      rw [pow_succ] at h
      omega
    · exact (hlast delta k).trans (by omega)

/-- The biases of 32-bit deltas are small. -/
theorem adapt_le {delta points : ℕ} (h : delta ≤ maxWord) (first : Bool) : adapt delta points first ≤ 226 := by
  rw [maxWord] at h
  rw [adapt]
  have hhalf : (if first = true then delta / 700 else delta / 2) ≤ delta / 2 := by
    split_ifs
    · omega
    · exact le_rfl
  have hshare := Nat.div_le_self (if first = true then delta / 700 else delta / 2) points
  exact (adaptLoop_le 5 (by omega)).trans (by norm_num)

/-! ## Writing and reading -/

theorem base_sub_threshold_pos (k bias : ℕ) : 0 < base - threshold k bias := by
  have := threshold_bounds k bias
  rw [base]
  omega

theorem digits_sum {q k bias : ℕ} (h : threshold k bias ≤ q) :
    threshold k bias + (q - threshold k bias) % (base - threshold k bias) +
      (q - threshold k bias) / (base - threshold k bias) * (base - threshold k bias) = q := by
  have := Nat.mod_add_div' (q - threshold k bias) (base - threshold k bias)
  omega

theorem encodeDigits_ne_nil (q k bias : ℕ) : encodeDigits q k bias ≠ [] := by
  rw [encodeDigits]
  split_ifs <;> exact List.cons_ne_nil _ _

theorem mem_encodeDigits {q k bias : ℕ} {c : UInt8} (h : c ∈ encodeDigits q k bias) : ∃ d < base, c = digit d := by
  induction q, k using encodeDigits.induct bias with
  | case1 q k hlt =>
    rw [encodeDigits, if_pos hlt] at h
    exact ⟨q, hlt.trans_le ((threshold_bounds k bias).2.trans (by decide)), List.mem_singleton.mp h⟩
  | case2 q k hge ih =>
    rw [encodeDigits, if_neg hge] at h
    rcases List.mem_cons.mp h with rfl | h
    · have hmod := Nat.mod_lt (q - threshold k bias) (base_sub_threshold_pos k bias)
      exact ⟨_, by omega, rfl⟩
    · exact ih h

theorem weight_fits {j w k bias d : ℕ} (hbias : bias ≤ 226) (hw : w ≤ 35 ^ j) (hk : k = base * (j + 1))
    (hd : threshold k bias ≤ d) (hfits : d * w ≤ maxWord) : w ≤ maxWord / (base - threshold k bias) := by
  have hpos := base_sub_threshold_pos k bias
  rw [Nat.le_div_iff_mul_le hpos]
  rw [maxWord] at hfits ⊢
  rw [base] at *
  rcases Nat.lt_or_ge j 6 with hj | hj
  · have hpow : w ≤ 35 ^ 5 := hw.trans (Nat.pow_le_pow_right (by norm_num) (by omega))
    have hthreshold := threshold_bounds k bias
    calc w * (36 - threshold k bias) ≤ 35 ^ 5 * 35 := Nat.mul_le_mul hpow (by omega)
      _ ≤ 0xFFFFFFFF := by norm_num
  · have hlast : threshold k bias = 26 := by
      rw [threshold, if_neg (by omega), if_pos (by omega)]
    rw [hlast] at hd ⊢
    calc w * (36 - 26) = 10 * w := by ring
      _ ≤ d * w := Nat.mul_le_mul_right w (by omega)
      _ ≤ 0xFFFFFFFF := hfits

theorem digit_refused {i w d : ℕ} (hpos : 0 < w) (hi : i ≤ maxWord) : (maxWord - i) / w < d ↔ maxWord < i + d * w := by
  rw [Nat.div_lt_iff_lt_mul hpos]
  omega

/-- The digits of a delta from some weight on, read back. -/
theorem decodeDigits_encodeDigits_weight {j w i q k bias : ℕ} (hbias : bias ≤ 226) (hpos : 0 < w) (hw : w ≤ 35 ^ j)
    (hk : k = base * (j + 1)) (hi : i ≤ maxWord) (rest : Text) :
    decodeDigits bias i w k (encodeDigits q k bias ++ rest) =
      if i + q * w ≤ maxWord then some (i + q * w, rest) else none := by
  induction q, k using encodeDigits.induct bias generalizing j w i with
  | case1 q k hlt =>
    have hq : q < base := hlt.trans_le ((threshold_bounds k bias).2.trans (by decide))
    rw [encodeDigits, if_pos hlt, List.singleton_append, decodeDigits, digitValue_digit q hq,
      if_neg hq.not_ge]
    by_cases h : (maxWord - i) / w < q
    · rw [if_pos h, if_neg ((digit_refused hpos hi).mp h).not_ge]
    · rw [if_neg h, if_pos hlt, if_pos (not_lt.mp ((digit_refused hpos hi).not.mp h))]
  | case2 q k hge ih =>
    have hmod := Nat.mod_lt (q - threshold k bias) (base_sub_threshold_pos k bias)
    have hsum := digits_sum (not_lt.mp hge)
    set d := threshold k bias + (q - threshold k bias) % (base - threshold k bias) with hd
    set more := (q - threshold k bias) / (base - threshold k bias)
    have hdb : d < base := by omega
    have htotal : i + q * w = i + d * w + more * (w * (base - threshold k bias)) := by
      rw [← hsum]
      ring
    rw [encodeDigits, if_neg hge, List.cons_append, decodeDigits, digitValue_digit d hdb,
      if_neg hdb.not_ge]
    by_cases h : (maxWord - i) / w < d
    · have hlarge := (digit_refused hpos hi).mp h
      rw [if_pos h, htotal, if_neg (by omega)]
    · have hdfits := not_lt.mp ((digit_refused hpos hi).not.mp h)
      have hweight := weight_fits hbias hw hk (Nat.le_add_right _ _) ((Nat.le_add_left _ i).trans hdfits)
      have hnextpos : 0 < w * (base - threshold k bias) := Nat.mul_pos hpos (base_sub_threshold_pos k bias)
      rw [if_neg h, if_neg (by omega), if_neg hweight.not_gt, htotal]
      refine ih hnextpos ?_ (by rw [hk]; ring : k + base = base * (j + 1 + 1)) hdfits
      have hthreshold := (threshold_bounds k bias).1
      exact Nat.mul_le_mul hw (by rw [base]; omega)

/-- The digits of a delta are read back as it, when where it leads to fits. -/
theorem decodeDigits_encodeDigits {i bias : ℕ} (hbias : bias ≤ 226) (hi : i ≤ maxWord) (q : ℕ) (rest : Text) :
    decodeDigits bias i 1 base (encodeDigits q base bias ++ rest) =
      if i + q ≤ maxWord then some (i + q, rest) else none := by
  have h := decodeDigits_encodeDigits_weight (j := 0) (q := q) hbias one_pos le_rfl (mul_one base).symm hi rest
  rwa [Nat.mul_one] at h

/-- What is read is a delta, and its digits. -/
theorem eq_encodeDigits {bias i w k : ℕ} {text : Text} {r : ℕ × Text} (hcapital : ∀ c ∈ text, NoCapital c)
    (hpos : 0 < w) (hi : i ≤ maxWord) (h : decodeDigits bias i w k text = some r) :
    ∃ q, text = encodeDigits q k bias ++ r.2 ∧ r.1 = i + q * w ∧ r.1 ≤ maxWord := by
  induction text generalizing i w k with
  | nil => cases h
  | cons c text ih =>
    obtain ⟨hc, hcapital⟩ := List.forall_mem_cons.mp hcapital
    rw [decodeDigits] at h
    split_ifs at h with hd hrefused hlt hweight
    -- the last digit
    · cases h
      have hlast := not_lt.mp ((digit_refused hpos hi).not.mp hrefused)
      refine ⟨digitValue c, ?_, rfl, hlast⟩
      rw [encodeDigits, if_pos hlt, digit_digitValue hc (not_le.mp hd), List.singleton_append]
    -- one more digit, and what is read after it
    · have hfits := not_lt.mp ((digit_refused hpos hi).not.mp hrefused)
      have hbase := base_sub_threshold_pos k bias
      obtain ⟨q, htext, hr, hle⟩ := ih hcapital (Nat.mul_pos hpos hbase) hfits h
      have hrem : digitValue c - threshold k bias < base - threshold k bias := by omega
      refine ⟨digitValue c + q * (base - threshold k bias), ?_, by rw [hr]; ring, hle⟩
      have hsub : digitValue c + q * (base - threshold k bias) - threshold k bias =
          digitValue c - threshold k bias + q * (base - threshold k bias) := by omega
      rw [encodeDigits, if_neg (by omega), hsub, Nat.add_mul_mod_self_right, Nat.mod_eq_of_lt hrem,
        Nat.add_mul_div_right _ _ hbase, Nat.div_eq_of_lt hrem, Nat.zero_add, Nat.add_sub_cancel' (not_lt.mp hlt),
        digit_digitValue hc (not_le.mp hd), htext, List.cons_append]

end Punycode

end CtBrowser.Shell.Url
