import CtBrowser.Core.Text

/-!
# Reading UTF-8

What `decodeUtf8` makes of any bytes at all, and that it reads the bytes of a code point back. A
text falls into the sequences of its code points, and what follows some of them falls into the
rest.

## Main definitions

- `sequences` — the code points of a text, each with the number of bytes it took.

## Main results

- `decodeUtf8_appendUtf8` — a code point is read back, whatever follows it.
- `decodeUtf8_width` — how long a sequence is, and what it can stand for.
- `sequences_drop` — what comes after some code points of a text.
-/

namespace CtBrowser

/-! ## Bits -/

theorem shiftRight_shiftLeft_or (v : ℕ) : v >>> 6 <<< 6 ||| v &&& 0x3F = v := by
  have hlow : v &&& 0x3F = v % 2 ^ 6 := Nat.and_two_pow_sub_one_eq_mod v 6
  rw [hlow, Nat.shiftLeft_eq, Nat.shiftRight_eq_div_pow, mul_comm,
    ← Nat.two_pow_add_eq_or_of_lt (Nat.mod_lt v (by norm_num))]
  exact Nat.div_add_mod v (2 ^ 6)

theorem continuation_bits {x : ℕ} (hx : x < 64) : (byte (0x80 ||| x)).toNat &&& 0xC0 = 0x80 ∧
    (byte (0x80 ||| x)).toNat &&& 0x3F = x := by
  revert hx
  decide +revert

theorem and_lt_64 (v : ℕ) : v &&& 0x3F < 64 := Nat.and_lt_two_pow v (by norm_num : (0x3F : ℕ) < 2 ^ 6)

theorem continued_succ (built count x : ℕ) (hx : x < 64) (rest : Text) :
    continued built (count + 1) (byte (0x80 ||| x) :: rest) =
      continued (built <<< 6 ||| x) count rest := by
  obtain ⟨hmarked, hbits⟩ := continuation_bits hx
  rw [continued, if_pos hmarked, hbits]

/-! ## One code point -/

theorem lead_two {x : ℕ} (hx : x < 32) : ¬ (byte (0xC0 ||| x)).toNat < 0x80 ∧
    (byte (0xC0 ||| x)).toNat &&& 0xE0 = 0xC0 ∧ (byte (0xC0 ||| x)).toNat &&& 0x1F = x := by
  revert hx
  decide +revert

theorem lead_three {x : ℕ} (hx : x < 16) : ¬ (byte (0xE0 ||| x)).toNat < 0x80 ∧
    ¬ (byte (0xE0 ||| x)).toNat &&& 0xE0 = 0xC0 ∧ (byte (0xE0 ||| x)).toNat &&& 0xF0 = 0xE0 ∧
      (byte (0xE0 ||| x)).toNat &&& 0x0F = x := by
  revert hx
  decide +revert

theorem lead_four {x : ℕ} (hx : x < 8) : ¬ (byte (0xF0 ||| x)).toNat < 0x80 ∧
    ¬ (byte (0xF0 ||| x)).toNat &&& 0xE0 = 0xC0 ∧ ¬ (byte (0xF0 ||| x)).toNat &&& 0xF0 = 0xE0 ∧
      (byte (0xF0 ||| x)).toNat &&& 0xF8 = 0xF0 ∧ (byte (0xF0 ||| x)).toNat &&& 0x07 = x := by
  revert hx
  decide +revert

theorem shiftRight_lt {v k n : ℕ} (hv : v < n * 2 ^ k) : v >>> k < n := by
  rw [Nat.shiftRight_eq_div_pow]
  exact Nat.div_lt_of_lt_mul (by rwa [mul_comm])

/-- The bytes of a code point are read back as it, whatever follows them. -/
theorem decodeUtf8_appendUtf8 {v : ℕ} (hv : v < 0x200000) (rest : Text) :
    ∃ lead tail, appendUtf8 v = lead :: tail ∧
      decodeUtf8 lead (tail ++ rest) = (v, (appendUtf8 v).length) := by
  have hlow := and_lt_64 v
  have hlow' := and_lt_64 (v >>> 6)
  have hlow'' := and_lt_64 (v >>> 12)
  have hsix : ∀ w : ℕ, w >>> 6 >>> 6 = w >>> 12 := fun w => (Nat.shiftRight_add w 6 6).symm
  rw [appendUtf8]
  by_cases h₁ : v < 0x80
  · rw [if_pos h₁]
    refine ⟨_, _, rfl, ?_⟩
    rw [decodeUtf8, toNat_byte (by omega), if_pos h₁]
    rfl
  rw [if_neg h₁]
  by_cases h₂ : v < 0x800
  · rw [if_pos h₂]
    obtain ⟨hhigh, hmask, hbits⟩ := lead_two (shiftRight_lt (by norm_num; omega) : v >>> 6 < 32)
    have hread : continued (v >>> 6) 1 (byte (0x80 ||| v &&& 0x3F) :: rest) = some v := by
      rw [continued_succ _ 0 _ hlow, shiftRight_shiftLeft_or]
      rfl
    refine ⟨_, _, rfl, ?_⟩
    rw [decodeUtf8, if_neg hhigh, if_pos hmask, hbits]
    dsimp only [List.cons_append, List.nil_append]
    rw [hread]
    rfl
  rw [if_neg h₂]
  by_cases h₃ : v < 0x10000
  · rw [if_pos h₃]
    obtain ⟨hhigh, htwo, hmask, hbits⟩ := lead_three (shiftRight_lt (by norm_num; omega) : v >>> 12 < 16)
    have hread : continued (v >>> 12) 2
        (byte (0x80 ||| v >>> 6 &&& 0x3F) :: byte (0x80 ||| v &&& 0x3F) :: rest) = some v := by
      rw [continued_succ _ 1 _ hlow', ← hsix, shiftRight_shiftLeft_or, continued_succ _ 0 _ hlow,
        shiftRight_shiftLeft_or]
      rfl
    refine ⟨_, _, rfl, ?_⟩
    rw [decodeUtf8, if_neg hhigh, if_neg htwo, if_pos hmask, hbits]
    dsimp only [List.cons_append, List.nil_append]
    rw [hread]
    rfl
  · rw [if_neg h₃]
    obtain ⟨hhigh, htwo, hthree, hmask, hbits⟩ :=
      lead_four (shiftRight_lt (by norm_num; omega) : v >>> 18 < 8)
    have htop : v >>> 18 = v >>> 12 >>> 6 := Nat.shiftRight_add v 12 6
    have hread : continued (v >>> 18) 3 (byte (0x80 ||| v >>> 12 &&& 0x3F) ::
        byte (0x80 ||| v >>> 6 &&& 0x3F) :: byte (0x80 ||| v &&& 0x3F) :: rest) = some v := by
      rw [continued_succ _ 2 _ hlow'', htop, shiftRight_shiftLeft_or, continued_succ _ 1 _ hlow', ← hsix,
        shiftRight_shiftLeft_or, continued_succ _ 0 _ hlow, shiftRight_shiftLeft_or]
      rfl
    refine ⟨_, _, rfl, ?_⟩
    rw [decodeUtf8, if_neg hhigh, if_neg htwo, if_neg hthree, if_pos hmask, hbits]
    dsimp only [List.cons_append, List.nil_append]
    rw [hread]
    rfl

theorem appendUtf8_length (v : ℕ) : (appendUtf8 v).length =
    if v < 0x80 then 1 else if v < 0x800 then 2 else if v < 0x10000 then 3 else 4 := by
  rw [appendUtf8]
  split_ifs <;> rfl

/-! ## Any bytes -/

theorem continued_lt {built count c k : ℕ} {rest : Text} (hbuilt : built < 2 ^ k)
    (h : continued built count rest = some c) : c < 2 ^ (k + 6 * count) ∧ count ≤ rest.length := by
  induction count generalizing built rest k with
  | zero =>
    cases h
    exact ⟨hbuilt, Nat.zero_le _⟩
  | succ count ih =>
    cases rest with
    | nil => cases h
    | cons b rest =>
      rw [continued] at h
      split_ifs at h with hmarked
      have hshift : built <<< 6 < 2 ^ (k + 6) := by
        rw [Nat.shiftLeft_eq, pow_add]
        exact Nat.mul_lt_mul_of_pos_right hbuilt (Nat.two_pow_pos 6)
      have hbits : b.toNat &&& 0x3F < 2 ^ (k + 6) :=
        (and_lt_64 _).trans_le (Nat.pow_le_pow_right two_pos (by omega : 6 ≤ k + 6))
      obtain ⟨hlt, hlength⟩ := ih (Nat.or_lt_two_pow hshift hbits) h
      rw [List.length_cons]
      exact ⟨by rwa [show k + 6 * (count + 1) = k + 6 + 6 * count by ring], by omega⟩

/-- A sequence takes one byte at least and none past the end, and stands for a code point above
U+FFFF only if it takes four. -/
theorem decodeUtf8_width (lead : UInt8) (rest : Text) :
    1 ≤ (decodeUtf8 lead rest).2 ∧ (decodeUtf8 lead rest).2 ≤ rest.length + 1 ∧
      (decodeUtf8 lead rest).1 < 0x200000 ∧
      (0x10000 ≤ (decodeUtf8 lead rest).1 → (decodeUtf8 lead rest).2 = 4) := by
  have hlead : lead.toNat < 256 := lead.toNat_lt
  -- a sequence that is broken off is its lead byte
  have hsequence : ∀ built extra k : ℕ, built < 2 ^ k → k + 6 * extra ≤ 21 →
      (extra < 3 → k + 6 * extra ≤ 16) → extra ≤ 3 → ∀ x : ℕ × ℕ,
      (∀ c, continued built extra rest = some c → x = (c, extra + 1)) →
      (continued built extra rest = none → x = (lead.toNat, 1)) →
      1 ≤ x.2 ∧ x.2 ≤ rest.length + 1 ∧ x.1 < 0x200000 ∧ (0x10000 ≤ x.1 → x.2 = 4) := by
    intro built extra k hbuilt hbits hshort hextra x hsome hnone
    cases h : continued built extra rest with
    | none =>
      rw [hnone h]
      dsimp only
      omega
    | some c =>
      rw [hsome c h]
      obtain ⟨hlt, hlength⟩ := continued_lt hbuilt h
      have htop : 2 ^ (k + 6 * extra) ≤ 2 ^ 21 := Nat.pow_le_pow_right (by norm_num) hbits
      refine ⟨Nat.le_add_left 1 extra, Nat.succ_le_succ hlength, hlt.trans_le htop, fun hlarge => ?_⟩
      dsimp only at hlarge ⊢
      by_contra hthree
      have hpow : 2 ^ (k + 6 * extra) ≤ 2 ^ 16 :=
        Nat.pow_le_pow_right (by norm_num) (hshort (by omega))
      omega
  rw [decodeUtf8]
  dsimp only
  split_ifs with h₁ h₂ h₃ h₄
  · exact ⟨le_rfl, by omega, by dsimp only; omega, fun h => by dsimp only at h; omega⟩
  · exact hsequence (lead.toNat &&& 0x1F) 1 5 (Nat.and_lt_two_pow _ (by norm_num)) (by norm_num)
      (by norm_num) (by norm_num) _ (fun c h => by rw [h]) fun h => by rw [h]
  · exact hsequence (lead.toNat &&& 0x0F) 2 4 (Nat.and_lt_two_pow _ (by norm_num)) (by norm_num)
      (by norm_num) (by norm_num) _ (fun c h => by rw [h]) fun h => by rw [h]
  · exact hsequence (lead.toNat &&& 0x07) 3 3 (Nat.and_lt_two_pow _ (by norm_num)) (by norm_num)
      (by norm_num) (by norm_num) _ (fun c h => by rw [h]) fun h => by rw [h]
  · exact ⟨le_rfl, by omega, by dsimp only; omega, fun h => by dsimp only at h; omega⟩

/-! ## Whole texts -/

/-- The code points of a text, each with the number of bytes it took. -/
def sequences (text : Text) : List (ℕ × ℕ) := decodeAll text.length text

@[simp]
theorem sequences_nil : sequences [] = [] := rfl

theorem decodeAll_of_le {limit : ℕ} {text : Text} (h : text.length ≤ limit) :
    decodeAll limit text = sequences text := by
  induction hn : text.length using Nat.strong_induction_on generalizing limit text with
  | _ n ih =>
    cases text with
    | nil => cases limit <;> rfl
    | cons lead rest =>
      rw [List.length_cons] at h hn
      obtain ⟨limit, rfl⟩ : ∃ m, limit = m + 1 := ⟨limit - 1, by omega⟩
      have hwidth := (decodeUtf8_width lead rest).1
      have hdrop : (rest.drop ((decodeUtf8 lead rest).2 - 1)).length ≤ rest.length := by
        rw [List.length_drop]
        exact Nat.sub_le ..
      rw [sequences, List.length_cons, decodeAll, decodeAll]
      rw [ih _ (by omega) (by omega) rfl, ih _ (by omega) hdrop rfl]

theorem sequences_cons (lead : UInt8) (rest : Text) : sequences (lead :: rest) =
    decodeUtf8 lead rest :: sequences ((lead :: rest).drop (decodeUtf8 lead rest).2) := by
  have hwidth := (decodeUtf8_width lead rest).1
  rw [sequences, List.length_cons, decodeAll]
  rw [decodeAll_of_le (by rw [List.length_drop]; exact Nat.sub_le ..)]
  obtain ⟨n, hn⟩ : ∃ n, (decodeUtf8 lead rest).2 = n + 1 := ⟨_, (Nat.sub_add_cancel hwidth).symm⟩
  rw [hn, List.drop_succ_cons, Nat.add_sub_cancel]

theorem sequences_appendUtf8 {v : ℕ} (hv : v < 0x200000) (rest : Text) :
    sequences (appendUtf8 v ++ rest) = (v, (appendUtf8 v).length) :: sequences rest := by
  obtain ⟨lead, tail, hbytes, hread⟩ := decodeUtf8_appendUtf8 hv rest
  have hdrop : (appendUtf8 v ++ rest).drop (appendUtf8 v).length = rest := List.drop_left
  rw [hbytes, List.cons_append] at hdrop ⊢
  rw [sequences_cons, hread, hbytes, hdrop]

/-- The code point at a byte, with the bytes it takes. -/
def decodeAt (s : Text) (pos : ℕ) : ℕ × ℕ :=
  match s.drop pos with
  | [] => (0, 0)
  | lead :: rest => decodeUtf8 lead rest

/-- The number of bytes that code points took. -/
def bytesOf (points : List (ℕ × ℕ)) : ℕ := (points.map Prod.snd).sum

@[simp]
theorem bytesOf_nil : bytesOf [] = 0 := rfl

@[simp]
theorem bytesOf_cons (p : ℕ × ℕ) (points : List (ℕ × ℕ)) : bytesOf (p :: points) = p.2 + bytesOf points := by
  rw [bytesOf, List.map_cons, List.sum_cons]
  rfl

theorem bytesOf_sequences (text : Text) : bytesOf (sequences text) = text.length := by
  induction hn : text.length using Nat.strong_induction_on generalizing text with
  | _ n ih =>
    cases text with
    | nil => exact hn
    | cons lead rest =>
      obtain ⟨hpos, hle, -⟩ := decodeUtf8_width lead rest
      rw [sequences_cons, bytesOf_cons, ih _ ?_ _ rfl, List.length_drop]
      · rw [← hn, List.length_cons]
        omega
      · rw [List.length_drop, List.length_cons, ← hn, List.length_cons]
        omega

/-- What comes after some code points of a text. -/
theorem sequences_drop (text : Text) (n : ℕ) :
    sequences (text.drop (bytesOf ((sequences text).take n))) = (sequences text).drop n := by
  induction n generalizing text with
  | zero => rfl
  | succ n ih =>
    cases text with
    | nil => rfl
    | cons lead rest =>
      rw [sequences_cons, List.take_succ_cons, List.drop_succ_cons, bytesOf_cons, ← List.drop_drop, ih]

theorem width_of_mem {text : Text} {p : ℕ × ℕ} (hp : p ∈ sequences text) :
    1 ≤ p.2 ∧ p.1 < 0x200000 ∧ (0x10000 ≤ p.1 → p.2 = 4) := by
  induction hn : text.length using Nat.strong_induction_on generalizing text with
  | _ n ih =>
    cases text with
    | nil => exact absurd hp List.not_mem_nil
    | cons lead rest =>
      obtain ⟨hpos, -, hlt, hfour⟩ := decodeUtf8_width lead rest
      rw [sequences_cons] at hp
      rcases List.mem_cons.mp hp with rfl | hp
      · exact ⟨hpos, hlt, hfour⟩
      · refine ih _ ?_ hp rfl
        rw [List.length_drop, ← hn, List.length_cons]
        omega

end CtBrowser
