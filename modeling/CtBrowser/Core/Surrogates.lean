import CtBrowser.Core.Utf16

/-!
# Halves that meet

A text holds a pair as one code point of four bytes, never as its two halves. So the texts of two
sequences of code units cannot simply be put one after the other: where the first ends in the first
half of a pair and the second begins with the second half, these are joined.

## Main definitions

- `joinSurrogates` — joins the halves that have met.

## Main results

- `appendUtf8_bytes` — the bytes a code point is written as.
- `joinSurrogates_textOf` — code points written one after the other become the text of their units.
-/

namespace CtBrowser

/-- Whether a byte continues a sequence. -/
def isTrail (b : UInt8) : Bool := b.toNat &&& 0xC0 = 0x80

/-- The first half of a pair and the second half, told by two bytes of each. -/
def Meet (b₀ b₁ b₃ b₄ : UInt8) : Prop :=
  b₀.toNat = 0xED ∧ 0xA0 ≤ b₁.toNat ∧ b₁.toNat ≤ 0xAF ∧ b₃.toNat = 0xED ∧ 0xB0 ≤ b₄.toNat ∧ b₄.toNat ≤ 0xBF

instance (b₀ b₁ b₃ b₄ : UInt8) : Decidable (Meet b₀ b₁ b₃ b₄) := inferInstanceAs (Decidable (_ ∧ _))

/-- From the first byte that can begin a half on: a first half and the second half after it are
written as the code point they stand for. -/
def joinScan : Text → Text
  | b₀ :: b₁ :: b₂ :: b₃ :: b₄ :: b₅ :: rest =>
    if Meet b₀ b₁ b₃ b₄ then
      let high := 0xD000 ||| ((b₁.toNat &&& 0x3F) <<< 6) ||| (b₂.toNat &&& 0x3F)
      let low := 0xD000 ||| ((b₄.toNat &&& 0x3F) <<< 6) ||| (b₅.toNat &&& 0x3F)
      appendUtf8 (0x10000 + (high - 0xD800) <<< 10 + (low - 0xDC00)) ++ joinScan rest
    else b₀ :: joinScan (b₁ :: b₂ :: b₃ :: b₄ :: b₅ :: rest)
  | text => text

/-- Joins the halves that have met in a text. -/
def joinSurrogates (text : Text) : Text :=
  text.takeWhile (·.toNat ≠ 0xED) ++ joinScan (text.dropWhile (·.toNat ≠ 0xED))

/-! ## The bytes of a code point -/

theorem isTrail_iff (b : UInt8) : isTrail b = true ↔ 0x80 ≤ b.toNat ∧ b.toNat < 0xC0 := by
  have hb := b.toNat_lt
  have hand : b.toNat &&& 0xC0 = 0x80 ↔ 0x80 ≤ b.toNat ∧ b.toNat < 0xC0 := by
    generalize b.toNat = n at hb
    revert hb
    revert n
    decide +kernel
  rw [isTrail, decide_eq_true_eq, hand]

theorem trail_toNat {x : ℕ} (hx : x < 64) : (byte (0x80 ||| x)).toNat = 0x80 + x := by
  revert hx
  decide +revert

theorem lead_toNat {x : ℕ} : (x < 32 → (byte (0xC0 ||| x)).toNat = 0xC0 + x) ∧
    (x < 16 → (byte (0xE0 ||| x)).toNat = 0xE0 + x) ∧ (x < 8 → (byte (0xF0 ||| x)).toNat = 0xF0 + x) := by
  refine ⟨?_, ?_, ?_⟩
  all_goals intro hx; revert hx; decide +revert

theorem isTrail_byte {x : ℕ} (hx : x < 64) : isTrail (byte (0x80 ||| x)) = true := by
  rw [isTrail_iff, trail_toNat hx]
  omega

/-- A code point is written as a byte that leads and bytes that continue, and only an ASCII one as a byte
below 0x80. -/
theorem appendUtf8_bytes {v : ℕ} (hv : v < 0x200000) : ∃ lead tail, appendUtf8 v = lead :: tail ∧
    isTrail lead = false ∧ (∀ b ∈ tail, isTrail b = true) ∧
      (v < 0x80 ∧ lead.toNat = v ∧ tail = [] ∨ 0x80 ≤ v ∧ 0xC0 ≤ lead.toNat) := by
  have hlow := and_lt_64 v
  have hlow' := and_lt_64 (v >>> 6)
  have hlow'' := and_lt_64 (v >>> 12)
  -- a byte that leads does not continue
  have hlead : ∀ b : UInt8, b.toNat < 0x80 ∨ 0xC0 ≤ b.toNat → isTrail b = false := by
    intro b hb
    rw [Bool.eq_false_iff, ne_eq, isTrail_iff]
    omega
  rw [appendUtf8]
  split_ifs with h₁ h₂ h₃
  · have hbyte : (byte v).toNat = v := toNat_byte (by omega)
    exact ⟨_, _, rfl, hlead _ (by omega), by simp, Or.inl ⟨h₁, hbyte, rfl⟩⟩
  · have hbyte := lead_toNat.1 (shiftRight_lt (by norm_num; omega) : v >>> 6 < 32)
    refine ⟨_, _, rfl, hlead _ (by omega), ?_, Or.inr ⟨by omega, by omega⟩⟩
    simp [isTrail_byte hlow]
  · have hbyte := lead_toNat.2.1 (shiftRight_lt (by norm_num; omega) : v >>> 12 < 16)
    refine ⟨_, _, rfl, hlead _ (by omega), ?_, Or.inr ⟨by omega, by omega⟩⟩
    simp [isTrail_byte hlow, isTrail_byte hlow']
  · have hbyte := lead_toNat.2.2 (shiftRight_lt (by norm_num; omega) : v >>> 18 < 8)
    refine ⟨_, _, rfl, hlead _ (by omega), ?_, Or.inr ⟨by omega, by omega⟩⟩
    simp [isTrail_byte hlow, isTrail_byte hlow', isTrail_byte hlow'']

theorem appendUtf8_three {v : ℕ} (hlow : 0x800 ≤ v) (hv : v < 0x10000) : ∃ b₀ b₁ b₂,
    appendUtf8 v = [b₀, b₁, b₂] ∧ b₀.toNat = 0xE0 + v / 4096 ∧ b₁.toNat = 0x80 + v / 64 % 64 ∧
      b₂.toNat = 0x80 + v % 64 := by
  have hmask : ∀ w : ℕ, w &&& 0x3F = w % 64 := fun w => Nat.and_two_pow_sub_one_eq_mod w 6
  have hshift : v >>> 6 = v / 64 ∧ v >>> 12 = v / 4096 :=
    ⟨Nat.shiftRight_eq_div_pow .., Nat.shiftRight_eq_div_pow ..⟩
  rw [appendUtf8, if_neg (by omega), if_neg (by omega), if_pos hv, hshift.1, hshift.2, hmask, hmask]
  refine ⟨_, _, _, rfl, lead_toNat.2.1 (by omega), trail_toNat (by omega), trail_toNat (by omega)⟩

theorem lead_eq_0xED {v : ℕ} (hv : v < 0x200000) {lead : UInt8} {tail : Text} (h : appendUtf8 v = lead :: tail) :
    lead.toNat = 0xED ↔ 0xD000 ≤ v ∧ v < 0xE000 := by
  by_cases hthree : 0x800 ≤ v ∧ v < 0x10000
  · obtain ⟨b₀, b₁, b₂, hbytes, hlead, -⟩ := appendUtf8_three hthree.1 hthree.2
    rw [h] at hbytes
    injection hbytes with hfirst
    rw [hfirst]
    omega
  have hshort : v < 0x800 ∨ 0x10000 ≤ v := by omega
  rw [appendUtf8] at h
  split_ifs at h with h₁ h₂ h₃ <;> injection h with hlead htail <;> rw [← hlead]
  · rw [toNat_byte (by omega)]
    omega
  · have hbyte := lead_toNat.1 (shiftRight_lt (by norm_num; omega) : v >>> 6 < 32)
    have hbits : v >>> 6 < 32 := shiftRight_lt (by norm_num; omega)
    omega
  · omega
  · have hbyte := lead_toNat.2.2 (shiftRight_lt (by norm_num; omega) : v >>> 18 < 8)
    omega

/-! ## Halves that meet -/

theorem half_bits {x y : ℕ} (hx : x < 64) (hy : y < 64) : 0xD000 ||| x <<< 6 ||| y = 0xD000 + 64 * x + y := by
  have htop : (0xD000 : ℕ) = 13 <<< 12 := rfl
  have hx' : x <<< 6 + y = x <<< 6 ||| y := Nat.shiftLeft_add_eq_or_of_lt hy x
  have hshift : x <<< 6 = x * 64 := Nat.shiftLeft_eq ..
  rw [Nat.or_assoc, ← hx', htop, ← Nat.shiftLeft_add_eq_or_of_lt (by omega), hshift]
  omega

theorem joinScan_short {text : Text} (h : text.length < 6) : joinScan text = text := by
  rw [joinScan]
  intro b₀ b₁ b₂ b₃ b₄ b₅ rest htext
  rw [htext] at h
  simp at h
  omega

theorem joinScan_cons {b : UInt8} {text : Text}
    (h : ∀ b₁ b₂ b₃ b₄ rest, text = b₁ :: b₂ :: b₃ :: b₄ :: rest → ¬ Meet b b₁ b₃ b₄) :
    joinScan (b :: text) = b :: joinScan text := by
  by_cases hlength : text.length < 5
  · rw [joinScan_short (by rw [List.length_cons]; omega), joinScan_short (by omega)]
  obtain ⟨b₁, text, rfl⟩ := List.exists_cons_of_length_pos (by omega : 0 < text.length)
  rw [List.length_cons] at hlength
  obtain ⟨b₂, text, rfl⟩ := List.exists_cons_of_length_pos (by omega : 0 < text.length)
  rw [List.length_cons] at hlength
  obtain ⟨b₃, text, rfl⟩ := List.exists_cons_of_length_pos (by omega : 0 < text.length)
  rw [List.length_cons] at hlength
  obtain ⟨b₄, text, rfl⟩ := List.exists_cons_of_length_pos (by omega : 0 < text.length)
  rw [List.length_cons] at hlength
  obtain ⟨b₅, text, rfl⟩ := List.exists_cons_of_length_pos (by omega : 0 < text.length)
  conv_lhs => rw [joinScan]
  rw [if_neg (h _ _ _ _ _ rfl)]

theorem joinScan_append {front : Text} (hfront : ∀ b ∈ front, b.toNat ≠ 0xED) (back : Text) :
    joinScan (front ++ back) = front ++ joinScan back := by
  induction front with
  | nil => rfl
  | cons b front ih =>
    obtain ⟨hb, hfront⟩ := List.forall_mem_cons.mp hfront
    rw [List.cons_append, joinScan_cons fun _ _ _ _ _ _ hmeet => hb hmeet.1, ih hfront, List.cons_append]

theorem joinSurrogates_eq (text : Text) : joinSurrogates text = joinScan text := by
  have hfront : ∀ b ∈ text.takeWhile (·.toNat ≠ 0xED), b.toNat ≠ 0xED := fun b hb =>
    of_decide_eq_true (List.all_eq_true.mp List.all_takeWhile b hb)
  rw [joinSurrogates, ← joinScan_append hfront, List.takeWhile_append_dropWhile]

theorem joinScan_pair {c d : ℕ} (hc : HighSurrogate c) (hd : LowSurrogate d) (rest : Text) :
    joinScan (appendUtf8 c ++ (appendUtf8 d ++ rest)) =
      appendUtf8 (0x10000 + (c - 0xD800) <<< 10 + (d - 0xDC00)) ++ joinScan rest := by
  obtain ⟨hc, hc'⟩ := hc
  obtain ⟨hd, hd'⟩ := hd
  obtain ⟨b₀, b₁, b₂, hbytes, h₀, h₁, h₂⟩ := appendUtf8_three (by omega : 0x800 ≤ c) (by omega)
  obtain ⟨b₃, b₄, b₅, hbytes', h₃, h₄, h₅⟩ := appendUtf8_three (by omega : 0x800 ≤ d) (by omega)
  have hmask : ∀ w : ℕ, w &&& 0x3F = w % 64 := fun w => Nat.and_two_pow_sub_one_eq_mod w 6
  have hmeet : Meet b₀ b₁ b₃ b₄ := by
    refine ⟨?_, ?_, ?_, ?_, ?_, ?_⟩
    all_goals omega
  have hhigh : 0xD000 ||| ((b₁.toNat &&& 0x3F) <<< 6) ||| (b₂.toNat &&& 0x3F) = c := by
    rw [half_bits (and_lt_64 _) (and_lt_64 _), hmask, hmask]
    omega
  have hlow : 0xD000 ||| ((b₄.toNat &&& 0x3F) <<< 6) ||| (b₅.toNat &&& 0x3F) = d := by
    rw [half_bits (and_lt_64 _) (and_lt_64 _), hmask, hmask]
    omega
  rw [hbytes, hbytes']
  simp only [List.cons_append, List.nil_append]
  rw [joinScan, if_pos hmeet, hhigh, hlow]

/-- The scan moves on over a code point that is not the first half of a pair before the second one. -/
theorem joinScan_point {cp : ℕ} {cps : List ℕ} (hcp : cp < 0x200000) (hcps : ∀ c ∈ cps, c < 0x200000)
    (h : ∀ next ∈ cps.head?, ¬ (HighSurrogate cp ∧ LowSurrogate next)) :
    joinScan (appendUtf8 cp ++ cps.flatMap appendUtf8) =
      appendUtf8 cp ++ joinScan (cps.flatMap appendUtf8) := by
  obtain ⟨lead, tail, hbytes, -, htail, -⟩ := appendUtf8_bytes hcp
  have hmove : ∀ b ∈ tail, b.toNat ≠ 0xED := by
    intro b hb
    have := (isTrail_iff b).mp (htail b hb)
    omega
  rw [hbytes, List.cons_append, joinScan_cons, joinScan_append hmove, List.cons_append]
  intro b₁ b₂ b₃ b₄ rest htext hmeet
  obtain ⟨hlead, hlow, hhigh, hlead', hlow', hhigh'⟩ := hmeet
  -- the first half takes three bytes
  have hrange := (lead_eq_0xED hcp hbytes).mp hlead
  obtain ⟨c₀, c₁, c₂, hthree, -, h₁, -⟩ := appendUtf8_three (by omega : 0x800 ≤ cp) (by omega)
  rw [hbytes] at hthree
  obtain ⟨-, rfl⟩ := List.cons.inj hthree
  simp only [List.cons_append, List.nil_append, List.cons.injEq] at htext
  obtain ⟨rfl, rfl, htext⟩ := htext
  -- and so does what follows it
  cases cps with
  | nil => cases htext
  | cons next cps =>
    have hnext := hcps next (List.mem_cons_self ..)
    obtain ⟨lead', tail', hbytes', -⟩ := appendUtf8_bytes hnext
    rw [List.flatMap_cons, hbytes', List.cons_append, List.cons.injEq] at htext
    obtain ⟨rfl, htext⟩ := htext
    have hrange' := (lead_eq_0xED hnext hbytes').mp hlead'
    obtain ⟨d₀, d₁, d₂, hthree', -, h₄, -⟩ := appendUtf8_three (by omega : 0x800 ≤ next) (by omega)
    rw [hbytes'] at hthree'
    obtain ⟨-, rfl⟩ := List.cons.inj hthree'
    rw [List.cons_append, List.cons.injEq] at htext
    obtain ⟨rfl, -⟩ := htext
    exact h next rfl ⟨⟨by omega, by omega⟩, ⟨by omega, by omega⟩⟩

theorem joined_pointUnits {cp : ℕ} (hcp : cp < 0x110000) {units : List UInt16}
    (h : ∀ v ∈ units.head?, ¬ (HighSurrogate cp ∧ LowSurrogate v.toNat)) :
    joined (pointUnits cp ++ units) = cp :: joined units := by
  by_cases hpair : 0x10000 ≤ cp
  · obtain ⟨u, v, hunits, hu, hv, hjoin⟩ := pointUnits_pair hpair hcp
    rw [hunits, List.cons_append, List.cons_append, List.nil_append, joined, if_pos ⟨hu, hv⟩, hjoin]
  · have hunits : pointUnits cp = [cp.toUInt16] := if_neg hpair
    have hnat : cp.toUInt16.toNat = cp := toNat_toUInt16 (by omega)
    rw [hunits, List.singleton_append]
    cases units with
    | nil => rw [joined, joined, hnat]
    | cons v units => rw [joined, hnat, if_neg (h v rfl)]

theorem head_pointUnits {cp : ℕ} (hcp : cp < 0x110000) {v : UInt16} (hv : v ∈ (pointUnits cp).head?)
    (hlow : LowSurrogate v.toNat) : LowSurrogate cp := by
  by_cases hpair : 0x10000 ≤ cp
  · obtain ⟨u, w, hunits, hu, -⟩ := pointUnits_pair hpair hcp
    rw [hunits, List.head?_cons, Option.mem_some_iff] at hv
    subst hv
    have := hu.2
    have := hlow.1
    omega
  · have hunits : pointUnits cp = [cp.toUInt16] := if_neg hpair
    rw [hunits, List.head?_cons, Option.mem_some_iff] at hv
    subst hv
    rwa [toNat_toUInt16 (by omega)] at hlow

theorem head_units {cps : List ℕ} {v : UInt16} (hv : v ∈ (cps.flatMap pointUnits).head?) :
    ∃ next ∈ cps.head?, v ∈ (pointUnits next).head? := by
  cases cps with
  | nil => cases hv
  | cons next cps =>
    refine ⟨next, rfl, ?_⟩
    rw [List.flatMap_cons] at hv
    by_cases hpair : 0x10000 ≤ next
    · rw [pointUnits, if_pos hpair] at hv ⊢
      exact hv
    · rw [pointUnits, if_neg hpair] at hv ⊢
      exact hv

/-- Code points written one after the other are joined to the text of their units. -/
theorem joinSurrogates_flatMap {cps : List ℕ} (hcps : ∀ cp ∈ cps, cp < 0x110000) :
    joinSurrogates (cps.flatMap appendUtf8) = utf16ToWtf8 (cps.flatMap pointUnits) := by
  rw [joinSurrogates_eq]
  induction hn : cps.length using Nat.strong_induction_on generalizing cps with
  | _ n ih =>
    cases cps with
    | nil => exact joinScan_short (by norm_num)
    | cons cp cps =>
      obtain ⟨hcp, hcps⟩ := List.forall_mem_cons.mp hcps
      rw [List.length_cons] at hn
      by_cases hmeet : ∃ next ∈ cps.head?, HighSurrogate cp ∧ LowSurrogate next
      · obtain ⟨next, hnext, hhigh, hlow⟩ := hmeet
        obtain ⟨cps, rfl⟩ : ∃ tail, cps = next :: tail := ⟨_, List.eq_cons_of_mem_head? hnext⟩
        rw [List.length_cons] at hn
        have hunit : pointUnits cp = [cp.toUInt16] := if_neg (by have := hhigh.2; omega)
        have hunit' : pointUnits next = [next.toUInt16] := if_neg (by have := hlow.2; omega)
        have hself : cp.toUInt16.toNat = cp := toNat_toUInt16 (by have := hhigh.2; omega)
        have hself' : next.toUInt16.toNat = next := toNat_toUInt16 (by have := hlow.2; omega)
        rw [List.flatMap_cons, List.flatMap_cons, joinScan_pair hhigh hlow,
          ih _ (by omega) (List.forall_mem_cons.mp hcps).2 rfl, List.flatMap_cons, List.flatMap_cons, hunit,
          hunit', List.singleton_append, List.singleton_append, utf16ToWtf8, utf16ToWtf8, joined, hself, hself',
          if_pos ⟨hhigh, hlow⟩, List.flatMap_cons]
      · have hapart : ∀ next ∈ cps.head?, ¬ (HighSurrogate cp ∧ LowSurrogate next) := fun next hnext hpair =>
          hmeet ⟨next, hnext, hpair⟩
        have hunits : ∀ v ∈ (cps.flatMap pointUnits).head?, ¬ (HighSurrogate cp ∧ LowSurrogate v.toNat) := by
          rintro v hv ⟨hhigh, hlow⟩
          obtain ⟨next, hnext, hv⟩ := head_units hv
          exact hapart next hnext ⟨hhigh, head_pointUnits (hcps next (List.mem_of_mem_head? hnext)) hv hlow⟩
        rw [List.flatMap_cons, joinScan_point (by omega) (fun c hc => (hcps c hc).trans (by norm_num)) hapart,
          ih _ (by omega) hcps rfl, List.flatMap_cons, utf16ToWtf8, utf16ToWtf8, joined_pointUnits hcp hunits,
          List.flatMap_cons]

theorem joinSurrogates_utf16ToWtf8 (u v : List UInt16) :
    joinSurrogates (utf16ToWtf8 u ++ utf16ToWtf8 v) = utf16ToWtf8 (u ++ v) := by
  have hbound : ∀ cp ∈ joined u ++ joined v, cp < 0x110000 := fun cp hcp =>
    (List.mem_append.mp hcp).elim ((joined_joined u).bounded cp) ((joined_joined v).bounded cp)
  have h := joinSurrogates_flatMap hbound
  rwa [List.flatMap_append, List.flatMap_append, joined_flatMap, joined_flatMap] at h

end CtBrowser
