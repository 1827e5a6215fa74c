import CtBrowser.Core.Utf8

/-!
# UTF-16

A text as the code units a script sees, and code units as a text. Two halves that meet are the one
code point they stand for; a half that meets none stands for itself, so a text may hold it.

## Main definitions

- `wtf8ToUtf16`, `utf16ToWtf8` — the two conversions.
- `Joined` — the code points that code units are: no two of them are the halves of a pair.

## Main results

- `wtf8ToUtf16_utf16ToWtf8` — code units are what their text is read as.
- `utf16ToWtf8_units` — joined code points are the text of their code units.
-/

namespace CtBrowser

/-- The first half of a pair. -/
def HighSurrogate (u : ℕ) : Prop := 0xD800 ≤ u ∧ u ≤ 0xDBFF

instance (u : ℕ) : Decidable (HighSurrogate u) := inferInstanceAs (Decidable (_ ∧ _))

/-- The second half of a pair. -/
def LowSurrogate (u : ℕ) : Prop := 0xDC00 ≤ u ∧ u ≤ 0xDFFF

instance (u : ℕ) : Decidable (LowSurrogate u) := inferInstanceAs (Decidable (_ ∧ _))

/-- The code units of a code point. -/
def pointUnits (cp : ℕ) : List UInt16 :=
  if 0x10000 ≤ cp then
    [(0xD800 + (cp - 0x10000) >>> 10).toUInt16, (0xDC00 + ((cp - 0x10000) &&& 0x3FF)).toUInt16]
  else [cp.toUInt16]

/-- The code units of a text. -/
def wtf8ToUtf16 (text : Text) : List UInt16 := (sequences text).flatMap fun p => pointUnits p.1

/-- The code points of code units: two halves that meet are one. -/
def joined : List UInt16 → List ℕ
  | [] => []
  | [u] => [u.toNat]
  | u :: v :: rest =>
    if HighSurrogate u.toNat ∧ LowSurrogate v.toNat then
      (0x10000 + (u.toNat - 0xD800) <<< 10 + (v.toNat - 0xDC00)) :: joined rest
    else u.toNat :: joined (v :: rest)

/-- The text of code units. -/
def utf16ToWtf8 (units : List UInt16) : Text := (joined units).flatMap appendUtf8

/-! ## One code point -/

theorem toNat_toUInt16 {n : ℕ} (hn : n < 0x10000) : n.toUInt16.toNat = n :=
  Nat.mod_eq_of_lt hn

theorem pointUnits_toNat (u : UInt16) : pointUnits u.toNat = [u] := by
  have hu : u.toNat < 0x10000 := u.toNat_lt
  have hself : u.toNat.toUInt16 = u := UInt16.ofNat_toNat
  rw [pointUnits, if_neg (by omega), hself]

theorem and_0x3FF (v : ℕ) : v &&& 0x3FF = v % 1024 := Nat.and_two_pow_sub_one_eq_mod v 10

theorem pointUnits_pair {cp : ℕ} (hlow : 0x10000 ≤ cp) (hcp : cp < 0x110000) :
    ∃ u v, pointUnits cp = [u, v] ∧ HighSurrogate u.toNat ∧ LowSurrogate v.toNat ∧
      0x10000 + (u.toNat - 0xD800) <<< 10 + (v.toNat - 0xDC00) = cp := by
  have hdiv : (cp - 0x10000) >>> 10 = (cp - 0x10000) / 1024 := Nat.shiftRight_eq_div_pow ..
  refine ⟨_, _, if_pos hlow, ?_⟩
  rw [and_0x3FF, hdiv, toNat_toUInt16 (by omega), toNat_toUInt16 (by omega), Nat.shiftLeft_eq]
  refine ⟨⟨by omega, by omega⟩, ⟨by omega, by omega⟩, by omega⟩

theorem pointUnits_join {u v : UInt16} (hu : HighSurrogate u.toNat) (hv : LowSurrogate v.toNat) :
    pointUnits (0x10000 + (u.toNat - 0xD800) <<< 10 + (v.toNat - 0xDC00)) = [u, v] := by
  obtain ⟨hu, hu'⟩ := hu
  obtain ⟨hv, hv'⟩ := hv
  have hhigh : (0xD800 + (0x10000 + (u.toNat - 0xD800) * 2 ^ 10 + (v.toNat - 0xDC00) - 0x10000) / 2 ^ 10) =
      u.toNat := by omega
  have hlow : (0xDC00 + (0x10000 + (u.toNat - 0xD800) * 2 ^ 10 + (v.toNat - 0xDC00) - 0x10000) % 1024) =
      v.toNat := by omega
  have hself : ∀ w : UInt16, w.toNat.toUInt16 = w := fun w => UInt16.ofNat_toNat
  rw [pointUnits, if_pos (by omega), and_0x3FF, Nat.shiftRight_eq_div_pow, Nat.shiftLeft_eq, hhigh, hlow,
    hself, hself]

theorem join_lt {u v : UInt16} (hu : HighSurrogate u.toNat) (hv : LowSurrogate v.toNat) :
    0x10000 + (u.toNat - 0xD800) <<< 10 + (v.toNat - 0xDC00) < 0x110000 := by
  obtain ⟨hu, hu'⟩ := hu
  obtain ⟨hv, hv'⟩ := hv
  rw [Nat.shiftLeft_eq]
  omega

/-! ## Code units as a text -/

theorem joined_flatMap (units : List UInt16) : (joined units).flatMap pointUnits = units := by
  induction units using joined.induct with
  | case1 => rfl
  | case2 u => rw [joined, List.flatMap_singleton, pointUnits_toNat]
  | case3 u v rest h ih =>
    rw [joined, if_pos h, List.flatMap_cons, ih, pointUnits_join h.1 h.2]
    rfl
  | case4 u v rest h ih =>
    rw [joined, if_neg h, List.flatMap_cons, ih, pointUnits_toNat]
    rfl

/-- Code points that a text of code units is written with: no two in a row are the halves of a
pair. -/
structure Joined (cps : List ℕ) : Prop where
  bounded : ∀ cp ∈ cps, cp < 0x110000
  apart : cps.IsChain fun a b => ¬ (HighSurrogate a ∧ LowSurrogate b)

theorem Joined.cons {cp : ℕ} {cps : List ℕ} (hcp : cp < 0x110000) (hcps : Joined cps)
    (h : ∀ next ∈ cps.head?, ¬ (HighSurrogate cp ∧ LowSurrogate next)) : Joined (cp :: cps) where
  bounded := List.forall_mem_cons.mpr ⟨hcp, hcps.bounded⟩
  apart := List.isChain_cons.mpr ⟨h, hcps.apart⟩

theorem joined_head (u : UInt16) (rest : List UInt16) :
    ∃ cp tail, joined (u :: rest) = cp :: tail ∧ (cp = u.toNat ∨ 0x10000 ≤ cp) := by
  cases rest with
  | nil => exact ⟨_, _, rfl, Or.inl rfl⟩
  | cons v rest =>
    rw [joined]
    split_ifs
    · exact ⟨_, _, rfl, Or.inr (by omega)⟩
    · exact ⟨_, _, rfl, Or.inl rfl⟩

theorem joined_joined (units : List UInt16) : Joined (joined units) := by
  have hbound : ∀ u : UInt16, u.toNat < 0x110000 := fun u =>
    (u.toNat_lt : u.toNat < 0x10000).trans (by norm_num)
  induction units using joined.induct with
  | case1 => exact ⟨fun _ h => absurd h List.not_mem_nil, List.IsChain.nil⟩
  | case2 u => exact ⟨List.forall_mem_singleton.mpr (hbound u), List.IsChain.singleton _⟩
  | case3 u v rest h ih =>
    rw [joined, if_pos h]
    -- a pair is no half
    refine ih.cons (join_lt h.1 h.2) fun next _ hnext => ?_
    have := hnext.1.2
    omega
  | case4 u v rest h ih =>
    rw [joined, if_neg h]
    refine ih.cons (hbound u) fun next hnext hpair => ?_
    obtain ⟨cp, tail, hjoined, hcp⟩ := joined_head v rest
    rw [hjoined, List.head?_cons, Option.mem_some_iff] at hnext
    subst hnext
    rcases hcp with rfl | hcp
    · exact h hpair
    · have := hpair.2.2
      omega

/-- Joined code points are what their units join to. -/
theorem Joined.joined_units {cps : List ℕ} (hcps : Joined cps) :
    joined (cps.flatMap pointUnits) = cps := by
  induction cps with
  | nil => rfl
  | cons cp cps ih =>
    obtain ⟨hbounded, hapart⟩ := hcps
    obtain ⟨hcp, hbounded⟩ := List.forall_mem_cons.mp hbounded
    obtain ⟨hhead, hapart⟩ := List.isChain_cons.mp hapart
    have hih := ih ⟨hbounded, hapart⟩
    rw [List.flatMap_cons]
    by_cases hpair : 0x10000 ≤ cp
    · obtain ⟨u, v, hunits, hu, hv, hjoin⟩ := pointUnits_pair hpair hcp
      rw [hunits, List.cons_append, List.cons_append, List.nil_append, joined, if_pos ⟨hu, hv⟩, hjoin, hih]
    · have hunits : pointUnits cp = [cp.toUInt16] := if_neg hpair
      have hnat : cp.toUInt16.toNat = cp := toNat_toUInt16 (by omega)
      rw [hunits, List.singleton_append]
      cases cps with
      | nil =>
        rw [List.flatMap_nil, joined, hnat]
      | cons next cps =>
        -- what stands after a first half is no second half
        obtain ⟨v, tail, hnext, hlow⟩ : ∃ v tail, (next :: cps).flatMap pointUnits = v :: tail ∧
            ¬ (HighSurrogate cp ∧ LowSurrogate v.toNat) := by
          rw [List.flatMap_cons]
          by_cases hnext : 0x10000 ≤ next
          · obtain ⟨u, v, hunits, hu, -⟩ := pointUnits_pair hnext (hbounded next (List.mem_cons_self ..))
            rw [hunits]
            refine ⟨u, _, rfl, fun hhalf => ?_⟩
            have := hhalf.2.1
            have := hu.2
            omega
          · have hunits : pointUnits next = [next.toUInt16] := if_neg hnext
            rw [hunits]
            refine ⟨_, _, rfl, ?_⟩
            rw [toNat_toUInt16 (by omega)]
            exact hhead next rfl
        rw [hnext] at hih ⊢
        rw [joined, hnat, if_neg hlow, hih]

/-- The text of joined code points is that of their code units. -/
theorem utf16ToWtf8_units {cps : List ℕ} (hcps : Joined cps) :
    utf16ToWtf8 (cps.flatMap pointUnits) = cps.flatMap appendUtf8 := by
  rw [utf16ToWtf8, hcps.joined_units]

theorem Joined.stretch {front part back : List ℕ} (hcps : Joined (front ++ part ++ back)) : Joined part where
  bounded cp hcp := hcps.bounded cp (List.mem_append_left _ (List.mem_append_right _ hcp))
  apart := hcps.apart.left_of_append.right_of_append

/-! ## A text as code units -/

/-- The sequences that code points are written as. -/
def written (cps : List ℕ) : List (ℕ × ℕ) := cps.map fun cp => (cp, (appendUtf8 cp).length)

theorem sequences_flatMap {cps : List ℕ} (hcps : ∀ cp ∈ cps, cp < 0x110000) :
    sequences (cps.flatMap appendUtf8) = written cps := by
  induction cps with
  | nil => rfl
  | cons cp cps ih =>
    obtain ⟨hcp, hcps⟩ := List.forall_mem_cons.mp hcps
    rw [List.flatMap_cons, sequences_appendUtf8 (by omega), ih hcps]
    rfl

theorem wtf8ToUtf16_flatMap {cps : List ℕ} (hcps : ∀ cp ∈ cps, cp < 0x110000) :
    wtf8ToUtf16 (cps.flatMap appendUtf8) = cps.flatMap pointUnits := by
  rw [wtf8ToUtf16, sequences_flatMap hcps, written, List.flatMap_map]

/-- Code units are what their text is read as. -/
theorem wtf8ToUtf16_utf16ToWtf8 (units : List UInt16) : wtf8ToUtf16 (utf16ToWtf8 units) = units := by
  rw [utf16ToWtf8, wtf8ToUtf16_flatMap (joined_joined units).bounded, joined_flatMap]

end CtBrowser
