import CtBrowser.Script.Regex.Pattern
import CtBrowser.Script.Strings.Units
import Mathlib.Data.List.GetD

/-!
# Reading backward

What stands before a position is found from its last byte, over the bytes that continue a sequence.
On any bytes at all that is the sequence that reading forward ends there.

## Main results

- `decodeUtf8_continues` — a sequence of more than one byte goes on with bytes that continue it.
- `decodeBefore_sequences` — reading backward gives the last sequence read forward.
-/

namespace CtBrowser.Script.Regex

open Utf16 (decodeAt_bytesOf)

/-- Whether the byte at a position continues a sequence. -/
def Continues (s : Text) (pos : ℕ) : Prop := byteAt s pos &&& 0xC0 = 0x80

/-! ## The bytes of a sequence -/

theorem continued_continues {built count c : ℕ} {rest : Text} (h : continued built count rest = some c) :
    ∀ j < count, (rest.getD j 0).toNat &&& 0xC0 = 0x80 := by
  induction count generalizing built rest with
  | zero => exact fun j hj => absurd hj (Nat.not_lt_zero j)
  | succ count ih =>
    cases rest with
    | nil => cases h
    | cons b rest =>
      rw [continued] at h
      split_ifs at h with hmarked
      intro j hj
      cases j with
      | zero => exact hmarked
      | succ j => exact ih h j (Nat.lt_of_succ_lt_succ hj)

/-- A sequence is its first byte, or it is led by a byte that continues none and goes on with bytes that
do, three at most. -/
theorem decodeUtf8_continues (lead : UInt8) (rest : Text) :
    decodeUtf8 lead rest = (lead.toNat, 1) ∨
      lead.toNat &&& 0xC0 ≠ 0x80 ∧ 1 < (decodeUtf8 lead rest).2 ∧ (decodeUtf8 lead rest).2 ≤ 4 ∧
        ∀ j, j + 1 < (decodeUtf8 lead rest).2 → (rest.getD j 0).toNat &&& 0xC0 = 0x80 := by
  have hlead : ∀ n < 256, n &&& 0xE0 = 0xC0 ∨ n &&& 0xF0 = 0xE0 ∨ n &&& 0xF8 = 0xF0 → n &&& 0xC0 ≠ 0x80 := by
    decide +kernel
  have hsequence : ∀ built extra : ℕ, 0 < extra → extra ≤ 3 → lead.toNat &&& 0xC0 ≠ 0x80 → ∀ x : ℕ × ℕ,
      (∀ c, continued built extra rest = some c → x = (c, extra + 1)) →
      (continued built extra rest = none → x = (lead.toNat, 1)) →
      x = (lead.toNat, 1) ∨ lead.toNat &&& 0xC0 ≠ 0x80 ∧ 1 < x.2 ∧ x.2 ≤ 4 ∧
        ∀ j, j + 1 < x.2 → (rest.getD j 0).toNat &&& 0xC0 = 0x80 := by
    intro built extra hpos hextra hfirst x hsome hnone
    cases h : continued built extra rest with
    | none => exact Or.inl (hnone h)
    | some c =>
      rw [hsome c h]
      refine Or.inr ⟨hfirst, Nat.succ_lt_succ hpos, Nat.succ_le_succ hextra, fun j hj => ?_⟩
      exact continued_continues h j (Nat.lt_of_succ_lt_succ hj)
  have hbyte := lead.toNat_lt
  rw [decodeUtf8]
  dsimp only
  split_ifs with h₁ h₂ h₃ h₄
  · exact Or.inl rfl
  · exact hsequence _ 1 (by norm_num) (by norm_num) (hlead _ hbyte (Or.inl h₂)) _ (fun c h => by rw [h])
      fun h => by rw [h]
  · exact hsequence _ 2 (by norm_num) (by norm_num) (hlead _ hbyte (Or.inr (Or.inl h₃))) _
      (fun c h => by rw [h]) fun h => by rw [h]
  · exact hsequence _ 3 (by norm_num) (by norm_num) (hlead _ hbyte (Or.inr (Or.inr h₄))) _
      (fun c h => by rw [h]) fun h => by rw [h]
  · exact Or.inl rfl

theorem decodeAt_continues {s : Text} {pos : ℕ} (hpos : pos < s.length) :
    decodeAt s pos = (byteAt s pos, 1) ∨
      ¬ Continues s pos ∧ 1 < (decodeAt s pos).2 ∧ (decodeAt s pos).2 ≤ 4 ∧
        ∀ j, pos < j → j < pos + (decodeAt s pos).2 → Continues s j := by
  have hdrop : s.drop pos = s[pos] :: s.drop (pos + 1) := List.drop_eq_getElem_cons hpos
  have hlead : byteAt s pos = s[pos].toNat := by rw [byteAt, List.getD_eq_getElem _ _ hpos]
  have hdecode : decodeAt s pos = decodeUtf8 s[pos] (s.drop (pos + 1)) := by rw [decodeAt, hdrop]
  rw [hdecode, Continues, hlead]
  rcases decodeUtf8_continues s[pos] (s.drop (pos + 1)) with hone | ⟨hfirst, hmore, hfour, hrest⟩
  · exact Or.inl hone
  · refine Or.inr ⟨hfirst, hmore, hfour, fun j hj hj' => ?_⟩
    have h := hrest (j - (pos + 1)) (by omega)
    rwa [List.getD_eq_getElem?_getD, List.getElem?_drop, Nat.add_sub_cancel' hj,
      ← List.getD_eq_getElem?_getD] at h

/-! ## The sequences of a text -/

theorem exists_sequence {front : List (ℕ × ℕ)} {pos : ℕ} (hpos : pos < bytesOf front) :
    ∃ before p after, front = before ++ p :: after ∧ bytesOf before ≤ pos ∧ pos < bytesOf before + p.2 := by
  induction front generalizing pos with
  | nil => exact absurd hpos (Nat.not_lt_zero pos)
  | cons q front ih =>
    rw [bytesOf_cons] at hpos
    by_cases hq : pos < q.2
    · exact ⟨[], q, front, rfl, Nat.zero_le _, by rwa [bytesOf_nil, Nat.zero_add]⟩
    · obtain ⟨before, p, after, rfl, hlow, hhigh⟩ := @ih (pos - q.2) (by omega)
      refine ⟨q :: before, p, after, rfl, ?_, ?_⟩
      · rw [bytesOf_cons]
        omega
      · rw [bytesOf_cons]
        omega

theorem sequence_lt_length {s : Text} {front back : List (ℕ × ℕ)} {p : ℕ × ℕ}
    (hs : sequences s = front ++ p :: back) : bytesOf front < s.length ∧ 0 < p.2 := by
  have hsize := bytesOf_sequences s
  have hwidth := (@width_of_mem s p (hs ▸ List.mem_append_right _ (List.mem_cons_self ..))).1
  rw [hs, Utf16.bytesOf_append, bytesOf_cons] at hsize
  omega

theorem begins_of_not_continues {s : Text} {front back : List (ℕ × ℕ)} (hs : sequences s = front ++ back)
    {pos : ℕ} (hpos : pos < bytesOf front) (h : ¬ Continues s pos) :
    pos + (decodeAt s pos).2 ≤ bytesOf front := by
  obtain ⟨before, p, after, rfl, hlow, hhigh⟩ := exists_sequence hpos
  rw [List.append_assoc, List.cons_append] at hs
  have hdecode := decodeAt_bytesOf hs
  have hbegin : pos = bytesOf before := by
    by_contra hne
    rcases decodeAt_continues (sequence_lt_length hs).1 with hone | ⟨-, -, -, hrest⟩
    · rw [← hdecode, hone] at hhigh
      dsimp only at hhigh
      omega
    · exact h (hrest pos (by omega) (by rw [hdecode]; exact hhigh))
  rw [hbegin, hdecode, Utf16.bytesOf_append, bytesOf_cons]
  omega

/-! ## Backward -/

theorem sequenceStart_eq {s : Text} {stop pos : ℕ} (k : ℕ) (hfour : stop - pos ≤ 4)
    (hrest : ∀ j, pos < j → j ≤ pos + k → Continues s j) (hfirst : ¬ Continues s pos) :
    sequenceStart s stop (pos + k) = pos := by
  induction k with
  | zero =>
    cases pos with
    | zero => rfl
    | succ pos => exact if_neg fun h => hfirst h.2
  | succ k ih =>
    have hlast : Continues s (pos + k + 1) := hrest _ (by omega) (by omega)
    rw [← add_assoc, sequenceStart, if_pos ⟨by omega, hlast⟩]
    exact ih fun j hj hj' => hrest j hj (by omega)

/-- Reading backward from the end of a sequence gives it. -/
theorem decodeBefore_sequences {s : Text} {front back : List (ℕ × ℕ)} {p : ℕ × ℕ}
    (hs : sequences s = front ++ p :: back) : decodeBefore s (bytesOf front + p.2) = p := by
  obtain ⟨hpos, hwidth⟩ := sequence_lt_length hs
  have hdecode := decodeAt_bytesOf hs
  rcases decodeAt_continues hpos with hone | ⟨hfirst, hmore, hfour, hrest⟩
  · -- a sequence of one byte: whatever sequence the scan goes back to ends before it
    rw [hdecode] at hone
    have htwo : p.2 = 1 := congrArg Prod.snd hone
    rw [htwo, decodeBefore, Nat.add_sub_cancel]
    obtain ⟨start, hstart⟩ : ∃ n, sequenceStart s (bytesOf front + 1) (bytesOf front) = n := ⟨_, rfl⟩
    have hle := sequenceStart_le s (bytesOf front + 1) (bytesOf front)
    rw [hstart] at hle ⊢
    by_cases hend : start + (decodeAt s start).2 ≠ bytesOf front + 1
    · rw [if_pos hend]
      exact hone.symm
    · rw [if_neg hend]
      rcases hle.eq_or_lt with rfl | hlt
      · rw [hdecode, Nat.add_sub_cancel_left, ← htwo]
      · have hlead : ¬ Continues s start := by
          rcases decodeAt_continues (hlt.trans hpos) with hone' | ⟨hfirst, -⟩
          · rw [hone'] at hend
            dsimp only at hend
            omega
          · exact hfirst
        have := begins_of_not_continues hs hlt hlead
        omega
  · have hlast : bytesOf front + p.2 - 1 = bytesOf front + (p.2 - 1) := by omega
    rw [hdecode] at hmore hfour hrest
    have hstart : sequenceStart s (bytesOf front + p.2) (bytesOf front + p.2 - 1) = bytesOf front := by
      rw [hlast]
      exact sequenceStart_eq _ (by omega) (fun j hj hj' => hrest j hj (by omega)) hfirst
    rw [decodeBefore, hstart, hdecode, if_neg (not_not.mpr rfl), Nat.add_sub_cancel_left]

/-- A sequence that is broken off stands for its bytes in either direction. -/
theorem decodeBefore_broken : decodeBefore [0x41, 0xE2, 0x82] 3 = (0x82, 1) :=
  @decodeBefore_sequences [0x41, 0xE2, 0x82] [(0x41, 1), (0xE2, 1)] [] (0x82, 1) (by decide)

end CtBrowser.Script.Regex
