import CtBrowser.Script.Regex.Matcher

/-!
# The loops of the matcher move on

The matcher repeats an atom in a loop over the subject. A turn of the loop takes some of what is left.

## Main definitions

- `Advances` — a part of a pattern that takes some of what is left.

## Main results

- `exists_advances` — an atom that takes one character is one.
-/

namespace CtBrowser.Script.Regex

/-- What is left of the subject on the side that is matched. -/
def remaining (s : Text) (backward : Bool) (pos : ℕ) : ℕ := if backward then pos else s.length - pos

/-- Takes some of what is left. -/
def Advances (s : Text) (next : RxState → ℕ → Option ℕ) : Prop :=
  ∀ st pos r, next st pos = some r → remaining s st.backward r < remaining s st.backward pos

theorem decodeBefore_width {s : Text} {stop : ℕ} (hstop : 0 < stop) : 1 ≤ (decodeBefore s stop).2 := by
  have hle := sequenceStart_le s stop (stop - 1)
  rw [decodeBefore]
  split_ifs
  · exact le_rfl
  · dsimp only
    omega

theorem decodeAt_width {s : Text} {pos : ℕ} (hpos : pos < s.length) :
    1 ≤ (decodeAt s pos).2 ∧ pos + (decodeAt s pos).2 ≤ s.length := by
  have hlength := @List.length_drop _ pos s
  rw [decodeAt]
  cases h : s.drop pos with
  | nil =>
    rw [h, List.length_nil] at hlength
    omega
  | cons lead rest =>
    obtain ⟨hwidth, hle, -⟩ := decodeUtf8_width lead rest
    rw [h, List.length_cons] at hlength
    dsimp only
    exact ⟨hwidth, by omega⟩

theorem remaining_advance_decode {s : Text} {backward : Bool} {pos : ℕ} (h : ¬ atEdge s backward pos) :
    remaining s backward (advance backward pos (decodeBeside s backward pos).2) < remaining s backward pos := by
  cases backward with
  | true =>
    have hpos : 0 < pos := Nat.pos_of_ne_zero h
    have hwidth := @decodeBefore_width s pos hpos
    show pos - (decodeBefore s pos).2 < pos
    omega
  | false =>
    have hpos : pos < s.length := Nat.not_le.mp h
    obtain ⟨hwidth, hle⟩ := decodeAt_width hpos
    show s.length - (pos + (decodeAt s pos).2) < s.length - pos
    omega

theorem remaining_advance_one {s : Text} {backward : Bool} {pos : ℕ} (h : ¬ atEdge s backward pos) :
    remaining s backward (advance backward pos 1) < remaining s backward pos := by
  cases backward with
  | true =>
    have hpos : 0 < pos := Nat.pos_of_ne_zero h
    exact Nat.sub_lt hpos one_pos
  | false =>
    have hpos : pos < s.length := Nat.not_le.mp h
    show s.length - (pos + 1) < s.length - pos
    omega

theorem remaining_advanceOver {s : Text} {backward : Bool} {pos r : ℕ} {text : Text} (htext : text ≠ [])
    (h : advanceOver s backward pos text = some r) : remaining s backward r < remaining s backward pos := by
  have hn : 0 < text.length := List.length_pos_of_ne_nil htext
  rw [advanceOver] at h
  cases backward with
  | true =>
    rw [if_pos rfl, Option.ite_none_right_eq_some] at h
    obtain ⟨hthere, ⟨⟩⟩ := h
    exact Nat.sub_lt (hn.trans_le hthere.1) hn
  | false =>
    rw [if_neg Bool.false_ne_true, Option.ite_none_right_eq_some] at h
    obtain ⟨hthere, ⟨⟩⟩ := h
    have hlength := congrArg List.length hthere
    rw [List.length_take, List.length_drop] at hlength
    show s.length - (pos + text.length) < s.length - pos
    omega

theorem advances_litAt (x : Subject) (c : UInt8) (text : Text) :
    Advances x.s fun st pos => litAt x st pos c text := by
  intro st pos r h
  dsimp only at h
  rw [litAt] at h
  generalize (if text = [] then (c.toNat, 0) else decodeAt text 0) = want at h
  dsimp only at h
  by_cases hfolds : x.folds st ∧ ¬ atEdge x.s st.backward pos ∧ (text = [] ∨ want.2 = text.length)
  · rw [if_pos hfolds, Option.ite_none_right_eq_some] at h
    obtain ⟨-, ⟨⟩⟩ := h
    exact remaining_advance_decode hfolds.2.1
  rw [if_neg hfolds] at h
  by_cases htext : text ≠ []
  · rw [if_pos htext] at h
    exact remaining_advanceOver htext h
  · rw [if_neg htext, Option.ite_none_right_eq_some] at h
    obtain ⟨⟨hedge, -⟩, ⟨⟩⟩ := h
    exact remaining_advance_one hedge

theorem advances_anyAt (x : Subject) : Advances x.s fun st pos => anyAt x st pos := by
  intro st pos r h
  dsimp only at h
  rw [anyAt, Option.ite_none_left_eq_some] at h
  obtain ⟨hedge, h⟩ := h
  dsimp only at h
  rw [Option.ite_none_left_eq_some] at h
  obtain ⟨-, ⟨⟩⟩ := h
  exact remaining_advance_decode hedge

theorem advances_classAt (x : Subject) (cc : RxClass) : Advances x.s fun st pos => classAt x st pos cc := by
  intro st pos r h
  dsimp only at h
  rw [classAt, Option.ite_none_left_eq_some] at h
  obtain ⟨hedge, h⟩ := h
  dsimp only at h
  rw [Option.ite_none_right_eq_some] at h
  obtain ⟨-, ⟨⟩⟩ := h
  exact remaining_advance_decode hedge

/-- An atom that takes one character takes some of what is left. -/
theorem exists_advances {lim : Limits} {x : Subject} {atom : Atom} (h : atom.simple = true) :
    ∃ next, matchAtom lim x atom = single next ∧ Advances x.s next := by
  cases atom with
  | lit c text => exact ⟨_, rfl, advances_litAt x c text⟩
  | any => exact ⟨_, rfl, advances_anyAt x⟩
  | cls cc =>
    have hnil : cc.strings = [] := List.isEmpty_iff.mp h
    refine ⟨_, ?_, advances_classAt x cc⟩
    rw [matchAtom, hnil, tryStrings]
  | _ => cases h

theorem remaining_le {s : Text} {backward : Bool} {pos : ℕ} (hpos : pos ≤ s.length) :
    remaining s backward pos ≤ s.length := by
  rw [remaining]
  split_ifs
  · exact hpos
  · exact Nat.sub_le ..

end CtBrowser.Script.Regex
