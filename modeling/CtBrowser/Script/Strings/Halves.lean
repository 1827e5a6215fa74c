import CtBrowser.Core.Surrogates
import CtBrowser.Script.Strings.Units

/-!
# Pairs as halves

A regular expression without `u` or `v` walks code units, so its pattern and its input are texts in
which every pair stands as its two halves. Nothing keeps that form: joining gives the text back.

## Main definitions

- `hasPair`, `splitPairs` — whether a text has a pair, and the text with its pairs split.

## Main results

- `splitPairs_textOf` — the split text writes each unit on its own.
- `halves_meet` — joining is the concatenation of the units, and the inverse of splitting.
-/

namespace CtBrowser.Script.Utf16

/-- Whether a text holds a code point above U+FFFF, which a byte from 0xF0 on leads. -/
def hasPair (s : Text) : Bool := s.any fun c => 0xF0 ≤ c.toNat

/-- The walk that splits: a pair is written as its halves, and anything else as it stood. -/
def splitWalk : List (ℕ × ℕ) → Text → Text
  | [], _ => []
  | (cp, width) :: points, s =>
    (if cp < 0x10000 then s.take width
      else appendUtf8 (codeUnit cp 0).toNat ++ appendUtf8 (codeUnit cp 1).toNat) ++
      splitWalk points (s.drop width)

/-- The same units with every pair written as its two halves. -/
def splitPairs (s : Text) : Text := if hasPair s then splitWalk (sequences s) s else s

/-- The text that writes each unit on its own. -/
def textOfUnits (units : List UInt16) : Text := textOf (units.map UInt16.toNat)

theorem textOfUnits_append (front back : List UInt16) :
    textOfUnits (front ++ back) = textOfUnits front ++ textOfUnits back := by
  rw [textOfUnits, List.map_append, textOf_append]
  rfl

theorem textOfUnits_point {cp : ℕ} (hcp : cp < 0x10000) : textOfUnits (pointUnits cp) = appendUtf8 cp := by
  rw [pointUnits, if_neg (by omega), textOfUnits, List.map_singleton, toNat_toUInt16 hcp]
  exact List.append_nil _

theorem splitWalk_textOf {cps : List ℕ} (hcps : ∀ cp ∈ cps, cp < 0x110000) :
    splitWalk (written cps) (textOf cps) = textOfUnits (unitsFor cps) := by
  induction cps with
  | nil => rfl
  | cons cp cps ih =>
    obtain ⟨hcp, hcps⟩ := List.forall_mem_cons.mp hcps
    rw [written, List.map_cons, ← written, splitWalk, textOf_cons, List.drop_left, List.take_left, ih hcps,
      unitsFor_cons, textOfUnits_append]
    congr 1
    split_ifs with hpair
    · rw [textOfUnits_point hpair]
    · rw [pointUnits_eq, if_pos (by omega)]
      exact congrArg _ (List.append_nil _).symm

theorem lt_of_hasPair {cps : List ℕ} (hcps : ∀ cp ∈ cps, cp < 0x110000) (h : ¬ hasPair (textOf cps)) :
    ∀ cp ∈ cps, cp < 0x10000 := by
  intro cp hmem
  by_contra hpair
  have hcp := hcps cp hmem
  have hlead := lead_toNat.2.2 (shiftRight_lt (by norm_num; omega) : cp >>> 18 < 8)
  refine h (List.any_eq_true.mpr ⟨byte (0xF0 ||| cp >>> 18), ?_, decide_eq_true (by omega)⟩)
  refine List.mem_flatMap.mpr ⟨cp, hmem, ?_⟩
  rw [appendUtf8, if_neg (by omega), if_neg (by omega), if_neg hpair]
  exact List.mem_cons_self ..

/-- The split text writes each unit on its own. -/
theorem splitPairs_textOf {cps : List ℕ} (hcps : ∀ cp ∈ cps, cp < 0x110000) :
    splitPairs (textOf cps) = textOfUnits (unitsFor cps) := by
  have hwalk := splitWalk_textOf hcps
  rw [splitPairs]
  split_ifs with hpair
  · rw [← hwalk, textOf, sequences_flatMap hcps]
  · have hsmall := lt_of_hasPair hcps hpair
    clear hwalk hpair
    induction cps with
    | nil => rfl
    | cons cp cps ih =>
      obtain ⟨hcp, hsmall⟩ := List.forall_mem_cons.mp hsmall
      rw [textOf_cons, unitsFor_cons, textOfUnits_append, textOfUnits_point hcp,
        ih (List.forall_mem_cons.mp hcps).2 hsmall]

theorem lt_of_mem_units {units : List UInt16} : ∀ cp ∈ units.map UInt16.toNat, cp < 0x110000 := by
  intro cp hcp
  obtain ⟨u, -, rfl⟩ := List.mem_map.mp hcp
  exact u.toNat_lt.trans (by norm_num)

theorem flatMap_units (units : List UInt16) : (units.map UInt16.toNat).flatMap pointUnits = units := by
  rw [List.flatMap_map, funext pointUnits_toNat, List.flatMap_singleton']

theorem joinSurrogates_textOfUnits (units : List UInt16) :
    joinSurrogates (textOfUnits units) = utf16ToWtf8 units := by
  rw [textOfUnits, textOf, joinSurrogates_flatMap lt_of_mem_units, flatMap_units]

theorem wtf8ToUtf16_textOfUnits (units : List UInt16) : wtf8ToUtf16 (textOfUnits units) = units := by
  rw [textOfUnits, textOf, wtf8ToUtf16_flatMap lt_of_mem_units, flatMap_units]

/-- The texts of two sequences of units are joined to the text of all of them. A split text has the same
units, and joining it gives the text back. -/
theorem halves_meet (u v : List UInt16) :
    joinSurrogates (utf16ToWtf8 u ++ utf16ToWtf8 v) = utf16ToWtf8 (u ++ v) ∧
      wtf8ToUtf16 (splitPairs (utf16ToWtf8 u)) = u ∧
      joinSurrogates (splitPairs (utf16ToWtf8 u)) = utf16ToWtf8 u := by
  have hsplit : splitPairs (utf16ToWtf8 u) = textOfUnits u := by
    rw [utf16ToWtf8, ← textOf, splitPairs_textOf (joined_joined u).bounded, unitsFor, joined_flatMap]
  rw [hsplit]
  exact ⟨joinSurrogates_utf16ToWtf8 u v, wtf8ToUtf16_textOfUnits u, joinSurrogates_textOfUnits u⟩

end CtBrowser.Script.Utf16
