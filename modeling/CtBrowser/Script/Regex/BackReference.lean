import CtBrowser.Core.Surrogates
import CtBrowser.Script.Regex.Backward
import CtBrowser.Script.Regex.Matcher

/-!
# Back-references and case

A literal of a pattern with `i` stands for the code points that have its fold: under `u` or `v` the simple case
fold, otherwise the lower case of ASCII. A back-reference is to repeat its capture folded like a literal. It goes
byte by byte, and folds ASCII alone whatever the flags: what has another simple case fold in common, it passes by.

## Main definitions

- `canonicalize` — what code points are compared by.
- `repeatAt` — where a repetition of captured code points leaves the position.

## Main results

- `litAt_eq` — a literal is compared by `canonicalize`.
- `backReference_folds` — a back-reference repeats its capture like that just where the two texts do not fold
  alike beyond ASCII.
- `backReference_longS` — `/(ſ)\1/iu` does not match "ſs".
-/

namespace CtBrowser.Script.Regex

open Utf16 (textOf textOf_append textOf_cons)

/-! ## Texts of code points -/

theorem sequences_textOf_append {cps : List ℕ} (hcps : ∀ c ∈ cps, c < 0x110000) (rest : Text) :
    sequences (textOf cps ++ rest) = written cps ++ sequences rest := by
  induction cps with
  | nil => rfl
  | cons c cps ih =>
    obtain ⟨hc, hcps⟩ := List.forall_mem_cons.mp hcps
    rw [textOf_cons, List.append_assoc, sequences_appendUtf8 (by omega), ih hcps]
    rfl

theorem map_fst_written (cps : List ℕ) : (written cps).map Prod.fst = cps := by
  rw [written, List.map_map]
  exact List.map_id cps

theorem isPrefix_of_textOf {a b : List ℕ} (ha : ∀ c ∈ a, c < 0x110000) (hb : ∀ c ∈ b, c < 0x110000)
    (h : textOf a <+: textOf b) : a <+: b := by
  obtain ⟨rest, hrest⟩ := h
  have hread := congrArg sequences hrest
  rw [sequences_textOf_append ha, textOf, sequences_flatMap hb] at hread
  have hpoints := congrArg (List.map Prod.fst) hread
  rw [List.map_append, map_fst_written, map_fst_written] at hpoints
  exact ⟨_, hpoints⟩

/-- And those whose text ends another one end its code points: a sequence begins with a byte that goes on with
none. -/
theorem isSuffix_of_textOf {a b : List ℕ} (ha : ∀ c ∈ a, c < 0x110000) (hb : ∀ c ∈ b, c < 0x110000)
    (h : textOf a <:+ textOf b) : a <:+ b := by
  obtain ⟨rest, hrest⟩ := h
  induction b generalizing rest with
  | nil =>
    have hnil := (List.append_eq_nil_iff.mp hrest).2
    cases a with
    | nil => exact List.suffix_rfl
    | cons c a =>
      obtain ⟨lead, tail, hbytes, -⟩ := appendUtf8_bytes (by have := ha c (List.mem_cons_self ..); omega : c < 0x200000)
      rw [textOf_cons, hbytes] at hnil
      cases hnil
  | cons p b ih =>
    have hp := hb p (List.mem_cons_self ..)
    rw [textOf_cons] at hrest
    rcases List.append_eq_append_iff.mp hrest with ⟨mid, hfront, hback⟩ | ⟨mid, hfront, hback⟩
    · -- the text begins in the first sequence
      cases rest with
      | nil =>
        rw [List.nil_append, ← textOf_cons] at hrest
        have hpre := isPrefix_of_textOf ha hb (hrest ▸ List.prefix_rfl)
        have hpre' := isPrefix_of_textOf hb ha (hrest ▸ List.prefix_rfl)
        rw [hpre.eq_of_length (le_antisymm hpre.length_le hpre'.length_le)]
      | cons b₀ rest =>
        cases mid with
        | nil => exact (ih (fun c hc => hb c (List.mem_cons_of_mem _ hc)) [] hback).trans (List.suffix_cons p b)
        | cons m mid =>
          -- not inside it
          obtain ⟨lead, tail, hbytes, -, htrail, -⟩ := appendUtf8_bytes (by omega : p < 0x200000)
          rw [hbytes] at hfront
          have hmem : m ∈ tail := by
            rw [(List.cons.inj hfront).2]
            exact List.mem_append_right _ (List.mem_cons_self ..)
          cases a with
          | nil => cases hback
          | cons c a =>
            have hc := ha c (List.mem_cons_self ..)
            obtain ⟨first, others, hfirst, hlead, -⟩ := appendUtf8_bytes (by omega : c < 0x200000)
            rw [textOf_cons, hfirst] at hback
            have hsame : first = m := (List.cons.inj hback).1
            exact absurd (htrail m hmem) (by rw [← hsame, hlead]; exact Bool.false_ne_true)
    · exact (ih (fun c hc => hb c (List.mem_cons_of_mem _ hc)) mid hback.symm).trans (List.suffix_cons p b)

/-! ## Lower case -/

/-- The lower case of an ASCII capital. -/
def lowerPoint (c : ℕ) : ℕ := if 'A'.toNat ≤ c ∧ c ≤ 'Z'.toNat then c + 0x20 else c

/-- What a code point is folded to byte by byte. -/
def foldPoint (icase : Bool) (c : ℕ) : ℕ := if icase then lowerPoint c else c

theorem lowerPoint_of_le {c : ℕ} (hc : 0x80 ≤ c) : lowerPoint c = c := if_neg fun h => by
  have hZ : 'Z'.toNat = 0x5A := rfl
  omega

theorem lowerPoint_lt {c : ℕ} (hc : c < 0x80) : lowerPoint c < 0x80 := by
  revert hc
  decide +revert

theorem rxFold_of_le {b : UInt8} (hb : 0x80 ≤ b.toNat) (icase : Bool) : rxFold b icase = b := by
  rw [rxFold, asciiLower]
  split_ifs with hcase hletter
  · have hZ : 'Z'.toNat = 0x5A := rfl
    omega
  · rfl
  · rfl

theorem appendUtf8_foldPoint {c : ℕ} (hc : c < 0x110000) (icase : Bool) :
    (appendUtf8 c).map (rxFold · icase) = appendUtf8 (foldPoint icase c) := by
  by_cases hascii : c < 0x80
  · have htable : ∀ n < 0x80, ∀ icase : Bool,
        (appendUtf8 n).map (fun b => rxFold b icase) = appendUtf8 (foldPoint icase n) := by decide
    exact htable c hascii icase
  · have hpoint : foldPoint icase c = c := by
      rw [foldPoint, lowerPoint_of_le (not_lt.mp hascii), ite_self]
    obtain ⟨lead, tail, hbytes, -, htrail, hlead⟩ := appendUtf8_bytes (by omega : c < 0x200000)
    rw [hpoint, hbytes]
    refine (List.map_congr_left fun b hb => ?_).trans (List.map_id _)
    refine rxFold_of_le ?_ icase
    rcases List.mem_cons.mp hb with rfl | hb
    · omega
    · exact ((isTrail_iff b).mp (htrail b hb)).1

theorem textOf_foldPoint {cps : List ℕ} (hcps : ∀ c ∈ cps, c < 0x110000) (icase : Bool) :
    (textOf cps).map (rxFold · icase) = textOf (cps.map (foldPoint icase)) := by
  induction cps with
  | nil => rfl
  | cons c cps ih =>
    obtain ⟨hc, hcps⟩ := List.forall_mem_cons.mp hcps
    rw [textOf_cons, List.map_append, appendUtf8_foldPoint hc, ih hcps, List.map_cons, textOf_cons]

theorem foldPoint_lt {icase : Bool} {cps : List ℕ} (hcps : ∀ c ∈ cps, c < 0x110000) :
    ∀ c ∈ cps.map (foldPoint icase), c < 0x110000 := by
  intro c hc
  obtain ⟨p, hp, rfl⟩ := List.mem_map.mp hc
  have hp := hcps p hp
  rw [foldPoint]
  split_ifs
  · by_cases hascii : p < 0x80
    · have := lowerPoint_lt hascii
      omega
    · rwa [lowerPoint_of_le (not_lt.mp hascii)]
  · exact hp

theorem length_textOf_foldPoint {cps : List ℕ} (hcps : ∀ c ∈ cps, c < 0x110000) (icase : Bool) :
    (textOf (cps.map (foldPoint icase))).length = (textOf cps).length := by
  rw [← textOf_foldPoint hcps, List.length_map]

theorem take_textOf_iff {a b : List ℕ} (ha : ∀ c ∈ a, c < 0x110000) (hb : ∀ c ∈ b, c < 0x110000) (icase : Bool) :
    ((textOf b).take (textOf a).length).map (rxFold · icase) = (textOf a).map (rxFold · icase) ↔
      (b.take a.length).map (foldPoint icase) = a.map (foldPoint icase) := by
  have hpre : textOf (a.map (foldPoint icase)) <+: textOf (b.map (foldPoint icase)) ↔
      a.map (foldPoint icase) <+: b.map (foldPoint icase) := by
    refine ⟨isPrefix_of_textOf (foldPoint_lt ha) (foldPoint_lt hb), ?_⟩
    rintro ⟨rest, hrest⟩
    exact ⟨textOf rest, by rw [← textOf_append, hrest]⟩
  rw [List.map_take, List.map_take, textOf_foldPoint ha, textOf_foldPoint hb, ← length_textOf_foldPoint ha icase]
  rw [List.prefix_iff_eq_take, List.prefix_iff_eq_take, List.length_map] at hpre
  exact eq_comm.trans (hpre.trans eq_comm)

theorem drop_textOf_iff {a b : List ℕ} (ha : ∀ c ∈ a, c < 0x110000) (hb : ∀ c ∈ b, c < 0x110000) (icase : Bool) :
    ((textOf b).drop ((textOf b).length - (textOf a).length)).map (rxFold · icase) = (textOf a).map (rxFold · icase) ↔
      (b.drop (b.length - a.length)).map (foldPoint icase) = a.map (foldPoint icase) := by
  have hsuf : textOf (a.map (foldPoint icase)) <:+ textOf (b.map (foldPoint icase)) ↔
      a.map (foldPoint icase) <:+ b.map (foldPoint icase) := by
    refine ⟨isSuffix_of_textOf (foldPoint_lt ha) (foldPoint_lt hb), ?_⟩
    rintro ⟨rest, hrest⟩
    exact ⟨textOf rest, by rw [← textOf_append, hrest]⟩
  rw [List.map_drop, List.map_drop, textOf_foldPoint ha, textOf_foldPoint hb, ← length_textOf_foldPoint ha icase,
    ← length_textOf_foldPoint hb icase]
  rw [List.suffix_iff_eq_drop, List.suffix_iff_eq_drop, List.length_map, List.length_map] at hsuf
  exact eq_comm.trans (hsuf.trans eq_comm)

theorem length_textOf_eq {a b : List ℕ} (ha : ∀ c ∈ a, c < 0x110000) (hb : ∀ c ∈ b, c < 0x110000) {icase : Bool}
    (h : a.map (foldPoint icase) = b.map (foldPoint icase)) : (textOf a).length = (textOf b).length := by
  rw [← length_textOf_foldPoint ha icase, h, length_textOf_foldPoint hb]

/-! ## Repetitions -/

/-- So many code points beside a position, on the side that is matched. -/
def beside (backward : Bool) (front back : List ℕ) (n : ℕ) : List ℕ :=
  if backward then front.drop (front.length - n) else back.take n

/-- The position past them. -/
def pastBeside (backward : Bool) (front back : List ℕ) (n : ℕ) : ℕ :=
  if backward then (textOf (front.take (front.length - n))).length else (textOf (front ++ back.take n)).length

/-- Where bytes leave the position, compared by their fold. -/
def bytesAt (s : Text) (backward icase : Bool) (pos : ℕ) (text : Text) : Option ℕ :=
  if (if backward then pos < text.length else pos + text.length > s.length) then none
  else
    let start := if backward then pos - text.length else pos
    if ((s.drop start).take text.length).map (rxFold · icase) = text.map (rxFold · icase) then
      some (advance backward pos text.length)
    else none

theorem advanceOver_eq {s : Text} {pos : ℕ} (hpos : pos ≤ s.length) (backward : Bool) (text : Text) :
    advanceOver s backward pos text = bytesAt s backward false pos text := by
  have hid (text : Text) : text.map (rxFold · false) = text := List.map_id text
  have hlength := @List.length_take _ text.length (s.drop pos)
  rw [List.length_drop] at hlength
  rw [advanceOver, bytesAt]
  cases backward with
  | false =>
    simp only [Bool.false_eq_true, if_false, hid, advance]
    by_cases htext : (s.drop pos).take text.length = text
    · rw [htext] at hlength
      rw [if_pos htext, if_neg (by omega)]
    · rw [if_neg htext, ite_self]
  | true =>
    simp only [if_true, hid, advance]
    by_cases hroom : text.length ≤ pos
    · rw [if_neg (not_lt.mpr hroom)]
      simp only [hroom, true_and]
    · rw [if_pos (not_le.mp hroom), if_neg fun h => hroom h.1]

theorem bytesAt_one {s : Text} {pos : ℕ} (hpos : pos ≤ s.length) (backward icase : Bool) (c : UInt8) :
    (if ¬ atEdge s backward pos ∧ rxFold (byteBeside s backward pos) icase = rxFold c icase then
        some (advance backward pos 1)
      else none) = bytesAt s backward icase pos [c] := by
  have hone {i : ℕ} (h : i < s.length) : (s.drop i).take 1 = [s.getD i 0] := by
    rw [List.drop_eq_getElem_cons h, List.getD_eq_getElem _ _ h]
    rfl
  have hmap (b : UInt8) : [b].map (rxFold · icase) = [c].map (rxFold · icase) ↔ rxFold b icase = rxFold c icase :=
    List.singleton_inj
  rw [bytesAt]
  cases backward with
  | false =>
    simp only [atEdge, byteBeside, Bool.false_eq_true, if_false, List.length_singleton, not_le]
    by_cases hroom : pos < s.length
    · simp only [hone hroom, hmap, hroom, true_and]
      rw [if_neg (not_lt.mpr (Nat.succ_le_of_lt hroom))]
    · rw [if_neg fun h => hroom h.1, if_pos (by omega)]
  | true =>
    simp only [atEdge, byteBeside, if_true, List.length_singleton]
    by_cases hroom : pos = 0
    · rw [if_neg fun h => h.1 hroom, if_pos (by omega)]
    · have hlast : pos - 1 < s.length := by omega
      have hfits : ¬ pos < 1 := by omega
      simp only [hone hlast, hmap, hroom, hfits, if_false, not_false_eq_true, true_and]

section BackReference

variable {x : Subject} {st : RxState} {front back : List ℕ} (hs : x.s = textOf (front ++ back))
  (hcps : ∀ c ∈ front ++ back, c < 0x110000)

include hs hcps in
/-- The text of code points leaves the position past as many of them, if they fold alike. -/
theorem bytesAt_textOf {cps : List ℕ} (hpart : ∀ c ∈ cps, c < 0x110000) (backward icase : Bool) :
    bytesAt x.s backward icase (textOf front).length (textOf cps) =
      if (beside backward front back cps.length).map (foldPoint icase) = cps.map (foldPoint icase) then
        some (pastBeside backward front back cps.length)
      else none := by
  have hfront : ∀ c ∈ front, c < 0x110000 := fun c hc => hcps c (List.mem_append_left _ hc)
  have hback : ∀ c ∈ back, c < 0x110000 := fun c hc => hcps c (List.mem_append_right _ hc)
  rw [bytesAt]
  cases backward with
  | false =>
    have hiff := take_textOf_iff hpart hback icase
    have htext : x.s.drop (textOf front).length = textOf back := by rw [hs, textOf_append, List.drop_left]
    simp only [beside, pastBeside, advance, Bool.false_eq_true, if_false, htext]
    by_cases hsame : (back.take cps.length).map (foldPoint icase) = cps.map (foldPoint icase)
    · have hsize := length_textOf_eq (fun c hc => hback c (List.mem_of_mem_take hc)) hpart hsame
      have hroom : ¬ (textOf front).length + (textOf cps).length > x.s.length := by
        have hwhole := congrArg (fun cps => (textOf cps).length) (List.take_append_drop cps.length back)
        rw [textOf_append, List.length_append] at hwhole
        rw [hs, textOf_append, List.length_append]
        omega
      rw [if_neg hroom, if_pos (hiff.mpr hsame), if_pos hsame, textOf_append, List.length_append, hsize]
    · rw [if_neg fun h => hsame (hiff.mp h), if_neg hsame, ite_self]
  | true =>
    have hiff := drop_textOf_iff hpart hfront icase
    simp only [beside, pastBeside, advance, if_true]
    have hwhole := congrArg (fun cps => (textOf cps).length) (List.take_append_drop (front.length - cps.length) front)
    rw [textOf_append, List.length_append] at hwhole
    have htext (hroom : ¬ (textOf front).length < (textOf cps).length) :
        (x.s.drop ((textOf front).length - (textOf cps).length)).take (textOf cps).length =
          (textOf front).drop ((textOf front).length - (textOf cps).length) := by
      rw [hs, textOf_append, List.drop_append_of_le_length (Nat.sub_le ..)]
      refine List.take_left' ?_
      rw [List.length_drop]
      omega
    by_cases hsame : (front.drop (front.length - cps.length)).map (foldPoint icase) = cps.map (foldPoint icase)
    · have hsize := length_textOf_eq (fun c hc => hfront c (List.mem_of_mem_drop hc)) hpart hsame
      have hroom : ¬ (textOf front).length < (textOf cps).length := by omega
      rw [if_neg hroom, htext hroom, if_pos (hiff.mpr hsame), if_pos hsame]
      exact congrArg some (by omega)
    · rw [if_neg hsame]
      split_ifs with hroom hbytes
      · rfl
      · rw [htext hroom] at hbytes
        exact absurd (hiff.mp hbytes) hsame
      · rfl

variable {before captured after : List ℕ} (hcaptured : front ++ back = before ++ captured ++ after) {cap : Option ℕ}
  {refName : Text}
  (href : referred x st cap refName = some ((textOf before).length, (textOf (before ++ captured)).length))

include hs hcps hcaptured href in
theorem backrefAt_eq :
    backrefAt x st (textOf front).length cap refName =
      if (beside st.backward front back captured.length).map (foldPoint st.icase) =
          captured.map (foldPoint st.icase) then
        some (pastBeside st.backward front back captured.length)
      else none := by
  have hpart : ∀ c ∈ captured, c < 0x110000 := fun c hc =>
    hcps c (hcaptured ▸ List.mem_append_left _ (List.mem_append_right _ hc))
  have hlen : (textOf (before ++ captured)).length - (textOf before).length = (textOf captured).length := by
    rw [textOf_append, List.length_append, Nat.add_sub_cancel_left]
  have hown : (x.s.drop (textOf before).length).take (textOf captured).length = textOf captured := by
    rw [hs, hcaptured, textOf_append, textOf_append, List.append_assoc, List.drop_left, List.take_left]
  rw [← bytesAt_textOf hs hcps hpart, backrefAt, href, bytesAt]
  dsimp only
  rw [hlen]
  simp only [hown, advance]
  cases st.backward <;> rfl

/-- What the code points of literals are compared by. -/
def Subject.canonicalize (x : Subject) (st : RxState) (c : ℕ) : ℕ :=
  if x.folds st then x.folding.foldSimple c else foldPoint st.icase c

/-- The position past a repetition of captured code points, compared like those of literals. -/
def repeatAt (x : Subject) (st : RxState) (front back captured : List ℕ) : Option ℕ :=
  if (beside st.backward front back captured.length).map (x.canonicalize st) = captured.map (x.canonicalize st) then
    some (pastBeside st.backward front back captured.length)
  else none

theorem foldSimple_lowerPoint {folding : CaseFolding} (hfolding : ∀ c < 0x80, folding.foldSimple c = lowerPoint c)
    (c : ℕ) : folding.foldSimple (lowerPoint c) = folding.foldSimple c := by
  by_cases hc : c < 0x80
  · have htwice : ∀ n < 0x80, lowerPoint (lowerPoint n) = lowerPoint n := by decide
    rw [hfolding c hc, hfolding _ (lowerPoint_lt hc), htwice c hc]
  · rw [lowerPoint_of_le (not_lt.mp hc)]

/-- The bytes that a pattern's literal for a code point is written as, where that is more than one. -/
def literalText (w : ℕ) : Text := if w < 0x80 then [] else appendUtf8 w

include hs hcps in
/-- The code point beside a position. -/
theorem decodeBeside_eq {c : ℕ} (h : beside st.backward front back 1 = [c]) :
    ¬ atEdge x.s st.backward (textOf front).length ∧
      decodeBeside x.s st.backward (textOf front).length = (c, (appendUtf8 c).length) ∧
        advance st.backward (textOf front).length (appendUtf8 c).length = pastBeside st.backward front back 1 := by
  have hread : sequences x.s = written (front ++ back) := by rw [hs, textOf, sequences_flatMap hcps]
  revert h
  cases st.backward with
  | false =>
    intro h
    obtain ⟨back, rfl⟩ : ∃ rest, back = c :: rest := by
      cases back with
      | nil => cases h
      | cons p rest => exact ⟨rest, congrArg (· :: rest) (List.cons.inj h).1⟩
    rw [written, List.map_append, List.map_cons] at hread
    have hdecode := Utf16.decodeAt_bytesOf hread
    have hinside := (sequence_lt_length hread).1
    rw [← written, Utf16.bytesOf_written] at hdecode hinside
    refine ⟨not_le.mpr hinside, hdecode, ?_⟩
    rw [pastBeside, if_neg Bool.false_ne_true, textOf_append, List.length_append, List.take_succ_cons, textOf_cons]
    exact congrArg (_ + ·) (congrArg List.length (List.append_nil _).symm)
  | true =>
    intro h
    obtain ⟨front, rfl⟩ : ∃ rest, front = rest ++ [c] := by
      rcases List.eq_nil_or_concat' front with rfl | ⟨rest, p, rfl⟩
      · cases h
      · rw [beside, if_pos rfl, List.length_append, List.length_singleton, Nat.add_sub_cancel, List.drop_left] at h
        exact ⟨rest, h ▸ rfl⟩
    rw [List.append_assoc, List.singleton_append, written, List.map_append, List.map_cons] at hread
    have hdecode := decodeBefore_sequences hread
    have hwidth := (sequence_lt_length hread).2
    rw [← written, Utf16.bytesOf_written] at hdecode
    have hpos : (textOf (front ++ [c])).length = (textOf front).length + (appendUtf8 c).length := by
      rw [textOf_append, List.length_append, textOf_cons]
      exact congrArg (_ + ·) (congrArg List.length (List.append_nil _))
    rw [hpos]
    refine ⟨fun hedge => ?_, hdecode, ?_⟩
    · have hzero : (textOf front).length + (appendUtf8 c).length = 0 := hedge
      dsimp only at hwidth
      omega
    · rw [pastBeside, if_pos rfl, List.length_append, List.length_singleton, Nat.add_sub_cancel, List.take_left]
      exact Nat.add_sub_cancel ..

include hs in
theorem atEdge_of_beside (h : beside st.backward front back 1 = []) : atEdge x.s st.backward (textOf front).length := by
  revert h
  cases st.backward with
  | false =>
    intro h
    have hback : back = [] := (List.take_eq_nil_iff.mp h).resolve_left one_ne_zero
    rw [atEdge, if_neg Bool.false_ne_true, hs, hback, List.append_nil]
  | true =>
    intro h
    have hfront : front = [] := by
      have := List.drop_eq_nil_iff.mp h
      exact List.eq_nil_of_length_eq_zero (by omega)
    rw [hfront]
    rfl

theorem beside_one (backward : Bool) : beside backward front back 1 = [] ∨ ∃ c, beside backward front back 1 = [c] := by
  have hlength : (beside backward front back 1).length ≤ 1 := by
    rw [beside]
    split_ifs
    · rw [List.length_drop]
      omega
    · exact List.length_take_le ..
  rcases h : beside backward front back 1 with _ | ⟨c, _ | _⟩
  · exact .inl rfl
  · exact .inr ⟨c, rfl⟩
  · rw [h] at hlength
    simp at hlength

theorem foldPoint_eq_iff {w : ℕ} (hw : 0x80 ≤ w) (icase : Bool) (c : ℕ) :
    foldPoint icase c = foldPoint icase w ↔ c = w := by
  refine ⟨fun h => ?_, congrArg _⟩
  rw [foldPoint, foldPoint, lowerPoint_of_le hw, ite_self] at h
  split_ifs at h
  · by_cases hc : c < 0x80
    · exact absurd (lowerPoint_lt hc) (h ▸ not_lt.mpr hw)
    · rwa [lowerPoint_of_le (not_lt.mp hc)] at h
  · exact h

theorem literal_read {w : ℕ} (hw : w < 0x110000) :
    (if literalText w = [] then ((byte w).toNat, 0) else decodeAt (literalText w) 0).1 = w ∧
      (literalText w = [] ∨
        (if literalText w = [] then ((byte w).toNat, 0) else decodeAt (literalText w) 0).2 = (literalText w).length) := by
  by_cases hascii : w < 0x80
  · have hnil : literalText w = [] := if_pos hascii
    rw [hnil, if_pos rfl]
    exact ⟨toNat_byte (by omega), .inl rfl⟩
  · have htext : literalText w = appendUtf8 w := if_neg hascii
    obtain ⟨lead, tail, hwrite, hread⟩ := decodeUtf8_appendUtf8 (by omega : w < 0x200000) []
    rw [List.append_nil, hwrite] at hread
    rw [htext, hwrite, if_neg (List.cons_ne_nil lead tail)]
    exact ⟨congrArg Prod.fst hread, .inr (congrArg Prod.snd hread)⟩

include hs hcps in
/-- A literal is where its code point is repeated. -/
theorem litAt_eq {w : ℕ} (hw : w < 0x110000) :
    litAt x st (textOf front).length (byte w) (literalText w) = repeatAt x st front back [w] := by
  have hpos : (textOf front).length ≤ x.s.length := by
    rw [hs, textOf_append, List.length_append]
    exact Nat.le_add_right ..
  have hone : ∀ c ∈ [w], c < 0x110000 := fun c hc => by rwa [List.mem_singleton.mp hc]
  have hbytes := bytesAt_textOf hs hcps hone st.backward
  have htext : textOf [w] = appendUtf8 w := by rw [textOf_cons]; exact List.append_nil _
  obtain ⟨lead, tail, hwrite, hread⟩ := decodeUtf8_appendUtf8 (by omega : w < 0x200000) []
  rw [htext] at hbytes
  have hwide (hlarge : ¬ w < 0x80) (icase : Bool) :
      advanceOver x.s st.backward (textOf front).length (appendUtf8 w) =
        if (beside st.backward front back 1).map (foldPoint icase) = [w].map (foldPoint icase) then
          some (pastBeside st.backward front back 1)
        else none := by
    rw [advanceOver_eq hpos, hbytes]
    rcases @beside_one front back st.backward with hnone | ⟨c, hc⟩
    · rw [List.length_singleton, hnone]
      rfl
    · rw [List.length_singleton, hc]
      simp only [List.map_cons, List.map_nil, List.singleton_inj, foldPoint_eq_iff (not_lt.mp hlarge)]
  by_cases hfolds : x.folds st = true
  · have hcanon : x.canonicalize st = x.folding.foldSimple := funext fun c => if_pos hfolds
    rw [repeatAt, hcanon, litAt, List.length_singleton]
    dsimp only
    rcases @beside_one front back st.backward with hnone | ⟨c, hc⟩
    · have hedge := atEdge_of_beside hs hnone
      rw [if_neg fun h => h.2.1 hedge]
      by_cases hascii : w < 0x80
      · have hnil : literalText w = [] := if_pos hascii
        rw [if_neg (not_not.mpr hnil), if_neg fun h => h.1 hedge, hnone]
        rfl
      · have hspelled : literalText w = appendUtf8 w := if_neg hascii
        rw [hspelled, if_pos (by rw [hwrite]; rintro ⟨⟩), hwide hascii false, hnone]
        rfl
    · obtain ⟨hedge, hdecode, hadvance⟩ := decodeBeside_eq hs hcps hc
      rw [if_pos ⟨hfolds, hedge, (literal_read hw).2⟩, (literal_read hw).1, hdecode, hadvance, hc]
      simp only [List.map_cons, List.map_nil, List.singleton_inj]
  · have hcanon : x.canonicalize st = foldPoint st.icase := funext fun c => if_neg hfolds
    rw [litAt, if_neg fun h => hfolds h.1, repeatAt, hcanon]
    by_cases hascii : w < 0x80
    · have hbyte : appendUtf8 w = [byte w] := if_pos hascii
      rw [literalText, if_pos hascii, if_neg (not_not.mpr rfl), bytesAt_one hpos, ← hbyte, hbytes]
    · rw [literalText, if_neg hascii, if_pos (by rw [hwrite]; rintro ⟨⟩), hwide hascii st.icase]
      rfl

include hs hcps hcaptured href in
/-- A back-reference repeats its capture like literals, unless the text beside it has the simple case folds of the
capture and is another one beyond ASCII case. -/
theorem backReference_folds (hfolding : ∀ c < 0x80, x.folding.foldSimple c = lowerPoint c) :
    backrefAt x st (textOf front).length cap refName = repeatAt x st front back captured ↔
      (x.folds st = true →
        (beside st.backward front back captured.length).map x.folding.foldSimple =
            captured.map x.folding.foldSimple →
          (beside st.backward front back captured.length).map lowerPoint = captured.map lowerPoint) := by
  have hfolds : x.folds st = true → foldPoint st.icase = lowerPoint := by
    intro h
    funext c
    rw [foldPoint, if_pos (Bool.and_eq_true_iff.mp h).1]
  rw [backrefAt_eq hs hcps hcaptured href, repeatAt]
  by_cases h : x.folds st = true
  · have hcanon : x.canonicalize st = x.folding.foldSimple := funext fun c => if_pos h
    rw [hcanon, hfolds h]
    have hmap (cps : List ℕ) : cps.map x.folding.foldSimple = (cps.map lowerPoint).map x.folding.foldSimple := by
      rw [List.map_map]
      exact List.map_congr_left fun c _ => (foldSimple_lowerPoint hfolding c).symm
    by_cases hlower : (beside st.backward front back captured.length).map lowerPoint = captured.map lowerPoint
    · rw [if_pos hlower, if_pos (by rw [hmap, hlower, ← hmap])]
      exact iff_of_true rfl fun _ _ => hlower
    · rw [if_neg hlower]
      split_ifs with hfold
      · exact iff_of_false (by rintro ⟨⟩) fun himp => hlower (himp h hfold)
      · exact iff_of_true rfl fun _ hfold' => absurd hfold' hfold
  · have hcanon : x.canonicalize st = foldPoint st.icase := funext fun c => if_neg h
    rw [hcanon]
    exact iff_of_true rfl fun hfold => absurd hfold h

end BackReference

/-! ## A long s -/

/-- The folds that the long s shares: it has that of an `s`. -/
def longFolding : CaseFolding := ⟨fun c => if c = 0x17F then 0x73 else lowerPoint c, fun _ => []⟩

/-- The pattern `/(ſ)\1/iu` on "ſs". -/
def longS (second : Atom) : Subject :=
  let root : RxAlt := [[.mk (.grp [[.mk (.lit 0 [0xC5, 0xBF]) ⟨1, some 1, true, 0, 0⟩]] (some 0) ⟨false, false, false⟩
      ⟨false, false, false⟩) ⟨1, some 1, true, 0, 1⟩,
    .mk second ⟨1, some 1, true, 1, 1⟩]]
  ⟨textOf [0x17F, 0x73], ⟨root, 1, true, false, false, true, false, []⟩, longFolding⟩

/-- The state behind the long s. -/
def behindLongS (second : Atom) : RxState := { startState (longS second).p 0 with caps := [some (0, 2)] }

theorem backReference_longS :
    let x := longS (.backref (some 0) [])
    let st := behindLongS (.backref (some 0) [])
    backrefAt x st 2 (some 0) [] = none ∧ repeatAt x st [0x17F] [0x73] [0x17F] = some 3 ∧
      (attempt ⟨2500, 10000000, 10000000⟩ x 10000000 0 0).hit = none ∧
      (attempt ⟨2500, 10000000, 10000000⟩ (longS (.lit 0 [0xC5, 0xBF])) 10000000 0 0).hit = some 3 := by
  decide +kernel

theorem backReference_folds_letters :
    let x := longS (.backref (some 0) [])
    let st := behindLongS (.backref (some 0) [])
    backrefAt x st 2 (some 0) [] = repeatAt x st [0x17F] [0x73] [0x17F] ↔
      (x.folds st = true → [0x73].map x.folding.foldSimple = [0x17F].map x.folding.foldSimple →
        [0x73].map lowerPoint = [0x17F].map lowerPoint) := by
  have hfolding : ∀ c < 0x80, longFolding.foldSimple c = lowerPoint c := fun c hc => if_neg (by omega)
  have hread : referred (longS (.backref (some 0) [])) (behindLongS (.backref (some 0) [])) (some 0) [] =
      some ((textOf []).length, (textOf ([] ++ [0x17F])).length) := by decide
  have hcps : ∀ c ∈ [0x17F] ++ [0x73], c < 0x110000 := by decide
  exact @backReference_folds (longS (.backref (some 0) [])) _ [0x17F] [0x73] rfl hcps [] [0x17F] [0x73] rfl _ _ hread
    hfolding

end CtBrowser.Script.Regex
