import CtBrowser.Core.Utf16

/-!
# UTF-16 views of a text

What a script sees of a string is its code units: `length`, an index and a position count them. A
code point above U+FFFF is two, and a slice that splits one leaves each half as the surrogate it
is. All of it is worked out over the bytes, by walking their sequences.

## Main definitions

- `Position`, `locateUnit` — where a unit lives, and the walk that finds it.
- `lengthInUnits`, `unitAt`, `sliceUnits` — the length, the unit and the slice.

## Main results

- `locateUnit_boundary`, `locateUnit_inside` — the walk stops at the code point, or inside it.
- `lengthInUnits_eq` — the length is that of the units a text is read as.
- `sliceUnits_flatMap` — a slice of joined code points is the text of their units.
-/

namespace CtBrowser.Script.Utf16

/-- The number of units in a code point. -/
def unitsOf (cp : ℕ) : ℕ := if 0x10000 ≤ cp then 2 else 1

/-- Unit `half` of a code point: itself, or its first or second half. -/
def codeUnit (cp half : ℕ) : UInt16 :=
  if cp < 0x10000 then cp.toUInt16
  else
    let v := cp - 0x10000
    if half = 0 then (0xD800 + v >>> 10).toUInt16 else (0xDC00 + (v &&& 0x3FF)).toUInt16

/-- Bytes as the number they are in memory. -/
def word : Text → ℕ
  | [] => 0
  | b :: rest => b.toNat + 256 * word rest

/-- Whether every byte is below 0x80, so many words first and then byte by byte. -/
def isAsciiFrom : ℕ → Text → Bool
  | 0, s => s.all fun b => b.toNat < 0x80
  | words + 1, s =>
    if word (s.take 8) &&& 0x8080808080808080 ≠ 0 then false else isAsciiFrom words (s.drop 8)

/-- Whether every byte is below 0x80, eight of them at a time. -/
def isAscii (s : Text) : Bool := isAsciiFrom (s.length / 8) s

/-- The number of units in some code points. -/
def unitsIn (points : List (ℕ × ℕ)) : ℕ := (points.map fun p => unitsOf p.1).sum

/-- The length in code units. -/
def lengthInUnits (s : Text) : ℕ := if isAscii s then s.length else unitsIn (sequences s)

/-- Where a unit lives: the byte its code point starts at, and whether it is the second half. -/
structure Position where
  byte : ℕ
  lowHalf : Bool
deriving DecidableEq, Repr

/-- The walk over the code points from `byte`, where unit `unit` begins. -/
def walk (size i : ℕ) : List (ℕ × ℕ) → ℕ → ℕ → Position
  | [], _, _ => ⟨size, false⟩
  | (cp, width) :: rest, byte, unit =>
    let n := unitsOf cp
    if i < unit + n then ⟨byte, i ≠ unit⟩ else walk size i rest (byte + width) (unit + n)

/-- Where unit `i` lives, walked from a code point known to begin at or before it. -/
def locateUnit (s : Text) (i byte unit : ℕ) : Position :=
  walk s.length i (sequences (s.drop byte)) byte unit

/-- The unit at a position. -/
def unitAt (s : Text) (pos : Position) : UInt16 :=
  codeUnit (decodeAt s pos.byte).1 (if pos.lowHalf then 1 else 0)

/-- The units between two positions. A pair split by either edge leaves its half behind. -/
def sliceUnits (s : Text) (start stop : Position) : Text :=
  let one := decodeAt s start.byte
  let head := if start.lowHalf then appendUtf8 (codeUnit one.1 1).toNat else []
  let first := if start.lowHalf then start.byte + one.2 else start.byte
  let middle := if stop.byte > first then (s.drop first).take (stop.byte - first) else []
  let tail := if stop.lowHalf then appendUtf8 (codeUnit (decodeAt s stop.byte).1 0).toNat else []
  head ++ middle ++ tail

/-! ## Bytes that are units -/

theorem and_add_mul {b m : ℕ} (hb : b < 256) (hm : m < 256) (w n : ℕ) :
    (b + 256 * w) &&& (m + 256 * n) = (b &&& m) + 256 * (w &&& n) := by
  have hmod : (b + 256 * w &&& m + 256 * n) % 2 ^ 8 = b &&& m := by
    rw [Nat.and_mod_two_pow]
    congr 1 <;> omega
  have hdiv : (b + 256 * w &&& m + 256 * n) / 2 ^ 8 = w &&& n := by
    rw [Nat.and_div_two_pow]
    congr 1 <;> omega
  rw [← hmod, ← hdiv]
  exact (Nat.mod_add_div _ (2 ^ 8)).symm

theorem and_0x80 {b : ℕ} (hb : b < 256) : b &&& 0x80 = 0 ↔ b < 0x80 := by
  revert b
  decide +kernel

theorem word_and (bytes : Text) :
    word bytes &&& word (List.replicate bytes.length 0x80) = 0 ↔ ∀ b ∈ bytes, b.toNat < 0x80 := by
  induction bytes with
  | nil => exact ⟨fun _ _ h => absurd h List.not_mem_nil, fun _ => rfl⟩
  | cons b bytes ih =>
    have hmark : (0x80 : UInt8).toNat = 0x80 := rfl
    rw [List.length_cons, List.replicate_succ, word, word, hmark,
      and_add_mul b.toNat_lt (by norm_num), List.forall_mem_cons, ← and_0x80 b.toNat_lt]
    rw [← ih]
    omega

theorem isAsciiFrom_eq (words : ℕ) {s : Text} (h : words * 8 ≤ s.length) :
    isAsciiFrom words s = s.all fun b => b.toNat < 0x80 := by
  induction words generalizing s with
  | zero => rfl
  | succ words ih =>
    have hlength : (s.take 8).length = 8 := by
      rw [List.length_take]
      omega
    have hmask : (0x8080808080808080 : ℕ) = word (List.replicate (s.take 8).length 0x80) := by
      rw [hlength]
      rfl
    rw [isAsciiFrom, ih (by rw [List.length_drop]; omega)]
    conv_rhs => rw [← List.take_append_drop 8 s, List.all_append]
    split_ifs with hword
    · rw [hmask, ne_eq, word_and] at hword
      symm
      rw [Bool.and_eq_false_iff]
      left
      rw [Bool.eq_false_iff]
      exact fun hall => hword fun b hb => of_decide_eq_true (List.all_eq_true.mp hall b hb)
    · rw [hmask, ne_eq, not_not, word_and] at hword
      rw [List.all_eq_true.mpr fun b hb => decide_eq_true (hword b hb), Bool.true_and]

theorem isAscii_eq (s : Text) : isAscii s = s.all fun b => b.toNat < 0x80 :=
  isAsciiFrom_eq _ (Nat.div_mul_le_self ..)

theorem sequences_of_ascii {s : Text} (hs : ∀ b ∈ s, b.toNat < 0x80) :
    sequences s = s.map fun b => (b.toNat, 1) := by
  induction s with
  | nil => rfl
  | cons b s ih =>
    obtain ⟨hb, hs⟩ := List.forall_mem_cons.mp hs
    have hone : decodeUtf8 b s = (b.toNat, 1) := if_pos hb
    rw [sequences_cons, hone, List.drop_succ_cons, List.drop_zero, ih hs, List.map_cons]

/-! ## Counting units -/

@[simp]
theorem unitsIn_nil : unitsIn [] = 0 := rfl

@[simp]
theorem unitsIn_cons (p : ℕ × ℕ) (points : List (ℕ × ℕ)) :
    unitsIn (p :: points) = unitsOf p.1 + unitsIn points := by
  rw [unitsIn, List.map_cons, List.sum_cons]
  rfl

@[simp]
theorem unitsIn_append (front back : List (ℕ × ℕ)) :
    unitsIn (front ++ back) = unitsIn front + unitsIn back := by
  rw [unitsIn, List.map_append, List.sum_append]
  rfl

theorem bytesOf_append (front back : List (ℕ × ℕ)) :
    bytesOf (front ++ back) = bytesOf front + bytesOf back := by
  rw [bytesOf, List.map_append, List.sum_append]
  rfl

theorem unitsOf_pos (cp : ℕ) : 1 ≤ unitsOf cp := by
  rw [unitsOf]
  split_ifs <;> omega

theorem pointUnits_eq (cp : ℕ) : pointUnits cp =
    if 0x10000 ≤ cp then [codeUnit cp 0, codeUnit cp 1] else [codeUnit cp 0] := by
  by_cases hpair : 0x10000 ≤ cp
  · have hcode : ∀ half, codeUnit cp half = if half = 0 then (0xD800 + (cp - 0x10000) >>> 10).toUInt16
        else (0xDC00 + ((cp - 0x10000) &&& 0x3FF)).toUInt16 := fun half => if_neg (Nat.not_lt.mpr hpair)
    rw [pointUnits, if_pos hpair, if_pos hpair, hcode 0, hcode 1, if_pos rfl, if_neg one_ne_zero]
  · rw [pointUnits, if_neg hpair, if_neg hpair, codeUnit, if_pos (Nat.not_le.mp hpair)]

theorem length_pointUnits (cp : ℕ) : (pointUnits cp).length = unitsOf cp := by
  rw [pointUnits_eq, unitsOf]
  split_ifs <;> rfl

theorem length_units (points : List (ℕ × ℕ)) :
    (points.flatMap fun p => pointUnits p.1).length = unitsIn points := by
  rw [List.length_flatMap, unitsIn]
  congr 1
  exact List.map_congr_left fun p _ => length_pointUnits p.1

/-- The length is that of the units a text is read as. -/
theorem lengthInUnits_eq (s : Text) : lengthInUnits s = (wtf8ToUtf16 s).length := by
  rw [lengthInUnits, wtf8ToUtf16, length_units]
  split_ifs with hascii
  · rw [isAscii_eq, List.all_eq_true] at hascii
    have hs : ∀ b ∈ s, b.toNat < 0x80 := fun b hb => of_decide_eq_true (hascii b hb)
    rw [sequences_of_ascii hs]
    clear hascii
    induction s with
    | nil => rfl
    | cons b s ih =>
      obtain ⟨hb, hs⟩ := List.forall_mem_cons.mp hs
      have hone : unitsOf b.toNat = 1 := if_neg (by omega)
      rw [List.length_cons, List.map_cons, unitsIn_cons, ← ih hs, hone, Nat.add_comm]
  · rfl

/-! ## Where a unit lives -/

theorem walk_append (size i : ℕ) (front back : List (ℕ × ℕ)) (byte unit : ℕ)
    (h : unit + unitsIn front ≤ i) : walk size i (front ++ back) byte unit =
      walk size i back (byte + bytesOf front) (unit + unitsIn front) := by
  induction front generalizing byte unit with
  | nil => rfl
  | cons p front ih =>
    rw [unitsIn_cons, ← add_assoc] at h
    rw [List.cons_append, walk, if_neg (by omega), ih _ _ h, unitsIn_cons, bytesOf_cons, add_assoc, add_assoc]

theorem locateUnit_append {s : Text} {front back : List (ℕ × ℕ)} (hs : sequences s = front ++ back) {i : ℕ}
    (h : unitsIn front ≤ i) : locateUnit s i (bytesOf front) (unitsIn front) = locateUnit s i 0 0 := by
  have htake : (sequences s).take front.length = front := by rw [hs, List.take_left]
  have hdrop : sequences (s.drop (bytesOf front)) = back := by
    have h := sequences_drop s front.length
    rwa [htake, hs, List.drop_left] at h
  rw [locateUnit, locateUnit, hdrop, List.drop_zero, hs, walk_append _ _ _ _ _ _ (by omega), zero_add,
    zero_add]

/-- A unit that begins a code point, or the end. -/
theorem locateUnit_boundary {s : Text} {front back : List (ℕ × ℕ)} (hs : sequences s = front ++ back) :
    locateUnit s (unitsIn front) 0 0 = ⟨bytesOf front, false⟩ := by
  have hsize := bytesOf_sequences s
  rw [← locateUnit_append hs le_rfl, locateUnit]
  have hdrop : sequences (s.drop (bytesOf front)) = back := by
    have h := sequences_drop s front.length
    rwa [hs, List.take_left, List.drop_left] at h
  rw [hdrop]
  cases back with
  | nil =>
    rw [hs, List.append_nil] at hsize
    rw [walk, ← hsize]
  | cons p back =>
    have hpos := unitsOf_pos p.1
    rw [walk, if_pos (by omega), decide_eq_false (not_not.mpr rfl)]

/-- The second unit of a code point. -/
theorem locateUnit_inside {s : Text} {front back : List (ℕ × ℕ)} {p : ℕ × ℕ}
    (hs : sequences s = front ++ p :: back) (hpair : 0x10000 ≤ p.1) :
    locateUnit s (unitsIn front + 1) 0 0 = ⟨bytesOf front, true⟩ := by
  have htwo : unitsOf p.1 = 2 := if_pos hpair
  rw [← locateUnit_append hs (by omega), locateUnit]
  have hdrop : sequences (s.drop (bytesOf front)) = p :: back := by
    have h := sequences_drop s front.length
    rwa [hs, List.take_left, List.drop_left] at h
  rw [hdrop, walk, if_pos (by omega), decide_eq_true (by omega)]

theorem exists_cut {points : List (ℕ × ℕ)} {i : ℕ} (hi : i ≤ unitsIn points) :
    (∃ front back, points = front ++ back ∧ unitsIn front = i) ∨
      ∃ front p back, points = front ++ p :: back ∧ 0x10000 ≤ p.1 ∧ unitsIn front + 1 = i := by
  induction points generalizing i with
  | nil => exact Or.inl ⟨[], [], rfl, (Nat.le_zero.mp hi).symm⟩
  | cons p points ih =>
    rw [unitsIn_cons] at hi
    rcases Nat.eq_zero_or_pos i with rfl | hpos
    · exact Or.inl ⟨[], p :: points, rfl, rfl⟩
    by_cases hin : unitsOf p.1 ≤ i
    · -- the unit lies after this code point
      rcases ih (i := i - unitsOf p.1) (by omega) with ⟨front, back, rfl, h⟩ | ⟨front, q, back, rfl, hq, h⟩
      · refine Or.inl ⟨p :: front, back, rfl, ?_⟩
        rw [unitsIn_cons]
        omega
      · refine Or.inr ⟨p :: front, q, back, rfl, hq, ?_⟩
        rw [unitsIn_cons]
        omega
    · -- and else it is its second half
      have hpair : 0x10000 ≤ p.1 := by
        by_contra hsmall
        have hone : unitsOf p.1 = 1 := if_neg hsmall
        omega
      have htwo : unitsOf p.1 = 2 := if_pos hpair
      refine Or.inr ⟨[], p, points, rfl, hpair, ?_⟩
      rw [unitsIn_nil]
      omega

theorem decodeAt_bytesOf {s : Text} {front back : List (ℕ × ℕ)} {p : ℕ × ℕ}
    (hs : sequences s = front ++ p :: back) : decodeAt s (bytesOf front) = p := by
  have hdrop := sequences_drop s front.length
  rw [hs, List.take_left, List.drop_left] at hdrop
  rw [decodeAt]
  cases h : s.drop (bytesOf front) with
  | nil => rw [h] at hdrop; cases hdrop
  | cons lead rest =>
    rw [h, sequences_cons] at hdrop
    exact (List.cons.inj hdrop).1

theorem unitAt_locateUnit (s : Text) {i : ℕ} (hi : i < (wtf8ToUtf16 s).length) :
    (wtf8ToUtf16 s)[i]? = some (unitAt s (locateUnit s i 0 0)) := by
  have hlength : (wtf8ToUtf16 s).length = unitsIn (sequences s) := length_units _
  rcases exists_cut (hlength ▸ hi.le : i ≤ unitsIn (sequences s)) with
    ⟨front, back, hs, rfl⟩ | ⟨front, p, back, hs, hpair, rfl⟩
  · cases back with
    | nil =>
      rw [hlength, hs, List.append_nil] at hi
      omega
    | cons p back =>
      rw [locateUnit_boundary hs, unitAt, decodeAt_bytesOf hs, wtf8ToUtf16, hs, List.flatMap_append,
        List.getElem?_append_right (length_units front).le, length_units, Nat.sub_self,
        List.flatMap_cons, pointUnits_eq]
      show _ = some (codeUnit p.1 0)
      by_cases hpair : 0x10000 ≤ p.1
      · rw [if_pos hpair]
        rfl
      · rw [if_neg hpair]
        rfl
  · rw [locateUnit_inside hs hpair, unitAt, decodeAt_bytesOf hs, wtf8ToUtf16, hs, List.flatMap_append,
      List.getElem?_append_right (by rw [length_units]; omega), length_units, Nat.add_sub_cancel_left,
      List.flatMap_cons, pointUnits_eq, if_pos hpair]
    rfl

/-! ## Slices -/

/-- The text of some code points. -/
def textOf (cps : List ℕ) : Text := cps.flatMap appendUtf8

@[simp]
theorem textOf_append (front back : List ℕ) : textOf (front ++ back) = textOf front ++ textOf back :=
  List.flatMap_append

theorem textOf_cons (cp : ℕ) (cps : List ℕ) : textOf (cp :: cps) = appendUtf8 cp ++ textOf cps :=
  List.flatMap_cons

/-- The units of some code points. -/
def unitsFor (cps : List ℕ) : List UInt16 := cps.flatMap pointUnits

@[simp]
theorem unitsFor_append (front back : List ℕ) : unitsFor (front ++ back) = unitsFor front ++ unitsFor back :=
  List.flatMap_append

theorem unitsFor_cons (cp : ℕ) (cps : List ℕ) : unitsFor (cp :: cps) = pointUnits cp ++ unitsFor cps :=
  List.flatMap_cons

theorem bytesOf_written (cps : List ℕ) : bytesOf (written cps) = (textOf cps).length := by
  rw [bytesOf, written, List.map_map, textOf, List.length_flatMap]
  rfl

theorem unitsIn_written (cps : List ℕ) : unitsIn (written cps) = (unitsFor cps).length := by
  rw [← length_units, written, List.flatMap_map]
  rfl

theorem sequences_textOf {cps : List ℕ} (hcps : Joined cps) : sequences (textOf cps) = written cps :=
  sequences_flatMap hcps.bounded

theorem exists_cut_written {cps : List ℕ} {i : ℕ} (hi : i ≤ (unitsFor cps).length) :
    (∃ front back, cps = front ++ back ∧ (unitsFor front).length = i) ∨
      ∃ front cp back, cps = front ++ cp :: back ∧ 0x10000 ≤ cp ∧ (unitsFor front).length + 1 = i := by
  rw [← unitsIn_written] at hi
  rcases exists_cut hi with ⟨front, back, hcps, rfl⟩ | ⟨front, p, back, hcps, hpair, rfl⟩
  · obtain ⟨front, back, rfl, rfl, rfl⟩ := List.map_eq_append_iff.mp hcps
    exact Or.inl ⟨front, back, rfl, (unitsIn_written front).symm⟩
  · obtain ⟨front, back, rfl, rfl, hback⟩ := List.map_eq_append_iff.mp hcps
    obtain ⟨cp, back, rfl, rfl, rfl⟩ := List.map_eq_cons_iff.mp hback
    exact Or.inr ⟨front, cp, back, rfl, hpair, congrArg (· + 1) (unitsIn_written front).symm⟩

theorem codeUnit_halves {cp : ℕ} (hpair : 0x10000 ≤ cp) (hcp : cp < 0x110000) :
    HighSurrogate (codeUnit cp 0).toNat ∧ LowSurrogate (codeUnit cp 1).toNat := by
  obtain ⟨u, v, hunits, hu, hv, -⟩ := pointUnits_pair hpair hcp
  rw [pointUnits_eq, if_pos hpair] at hunits
  injection hunits with hfirst hrest
  injection hrest with hsecond
  rw [hfirst, hsecond]
  exact ⟨hu, hv⟩

/-- The first edge of a slice: what it leaves of a code point it splits, and where the whole ones
start. -/
theorem first_edge {front back : List ℕ} (hcps : Joined (front ++ back)) {i : ℕ}
    (hi : i ≤ (unitsFor front).length) : ∃ (pos : Position) (left : Option ℕ) (before part : List ℕ),
      locateUnit (textOf (front ++ back)) i 0 0 = pos ∧ front = before ++ part ∧
        (if pos.lowHalf then appendUtf8 (codeUnit (decodeAt (textOf (front ++ back)) pos.byte).1 1).toNat
          else []) = textOf left.toList ∧
        (if pos.lowHalf then pos.byte + (decodeAt (textOf (front ++ back)) pos.byte).2 else pos.byte) =
          (textOf before).length ∧
        (∀ cp ∈ left, LowSurrogate cp) ∧
        (unitsFor front).drop i = unitsFor left.toList ++ unitsFor part := by
  have hseq := sequences_textOf hcps
  rcases exists_cut_written hi with ⟨before, part, rfl, rfl⟩ | ⟨before, cp, part, rfl, hpair, rfl⟩
  · rw [List.append_assoc, written, List.map_append] at hseq
    have hpos := locateUnit_boundary hseq
    rw [← written, unitsIn_written, bytesOf_written] at hpos
    rw [List.append_assoc]
    refine ⟨⟨(textOf before).length, false⟩, none, before, part, hpos, rfl, rfl, rfl, ?_, ?_⟩
    · exact fun cp hcp => absurd hcp (Option.not_mem_none cp)
    · rw [unitsFor_append, List.drop_left]
      rfl
  · have hcp : cp < 0x110000 := hcps.bounded cp (by simp)
    rw [List.append_assoc, List.cons_append, written, List.map_append, List.map_cons] at hseq
    have hpos := locateUnit_inside hseq hpair
    have hdecode := decodeAt_bytesOf hseq
    rw [← written, bytesOf_written] at hdecode
    rw [← written, unitsIn_written, bytesOf_written] at hpos
    rw [List.append_assoc, List.cons_append]
    refine ⟨_, some (codeUnit cp 1).toNat, before ++ [cp], part, hpos, by simp, ?_, ?_, ?_, ?_⟩
    · show appendUtf8 _ = _
      rw [hdecode, Option.toList_some, textOf_cons]
      exact (List.append_nil _).symm
    · show _ + _ = _
      rw [hdecode, textOf_append, List.length_append, textOf_cons]
      exact congrArg (_ + ·) (congrArg List.length (List.append_nil _).symm)
    · rintro _ ⟨⟩
      exact (codeUnit_halves hpair hcp).2
    · rw [unitsFor_append, ← List.drop_drop, List.drop_left, unitsFor_cons, pointUnits_eq, if_pos hpair,
        Option.toList_some, unitsFor_cons, pointUnits_toNat]
      rfl

/-- The second edge of a slice: where the whole code points stop, and what it leaves of one it
splits. -/
theorem second_edge {cps : List ℕ} (hcps : Joined cps) {j : ℕ} (hj : j ≤ (unitsFor cps).length) :
    ∃ (pos : Position) (front back : List ℕ) (right : Option ℕ),
      locateUnit (textOf cps) j 0 0 = pos ∧ cps = front ++ back ∧ pos.byte = (textOf front).length ∧
        (if pos.lowHalf then appendUtf8 (codeUnit (decodeAt (textOf cps) pos.byte).1 0).toNat else []) =
          textOf right.toList ∧
        (∀ cp ∈ right, HighSurrogate cp) ∧ j ≤ (unitsFor front).length + 1 ∧
        (unitsFor cps).take j = unitsFor front ++ unitsFor right.toList := by
  have hseq := sequences_textOf hcps
  rcases exists_cut_written hj with ⟨front, back, rfl, rfl⟩ | ⟨front, cp, back, rfl, hpair, rfl⟩
  · rw [written, List.map_append] at hseq
    have hpos := locateUnit_boundary hseq
    rw [← written, unitsIn_written, bytesOf_written] at hpos
    refine ⟨_, front, back, none, hpos, rfl, rfl, rfl, ?_, Nat.le_succ _, ?_⟩
    · exact fun cp hcp => absurd hcp (Option.not_mem_none cp)
    · rw [unitsFor_append, List.take_left]
      exact (List.append_nil _).symm
  · have hcp : cp < 0x110000 := hcps.bounded cp (by simp)
    rw [written, List.map_append, List.map_cons] at hseq
    have hpos := locateUnit_inside hseq hpair
    have hdecode := decodeAt_bytesOf hseq
    rw [← written, bytesOf_written] at hdecode
    rw [← written, unitsIn_written, bytesOf_written] at hpos
    refine ⟨_, front, cp :: back, some (codeUnit cp 0).toNat, hpos, rfl, rfl, ?_, ?_, le_rfl, ?_⟩
    · show appendUtf8 _ = _
      rw [hdecode, Option.toList_some, textOf_cons]
      exact (List.append_nil _).symm
    · rintro _ ⟨⟩
      exact (codeUnit_halves hpair hcp).1
    · rw [unitsFor_append, List.take_length_add_append, unitsFor_cons, pointUnits_eq, if_pos hpair,
        Option.toList_some, unitsFor_cons, pointUnits_toNat]
      rfl

theorem joined_edges {part : List ℕ} (hpart : Joined part) {left right : Option ℕ}
    (hleft : ∀ cp ∈ left, LowSurrogate cp) (hright : ∀ cp ∈ right, HighSurrogate cp) :
    Joined (left.toList ++ (part ++ right.toList)) := by
  have hback : Joined (part ++ right.toList) := by
    cases right with
    | none => rwa [Option.toList_none, List.append_nil]
    | some cp =>
      have hhigh := hright cp rfl
      refine ⟨fun c hc => ?_, ?_⟩
      · rcases List.mem_append.mp hc with hc | hc
        · exact hpart.bounded c hc
        · rw [List.mem_singleton.mp hc]
          exact hhigh.2.trans_lt (by norm_num)
      · refine List.isChain_append.mpr ⟨hpart.apart, List.IsChain.singleton _, fun a _ b hb hpair => ?_⟩
        rw [Option.toList_some, List.head?_cons, Option.mem_some_iff] at hb
        subst hb
        have := hpair.2.1
        have := hhigh.2
        omega
  cases left with
  | none => exact hback
  | some cp =>
    have hlow := hleft cp rfl
    refine hback.cons (hlow.2.trans_lt (by norm_num)) fun _ _ hpair => ?_
    have := hpair.1.2
    have := hlow.1
    omega

theorem sliceUnits_textOf {cps : List ℕ} (hcps : Joined cps) {i j : ℕ} (hij : i < j)
    (hj : j ≤ (unitsFor cps).length) :
    sliceUnits (textOf cps) (locateUnit (textOf cps) i 0 0) (locateUnit (textOf cps) j 0 0) =
      utf16ToWtf8 (((unitsFor cps).drop i).take (j - i)) := by
  obtain ⟨stop, front, back, right, hstop, hcut, hbyte, htail, hright, hle, htake⟩ := second_edge hcps hj
  have hfront : Joined (front ++ back) := hcut ▸ hcps
  obtain ⟨start, left, before, part, hstart, hparts, hhead, hfirst, hleft, hdrop⟩ :=
    first_edge hfront (by omega : i ≤ (unitsFor front).length)
  rw [← hcut] at hstart hhead hfirst
  have hpart : Joined part := by
    rw [hparts] at hfront
    exact hfront.stretch
  -- the units of the slice are those of what is left on both sides and of what lies between
  have hunits : ((unitsFor cps).drop i).take (j - i) = unitsFor (left.toList ++ (part ++ right.toList)) := by
    rw [← List.drop_take, htake, List.drop_append_of_le_length (by omega), hdrop, unitsFor_append,
      unitsFor_append, List.append_assoc]
  -- and so are its bytes
  have hmiddle : ((textOf cps).drop (textOf before).length).take
      ((textOf front).length - (textOf before).length) = textOf part := by
    rw [hcut, hparts, textOf_append (before ++ part), textOf_append, List.append_assoc, List.drop_left, List.length_append,
      Nat.add_sub_cancel_left, List.take_left]
  rw [hunits, unitsFor, utf16ToWtf8_units (joined_edges hpart hleft hright), ← textOf, textOf_append,
    textOf_append, hstart, hstop, sliceUnits]
  rw [hhead, hfirst, htail, hbyte, List.append_assoc]
  congr 2
  split_ifs with hnone
  · exact hmiddle
  · rw [← hmiddle, Nat.sub_eq_zero_of_le (by omega), List.take_zero]

end CtBrowser.Script.Utf16
