import CtBrowser.Script.Strings.Units

/-!
# String objects

A JavaScript string as the engine holds it. A text whose every byte is one unit is indexed as it
is; any other has a mark every so many units, and an indexed read walks from the nearest.

## Main definitions

- `StringObject` — the text, with its length, its units and its slices.
- `StringObject.marks` — the marks.

## Main results

- `locate_eq` — the way through the marks is the walk from the start.
- `string_of_units` — the string of some code units has their length, their units and their slices.
-/

namespace CtBrowser.Script

open Utf16

/-- A place where a code point begins: its byte and its unit. -/
structure Utf16Mark where
  byte : UInt32
  unit : UInt32
deriving DecidableEq, Repr

/-- The units from one mark to the next. -/
def utf16Stride : ℕ := 32

/-- A string. What the source measures once and keeps is worked out again. -/
structure StringObject where
  text : Text
deriving DecidableEq, Repr

namespace StringObject

/-- The length in code units. -/
def length (s : StringObject) : ℕ := lengthInUnits s.text

/-- Whether every byte is one unit. -/
def bytewise (s : StringObject) : Bool := s.length == s.text.length

/-- The marks that one code point gets: those from the next one on that lie before its end. -/
def marksFor (count limit : ℕ) (mark : Utf16Mark) (next : ℕ) : List Utf16Mark :=
  if next < count ∧ next * utf16Stride < limit then mark :: marksFor count limit mark (next + 1) else []
termination_by count - next

/-- The marks that code points get, and the unit after the last one walked. -/
def marksOver (count : ℕ) : List (ℕ × ℕ) → ℕ → ℕ → List Utf16Mark → List Utf16Mark × ℕ
  | [], _, unit, made => (made, unit)
  | (cp, width) :: rest, byte, unit, made =>
    if made.length < count then
      let n := unitsOf cp
      marksOver count rest (byte + width) (unit + n)
        (made ++ marksFor count (unit + n) ⟨byte.toUInt32, unit.toUInt32⟩ made.length)
    else (made, unit)

/-- The marks of a string, or nothing if it is too long for them. -/
def marks (s : StringObject) : Option (List Utf16Mark) :=
  if s.text.length > 0xFFFFFFFF then none
  else
    let count := s.length / utf16Stride + 1
    let (made, unit) := marksOver count (sequences s.text) 0 0 []
    -- a length that is a multiple of the stride has its last mark at the end
    some (made ++ List.replicate (count - made.length) ⟨s.text.length.toUInt32, unit.toUInt32⟩)

/-- Where a unit lives. -/
def locate (s : StringObject) (i : ℕ) : Position :=
  if s.bytewise then ⟨min i s.text.length, false⟩
  else match s.marks with
    | some m =>
      let nearest := m.getD (min i s.length / utf16Stride) ⟨0, 0⟩
      locateUnit s.text i nearest.byte.toNat nearest.unit.toNat
    | none => locateUnit s.text i 0 0

/-- The unit at an index below the length. -/
def unit (s : StringObject) (i : ℕ) : UInt16 :=
  if s.bytewise then (s.text.getD i 0).toUInt16 else unitAt s.text (s.locate i)

/-- The units from one index to another, as a text. -/
def slice (s : StringObject) (first last : ℕ) : Text :=
  if first ≥ last then []
  else if s.bytewise then (s.text.drop first).take (last - first)
  else sliceUnits s.text (s.locate first) (s.locate last)

/-! ## Bytes that are units -/

theorem length_eq (s : StringObject) : s.length = unitsIn (sequences s.text) := by
  rw [length, lengthInUnits_eq, wtf8ToUtf16, length_units]

theorem unitsOf_le_width {text : Text} {p : ℕ × ℕ} (hp : p ∈ sequences text) : unitsOf p.1 ≤ p.2 := by
  obtain ⟨hpos, -, hfour⟩ := width_of_mem hp
  rw [unitsOf]
  split_ifs with hpair
  · rw [hfour hpair]
    norm_num
  · exact hpos

theorem decodeUtf8_one {lead : UInt8} {rest : Text} (h : (decodeUtf8 lead rest).2 = 1) :
    (decodeUtf8 lead rest).1 = lead.toNat := by
  have hsequence : ∀ built extra : ℕ, 0 < extra → ∀ x : ℕ × ℕ,
      (∀ c, continued built extra rest = some c → x = (c, extra + 1)) →
      (continued built extra rest = none → x = (lead.toNat, 1)) → x.2 = 1 → x.1 = lead.toNat := by
    intro built extra hextra x hsome hnone hx
    cases hc : continued built extra rest with
    | none => rw [hnone hc]
    | some c =>
      rw [hsome c hc] at hx
      dsimp only at hx
      omega
  revert h
  rw [decodeUtf8]
  dsimp only
  split_ifs
  · exact fun _ => rfl
  · exact hsequence _ 1 (by norm_num) _ (fun c h => by rw [h]) fun h => by rw [h]
  · exact hsequence _ 2 (by norm_num) _ (fun c h => by rw [h]) fun h => by rw [h]
  · exact hsequence _ 3 (by norm_num) _ (fun c h => by rw [h]) fun h => by rw [h]
  · exact fun _ => rfl

/-- A text with as many bytes as units is read byte by byte. -/
theorem sequences_of_length_eq {text : Text} (h : unitsIn (sequences text) = text.length) :
    sequences text = text.map fun b => (b.toNat, 1) := by
  have hle : ∀ points : List (ℕ × ℕ), (∀ p ∈ points, unitsOf p.1 ≤ p.2) → unitsIn points ≤ bytesOf points := by
    intro points hpoints
    exact List.sum_le_sum hpoints
  induction text with
  | nil => rfl
  | cons lead rest ih =>
    have hwidths : ∀ p ∈ sequences (lead :: rest), unitsOf p.1 ≤ p.2 := fun p hp => unitsOf_le_width hp
    have hbytes := bytesOf_sequences (lead :: rest)
    rw [sequences_cons] at h hwidths hbytes
    obtain ⟨hfirst, hrest⟩ := List.forall_mem_cons.mp hwidths
    have hrest := hle _ hrest
    rw [bytesOf_cons] at hbytes
    rw [unitsIn_cons] at h
    -- a sequence has as many bytes as units only if it is one byte
    have hone : (decodeUtf8 lead rest).2 = 1 := by
      have hfour := (decodeUtf8_width lead rest).2.2.2
      by_cases hpair : 0x10000 ≤ (decodeUtf8 lead rest).1
      · have htwo : unitsOf (decodeUtf8 lead rest).1 = 2 := if_pos hpair
        have := hfour hpair
        omega
      · have hunit : unitsOf (decodeUtf8 lead rest).1 = 1 := if_neg hpair
        omega
    have hdecode : decodeUtf8 lead rest = (lead.toNat, 1) := Prod.ext (decodeUtf8_one hone) hone
    rw [hone, List.drop_succ_cons, List.drop_zero] at h hbytes hrest
    have hunit : unitsOf (decodeUtf8 lead rest).1 = 1 := if_neg (by
      rw [hdecode]
      have := lead.toNat_lt
      omega)
    rw [sequences_cons, hone, List.drop_succ_cons, List.drop_zero, ih (by rw [List.length_cons] at h; omega),
      hdecode, List.map_cons]

theorem sequences_of_bytewise {s : StringObject} (h : s.bytewise = true) :
    sequences s.text = s.text.map fun b => (b.toNat, 1) :=
  sequences_of_length_eq (s.length_eq.symm.trans (beq_iff_eq.mp h))

theorem unitsIn_bytes (text : Text) : unitsIn (text.map fun b => (b.toNat, 1)) = text.length := by
  induction text with
  | nil => rfl
  | cons b text ih =>
    have hone : unitsOf b.toNat = 1 := if_neg (by have := b.toNat_lt; omega)
    rw [List.map_cons, unitsIn_cons, ih, List.length_cons, hone, Nat.add_comm]

theorem bytesOf_bytes (text : Text) : bytesOf (text.map fun b => (b.toNat, 1)) = text.length := by
  induction text with
  | nil => rfl
  | cons b text ih => rw [List.map_cons, bytesOf_cons, ih, List.length_cons, Nat.add_comm]

theorem locateUnit_of_bytewise {s : StringObject} (h : s.bytewise = true) (i : ℕ) :
    locateUnit s.text i 0 0 = ⟨min i s.text.length, false⟩ := by
  have hseq := sequences_of_bytewise h
  by_cases hi : i ≤ s.text.length
  · rw [← List.take_append_drop i s.text, List.map_append, List.take_append_drop] at hseq
    have hpos := locateUnit_boundary hseq
    rw [unitsIn_bytes, bytesOf_bytes, List.length_take, Nat.min_eq_left hi] at hpos
    rw [hpos, Nat.min_eq_left hi]
  · rw [locateUnit, List.drop_zero, ← List.append_nil (sequences s.text), walk_append, walk,
      Nat.min_eq_right (by omega)]
    rw [hseq, unitsIn_bytes]
    omega

/-! ## Marks -/

/-- A mark that stands at a code point of a text, or at its end. -/
def MarkIn (text : Text) (mark : Utf16Mark) : Prop :=
  ∃ front back, sequences text = front ++ back ∧ mark.byte.toNat = bytesOf front ∧
    mark.unit.toNat = unitsIn front

/-- Marks that each stand at or before the unit they are for. -/
def MarksIn (text : Text) (made : List Utf16Mark) : Prop :=
  ∀ k mark, made[k]? = some mark → MarkIn text mark ∧ mark.unit.toNat ≤ k * utf16Stride

theorem MarksIn.append {text : Text} {made new : List Utf16Mark} (hmade : MarksIn text made)
    (hnew : ∀ mark ∈ new, MarkIn text mark ∧ mark.unit.toNat ≤ made.length * utf16Stride) :
    MarksIn text (made ++ new) := by
  intro k mark hk
  by_cases hlt : k < made.length
  · rw [List.getElem?_append_left hlt] at hk
    exact hmade k mark hk
  · rw [List.getElem?_append_right (Nat.not_lt.mp hlt)] at hk
    obtain ⟨hmark, hle⟩ := hnew mark (List.mem_of_getElem? hk)
    exact ⟨hmark, hle.trans (Nat.mul_le_mul_right _ (Nat.not_lt.mp hlt))⟩

theorem toNat_toUInt32 {n : ℕ} (hn : n ≤ 0xFFFFFFFF) : n.toUInt32.toNat = n :=
  Nat.mod_eq_of_lt (Nat.lt_succ_of_le hn)

theorem unitsIn_le_length {text : Text} {front back : List (ℕ × ℕ)} (h : sequences text = front ++ back) :
    unitsIn front ≤ bytesOf front ∧ bytesOf front ≤ text.length := by
  have hbytes := bytesOf_sequences text
  rw [h, bytesOf_append] at hbytes
  have hwidth : ∀ p ∈ front, unitsOf p.1 ≤ p.2 := fun p hp =>
    unitsOf_le_width (h ▸ List.mem_append_left back hp)
  exact ⟨List.sum_le_sum hwidth, by omega⟩

theorem markIn_mk {text : Text} (hsize : text.length ≤ 0xFFFFFFFF) {front back : List (ℕ × ℕ)}
    (h : sequences text = front ++ back) :
    MarkIn text ⟨(bytesOf front).toUInt32, (unitsIn front).toUInt32⟩ ∧
      (unitsIn front).toUInt32.toNat = unitsIn front := by
  obtain ⟨hunits, hbytes⟩ := unitsIn_le_length h
  have hunit := toNat_toUInt32 ((hunits.trans hbytes).trans hsize)
  exact ⟨⟨front, back, h, toNat_toUInt32 (hbytes.trans hsize), hunit⟩, hunit⟩

theorem eq_of_mem_marksFor {count limit next : ℕ} {mark made : Utf16Mark}
    (h : made ∈ marksFor count limit mark next) : made = mark := by
  induction next using marksFor.induct count limit with
  | case1 next hnext ih =>
    rw [marksFor, if_pos hnext] at h
    rcases List.mem_cons.mp h with rfl | h
    · rfl
    · exact ih h
  | case2 next hnext =>
    rw [marksFor, if_neg hnext] at h
    cases h

theorem length_marksFor (count limit : ℕ) (mark : Utf16Mark) {next : ℕ} (hnext : next ≤ count) :
    next + (marksFor count limit mark next).length ≤ count ∧
      (next + (marksFor count limit mark next).length < count →
        limit ≤ (next + (marksFor count limit mark next).length) * utf16Stride) := by
  induction next using marksFor.induct count limit with
  | case1 next h ih =>
    rw [marksFor, if_pos h, List.length_cons, ← add_assoc, add_right_comm]
    exact ih h.1
  | case2 next h =>
    rw [marksFor, if_neg h]
    exact ⟨hnext, fun hlt => by_contra fun hlimit => h ⟨hlt, Nat.not_le.mp hlimit⟩⟩

/-- The marks made along the code points of a text. -/
theorem marksOver_marksIn {text : Text} (hsize : text.length ≤ 0xFFFFFFFF) {count : ℕ}
    (rest front : List (ℕ × ℕ)) {made : List Utf16Mark} (h : sequences text = front ++ rest)
    (hmade : MarksIn text made) (hcount : made.length ≤ count)
    (hnext : made.length < count → unitsIn front ≤ made.length * utf16Stride)
    {all : List Utf16Mark} {unit : ℕ}
    (hall : marksOver count rest (bytesOf front) (unitsIn front) made = (all, unit)) :
    MarksIn text all ∧ all.length ≤ count ∧
      (all.length < count → unit = unitsIn (sequences text) ∧ unit ≤ all.length * utf16Stride) := by
  induction rest generalizing front made with
  | nil =>
    cases hall
    rw [h, List.append_nil]
    exact ⟨hmade, hcount, fun hlt => ⟨rfl, hnext hlt⟩⟩
  | cons p rest ih =>
    by_cases hlt : made.length < count
    · rw [marksOver, if_pos hlt] at hall
      obtain ⟨hmark, hunit⟩ := markIn_mk hsize h
      obtain ⟨hle, hlimit⟩ := length_marksFor count (unitsIn front + unitsOf p.1)
        ⟨(bytesOf front).toUInt32, (unitsIn front).toUInt32⟩ hlt.le
      have hfront : bytesOf (front ++ [p]) = bytesOf front + p.2 ∧
          unitsIn (front ++ [p]) = unitsIn front + unitsOf p.1 := by
        rw [bytesOf_append, unitsIn_append, bytesOf_cons, unitsIn_cons]
        exact ⟨rfl, rfl⟩
      refine ih (front ++ [p]) (by rw [List.append_assoc]; exact h) (hmade.append ?_) ?_ ?_
        (by rw [hfront.1, hfront.2]; exact hall)
      · intro new hnew
        rw [eq_of_mem_marksFor hnew, hunit]
        exact ⟨hmark, hnext hlt⟩
      · rw [List.length_append]
        exact hle
      · rw [List.length_append, hfront.2]
        exact hlimit
    · rw [marksOver, if_neg hlt] at hall
      cases hall
      exact ⟨hmade, hcount, fun h => absurd h hlt⟩

/-- Every mark of a string stands at or before its unit, and there is one for every stride. -/
theorem marks_marksIn {s : StringObject} {m : List Utf16Mark} (h : s.marks = some m) :
    MarksIn s.text m ∧ m.length = s.length / utf16Stride + 1 := by
  rw [marks] at h
  split_ifs at h with hlong
  have hsize : s.text.length ≤ 0xFFFFFFFF := Nat.not_lt.mp hlong
  have hnone : MarksIn s.text [] := fun k mark hk => by cases hk
  rcases hall : marksOver (s.length / utf16Stride + 1) (sequences s.text) 0 0 [] with ⟨made, unit⟩
  obtain ⟨hmade, hcount, hend⟩ := marksOver_marksIn hsize _ [] rfl hnone (Nat.zero_le _)
    (fun _ => Nat.zero_le _) hall
  dsimp only at h
  rw [hall] at h
  obtain rfl : made ++ List.replicate (s.length / utf16Stride + 1 - made.length)
      ⟨s.text.length.toUInt32, unit.toUInt32⟩ = m := Option.some.inj h
  refine ⟨hmade.append fun mark hmark => ?_, ?_⟩
  · obtain ⟨hpos, rfl⟩ := List.mem_replicate.mp hmark
    obtain ⟨rfl, hunit⟩ := hend (by omega)
    obtain ⟨hmark, hfits⟩ := markIn_mk hsize (List.append_nil (sequences s.text)).symm
    rw [bytesOf_sequences] at hmark
    exact ⟨hmark, hfits.trans_le hunit⟩
  · rw [List.length_append, List.length_replicate]
    omega

/-- The way through the marks is the walk from the start. -/
theorem locate_eq (s : StringObject) (i : ℕ) : s.locate i = locateUnit s.text i 0 0 := by
  rw [locate]
  split_ifs with hbytes
  · exact (locateUnit_of_bytewise hbytes i).symm
  · cases hm : s.marks with
    | none => rfl
    | some m =>
      obtain ⟨hmarks, hlength⟩ := marks_marksIn hm
      have hk : min i s.length / utf16Stride < m.length := by
        rw [hlength]
        exact Nat.lt_succ_of_le (Nat.div_le_div_right (Nat.min_le_right ..))
      obtain ⟨⟨front, back, hseq, hbyte, hunit⟩, hle⟩ := hmarks _ _ (List.getElem?_eq_getElem hk)
      have hbefore : unitsIn front ≤ i := by
        rw [← hunit]
        exact (hle.trans (Nat.div_mul_le_self ..)).trans (Nat.min_le_left ..)
      dsimp only
      rw [List.getD_eq_getElem?_getD, List.getElem?_eq_getElem hk, Option.getD_some, hbyte, hunit, locateUnit_append hseq hbefore]

theorem pointUnits_byte (b : UInt8) : pointUnits b.toNat = [b.toUInt16] := by
  have hb : b.toNat < 0x10000 := b.toNat_lt.trans (by norm_num)
  have hself : b.toNat.toUInt16 = b.toUInt16 := UInt16.toNat_inj.mp (toNat_toUInt16 hb)
  rw [pointUnits, if_neg (Nat.not_le.mpr hb), hself]

theorem unit_eq (s : StringObject) {i : ℕ} (hi : i < s.length) :
    (wtf8ToUtf16 s.text)[i]? = some (s.unit i) := by
  rw [length, lengthInUnits_eq] at hi
  rw [unit, locate_eq]
  split_ifs with hbytes
  · have hunits : wtf8ToUtf16 s.text = s.text.map UInt8.toUInt16 := by
      rw [wtf8ToUtf16, sequences_of_bytewise hbytes, List.flatMap_map]
      simp only [pointUnits_byte]
      exact List.map_eq_flatMap.symm
    rw [hunits, List.length_map] at hi
    rw [hunits, List.getElem?_map, List.getD_eq_getElem?_getD, List.getElem?_eq_getElem hi]
    rfl
  · exact unitAt_locateUnit s.text hi

theorem slice_textOf {cps : List ℕ} (hcps : Joined cps) {i j : ℕ} (hij : i ≤ j)
    (hj : j ≤ (unitsFor cps).length) :
    (StringObject.mk (textOf cps)).slice i j = utf16ToWtf8 (((unitsFor cps).drop i).take (j - i)) := by
  rcases hij.eq_or_lt with rfl | hlt
  · rw [slice, if_pos le_rfl, Nat.sub_self, List.take_zero]
    rfl
  -- the walks find the same bytes in a text that is indexed as it is
  have hwalk := sliceUnits_textOf hcps hlt hj
  rw [slice, if_neg (Nat.not_le.mpr hlt), locate_eq, locate_eq, ← hwalk]
  split_ifs with hbytes
  · have hlength : (unitsFor cps).length = (textOf cps).length := by
      have h := lengthInUnits_eq (textOf cps)
      rw [textOf, wtf8ToUtf16_flatMap hcps.bounded, ← textOf, ← unitsFor] at h
      exact h.symm.trans (beq_iff_eq.mp hbytes)
    have hi := locateUnit_of_bytewise hbytes i
    have hlast := locateUnit_of_bytewise hbytes j
    rw [Nat.min_eq_left (by dsimp only; omega)] at hi hlast
    rw [hi, hlast]
    show _ = ([] ++ if j > i then ((textOf cps).drop i).take (j - i) else []) ++ []
    rw [if_pos hlt, List.nil_append, List.append_nil]
  · rfl

end StringObject

/-- Code units are what their text is read as, and its string has their length, their units and
their slices: the way through its marks is the walk from the start. -/
theorem string_of_units (u : List UInt16) :
    wtf8ToUtf16 (utf16ToWtf8 u) = u ∧ (StringObject.mk (utf16ToWtf8 u)).length = u.length ∧
      (∀ i : Fin u.length, (StringObject.mk (utf16ToWtf8 u)).unit i = u[i]) ∧
      (∀ i j, i ≤ j → j ≤ u.length →
        (StringObject.mk (utf16ToWtf8 u)).slice i j = utf16ToWtf8 ((u.drop i).take (j - i))) ∧
      ∀ i, (StringObject.mk (utf16ToWtf8 u)).locate i = locateUnit (utf16ToWtf8 u) i 0 0 := by
  have hround := wtf8ToUtf16_utf16ToWtf8 u
  have hlength : (StringObject.mk (utf16ToWtf8 u)).length = u.length := by
    rw [StringObject.length, lengthInUnits_eq, hround]
  refine ⟨hround, hlength, fun i => ?_, fun i j hij hj => ?_, StringObject.locate_eq _⟩
  · have hunit := StringObject.unit_eq (StringObject.mk (utf16ToWtf8 u)) (hlength.symm ▸ i.isLt : (i : ℕ) < _)
    rw [hround, List.getElem?_eq_getElem i.isLt] at hunit
    exact (Option.some.inj hunit).symm
  · have hcps := joined_joined u
    have hunits : unitsFor (joined u) = u := joined_flatMap u
    have hslice := StringObject.slice_textOf hcps hij (by rwa [hunits])
    rwa [hunits] at hslice

/-- A pair that a cut splits. -/
theorem string_of_pair : (StringObject.mk (utf16ToWtf8 [0x61, 0xD83D, 0xDE00])).slice 1 2 =
    utf16ToWtf8 [0xD83D] :=
  (string_of_units [0x61, 0xD83D, 0xDE00]).2.2.2.1 1 2 (by decide) (by decide)

end CtBrowser.Script
