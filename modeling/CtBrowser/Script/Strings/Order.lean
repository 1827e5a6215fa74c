import CtBrowser.Core.Surrogates
import CtBrowser.Script.Strings.Units
import Mathlib.Data.List.GetD

/-!
# The order of strings

Strings are ordered by their code units. The order of their bytes is that of code points, which is
another one where a pair meets a code point from U+E000 on. So the bytes decide as far as they are
equal, and code units from the code point on that the difference is in.

## Main definitions

- `Cursor` — a place between the units of a text, perhaps between the halves of a pair.
- `compare` — the comparison.

## Main results

- `compareFrom_eq` — two cursors compare as the units before them.
- `compare_textOf` — two texts compare as their units.
-/

namespace CtBrowser.Script.Utf16

/-- The number of bytes that two texts have in common before they differ. -/
def commonLength : Text → Text → ℕ
  | x :: a, y :: b => if x = y then commonLength a b + 1 else 0
  | _, _ => 0

/-- Back to the byte that begins a code point in both texts. -/
def stepBack (a b : Text) : ℕ → ℕ
  | 0 => 0
  | i + 1 => if isTrail (a.getD (i + 1) 0) ∨ isTrail (b.getD (i + 1) 0) then stepBack a b i else i + 1

/-- What is left of a text, and the second half of the pair just read, if it is to come. -/
structure Cursor where
  rest : Text
  low : UInt16

/-- The next unit. -/
def Cursor.next (c : Cursor) : Option (UInt16 × Cursor) :=
  if c.low ≠ 0 then some (c.low, ⟨c.rest, 0⟩)
  else
    match c.rest with
    | [] => none
    | lead :: rest =>
      let one := decodeUtf8 lead rest
      some (codeUnit one.1 0,
        ⟨(lead :: rest).drop one.2, if 0x10000 ≤ one.1 then codeUnit one.1 1 else 0⟩)

/-- Unit by unit from two cursors, at most `limit` of them. -/
def compareFrom : ℕ → Cursor → Cursor → ℤ
  | 0, _, _ => 0
  | limit + 1, a, b =>
    match a.next, b.next with
    | none, none => 0
    | some _, none => 1
    | none, some _ => -1
    | some (u, a), some (v, b) => if u ≠ v then if u < v then -1 else 1 else compareFrom limit a b

/-- Three-way comparison in the order of code units. -/
def compare (a b : Text) : ℤ :=
  let i := commonLength a b
  if i = min a.length b.length then
    if a.length < b.length then -1 else if a.length > b.length then 1 else 0
  else
    let x := (a.getD i 0).toNat
    let y := (b.getD i 0).toNat
    if x < 0x80 ∧ y < 0x80 then if x < y then -1 else 1
    else
      let i := stepBack a b i
      compareFrom (a.length + 1) ⟨a.drop i, 0⟩ ⟨b.drop i, 0⟩

/-! ## The order of units -/

/-- The comparison of units: by the first in which they differ, and what ends first is less. -/
def compareUnits (u v : List UInt16) : ℤ := if u < v then -1 else if u = v then 0 else 1

@[simp]
theorem compareUnits_self (u : List UInt16) : compareUnits u u = 0 := by
  rw [compareUnits, if_neg (List.lt_irrefl u), if_pos rfl]

theorem compareUnits_nil_cons (v : UInt16) (vs : List UInt16) : compareUnits [] (v :: vs) = -1 :=
  if_pos (List.nil_lt_cons v vs)

theorem compareUnits_cons_nil (u : UInt16) (us : List UInt16) : compareUnits (u :: us) [] = 1 := by
  rw [compareUnits, if_neg (List.not_lt_nil _), if_neg (List.cons_ne_nil u us)]

theorem compareUnits_cons (u v : UInt16) (us vs : List UInt16) : compareUnits (u :: us) (v :: vs) =
    if u ≠ v then if u < v then -1 else 1 else compareUnits us vs := by
  rw [compareUnits, compareUnits]
  by_cases hne : u ≠ v
  · have hlt : u :: us < v :: vs ↔ u < v :=
      List.cons_lt_cons_iff.trans ⟨fun h => h.resolve_right fun h => hne h.1, Or.inl⟩
    have heq : u :: us ≠ v :: vs := fun h => hne (List.cons.inj h).1
    rw [if_pos hne, if_neg heq]
    exact if_congr hlt rfl rfl
  · obtain rfl := not_not.mp hne
    have hlt : u :: us < u :: vs ↔ us < vs :=
      List.cons_lt_cons_iff.trans ⟨fun h => (h.resolve_left (UInt16.lt_irrefl u)).2, fun h => Or.inr ⟨rfl, h⟩⟩
    have heq : u :: us = u :: vs ↔ us = vs := ⟨fun h => (List.cons.inj h).2, congrArg _⟩
    rw [if_neg hne]
    exact if_congr hlt rfl (if_congr heq rfl rfl)

theorem compareUnits_append (front us vs : List UInt16) :
    compareUnits (front ++ us) (front ++ vs) = compareUnits us vs := by
  induction front with
  | nil => rfl
  | cons u front ih => rw [List.cons_append, List.cons_append, compareUnits_cons, if_neg (not_not.mpr rfl), ih]

theorem compareUnits_longer (front : List UInt16) {more : List UInt16} (h : more ≠ []) :
    compareUnits front (front ++ more) = -1 ∧ compareUnits (front ++ more) front = 1 := by
  obtain ⟨v, vs, rfl⟩ := List.exists_cons_of_ne_nil h
  have hleft := compareUnits_append front [] (v :: vs)
  have hright := compareUnits_append front (v :: vs) []
  rw [List.append_nil] at hleft hright
  rw [hleft, hright]
  exact ⟨compareUnits_nil_cons v vs, compareUnits_cons_nil v vs⟩

theorem compareUnits_order : IsStrictTotalOrder (List UInt16) fun u v => compareUnits u v < 0 := by
  have hneg : (fun u v : List UInt16 => compareUnits u v < 0) = (· < ·) := by
    funext u v
    rw [compareUnits]
    split_ifs with hlt heq
    · exact eq_iff_iff.mpr (iff_of_true (by norm_num) hlt)
    · exact eq_iff_iff.mpr (iff_of_false (by norm_num) hlt)
    · exact eq_iff_iff.mpr (iff_of_false (by norm_num) hlt)
  rw [hneg]
  refine { irrefl := List.lt_irrefl, trans := fun _ _ _ => List.lt_trans, trichotomous := ?_ }
  exact fun u v huv hvu => List.le_antisymm (List.not_lt.mp hvu) (List.not_lt.mp huv)

/-! ## Cursors -/

/-- The units that are still to come. -/
def Cursor.units (c : Cursor) : List UInt16 := (if c.low ≠ 0 then [c.low] else []) ++ wtf8ToUtf16 c.rest

theorem lowHalf_ne_zero (cp : ℕ) (h : 0x10000 ≤ cp) : codeUnit cp 1 ≠ 0 := by
  have hlow : (cp - 0x10000) &&& 0x3FF < 0x400 := by
    rw [and_0x3FF]
    exact Nat.mod_lt _ (by norm_num)
  intro hzero
  have hnat := congrArg UInt16.toNat hzero
  rw [codeUnit, if_neg (by omega), if_neg one_ne_zero, toNat_toUInt16 (by omega)] at hnat
  simp at hnat

theorem Cursor.units_eq (c : Cursor) : c.units = (c.next.map fun p => p.1 :: p.2.units).getD [] := by
  rw [Cursor.next]
  by_cases hlow : c.low ≠ 0
  · rw [if_pos hlow, Cursor.units, if_pos hlow, Option.map_some, Option.getD_some, Cursor.units,
      if_neg (not_not.mpr rfl)]
    rfl
  · rw [if_neg hlow, Cursor.units, if_neg hlow, List.nil_append]
    cases hrest : c.rest with
    | nil => rfl
    | cons lead rest =>
      dsimp only
      rw [Option.map_some, Option.getD_some, Cursor.units, wtf8ToUtf16, sequences_cons, List.flatMap_cons,
        ← wtf8ToUtf16, pointUnits_eq]
      by_cases hpair : 0x10000 ≤ (decodeUtf8 lead rest).1
      · rw [if_pos hpair, if_pos hpair, if_pos (lowHalf_ne_zero _ hpair)]
        rfl
      · rw [if_neg hpair, if_neg hpair, if_neg (not_not.mpr rfl)]
        rfl

/-- Two cursors compare as the units before them. -/
theorem compareFrom_eq {limit : ℕ} {a b : Cursor} (h : a.units.length < limit) :
    compareFrom limit a b = compareUnits a.units b.units := by
  induction limit generalizing a b with
  | zero => omega
  | succ limit ih =>
    rw [compareFrom]
    have ha := a.units_eq
    have hb := b.units_eq
    cases hnexta : a.next with
    | none =>
      rw [hnexta] at ha
      cases hnextb : b.next with
      | none =>
        rw [hnextb] at hb
        rw [ha, hb]
        exact (compareUnits_self []).symm
      | some q =>
        rw [hnextb] at hb
        rw [ha, hb]
        exact (compareUnits_nil_cons ..).symm
    | some p =>
      rw [hnexta] at ha
      cases hnextb : b.next with
      | none =>
        rw [hnextb] at hb
        rw [ha, hb]
        exact (compareUnits_cons_nil ..).symm
      | some q =>
        rw [hnextb] at hb
        have hlength : p.2.units.length < limit := by
          rw [ha, Option.map_some, Option.getD_some, List.length_cons] at h
          omega
        rw [ha, hb, Option.map_some, Option.getD_some, Option.map_some, Option.getD_some, compareUnits_cons,
          ← ih hlength]

theorem length_wtf8ToUtf16_le (s : Text) : (wtf8ToUtf16 s).length ≤ s.length := by
  rw [wtf8ToUtf16, length_units, ← bytesOf_sequences s, unitsIn, bytesOf]
  refine List.sum_le_sum fun p hp => ?_
  obtain ⟨hpos, -, hfour⟩ := width_of_mem hp
  rw [unitsOf]
  split_ifs with hpair
  · rw [hfour hpair]
    norm_num
  · exact hpos

theorem compareFrom_text (a b : Text) {limit : ℕ} (h : a.length < limit) :
    compareFrom limit ⟨a, 0⟩ ⟨b, 0⟩ = compareUnits (wtf8ToUtf16 a) (wtf8ToUtf16 b) := by
  have hunits : ∀ s : Text, Cursor.units ⟨s, 0⟩ = wtf8ToUtf16 s := fun s => by
    rw [Cursor.units, if_neg (not_not.mpr rfl), List.nil_append]
  rw [compareFrom_eq (by rw [hunits]; exact (length_wtf8ToUtf16_le a).trans_lt h), hunits, hunits]

/-! ## The first difference -/

@[simp]
theorem commonLength_nil (b : Text) : commonLength [] b = 0 := rfl

theorem commonLength_append (front a b : Text) :
    commonLength (front ++ a) (front ++ b) = front.length + commonLength a b := by
  induction front with
  | nil => exact (Nat.zero_add _).symm
  | cons x front ih =>
    rw [List.cons_append, List.cons_append, commonLength, if_pos rfl, ih, List.length_cons]
    omega

theorem exists_common (a b : Text) : ∃ front a' b', a = front ++ a' ∧ b = front ++ b' ∧
    commonLength a b = front.length := by
  induction a generalizing b with
  | nil => exact ⟨[], [], b, rfl, rfl, rfl⟩
  | cons x a ih =>
    cases b with
    | nil => exact ⟨[], x :: a, [], rfl, rfl, rfl⟩
    | cons y b =>
      by_cases hxy : x = y
      · obtain ⟨front, a', b', rfl, rfl, hlength⟩ := ih b
        refine ⟨x :: front, a', b', rfl, by rw [hxy]; rfl, ?_⟩
        rw [commonLength, if_pos hxy, hlength, List.length_cons]
      · exact ⟨[], x :: a, y :: b, rfl, rfl, if_neg hxy⟩

theorem eq_of_append_eq {c d : ℕ} (hc : c < 0x200000) (hd : d < 0x200000) {a b : Text}
    (h : appendUtf8 c ++ a = appendUtf8 d ++ b) : c = d := by
  have hseq := congrArg sequences h
  rw [sequences_appendUtf8 hc, sequences_appendUtf8 hd] at hseq
  exact congrArg Prod.fst (List.cons.inj hseq).1

theorem commonLength_lt {c d : ℕ} (hc : c < 0x200000) (hd : d < 0x200000) (hne : c ≠ d) (a b : Text) :
    commonLength (appendUtf8 c ++ a) (appendUtf8 d ++ b) < (appendUtf8 c).length := by
  obtain ⟨front, a', b', ha, hb, hlength⟩ := exists_common (appendUtf8 c ++ a) (appendUtf8 d ++ b)
  rw [hlength]
  by_contra hlong
  obtain ⟨more, rfl⟩ : appendUtf8 c <+: front :=
    List.prefix_of_prefix_length_le ⟨a, rfl⟩ ⟨a', ha.symm⟩ (Nat.not_lt.mp hlong)
  rw [List.append_assoc] at hb
  exact hne (eq_of_append_eq hc hd hb.symm)

theorem commonLength_comm (a b : Text) : commonLength a b = commonLength b a := by
  induction a generalizing b with
  | nil => cases b <;> rfl
  | cons x a ih =>
    cases b with
    | nil => rfl
    | cons y b =>
      rw [commonLength, commonLength, ih b]
      exact if_congr eq_comm rfl rfl

theorem stepBack_add {a b : Text} {n k : ℕ} (htrail : ∀ j, 0 < j → j ≤ k → isTrail (a.getD (n + j) 0))
    (hlead : ¬ (isTrail (a.getD n 0) ∨ isTrail (b.getD n 0))) : stepBack a b (n + k) = n := by
  induction k with
  | zero =>
    cases n with
    | zero => rfl
    | succ n => exact if_neg hlead
  | succ k ih =>
    have hlast : isTrail (a.getD (n + k + 1) 0) := htrail (k + 1) (Nat.succ_pos k) le_rfl
    rw [← add_assoc, stepBack, if_pos (Or.inl hlast)]
    exact ih fun j hpos hj => htrail j hpos (hj.trans (Nat.le_succ k))

/-! ## Texts -/

theorem exists_common_points (cs ds : List ℕ) : ∃ front cs' ds', cs = front ++ cs' ∧ ds = front ++ ds' ∧
    ∀ c ∈ cs'.head?, ∀ d ∈ ds'.head?, c ≠ d := by
  induction cs generalizing ds with
  | nil => exact ⟨[], [], ds, rfl, rfl, fun _ hc => absurd hc (Option.not_mem_none _)⟩
  | cons c cs ih =>
    cases ds with
    | nil => exact ⟨[], c :: cs, [], rfl, rfl, fun _ _ _ hd => absurd hd (Option.not_mem_none _)⟩
    | cons d ds =>
      by_cases hcd : c = d
      · obtain ⟨front, cs', ds', rfl, rfl, hne⟩ := ih ds
        exact ⟨c :: front, cs', ds', rfl, by rw [hcd]; rfl, hne⟩
      · refine ⟨[], c :: cs, d :: ds, rfl, rfl, ?_⟩
        rintro _ ⟨⟩ _ ⟨⟩
        exact hcd

theorem getD_point (front : Text) (lead : UInt8) (tail back : Text) (j : ℕ) :
    (front ++ (lead :: tail ++ back)).getD (front.length + j) 0 = (lead :: tail ++ back).getD j 0 := by
  rw [List.getD_append_right _ _ _ _ (Nat.le_add_right ..), Nat.add_sub_cancel_left]

theorem isTrail_getD {lead : UInt8} {tail : Text} (back : Text) (htail : ∀ b ∈ tail, isTrail b = true) {j : ℕ}
    (hpos : 0 < j) (hj : j < (lead :: tail).length) : isTrail ((lead :: tail ++ back).getD j 0) = true := by
  obtain ⟨j, rfl⟩ : ∃ i, j = i + 1 := ⟨j - 1, by omega⟩
  rw [List.length_cons, Nat.succ_lt_succ_iff] at hj
  rw [List.getD_append _ _ _ _ (by rw [List.length_cons]; omega), List.getD_cons_succ,
    List.getD_eq_getElem _ _ hj]
  exact htail _ (List.getElem_mem hj)

/-- Two texts whose code points differ from one on compare as the units from there. -/
theorem compare_point {front cs ds : List ℕ} {c d : ℕ} (hc : c < 0x110000) (hd : d < 0x110000)
    (hcs : ∀ cp ∈ cs, cp < 0x110000) (hds : ∀ cp ∈ ds, cp < 0x110000) (hne : c ≠ d) :
    compare (textOf (front ++ c :: cs)) (textOf (front ++ d :: ds)) =
      compareUnits (unitsFor (c :: cs)) (unitsFor (d :: ds)) := by
  obtain ⟨lead, tail, hbytes, hlead, htail, hshort⟩ := appendUtf8_bytes (by omega : c < 0x200000)
  obtain ⟨lead', tail', hbytes', hlead', htail', hshort'⟩ := appendUtf8_bytes (by omega : d < 0x200000)
  obtain ⟨k, hk⟩ : ∃ k, commonLength (textOf (c :: cs)) (textOf (d :: ds)) = k := ⟨_, rfl⟩
  have hlt : k < (lead :: tail).length := by
    rw [← hk, ← hbytes, textOf_cons, textOf_cons]
    exact commonLength_lt (by omega) (by omega) hne _ _
  have hlt' : k < (lead' :: tail').length := by
    rw [← hk, ← hbytes', textOf_cons, textOf_cons, commonLength_comm]
    exact commonLength_lt (by omega) (by omega) hne.symm _ _
  have ha : textOf (front ++ c :: cs) = textOf front ++ (lead :: tail ++ textOf cs) := by
    rw [textOf_append, textOf_cons, hbytes]
  have hb : textOf (front ++ d :: ds) = textOf front ++ (lead' :: tail' ++ textOf ds) := by
    rw [textOf_append, textOf_cons, hbytes']
  have hi : commonLength (textOf (front ++ c :: cs)) (textOf (front ++ d :: ds)) =
      (textOf front).length + k := by
    rw [textOf_append, textOf_append, commonLength_append, hk]
  have hlength : (textOf front).length + k ≠
      min (textOf (front ++ c :: cs)).length (textOf (front ++ d :: ds)).length := by
    rw [ha, hb, List.length_append, List.length_append, List.length_append, List.length_append]
    omega
  rw [compare]
  dsimp only
  rw [hi, if_neg hlength, ha, hb, getD_point, getD_point]
  by_cases hascii : ((lead :: tail ++ textOf cs).getD k 0).toNat < 0x80 ∧
      ((lead' :: tail' ++ textOf ds).getD k 0).toNat < 0x80
  · -- an ASCII byte is all of its code point
    obtain rfl : k = 0 := by
      by_contra hpos
      have := (isTrail_iff _).mp (isTrail_getD (textOf cs) htail (Nat.pos_of_ne_zero hpos) hlt)
      omega
    rw [if_pos hascii]
    rw [List.cons_append, List.cons_append, List.getD_cons_zero, List.getD_cons_zero] at hascii ⊢
    have hc' : c < 0x80 ∧ lead.toNat = c := by omega
    have hd' : d < 0x80 ∧ lead'.toNat = d := by omega
    have hunit : c.toUInt16.toNat = c := toNat_toUInt16 (by omega)
    have hunit' : d.toUInt16.toNat = d := toNat_toUInt16 (by omega)
    have hne' : c.toUInt16 ≠ d.toUInt16 := fun h => hne (by rw [← hunit, h, hunit'])
    have hpoint : ∀ cp : ℕ, cp < 0x80 → pointUnits cp = [cp.toUInt16] := fun cp hcp => if_neg (by omega)
    rw [unitsFor_cons, unitsFor_cons, hpoint c hc'.1, hpoint d hd'.1, List.singleton_append,
      List.singleton_append, compareUnits_cons, if_pos hne', hc'.2, hd'.2]
    refine if_congr ?_ rfl rfl
    rw [UInt16.lt_iff_toNat_lt, hunit, hunit']
  · -- and else the comparison goes back to the bytes that lead
    have hback : stepBack (textOf front ++ (lead :: tail ++ textOf cs))
        (textOf front ++ (lead' :: tail' ++ textOf ds)) ((textOf front).length + k) = (textOf front).length := by
      refine stepBack_add (fun j hpos hj => ?_) ?_
      · rw [getD_point]
        exact isTrail_getD _ htail hpos (by omega)
      · have h := getD_point (textOf front) lead tail (textOf cs) 0
        have h' := getD_point (textOf front) lead' tail' (textOf ds) 0
        rw [Nat.add_zero] at h h'
        rw [h, h', List.cons_append, List.cons_append, List.getD_cons_zero, List.getD_cons_zero, hlead, hlead']
        decide
    have hunits : ∀ {cp : ℕ} {cps : List ℕ}, cp < 0x110000 → (∀ c ∈ cps, c < 0x110000) →
        wtf8ToUtf16 (textOf (cp :: cps)) = unitsFor (cp :: cps) := fun hcp hcps =>
      wtf8ToUtf16_flatMap (List.forall_mem_cons.mpr ⟨hcp, hcps⟩)
    rw [if_neg hascii, hback, List.drop_left, List.drop_left, compareFrom_text, ← hbytes, ← hbytes',
      ← textOf_cons, ← textOf_cons, hunits hc hcs, hunits hd hds]
    rw [List.length_append, List.length_append, List.length_append]
    omega

/-- Two texts compare as their units. -/
theorem compare_textOf {cs ds : List ℕ} (hcs : ∀ cp ∈ cs, cp < 0x110000) (hds : ∀ cp ∈ ds, cp < 0x110000) :
    compare (textOf cs) (textOf ds) = compareUnits (unitsFor cs) (unitsFor ds) := by
  obtain ⟨front, cs, ds, rfl, rfl, hne⟩ := exists_common_points cs ds
  have hlonger : ∀ (cp : ℕ) (cps : List ℕ), unitsFor (cp :: cps) ≠ [] ∧ 0 < (textOf (cp :: cps)).length := by
    intro cp cps
    have hunits := unitsOf_pos cp
    rw [← length_pointUnits] at hunits
    rw [unitsFor_cons, textOf_cons, List.length_append, appendUtf8_length]
    refine ⟨fun h => ?_, by split_ifs <;> omega⟩
    rw [(List.append_eq_nil_iff.mp h).1] at hunits
    exact absurd hunits (by decide)
  cases cs with
  | nil =>
    cases ds with
    | nil =>
      have hsame := commonLength_append (textOf front) [] []
      rw [List.append_nil, commonLength_nil, Nat.add_zero] at hsame
      rw [List.append_nil, compareUnits_self, compare]
      dsimp only
      rw [hsame, if_pos (Nat.min_self _).symm, if_neg (Nat.lt_irrefl _), if_neg (Nat.lt_irrefl _)]
    | cons d ds =>
      have hcommon := commonLength_append (textOf front) [] (textOf (d :: ds))
      rw [List.append_nil, commonLength_nil, Nat.add_zero] at hcommon
      have hlength := (hlonger d ds).2
      rw [List.append_nil, unitsFor_append, (compareUnits_longer _ (hlonger d ds).1).1, compare, textOf_append]
      dsimp only
      rw [hcommon, List.length_append, if_pos (by omega), if_pos (by omega)]
  | cons c cs =>
    cases ds with
    | nil =>
      have hcommon := commonLength_append (textOf front) (textOf (c :: cs)) []
      rw [List.append_nil, commonLength_comm (textOf (c :: cs)), commonLength_nil, Nat.add_zero] at hcommon
      have hlength := (hlonger c cs).2
      rw [List.append_nil, unitsFor_append, (compareUnits_longer _ (hlonger c cs).1).2, compare, textOf_append]
      dsimp only
      rw [hcommon, List.length_append, if_pos (by omega), if_neg (by omega), if_pos (by omega)]
    | cons d ds =>
      obtain ⟨-, hcs⟩ := List.forall_mem_append.mp hcs
      obtain ⟨-, hds⟩ := List.forall_mem_append.mp hds
      obtain ⟨hc, hcs⟩ := List.forall_mem_cons.mp hcs
      obtain ⟨hd, hds⟩ := List.forall_mem_cons.mp hds
      rw [compare_point hc hd hcs hds (hne c rfl d rfl), unitsFor_append, unitsFor_append, compareUnits_append]

theorem compare_eq_compareUnits (u v : List UInt16) : compare (utf16ToWtf8 u) (utf16ToWtf8 v) = compareUnits u v := by
  have h := compare_textOf (joined_joined u).bounded (joined_joined v).bounded
  rwa [unitsFor, unitsFor, joined_flatMap, joined_flatMap] at h

/-- The texts of units are ordered as the units are, by the first in which they differ: a strict total
order, in which just equal texts compare as equal. -/
theorem compare_utf16ToWtf8 :
    (∀ u v : List UInt16, compare (utf16ToWtf8 u) (utf16ToWtf8 v) =
      if u < v then -1 else if u = v then 0 else 1) ∧
    IsStrictTotalOrder (List UInt16) fun u v => compare (utf16ToWtf8 u) (utf16ToWtf8 v) < 0 := by
  simp only [compare_eq_compareUnits]
  exact ⟨fun u v => rfl, compareUnits_order⟩

end CtBrowser.Script.Utf16
