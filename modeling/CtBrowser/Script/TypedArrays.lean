import CtBrowser.Core.DoubleArithmetic

/-!
# Typed arrays

The elements of typed arrays in their two forms: an array that owns its elements keeps them as Numbers,
coerced as they are written; a view keeps none and writes their bytes into a buffer, which has a Number
for each byte.

## Main definitions

- `ElementKind`, `coerceElement` — what writing makes of a Number.
- `storeRaw`, `storeSetRaw` — the bytes of one element, read and written.
- `viewGet`, `viewSet` — an element of a view.
- `elementValue` — the integer that an integer kind keeps.

## Main results

- `testBit_storeRaw_storeSetRaw`, `getElem?_storeSetRaw` — what is read back, and what is changed.
- `coerceElement_eq` — the coercion of the integer kinds.
- `typed_array_store` — both forms agree.
-/

namespace CtBrowser.Script.TypedArray

open Double

/-! ## Kinds -/

inductive ElementKind
  | none | i8 | u8 | u8Clamped | i16 | u16 | i32 | u32 | f32 | f64 | f16 | bigI64 | bigU64
deriving DecidableEq, Repr

def bytesPerElement : ElementKind → ℕ
  | .i8 | .u8 | .u8Clamped => 1
  | .i16 | .u16 | .f16 => 2
  | .f64 | .bigI64 | .bigU64 => 8
  | _ => 4

/-- The bit patterns of the kinds that are no integers, as the compiler's types have them. -/
structure FloatBits where
  doubleToHalf : Double → ℕ
  halfToDouble : ℕ → Double
  -- rounded as `to_float` does
  floatBits : Double → ℕ
  floatValue : ℕ → Double
  doubleBits : Double → ℕ
  doubleValue : ℕ → Double

variable (bits : FloatBits) {ν : Type}

/-! ## Coercion -/

/-- An integer as a Number. -/
def ofInt (k : ℤ) : Double := ofValue false k

/-- The integral part modulo a power of two, not negative and never a negative zero. -/
def wrap (x : Double) (modulus : ℕ) : Double :=
  if x.isFinite then
    let r := x.trunc.fmod modulus
    let r := if r.lt (ofInt 0) then r.plus (ofInt modulus) else r
    r.plus (ofInt 0)
  else ofInt 0

/-- A value from `half` on stands for a negative one. -/
def signed (u : Double) (half modulus : ℕ) : Double :=
  if (ofInt half).le u then u.plus (ofInt (-modulus)) else u

/-- A Number as the store into an element makes it. -/
def coerceElement (kind : ElementKind) (v : Double) : Double :=
  match kind with
  | .none | .bigI64 | .bigU64 => v
  | .f16 => bits.halfToDouble (bits.doubleToHalf v)
  | .f32 => bits.floatValue (bits.floatBits v)
  | .f64 => v
  | .u8Clamped =>
    if v = .nan then ofInt 0
    else if v.le (ofInt 0) then ofInt 0
    else if (ofInt 255).le v then ofInt 255
    else v.nearbyint
  | .u8 => wrap v 256
  | .i8 => signed (wrap v 256) 128 256
  | .u16 => wrap v 65536
  | .i16 => signed (wrap v 65536) 32768 65536
  | .u32 => wrap v 4294967296
  | .i32 => signed (wrap v 4294967296) 2147483648 4294967296

/-! ## Bytes -/

/-- An item of an array: a Number, or a value of another kind. -/
inductive Item (ν : Type)
  | number (d : Double)
  | other (v : ν)

def Item.asNumber : Item ν → Double
  | .number d => d
  | .other _ => ofInt 0

/-- The conversion to `int64_t`, for a Number in its range. -/
def toInt64 : Double → ℤ
  | .finite n q => truncate (value n q)
  | _ => 0

def toUint8 (d : Double) : UInt8 := if d.isFinite then UInt8.ofInt (toInt64 (d.fmod 256)) else 0

/-- The place of a byte of an element, the lowest first; sums of `size_t` wrap. -/
def bytePlace (at_ width : ℕ) (little : Bool) (b : ℕ) : ℕ :=
  (if little then at_ + b else at_ + width - 1 - b) % 2 ^ 64

/-- A byte of a buffer; one past its end reads as zero. -/
def byteAt (items : List (Item ν)) (i : ℕ) : ℕ := (items[i]?.map fun item => (toUint8 item.asNumber).toNat).getD 0

/-- The bytes of an element as one word. -/
def storeRaw (items : List (Item ν)) (at_ width : ℕ) (little : Bool) : ℕ :=
  (List.range width).foldl (fun raw b => raw ||| byteAt items (bytePlace at_ width little b) <<< (8 * b)) 0

/-- The byte of a word that is written. -/
def rawByte (raw b : ℕ) : ℕ := (raw >>> (8 * b)) &&& 0xFF

/-- A word as the bytes of an element; one past the end of the buffer is not written. -/
def storeSetRaw (items : List (Item ν)) (at_ width raw : ℕ) (little : Bool) : List (Item ν) :=
  (List.range width).foldl
    (fun items b => items.set (bytePlace at_ width little b) (.number (ofInt (rawByte raw b)))) items

/-! ## Views -/

/-- A Number from its bytes. -/
def elementFromRaw (kind : ElementKind) (raw : ℕ) : Double :=
  match kind with
  | .f32 => bits.floatValue raw
  | .f64 => bits.doubleValue raw
  | .f16 => bits.halfToDouble raw
  | .i8 => ofInt ((raw : ℤ).bmod (2 ^ 8))
  | .i16 => ofInt ((raw : ℤ).bmod (2 ^ 16))
  | .i32 => ofInt ((raw : ℤ).bmod (2 ^ 32))
  | _ => .nearest false raw

/-- The bytes of a Number. -/
def elementToRaw (kind : ElementKind) (v : Double) : ℕ :=
  match kind with
  | .f16 => bits.doubleToHalf v
  | .f32 => bits.floatBits v
  | .f64 => bits.doubleBits v
  | _ => (toInt64 (coerceElement bits kind v) % 2 ^ 64).toNat

/-- A view on a buffer. -/
structure View where
  elements : ElementKind
  byteOffset : ℕ

def View.place (view : View) (i : ℕ) : ℕ := view.byteOffset + i * bytesPerElement view.elements

def viewGet (items : List (Item ν)) (view : View) (i : ℕ) : Double :=
  elementFromRaw bits view.elements (storeRaw items (view.place i) (bytesPerElement view.elements) true)

def viewSet (items : List (Item ν)) (view : View) (i : ℕ) (v : Double) : List (Item ν) :=
  storeSetRaw items (view.place i) (bytesPerElement view.elements) (elementToRaw bits view.elements v) true

/-! ## What is kept -/

/-- The integral part modulo a power of two, zero for what has none. -/
def residue (m : ℕ) : Double → ℤ
  | .finite n q => truncate (value n q) % m
  | _ => 0

/-- The nearest integer from 0 to 255. -/
def clamped : Double → ℤ
  | .nan => 0
  | .infinity n => if n then 0 else 255
  | .finite n q => roundHalfEven (max 0 (min 255 (value n q)))

/-- The integer that an element of an integer kind keeps of a Number. -/
def elementValue (kind : ElementKind) (v : Double) : Option ℤ :=
  match kind with
  | .u8Clamped => some (clamped v)
  | .u8 => some (residue (2 ^ 8) v)
  | .i8 => some ((residue (2 ^ 8) v).bmod (2 ^ 8))
  | .u16 => some (residue (2 ^ 16) v)
  | .i16 => some ((residue (2 ^ 16) v).bmod (2 ^ 16))
  | .u32 => some (residue (2 ^ 32) v)
  | .i32 => some ((residue (2 ^ 32) v).bmod (2 ^ 32))
  | _ => none

/-! ## Places -/

theorem bytePlace_injective {at_ width b b' : ℕ} (little : Bool) (hwidth : width ≤ 8) (hb : b < width) (hb' : b' < width)
    (h : bytePlace at_ width little b = bytePlace at_ width little b') : b = b' := by
  rw [bytePlace, bytePlace] at h
  cases little
  · rw [if_neg Bool.false_ne_true, if_neg Bool.false_ne_true] at h
    omega
  · rw [if_pos rfl, if_pos rfl] at h
    omega

theorem bytesPerElement_le (kind : ElementKind) : bytesPerElement kind ≤ 8 := by
  cases kind <;> decide

/-! ## Reading and writing bytes -/

theorem byteAt_lt (items : List (Item ν)) (i : ℕ) : byteAt items i < 2 ^ 8 := by
  rw [byteAt]
  cases items[i]? with
  | none => exact Nat.two_pow_pos 8
  | some item => exact UInt8.toNat_lt _

theorem testBit_storeRaw (items : List (Item ν)) (at_ width : ℕ) (little : Bool) (j : ℕ) :
    (storeRaw items at_ width little).testBit j =
      (decide (j < 8 * width) && (byteAt items (bytePlace at_ width little (j / 8))).testBit (j % 8)) := by
  have hread (n : ℕ) : ((List.range n).foldl
      (fun raw b => raw ||| byteAt items (bytePlace at_ width little b) <<< (8 * b)) 0).testBit j =
      (decide (j < 8 * n) && (byteAt items (bytePlace at_ width little (j / 8))).testBit (j % 8)) := by
    induction n with
    | zero => simp
    | succ n ih =>
      rw [List.range_succ, List.foldl_append, List.foldl_cons, List.foldl_nil, Nat.testBit_or, ih, Nat.testBit_shiftLeft]
      by_cases hbelow : j < 8 * n
      · have hshift : ¬ 8 * n ≤ j := by omega
        have hnext : j < 8 * (n + 1) := by omega
        simp only [hbelow, hshift, hnext, decide_true, decide_false, Bool.true_and, Bool.false_and, Bool.or_false]
      · by_cases hnext : j < 8 * (n + 1)
        · have hdiv : j / 8 = n := by omega
          have hmod : j - 8 * n = j % 8 := by omega
          have hshift : 8 * n ≤ j := by omega
          simp only [hbelow, hshift, hnext, hdiv, hmod, decide_true, decide_false, Bool.true_and, Bool.false_and,
            Bool.false_or]
        · have hhigh : (byteAt items (bytePlace at_ width little n)).testBit (j - 8 * n) = false :=
            Nat.testBit_lt_two_pow (lt_of_lt_of_le (byteAt_lt items _) (Nat.pow_le_pow_right (by omega) (by omega)))
          simp only [hbelow, hnext, hhigh, decide_false, Bool.false_and, Bool.and_false, Bool.or_false]
  exact hread width

theorem getElem?_foldl_set (items : List (Item ν)) (place : ℕ → ℕ) (raw n : ℕ)
    (hinj : ∀ b < n, ∀ b' < n, place b = place b' → b = b') :
    let items' := (List.range n).foldl (fun items b => items.set (place b) (.number (ofInt (rawByte raw b)))) items
    items'.length = items.length ∧ (∀ i, (∀ b < n, place b ≠ i) → items'[i]? = items[i]?) ∧
      ∀ b < n, place b < items.length → items'[place b]? = some (.number (ofInt (rawByte raw b))) := by
  induction n with
  | zero => exact ⟨rfl, fun _ _ => rfl, fun b hb => absurd hb (Nat.not_lt_zero b)⟩
  | succ n ih =>
    obtain ⟨hlength, hothers, hbytes⟩ := ih fun b hb b' hb' => hinj b (by omega) b' (by omega)
    rw [List.range_succ, List.foldl_append, List.foldl_cons, List.foldl_nil]
    refine ⟨by rw [List.length_set, hlength], fun i hi => ?_, fun b hb hplace => ?_⟩
    · rw [List.getElem?_set_ne (hi n (by omega)), hothers i fun b hb => hi b (by omega)]
    · by_cases hlast : b = n
      · subst hlast
        rw [List.getElem?_set_self (by rwa [hlength])]
      · rw [List.getElem?_set_ne fun h => hlast (hinj n (by omega) b hb h).symm, hbytes b (by omega) hplace]

theorem toUint8_ofInt {n : ℕ} (h : n < 256) : (toUint8 (ofInt n)).toNat = n := by
  have hnonneg : (0 : ℚ) ≤ (n : ℤ) := by exact_mod_cast Nat.zero_le n
  have hquotient : truncate ((n : ℤ) / (256 : ℕ) : ℚ) = 0 := by
    rw [truncate_div, Int.tdiv_eq_ediv_of_nonneg (by omega)]
    omega
  have hrest : (ofInt n).fmod 256 = ofValue false (n : ℤ) := by
    rw [Nat.cast_ofNat] at hquotient
    have hsign : signBit false ((n : ℤ) : ℚ) = false := signBit_eq_false hnonneg fun _ => rfl
    rw [ofInt, ofValue_of_nonneg hnonneg, fmod, hsign, value, if_neg Bool.false_ne_true, hquotient, Int.cast_zero,
      mul_zero, sub_zero]
    exact ofValue_of_nonneg hnonneg
  have hint : toInt64 (ofValue false ((n : ℤ) : ℚ)) = n := by
    rw [ofValue, toInt64, value_ofValue, truncate_intCast]
  have hfinite : (ofInt n).isFinite = true := rfl
  rw [toUint8, if_pos hfinite, hrest, hint, UInt8.ofInt, UInt8.toNat_ofNat']
  omega

theorem rawByte_lt (raw b : ℕ) : rawByte raw b < 256 := by
  rw [rawByte]
  exact lt_of_le_of_lt Nat.and_le_right (by omega)

theorem testBit_rawByte (raw b : ℕ) {r : ℕ} (h : r < 8) : (rawByte raw b).testBit r = raw.testBit (8 * b + r) := by
  rw [rawByte, Nat.testBit_and, Nat.testBit_shiftRight, show (0xFF : ℕ) = 2 ^ 8 - 1 from rfl, Nat.testBit_two_pow_sub_one,
    decide_eq_true h, Bool.and_true]

/-- What a word that has been written is read as: its bits in the bytes that are in the buffer. -/
theorem testBit_storeRaw_storeSetRaw (items : List (Item ν)) (at_ raw : ℕ) {width : ℕ} (hwidth : width ≤ 8)
    (little : Bool) (j : ℕ) :
    (storeRaw (storeSetRaw items at_ width raw little) at_ width little).testBit j =
      (decide (j < 8 * width ∧ bytePlace at_ width little (j / 8) < items.length) && raw.testBit j) := by
  obtain ⟨hlength, -, hbytes⟩ := getElem?_foldl_set items (bytePlace at_ width little) raw width
    fun b hb b' hb' => bytePlace_injective little hwidth hb hb'
  rw [testBit_storeRaw, storeSetRaw]
  by_cases hj : j < 8 * width
  · have hb : j / 8 < width := by omega
    by_cases hplace : bytePlace at_ width little (j / 8) < items.length
    · have hread : byteAt (storeSetRaw items at_ width raw little) (bytePlace at_ width little (j / 8)) = rawByte raw (j / 8) := by
        rw [byteAt, storeSetRaw, hbytes _ hb hplace]
        exact toUint8_ofInt (rawByte_lt _ _)
      rw [storeSetRaw] at hread
      rw [hread, testBit_rawByte _ _ (Nat.mod_lt _ (by omega)), Nat.div_add_mod, decide_eq_true hj,
        decide_eq_true ⟨hj, hplace⟩]
    · have hread : byteAt (storeSetRaw items at_ width raw little) (bytePlace at_ width little (j / 8)) = 0 := by
        rw [byteAt, storeSetRaw, List.getElem?_eq_none (by omega)]
        rfl
      rw [storeSetRaw] at hread
      rw [hread, Nat.zero_testBit, Bool.and_false, decide_eq_false fun h => hplace h.2, Bool.false_and]
  · rw [decide_eq_false hj, decide_eq_false fun h => hj h.1, Bool.false_and, Bool.false_and]

theorem storeRaw_storeSetRaw (items : List (Item ν)) (at_ raw : ℕ) {width : ℕ} (hwidth : width ≤ 8) (little : Bool)
    (hin : ∀ b < width, bytePlace at_ width little b < items.length) :
    storeRaw (storeSetRaw items at_ width raw little) at_ width little = raw % 2 ^ (8 * width) := by
  apply Nat.eq_of_testBit_eq
  intro j
  rw [testBit_storeRaw_storeSetRaw items at_ raw hwidth, Nat.testBit_mod_two_pow]
  by_cases hj : j < 8 * width
  · rw [decide_eq_true hj, decide_eq_true ⟨hj, hin _ (by omega)⟩]
  · rw [decide_eq_false hj, decide_eq_false fun h => hj h.1]

/-! ## Coercion of the integer kinds -/

theorem ofInt_of_nonneg {k : ℤ} (h : 0 ≤ k) : ofInt k = .finite false k :=
  ofValue_of_nonneg (by exact_mod_cast h)

theorem ofValue_plus_ofInt (s : Bool) {k l : ℤ} (h : |k + l| < 2 ^ 53) (hne : k + l ≠ 0 ∨ k = 0 ∧ l = 0 ∨ k ≠ 0) :
    (ofValue s k).plus (ofInt l) = ofInt (k + l) := by
  rw [ofValue, ofInt, ofValue]
  rw [plus_eq_ofValue (k := k + l) (by rw [value_ofValue, value_ofValue]; push_cast; rfl) h, ofInt]
  by_cases hzero : k + l = 0
  · rw [hzero]
    congr 1
    rcases hne with hne | ⟨rfl, rfl⟩ | hne
    · exact absurd hzero hne
    · simp
    · have hkl : l = -k := by omega
      subst hkl
      have hk : (k : ℚ) ≠ 0 := by exact_mod_cast hne
      have hl : ((-k : ℤ) : ℚ) ≠ 0 := by exact_mod_cast (by omega : -k ≠ 0)
      rw [if_neg hk, if_neg hl]
      rcases lt_or_gt_of_ne hne with hlt | hlt
      · rw [decide_eq_false (p := ((-k : ℤ) : ℚ) < 0) (by push_cast; exact not_lt.mpr (by exact_mod_cast (by omega : 0 ≤ -k)))]
        exact Bool.and_false _
      · rw [decide_eq_false (p := (k : ℚ) < 0) (not_lt.mpr (by exact_mod_cast hlt.le))]
        rfl
  · exact ofValue_of_ne (by exact_mod_cast hzero) _ _

theorem lt_ofInt (s : Bool) (k l : ℤ) : (ofValue s k).lt (ofInt l) = decide (k < l) := by
  rw [ofValue, ofInt, ofValue, lt, value_ofValue, value_ofValue]
  simp only [Int.cast_lt]

theorem le_ofInt (s : Bool) (k l : ℤ) : (ofInt l).le (ofValue s k) = decide (l ≤ k) := by
  rw [ofValue, ofInt, ofValue, le, value_ofValue, value_ofValue]
  simp only [Int.cast_le]

theorem neg_lt_tmod (t : ℤ) {m : ℕ} (hm : 0 < m) : -(m : ℤ) < t.tmod m := by
  have hlt := Int.tmod_lt_of_pos (-t) (by exact_mod_cast hm : (0 : ℤ) < m)
  rw [Int.neg_tmod] at hlt
  omega

theorem tmod_add {t : ℤ} {m : ℕ} (hm : 0 < m) :
    (if t.tmod m < 0 then t.tmod m + m else t.tmod m) = t % m := by
  have hm' : (0 : ℤ) < m := by exact_mod_cast hm
  have hsplit : t % m = t.tmod m % m := by
    conv_lhs => rw [← Int.tmod_add_mul_tdiv t m, Int.add_mul_emod_self_left]
  have hlow : -(m : ℤ) < t.tmod m := neg_lt_tmod t hm
  have hhigh : t.tmod m < m := Int.tmod_lt_of_pos t hm'
  rw [hsplit]
  split_ifs with hneg
  · rw [← Int.add_emod_right, Int.emod_eq_of_lt (by omega) (by omega)]
  · rw [Int.emod_eq_of_lt (by omega) hhigh]

theorem residue_lt {m : ℕ} (hm : 0 < m) (v : Double) : 0 ≤ residue m v ∧ residue m v < m := by
  have hm' : (0 : ℤ) < m := by exact_mod_cast hm
  cases v with
  | nan => exact ⟨le_rfl, hm'⟩
  | infinity n => exact ⟨le_rfl, hm'⟩
  | finite n q => exact ⟨Int.emod_nonneg _ hm'.ne', Int.emod_lt_of_pos _ hm'⟩

theorem wrap_eq {m : ℕ} (hm : 0 < m) (hle : m ≤ 2 ^ 32) (v : Double) : wrap v m = ofInt (residue m v) := by
  cases v with
  | nan => rfl
  | infinity n => rfl
  | finite n q =>
    obtain ⟨s, hs⟩ := fmod_trunc n q m
    have hlow : -(m : ℤ) < (truncate (value n q)).tmod m := neg_lt_tmod _ hm
    have hhigh : (truncate (value n q)).tmod m < m := Int.tmod_lt_of_pos _ (by exact_mod_cast hm)
    have hzero (k : ℤ) (h : |k| < 2 ^ 53) (s : Bool) : (ofValue s k).plus (ofInt 0) = ofInt k := by
      have hsum := @ofValue_plus_ofInt s k 0 (by rwa [add_zero]) (by omega)
      rwa [add_zero] at hsum
    have hfinite : (finite n q).isFinite = true := rfl
    rw [wrap, if_pos hfinite, hs]
    simp only [lt_ofInt, residue, ← tmod_add hm]
    by_cases hneg : (truncate (value n q)).tmod m < 0
    · rw [if_pos (decide_eq_true hneg), if_pos hneg, ofValue_plus_ofInt s (by rw [abs_lt]; omega) (by omega)]
      exact hzero _ (by rw [abs_lt]; omega) false
    · rw [if_neg (by simpa using hneg), if_neg hneg]
      exact hzero _ (by rw [abs_lt]; omega) s

theorem signed_wrap {half m : ℕ} (hm : m = 2 * half) (hpos : 0 < half) (hle : m ≤ 2 ^ 32) (v : Double) :
    signed (wrap v m) half m = ofInt ((residue m v).bmod m) := by
  obtain ⟨hlow, hhigh⟩ := residue_lt (by omega : 0 < m) v
  rw [wrap_eq (by omega) hle, signed, show (ofInt half).le (ofInt (residue m v)) = _ from le_ofInt false (residue m v) half, Int.bmod_def,
    Int.emod_eq_of_lt hlow hhigh]
  by_cases hbig : (half : ℤ) ≤ residue m v
  · rw [if_pos (decide_eq_true hbig), if_neg (by omega)]
    exact ofValue_plus_ofInt false (by rw [abs_lt]; omega) (by omega)
  · rw [if_neg (by simpa using hbig), if_pos (by omega)]

theorem roundHalfEven_mem {x : ℚ} (hlow : 0 ≤ x) (hhigh : x ≤ 255) : 0 ≤ roundHalfEven x ∧ roundHalfEven x ≤ 255 := by
  have hfloor : 0 ≤ ⌊x⌋ := Int.floor_nonneg.mpr hlow
  refine ⟨hfloor.trans (floor_le_roundHalfEven x), ?_⟩
  rcases hhigh.eq_or_lt with rfl | hlt
  · exact_mod_cast (roundHalfEven_intCast 255).le
  · have hle : ⌊x⌋ < 255 := Int.floor_lt.mpr (by exact_mod_cast hlt)
    rw [roundHalfEven]
    split_ifs <;> omega

theorem clamp_eq (v : Double) : coerceElement bits .u8Clamped v = ofInt (clamped v) ∧ 0 ≤ clamped v ∧ clamped v ≤ 255 := by
  cases v with
  | nan => exact ⟨rfl, by decide, by decide⟩
  | infinity n => cases n <;> exact ⟨rfl, by decide, by decide⟩
  | finite n q =>
    have hmem := roundHalfEven_mem (le_max_left 0 (min 255 (value n q))) (max_le (by norm_num) (min_le_left _ _))
    refine ⟨?_, hmem⟩
    have hle : (finite n q).le (ofInt 0) = decide (value n q ≤ 0) := by
      rw [ofInt, ofValue, le, value_ofValue, Int.cast_zero]
    have hge : (ofInt 255).le (finite n q) = decide (255 ≤ value n q) := by
      rw [ofInt, ofValue, le, value_ofValue]
      norm_num
    rw [coerceElement, if_neg (by simp), hle, hge, clamped]
    by_cases hlow : value n q ≤ 0
    · rw [if_pos (decide_eq_true hlow), max_eq_left (le_trans (min_le_right _ _) hlow)]
      exact congrArg ofInt (by exact_mod_cast (roundHalfEven_intCast 0).symm)
    rw [if_neg (by simpa using hlow)]
    by_cases hhigh : 255 ≤ value n q
    · rw [if_pos (decide_eq_true hhigh), min_eq_left hhigh, max_eq_right (by norm_num)]
      exact congrArg ofInt (by exact_mod_cast (roundHalfEven_intCast 255).symm)
    rw [if_neg (by simpa using hhigh), min_eq_right (not_le.mp hhigh).le, max_eq_right (not_le.mp hlow).le]
    have hsign : signBit n q = false :=
      signBit_eq_false (not_le.mp hlow).le fun hzero => absurd hzero (not_le.mp hlow).ne'
    rw [nearbyint, hsign]
    rfl

/-- The coercion of the integer kinds, which keep 32 bits at most. -/
theorem coerceElement_eq {kind : ElementKind} {v : Double} {k : ℤ} (h : elementValue kind v = some k) :
    coerceElement bits kind v = ofInt k := by
  cases kind <;> simp only [elementValue, Option.some.injEq, reduceCtorEq] at h <;> subst h
  case i8 => exact @signed_wrap 128 256 rfl (by omega) (by omega) v
  case u8 => exact @wrap_eq 256 (by omega) (by omega) v
  case u8Clamped => exact (clamp_eq bits v).1
  case i16 => exact @signed_wrap 32768 65536 rfl (by omega) (by omega) v
  case u16 => exact @wrap_eq 65536 (by omega) (by omega) v
  case i32 => exact @signed_wrap 2147483648 4294967296 rfl (by omega) (by omega) v
  case u32 => exact @wrap_eq 4294967296 (by omega) (by omega) v

/-! ## Both forms -/

theorem toNat_emod (k : ℤ) {w : ℕ} (hw : w ≤ 64) : (((k % 2 ^ 64).toNat % 2 ^ w : ℕ) : ℤ) = k % 2 ^ w := by
  have hnonneg : 0 ≤ k % 2 ^ 64 := Int.emod_nonneg _ (by positivity)
  rw [Int.natCast_mod, Int.toNat_of_nonneg hnonneg]
  push_cast
  exact Int.emod_emod_of_dvd _ (pow_dvd_pow 2 hw)

theorem bmod_emod_bmod (k : ℤ) (w : ℕ) : (k.bmod (2 ^ w) % 2 ^ w).bmod (2 ^ w) = k.bmod (2 ^ w) := by
  have h := @Int.emod_bmod (k.bmod (2 ^ w)) (2 ^ w)
  rw [Nat.cast_pow, Nat.cast_ofNat] at h
  rw [h, Int.bmod_bmod]

theorem toInt64_ofInt (k : ℤ) : toInt64 (ofInt k) = k := by
  rw [ofInt, ofValue, toInt64, value_ofValue, truncate_intCast]

theorem nearest_of_emod {k : ℤ} {w raw : ℕ} (hw : w ≤ 32) (hraw : (raw : ℤ) = k % 2 ^ w) (hlow : 0 ≤ k) (hhigh : k < 2 ^ w) :
    Double.nearest false raw = ofInt k := by
  have hpow : (2 : ℤ) ^ w ≤ 2 ^ 32 := pow_le_pow_right₀ (by norm_num) hw
  rw [Int.emod_eq_of_lt hlow hhigh] at hraw
  have hsmall : raw < 2 ^ 53 := by omega
  rw [nearest_natCast false hsmall, ← hraw, ofInt_of_nonneg (by omega)]
  push_cast
  rfl

theorem signed_of_emod {k u : ℤ} {w raw : ℕ} (hraw : (raw : ℤ) = k % 2 ^ w) (h : u.bmod (2 ^ w) = k) :
    ofInt ((raw : ℤ).bmod (2 ^ w)) = ofInt k := by
  rw [hraw, ← h, bmod_emod_bmod]

theorem elementFromRaw_elementToRaw {kind : ElementKind} {v : Double} {k : ℤ} (h : elementValue kind v = some k) :
    elementFromRaw bits kind (elementToRaw bits kind v % 2 ^ (8 * bytesPerElement kind)) = ofInt k := by
  have hraw (w : ℕ) (hw : w ≤ 64) : (((toInt64 (coerceElement bits kind v) % 2 ^ 64).toNat % 2 ^ w : ℕ) : ℤ) = k % 2 ^ w := by
    rw [coerceElement_eq bits h, toInt64_ofInt, toNat_emod k hw]
  cases kind <;> simp only [elementValue, Option.some.injEq, reduceCtorEq] at h
  case i8 => exact signed_of_emod (hraw 8 (by omega)) h
  case u8 =>
    subst h
    obtain ⟨hlow, hhigh⟩ := residue_lt (m := 2 ^ 8) (by omega) v
    exact nearest_of_emod (by omega) (hraw 8 (by omega)) hlow (by exact_mod_cast hhigh)
  case u8Clamped =>
    subst h
    obtain ⟨-, hlow, hhigh⟩ := clamp_eq bits v
    exact nearest_of_emod (by omega) (hraw 8 (by omega)) hlow (by omega)
  case i16 => exact signed_of_emod (hraw 16 (by omega)) h
  case u16 =>
    subst h
    obtain ⟨hlow, hhigh⟩ := residue_lt (m := 2 ^ 16) (by omega) v
    exact nearest_of_emod (by omega) (hraw 16 (by omega)) hlow (by exact_mod_cast hhigh)
  case i32 => exact signed_of_emod (hraw 32 (by omega)) h
  case u32 =>
    subst h
    obtain ⟨hlow, hhigh⟩ := residue_lt (m := 2 ^ 32) (by omega) v
    exact nearest_of_emod (by omega) (hraw 32 (by omega)) hlow (by exact_mod_cast hhigh)

/-- A word is read back as it was written, in the bytes that are in the buffer, and nothing but these is
changed. An element of an integer kind that is written through a view and read back is what an array that
owns its elements keeps, and that is the integer that the kind keeps of the Number. -/
theorem typed_array_store (items : List (Item ν)) :
    (∀ kind at_ raw little,
      (∀ j, (storeRaw (storeSetRaw items at_ (bytesPerElement kind) raw little) at_ (bytesPerElement kind) little).testBit j =
        (decide (j < 8 * bytesPerElement kind ∧ bytePlace at_ (bytesPerElement kind) little (j / 8) < items.length) &&
          raw.testBit j)) ∧
      (storeSetRaw items at_ (bytesPerElement kind) raw little).length = items.length ∧
      (∀ i, (∀ b < bytesPerElement kind, bytePlace at_ (bytesPerElement kind) little b ≠ i) →
        (storeSetRaw items at_ (bytesPerElement kind) raw little)[i]? = items[i]?) ∧
      ∀ b < bytesPerElement kind, bytePlace at_ (bytesPerElement kind) little b < items.length →
        (storeSetRaw items at_ (bytesPerElement kind) raw little)[bytePlace at_ (bytesPerElement kind) little b]? =
          some (.number (ofInt (rawByte raw b)))) ∧
    ∀ (view : View) i v k, elementValue view.elements v = some k →
      (∀ b < bytesPerElement view.elements,
        bytePlace (view.place i) (bytesPerElement view.elements) true b < items.length) →
      viewGet bits (viewSet bits items view i v) view i = coerceElement bits view.elements v ∧
        coerceElement bits view.elements v = ofInt k := by
  refine ⟨fun kind at_ raw little => ⟨fun j => ?_, ?_⟩, fun view i v k hk hin => ⟨?_, coerceElement_eq bits hk⟩⟩
  · exact testBit_storeRaw_storeSetRaw items at_ raw (bytesPerElement_le kind) little j
  · exact getElem?_foldl_set items (bytePlace at_ (bytesPerElement kind) little) raw (bytesPerElement kind)
      fun b hb b' hb' => bytePlace_injective little (bytesPerElement_le kind) hb hb'
  · rw [viewGet, viewSet, storeRaw_storeSetRaw items _ _ (bytesPerElement_le _) true hin,
      elementFromRaw_elementToRaw bits hk, coerceElement_eq bits hk]

/-- 40000 as a signed element of two bytes, at an odd place of a buffer of four. -/
theorem typed_array_store_int16 :
    viewGet ⟨fun _ => 0, fun _ => ofInt 0, fun _ => 0, fun _ => ofInt 0, fun _ => 0, fun _ => ofInt 0⟩
      (viewSet ⟨fun _ => 0, fun _ => ofInt 0, fun _ => 0, fun _ => ofInt 0, fun _ => 0, fun _ => ofInt 0⟩
        (List.replicate 4 (@Item.number Unit (ofInt 0))) ⟨.i16, 1⟩ 0 (.finite false 40000))
      ⟨.i16, 1⟩ 0 = ofInt (-25536) := by
  have hstore := (typed_array_store ⟨fun _ => 0, fun _ => ofInt 0, fun _ => 0, fun _ => ofInt 0, fun _ => 0, fun _ => ofInt 0⟩
    (List.replicate 4 (@Item.number Unit (ofInt 0)))).2 ⟨.i16, 1⟩ 0 (.finite false 40000) (-25536)
    (by decide) (by decide)
  exact hstore.1.trans hstore.2

end CtBrowser.Script.TypedArray
