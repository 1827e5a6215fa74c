import CtBrowser.Core.DoubleArithmetic
import CtBrowser.Script.BigIntText
import CtBrowser.Script.Strings.Order

/-!
# Comparisons of primitives

`==` and the four relational operators on primitive values: by a chain of returns, in which a boolean
becomes a Number, a string a Number or a BigInt depending on the other side, and a BigInt meets a Number
through its integral part and its fraction.

Symbols are told apart by their keys; a symbol may have several objects with one key.

## Main definitions

- `Primitive` — the values.
- `looseEquals`, `compareRelational` — the comparisons.
- `IsLooselyEqual`, `isLessThan`, `exactOrder` — those of ECMA-262, for a reading of strings.

## Main results

- `bigintCompareDouble_eq` — BigInts and Numbers are compared exactly.
- `order_eq`, `looseEquals_iff` — the comparisons, with strings as they are read.
- `comparison` — for which operands they are those of ECMA-262.
-/

namespace CtBrowser.Script

open NumberFormat BigInt Utf16

/-- A primitive value: a string by its code units, a symbol by its object. -/
inductive Primitive
  | undefined
  | null
  | boolean (b : Bool)
  | number (d : Double)
  | bigint (n : ℤ)
  | string (units : List UInt16)
  | symbol (object : ℕ)

namespace Primitive

/-! ## The comparisons -/

/-- The text that a string is kept as. -/
def text (units : List UInt16) : Text := utf16ToWtf8 units

def isNullish : Primitive → Bool
  | undefined | null => true
  | _ => false

def isSymbol : Primitive → Bool
  | symbol _ => true
  | _ => false

/-- A boolean as a Number. -/
def ofBoolean (b : Bool) : Double := .finite false (if b then 1 else 0)

/-- A boolean is replaced by its Number. -/
def withoutBoolean : Primitive → Primitive
  | boolean b => number (ofBoolean b)
  | v => v

def toNumber : Primitive → Double
  | number d => d
  | boolean b => ofBoolean b
  | null => .finite false 0
  | undefined => .nan
  | string units => stringToNumber (text units)
  | _ => .nan

/-- The order of a BigInt and a Number. -/
def bigintCompareDouble (a : ℤ) (b : Double) : Option ℤ :=
  match b with
  | .nan => none
  | .infinity negative => some (if negative then 1 else -1)
  | .finite negative magnitude =>
    let whole := b.trunc
    let rounded := truncate (Double.value negative magnitude)
    if a < rounded then some (-1)
    else if a > rounded then some 1
    else if whole.lt b then some (-1)
    else if b.lt whole then some 1
    else some 0

def looseEquals (a b : Primitive) : Bool :=
  if a.isNullish && b.isNullish then true
  else if a.isNullish || b.isNullish then false
  else
    match a.withoutBoolean, b.withoutBoolean with
    | number x, number y => x.eq y
    | string s, string t => text s = text t
    | bigint m, bigint n => m = n
    | bigint m, number y => bigintCompareDouble m y = some 0
    | number x, bigint n => bigintCompareDouble n x = some 0
    | bigint m, string t => bigintFromString (text t) = some m
    | string s, bigint n => bigintFromString (text s) = some n
    -- the objects, not the keys
    | symbol o, symbol o' => o = o'
    | a, b => (toNumber a).eq (toNumber b)

/-- The answer of a comparison, which is unordered also when it throws. -/
structure Comparison where
  order : Option Ordering
  thrown : Bool
deriving DecidableEq

/-- A sign as an order. -/
def orderOf (sign : ℤ) : Ordering := if sign < 0 then .lt else if sign > 0 then .gt else .eq

/-- The order of two BigInts by sign. -/
def exact (x y : ℤ) : ℤ := if x < y then -1 else if x > y then 1 else 0

/-- The order of two doubles. -/
def orderDoubles (x y : Double) : Option Ordering :=
  if x = .nan ∨ y = .nan then none else if x.lt y then some .lt else if y.lt x then some .gt else some .eq

def compareRelational (a b : Primitive) : Comparison :=
  if a.isSymbol || b.isSymbol then ⟨none, true⟩
  else
    match a, b with
    | bigint m, bigint n => ⟨some (orderOf (exact m n)), false⟩
    | bigint m, string t => ⟨(bigintFromString (text t)).map fun n => orderOf (exact m n), false⟩
    | string s, bigint n => ⟨(bigintFromString (text s)).map fun m => orderOf (exact m n), false⟩
    | bigint m, b => ⟨(bigintCompareDouble m (toNumber b)).map orderOf, false⟩
    | a, bigint n => ⟨(bigintCompareDouble n (toNumber a)).map fun sign => orderOf (-sign), false⟩
    | string s, string t => ⟨some (orderOf (Utf16.compare (text s) (text t))), false⟩
    | a, b => ⟨orderDoubles (toNumber a) (toNumber b), false⟩

end Primitive

/-! ## The comparisons of ECMA-262 -/

/-- The value of a BigInt. -/
def integerValue (n : ℤ) : WithBot (WithTop ℚ) := ((n : ℚ) : WithTop ℚ)

open Classical in
/-- StringToBigInt. -/
noncomputable def stringToBigInt (text : Text) : Option ℤ :=
  if h : ∃ n, StringIntegerLiteral text n then some h.choose else none

namespace Primitive

section Specification

-- the key of a symbol's object, and the Number of a string
variable {κ : Type} (key : ℕ → κ) (numberOf : Text → Double)

/-- IsLooselyEqual, without booleans. -/
def LooselyEqual : Primitive → Primitive → Prop
  | undefined, undefined | undefined, null | null, undefined | null, null => True
  | number x, number y => x.eq y
  | bigint m, bigint n => m = n
  | string s, string t => s = t
  | symbol o, symbol o' => key o = key o'
  | number x, string t => x.eq (numberOf (text t))
  | string s, number y => (numberOf (text s)).eq y
  | bigint m, string t => stringToBigInt (text t) = some m
  | string s, bigint n => stringToBigInt (text s) = some n
  | bigint m, number y => y.extended = some (integerValue m)
  | number x, bigint n => x.extended = some (integerValue n)
  | _, _ => False

/-- IsLooselyEqual. -/
def IsLooselyEqual (a b : Primitive) : Prop :=
  match a, b with
  | boolean p, boolean q => p = q
  | a, b => LooselyEqual key numberOf a.withoutBoolean b.withoutBoolean

/-- What ToNumeric comes to, a value with the infinities: none for NaN. -/
def numericValue : Primitive → Option (WithBot (WithTop ℚ))
  | undefined => none
  | null => (Double.finite false 0).extended
  | boolean b => (ofBoolean b).extended
  | number d => d.extended
  | bigint n => some (integerValue n)
  | string units => (numberOf (text units)).extended
  | symbol _ => none

/-- The order of two values, if both are there. -/
def orderValues (x y : Option (WithBot (WithTop ℚ))) : Option Ordering := Option.map₂ cmp x y

/-- The exact order of two primitives, which is that of code units for two strings. -/
noncomputable def exactOrder : Primitive → Primitive → Option Ordering
  | string s, string t => some (if s < t then .lt else if s = t then .eq else .gt)
  | bigint m, string t => orderValues (some (integerValue m)) ((stringToBigInt (text t)).map integerValue)
  | string s, bigint n => orderValues ((stringToBigInt (text s)).map integerValue) (some (integerValue n))
  | a, b => orderValues (numericValue numberOf a) (numericValue numberOf b)

/-- The answers of IsLessThan. -/
inductive LessThan
  | throws
  | undefined
  | answer (less : Bool)
deriving DecidableEq

/-- Number::lessThan. -/
def numberLessThan (x y : Double) : LessThan := if x = .nan ∨ y = .nan then .undefined else .answer (x.lt y)

/-- A BigInt and a Number: infinities first, then the values. -/
def bigintLessThanNumber (m : ℤ) : Double → LessThan
  | .nan => .undefined
  | .infinity negative => .answer (!negative)
  | .finite n q => .answer (decide ((m : ℚ) < Double.value n q))

/-- A Number and a BigInt. -/
def numberLessThanBigint (x : Double) (n : ℤ) : LessThan :=
  match x with
  | .nan => .undefined
  | .infinity negative => .answer negative
  | .finite s q => .answer (decide (Double.value s q < (n : ℚ)))

/-- ToNumeric of a primitive that is neither a BigInt nor a symbol. -/
def toNumeric : Primitive → Double
  | number d => d
  | boolean b => ofBoolean b
  | null => .finite false 0
  | string units => numberOf (text units)
  | _ => .nan

/-- IsLessThan. -/
noncomputable def isLessThan (a b : Primitive) : LessThan :=
  match a, b with
  | string s, string t => .answer (decide (s < t))
  | bigint m, string t =>
    match stringToBigInt (text t) with
    | none => .undefined
    | some n => .answer (decide (m < n))
  | string s, bigint n =>
    match stringToBigInt (text s) with
    | none => .undefined
    | some m => .answer (decide (m < n))
  | symbol _, _ | _, symbol _ => .throws
  | bigint m, bigint n => .answer (decide (m < n))
  | bigint m, b => bigintLessThanNumber m (toNumeric numberOf b)
  | a, bigint n => numberLessThanBigint (toNumeric numberOf a) n
  | a, b => numberLessThan (toNumeric numberOf a) (toNumeric numberOf b)

/-- The comparisons of two operands are those of ECMA-262. -/
structure Compares (a b : Primitive) : Prop where
  symmetric : looseEquals a b = looseEquals b a
  equal : looseEquals a b = true ↔ IsLooselyEqual key numberOf a b
  throws : (compareRelational a b).thrown = true ↔ isLessThan numberOf a b = .throws
  unordered : (compareRelational a b).order = none ↔
    isLessThan numberOf a b = .throws ∨ isLessThan numberOf a b = .undefined
  answers : ∀ less, isLessThan numberOf a b = .answer less → (less = true ↔ (compareRelational a b).order = some .lt)
  exact : ∀ o, (compareRelational a b).order = some o → exactOrder numberOf a b = some o
  mirror : (compareRelational b a).order = (compareRelational a b).order.map Ordering.swap

end Specification

/-! ## Strings that are not read as their Number -/

/-- The Number that a string, or another such operand, is compared with. -/
def plainNumber : Primitive → Option Double
  | undefined => some .nan
  | null => some (.finite false 0)
  | boolean b => some (ofBoolean b)
  | number d => some d
  | _ => none

/-- If a string is not read as its Number, what is read lies on the same side of the other operand. -/
def ReadAlike (t : Text) (y : Double) : Prop :=
  Misread t → orderValues (stringToNumber t).extended y.extended = orderValues (numberOfString t).extended y.extended

/-- Operands that are compared rightly: a string that is read alike, two symbols that are not two objects
with one key, and all others. -/
def Unaffected {κ : Type} (key : ℕ → κ) : Primitive → Primitive → Prop
  | string s, b => ∀ y, b.plainNumber = some y → ReadAlike (text s) y
  | a, string t => ∀ y, a.plainNumber = some y → ReadAlike (text t) y
  | symbol o, symbol o' => key o = key o' → o = o'
  | _, _ => True

/-! ## Order of values -/

theorem orderValues_swap (x y : Option (WithBot (WithTop ℚ))) :
    orderValues y x = (orderValues x y).map Ordering.swap := by
  cases x with
  | none => cases y <;> rfl
  | some x =>
    cases y with
    | none => rfl
    | some y => exact congrArg some (cmp_swap x y).symm

theorem orderValues_none (x : Option (WithBot (WithTop ℚ))) : orderValues x none = none := by
  cases x <;> rfl

theorem orderDoubles_eq (x y : Double) : orderDoubles x y = orderValues x.extended y.extended := by
  rw [orderDoubles]
  cases hx : x.extended with
  | none =>
    rw [if_pos (.inl (Double.extended_eq_none_iff.mp hx))]
    rfl
  | some a =>
    have hxne : x ≠ .nan := fun h => by
      rw [Double.extended_eq_none_iff.mpr h] at hx
      cases hx
    cases hy : y.extended with
    | none =>
      rw [if_pos (.inr (Double.extended_eq_none_iff.mp hy))]
      rfl
    | some b =>
      have hyne : y ≠ .nan := fun h => by
        rw [Double.extended_eq_none_iff.mpr h] at hy
        cases hy
      rw [if_neg (by tauto), orderValues, Option.map₂_some_some, cmp, cmpUsing]
      simp only [Double.lt_iff hx hy, Double.lt_iff hy hx]
      split_ifs <;> rfl

theorem orderOf_exact (m n : ℤ) :
    some (orderOf (exact m n)) = orderValues (some (integerValue m)) (some (integerValue n)) := by
  have hlt (k l : ℤ) : integerValue k < integerValue l ↔ k < l := by
    rw [integerValue, integerValue, WithBot.coe_lt_coe, WithTop.coe_lt_coe, Int.cast_lt]
  rw [orderValues, Option.map₂_some_some, cmp, cmpUsing, exact]
  simp only [hlt, gt_iff_lt]
  split_ifs <;> rfl

theorem truncate_bounds (v : ℚ) : (0 ≤ v → (truncate v : ℚ) ≤ v ∧ v < truncate v + 1) ∧
    (v < 0 → v ≤ (truncate v : ℚ) ∧ (truncate v : ℚ) < v + 1) := by
  constructor
  · intro h
    rw [truncate, if_pos h]
    exact ⟨Int.floor_le v, Int.lt_floor_add_one v⟩
  · intro h
    rw [truncate, if_neg (not_le.mpr h)]
    exact ⟨Int.le_ceil v, Int.ceil_lt_add_one v⟩

/-- A BigInt and a Number are compared exactly. -/
theorem bigintCompareDouble_eq (m : ℤ) (y : Double) :
    (bigintCompareDouble m y).map orderOf = orderValues (some (integerValue m)) y.extended := by
  cases y with
  | nan => rfl
  | infinity n =>
    cases n
    · exact congrArg some ((cmp_eq_lt_iff _ _).mpr (Double.coe_lt_top m)).symm
    · exact congrArg some ((cmp_eq_gt_iff _ _).mpr (WithBot.bot_lt_coe _)).symm
  | finite n q =>
    have hlt (k l : ℚ) : ((k : WithTop ℚ) : WithBot (WithTop ℚ)) < (l : WithTop ℚ) ↔ k < l := by
      rw [WithBot.coe_lt_coe, WithTop.coe_lt_coe]
    obtain ⟨hpos, hneg⟩ := truncate_bounds (Double.value n q)
    have hwhole : (Double.trunc (.finite n q)).lt (.finite n q) =
          decide ((truncate (Double.value n q) : ℚ) < Double.value n q) ∧
        (Double.finite n q).lt (Double.trunc (.finite n q)) = decide (Double.value n q < truncate (Double.value n q)) := by
      constructor
      · rw [Double.trunc, Double.ofValue, Double.lt, Double.value_ofValue]
      · rw [Double.trunc, Double.ofValue, Double.lt, Double.value_ofValue]
    rw [bigintCompareDouble, Double.extended, orderValues, Option.map₂_some_some, integerValue, cmp, cmpUsing]
    simp only [hlt, hwhole.1, hwhole.2, decide_eq_true_eq]
    generalize truncate (Double.value n q) = t at hpos hneg ⊢
    generalize Double.value n q = v at hpos hneg ⊢
    have hbefore : m < t → (m : ℚ) < v := by
      intro h
      have hle : (m : ℚ) + 1 ≤ t := by exact_mod_cast h
      rcases lt_or_ge v 0 with hv | hv
      · linarith [(hneg hv).2]
      · linarith [(hpos hv).1]
    have hafter : m > t → v < (m : ℚ) := by
      intro h
      have hle : (t : ℚ) + 1 ≤ m := by exact_mod_cast h
      rcases lt_or_ge v 0 with hv | hv
      · linarith [(hneg hv).1]
      · linarith [(hpos hv).2]
    by_cases h1 : m < t
    · rw [if_pos h1, if_pos (hbefore h1)]
      rfl
    by_cases h2 : m > t
    · rw [if_neg h1, if_pos h2, if_neg (hafter h2).not_gt, if_pos (hafter h2)]
      rfl
    obtain rfl : m = t := by omega
    rw [if_neg h1, if_neg h2]
    by_cases h3 : (m : ℚ) < v
    · rw [if_pos h3, if_pos h3]
      rfl
    by_cases h4 : v < (m : ℚ)
    · rw [if_neg h3, if_pos h4, if_neg h3, if_pos h4]
      rfl
    · rw [if_neg h3, if_neg h4, if_neg h3, if_neg h4]
      rfl

theorem bigintCompareDouble_flipped (m : ℤ) (x : Double) :
    (bigintCompareDouble m x).map (fun sign => orderOf (-sign)) = orderValues x.extended (some (integerValue m)) := by
  have hflip : (fun sign => orderOf (-sign)) = Ordering.swap ∘ orderOf := by
    funext sign
    rw [Function.comp_apply, orderOf, orderOf]
    rcases lt_trichotomy sign 0 with h | rfl | h
    · rw [if_neg (by omega), if_pos (by omega), if_pos h]
      rfl
    · rfl
    · rw [if_pos (by omega), if_neg (by omega), if_pos h]
      rfl
  rw [hflip, ← Option.map_map, bigintCompareDouble_eq, ← orderValues_swap]

theorem bigintCompareDouble_eq_zero_iff (m : ℤ) (y : Double) :
    bigintCompareDouble m y = some 0 ↔ y.extended = some (integerValue m) := by
  have hsign : ∀ sign ∈ bigintCompareDouble m y, orderOf sign = .eq → sign = 0 := by
    intro sign _ h
    rw [orderOf] at h
    split_ifs at h
    omega
  have hvalue := bigintCompareDouble_eq m y
  constructor
  · intro h
    rw [h] at hvalue
    cases hy : y.extended with
    | none =>
      rw [hy] at hvalue
      cases hvalue
    | some b =>
      rw [hy] at hvalue
      have hcmp : cmp (integerValue m) b = .eq := (Option.some_injective _ hvalue).symm
      rw [(cmp_eq_eq_iff _ _).mp hcmp]
  · intro h
    rw [h, orderValues, Option.map₂_some_some, (cmp_eq_eq_iff _ _).mpr rfl, Option.map_eq_some_iff] at hvalue
    obtain ⟨sign, hmem, horder⟩ := hvalue
    rw [hmem, hsign sign hmem horder]

/-! ## Strings -/

theorem stringToBigInt_eq (t : Text) : bigintFromString t = stringToBigInt t := by
  rw [stringToBigInt]
  by_cases h : ∃ n, StringIntegerLiteral t n
  · rw [dif_pos h, bigintFromString_iff]
    exact h.choose_spec
  · rw [dif_neg h, Option.eq_none_iff_forall_ne_some]
    exact fun n hn => h ⟨n, (bigintFromString_iff t n).mp hn⟩

theorem text_injective : Function.Injective text :=
  Function.LeftInverse.injective wtf8ToUtf16_utf16ToWtf8

theorem orderOf_compare (s t : List UInt16) :
    orderOf (Utf16.compare (text s) (text t)) = if s < t then .lt else if s = t then .eq else .gt := by
  rw [text, text, compare_eq_compareUnits, compareUnits]
  split_ifs <;> rfl

/-! ## The comparisons, with strings as they are read -/

theorem exists_kind (a : Primitive) : (∃ x, a.plainNumber = some x) ∨ (∃ n, a = bigint n) ∨ (∃ s, a = string s) ∨
    ∃ o, a = symbol o := by
  cases a <;> simp [plainNumber]

section Kinds

variable {a b : Primitive} {x y : Double} (numberOf : Text → Double)

theorem compareRelational_plain (ha : a.plainNumber = some x) (hb : b.plainNumber = some y) :
    compareRelational a b = ⟨orderDoubles x y, false⟩ := by
  cases a <;> cases b <;> cases ha <;> cases hb <;> rfl

theorem compareRelational_bigint (m : ℤ) (hb : b.plainNumber = some y) :
    compareRelational (bigint m) b = ⟨(bigintCompareDouble m y).map orderOf, false⟩ ∧
      compareRelational b (bigint m) = ⟨(bigintCompareDouble m y).map fun sign => orderOf (-sign), false⟩ := by
  cases b <;> cases hb <;> exact ⟨rfl, rfl⟩

theorem compareRelational_string (s : List UInt16) (hb : b.plainNumber = some y) :
    compareRelational (string s) b = ⟨orderDoubles (stringToNumber (text s)) y, false⟩ ∧
      compareRelational b (string s) = ⟨orderDoubles y (stringToNumber (text s)), false⟩ := by
  cases b <;> cases hb <;> exact ⟨rfl, rfl⟩

theorem compareRelational_symbol (a : Primitive) (o : ℕ) : compareRelational (symbol o) a = ⟨none, true⟩ ∧
    compareRelational a (symbol o) = ⟨none, true⟩ := by
  cases a <;> exact ⟨rfl, rfl⟩

theorem exactOrder_plain (ha : a.plainNumber = some x) (hb : b.plainNumber = some y) :
    exactOrder numberOf a b = orderValues x.extended y.extended := by
  cases a <;> cases b <;> cases ha <;> cases hb <;> rfl

theorem exactOrder_bigint (m : ℤ) (hb : b.plainNumber = some y) :
    exactOrder numberOf (bigint m) b = orderValues (some (integerValue m)) y.extended ∧
      exactOrder numberOf b (bigint m) = orderValues y.extended (some (integerValue m)) := by
  cases b <;> cases hb <;> exact ⟨rfl, rfl⟩

theorem exactOrder_string (s : List UInt16) (hb : b.plainNumber = some y) :
    exactOrder numberOf (string s) b = orderValues (numberOf (text s)).extended y.extended ∧
      exactOrder numberOf b (string s) = orderValues y.extended (numberOf (text s)).extended := by
  cases b <;> cases hb <;> exact ⟨rfl, rfl⟩

end Kinds

/-- Without symbols the answer is the exact order, with strings as they are read. -/
theorem order_eq {a b : Primitive} (ha : a.isSymbol = false) (hb : b.isSymbol = false) :
    compareRelational a b = ⟨exactOrder stringToNumber a b, false⟩ := by
  rcases exists_kind a with ⟨x, hx⟩ | ⟨m, rfl⟩ | ⟨s, rfl⟩ | ⟨o, rfl⟩
  · rcases exists_kind b with ⟨y, hy⟩ | ⟨n, rfl⟩ | ⟨t, rfl⟩ | ⟨o, rfl⟩
    · rw [compareRelational_plain hx hy, exactOrder_plain _ hx hy, orderDoubles_eq]
    · rw [(compareRelational_bigint n hx).2, (exactOrder_bigint _ n hx).2, bigintCompareDouble_flipped]
    · rw [(compareRelational_string t hx).2, (exactOrder_string _ t hx).2, orderDoubles_eq]
    · cases hb
  · rcases exists_kind b with ⟨y, hy⟩ | ⟨n, rfl⟩ | ⟨t, rfl⟩ | ⟨o, rfl⟩
    · rw [(compareRelational_bigint m hy).1, (exactOrder_bigint _ m hy).1, bigintCompareDouble_eq]
    · exact congrArg (Comparison.mk · false) (orderOf_exact m n)
    · change Comparison.mk ((bigintFromString (text t)).map fun n => orderOf (exact m n)) false = ⟨orderValues _ _, false⟩
      rw [stringToBigInt_eq]
      cases stringToBigInt (text t) with
      | none => rfl
      | some n => exact congrArg (Comparison.mk · false) (orderOf_exact m n)
    · cases hb
  · rcases exists_kind b with ⟨y, hy⟩ | ⟨n, rfl⟩ | ⟨t, rfl⟩ | ⟨o, rfl⟩
    · rw [(compareRelational_string s hy).1, (exactOrder_string _ s hy).1, orderDoubles_eq]
    · change Comparison.mk ((bigintFromString (text s)).map fun m => orderOf (exact m n)) false = ⟨orderValues _ _, false⟩
      rw [stringToBigInt_eq]
      cases stringToBigInt (text s) with
      | none => rfl
      | some m => exact congrArg (Comparison.mk · false) (orderOf_exact m n)
    · exact congrArg (fun o => Comparison.mk (some o) false) (orderOf_compare s t)
    · cases hb
  · cases ha

/-- Without the keys of symbols, equality is IsLooselyEqual, with strings as they are read. -/
theorem looseEquals_iff (a b : Primitive) : looseEquals a b = true ↔ IsLooselyEqual (id : ℕ → ℕ) stringToNumber a b := by
  have hboolean (p q : Bool) : (ofBoolean p).eq (ofBoolean q) = true ↔ p = q := by
    cases p <;> cases q <;> decide
  cases a <;> cases b <;> simp [looseEquals, isNullish, withoutBoolean, IsLooselyEqual, LooselyEqual, toNumber,
    bigintCompareDouble_eq_zero_iff, stringToBigInt_eq, text_injective.eq_iff, hboolean]

/-! ## Symmetry -/

theorem isLooselyEqual_comm {κ : Type} (key : ℕ → κ) (numberOf : Text → Double) (a b : Primitive) :
    IsLooselyEqual key numberOf a b ↔ IsLooselyEqual key numberOf b a := by
  cases a <;> cases b <;> simp only [IsLooselyEqual, withoutBoolean, LooselyEqual, Double.eq_comm, eq_comm]

theorem exactOrder_swap (numberOf : Text → Double) (a b : Primitive) :
    exactOrder numberOf b a = (exactOrder numberOf a b).map Ordering.swap := by
  cases a <;> cases b <;> first | exact orderValues_swap _ _ | skip
  rename_i s t
  simp only [exactOrder, Option.map_some, Option.some.injEq]
  by_cases hst : s < t
  · have hts : ¬ t < s := fun h => List.lt_irrefl s (List.lt_trans hst h)
    have hne : t ≠ s := by
      rintro rfl
      exact List.lt_irrefl t hst
    rw [if_pos hst, if_neg hts, if_neg hne]
    rfl
  by_cases heq : s = t
  · subst heq
    rw [if_neg hst, if_pos rfl]
    rfl
  · have hts : t < s := by
      by_contra hts
      exact heq (List.le_antisymm (List.not_lt.mp hts) (List.not_lt.mp hst))
    rw [if_neg hst, if_neg heq, if_pos hts]
    rfl

/-! ## IsLessThan by the exact order -/

theorem decide_cmp {α : Type} [LinearOrder α] (x y : α) : decide (cmp x y = .lt) = decide (x < y) :=
  decide_eq_decide.mpr (cmp_eq_lt_iff x y)

/-- The answer that an order gives. -/
def answerOf (o : Option Ordering) : LessThan := o.elim .undefined fun o => .answer (decide (o = .lt))

theorem numberLessThan_eq (x y : Double) : numberLessThan x y = answerOf (orderValues x.extended y.extended) := by
  rw [← orderDoubles_eq, orderDoubles, numberLessThan]
  by_cases hnan : x = .nan ∨ y = .nan
  · rw [if_pos hnan, if_pos hnan]
    rfl
  rw [if_neg hnan, if_neg hnan]
  by_cases hlt : x.lt y = true
  · rw [if_pos hlt, hlt]
    rfl
  · have hfalse : x.lt y = false := by simpa using hlt
    rw [if_neg hlt, hfalse]
    split_ifs <;> rfl

theorem integerValue_lt (m n : ℤ) : integerValue m < integerValue n ↔ m < n := by
  rw [integerValue, integerValue, WithBot.coe_lt_coe, WithTop.coe_lt_coe, Int.cast_lt]

theorem bigintLessThanNumber_eq (m : ℤ) (y : Double) :
    bigintLessThanNumber m y = answerOf (orderValues (some (integerValue m)) y.extended) := by
  cases y with
  | nan => rfl
  | infinity n =>
    refine congrArg LessThan.answer ?_
    rw [decide_cmp]
    cases n
    · exact (decide_eq_true (Double.coe_lt_top m)).symm
    · exact (decide_eq_false not_lt_bot).symm
  | finite n q =>
    refine congrArg LessThan.answer ?_
    rw [decide_cmp]
    exact decide_eq_decide.mpr (WithBot.coe_lt_coe.trans WithTop.coe_lt_coe).symm

theorem numberLessThanBigint_eq (x : Double) (n : ℤ) :
    numberLessThanBigint x n = answerOf (orderValues x.extended (some (integerValue n))) := by
  cases x with
  | nan => rfl
  | infinity b =>
    refine congrArg LessThan.answer ?_
    rw [decide_cmp]
    cases b
    · exact (decide_eq_false (not_lt.mpr (Double.coe_lt_top n).le)).symm
    · exact (decide_eq_true (WithBot.bot_lt_coe _)).symm
  | finite b q =>
    refine congrArg LessThan.answer ?_
    rw [decide_cmp]
    exact decide_eq_decide.mpr (WithBot.coe_lt_coe.trans WithTop.coe_lt_coe).symm

theorem bigintLessThan_eq (m n : ℤ) :
    LessThan.answer (decide (m < n)) = answerOf (orderValues (some (integerValue m)) (some (integerValue n))) := by
  refine congrArg LessThan.answer ?_
  rw [decide_cmp]
  exact decide_eq_decide.mpr (integerValue_lt m n).symm

section Kinds

variable {a b : Primitive} {x y : Double} (numberOf : Text → Double)

theorem isLessThan_plain (ha : a.plainNumber = some x) (hb : b.plainNumber = some y) :
    isLessThan numberOf a b = numberLessThan x y := by
  cases a <;> cases b <;> cases ha <;> cases hb <;> rfl

theorem isLessThan_bigint (m : ℤ) (hb : b.plainNumber = some y) :
    isLessThan numberOf (bigint m) b = bigintLessThanNumber m y ∧
      isLessThan numberOf b (bigint m) = numberLessThanBigint y m := by
  cases b <;> cases hb <;> exact ⟨rfl, rfl⟩

theorem isLessThan_string (s : List UInt16) (hb : b.plainNumber = some y) :
    isLessThan numberOf (string s) b = numberLessThan (numberOf (text s)) y ∧
      isLessThan numberOf b (string s) = numberLessThan y (numberOf (text s)) := by
  cases b <;> cases hb <;> exact ⟨rfl, rfl⟩

theorem isLessThan_symbol (a : Primitive) (o : ℕ) : isLessThan numberOf (symbol o) a = .throws ∧
    isLessThan numberOf a (symbol o) = .throws := by
  cases a <;> exact ⟨rfl, rfl⟩

theorem isLessThan_eq (ha : a.isSymbol = false) (hb : b.isSymbol = false) :
    isLessThan numberOf a b = answerOf (exactOrder numberOf a b) := by
  rcases exists_kind a with ⟨x, hx⟩ | ⟨m, rfl⟩ | ⟨s, rfl⟩ | ⟨o, rfl⟩
  · rcases exists_kind b with ⟨y, hy⟩ | ⟨n, rfl⟩ | ⟨t, rfl⟩ | ⟨o, rfl⟩
    · rw [isLessThan_plain _ hx hy, exactOrder_plain _ hx hy, numberLessThan_eq]
    · rw [(isLessThan_bigint _ n hx).2, (exactOrder_bigint _ n hx).2, numberLessThanBigint_eq]
    · rw [(isLessThan_string _ t hx).2, (exactOrder_string _ t hx).2, numberLessThan_eq]
    · cases hb
  · rcases exists_kind b with ⟨y, hy⟩ | ⟨n, rfl⟩ | ⟨t, rfl⟩ | ⟨o, rfl⟩
    · rw [(isLessThan_bigint _ m hy).1, (exactOrder_bigint _ m hy).1, bigintLessThanNumber_eq]
    · exact bigintLessThan_eq m n
    · rw [isLessThan, exactOrder]
      cases stringToBigInt (text t) with
      | none => rfl
      | some n => exact bigintLessThan_eq m n
    · cases hb
  · rcases exists_kind b with ⟨y, hy⟩ | ⟨n, rfl⟩ | ⟨t, rfl⟩ | ⟨o, rfl⟩
    · rw [(isLessThan_string _ s hy).1, (exactOrder_string _ s hy).1, numberLessThan_eq]
    · rw [isLessThan, exactOrder]
      cases stringToBigInt (text s) with
      | none => rfl
      | some m => exact bigintLessThan_eq m n
    · rw [isLessThan, exactOrder]
      refine congrArg LessThan.answer ?_
      split_ifs with hlt heq <;> simp [hlt]
    · cases hb
  · cases ha

end Kinds

/-! ## Strings that are read alike -/

theorem eq_iff_order (x y : Double) : x.eq y = true ↔ orderValues x.extended y.extended = some .eq := by
  cases hx : x.extended with
  | none =>
    rw [Double.extended_eq_none_iff] at hx
    subst hx
    exact iff_of_false (by rintro ⟨⟩) (by rintro ⟨⟩)
  | some a =>
    cases hy : y.extended with
    | none =>
      rw [Double.extended_eq_none_iff] at hy
      subst hy
      rw [Double.eq_comm]
      exact iff_of_false (by rintro ⟨⟩) (by rintro ⟨⟩)
    | some b =>
      rw [Double.eq_iff hx hy, orderValues, Option.map₂_some_some, Option.some.injEq, cmp_eq_eq_iff]

theorem ReadAlike.order {t : Text} {y : Double} (h : ReadAlike t y) :
    orderValues (stringToNumber t).extended y.extended = orderValues (numberOfString t).extended y.extended := by
  by_cases hmisread : Misread t
  · exact h hmisread
  · rw [(stringToNumber_eq_iff t).mpr hmisread]

theorem ReadAlike.eq {t : Text} {y : Double} (h : ReadAlike t y) : (stringToNumber t).eq y = (numberOfString t).eq y := by
  rw [Bool.eq_iff_iff, eq_iff_order, eq_iff_order, h.order]

section Alike

variable {κ : Type} {key : ℕ → κ} {a b : Primitive}

theorem Unaffected.symm (h : Unaffected key a b) : Unaffected key b a := by
  cases a <;> cases b <;> first | exact h | trivial | skip
  · exact fun y hy => by cases hy
  · exact fun heq => (h heq.symm).symm

theorem Unaffected.exactOrder (h : Unaffected key a b) :
    exactOrder stringToNumber a b = exactOrder numberOfString a b := by
  rcases exists_kind a with ⟨x, hx⟩ | ⟨m, rfl⟩ | ⟨s, rfl⟩ | ⟨o, rfl⟩
  · rcases exists_kind b with ⟨y, hy⟩ | ⟨n, rfl⟩ | ⟨t, rfl⟩ | ⟨o, rfl⟩
    · rw [exactOrder_plain _ hx hy, exactOrder_plain _ hx hy]
    · rw [(exactOrder_bigint _ n hx).2, (exactOrder_bigint _ n hx).2]
    · have halike : ReadAlike (text t) x := h.symm x hx
      rw [(exactOrder_string _ t hx).2, (exactOrder_string _ t hx).2, orderValues_swap, halike.order, ← orderValues_swap]
    · cases a <;> cases hx <;> rfl
  · cases b <;> rfl
  · rcases exists_kind b with ⟨y, hy⟩ | ⟨n, rfl⟩ | ⟨t, rfl⟩ | ⟨o, rfl⟩
    · have halike : ReadAlike (text s) y := h y hy
      rw [(exactOrder_string _ s hy).1, (exactOrder_string _ s hy).1, halike.order]
    · rfl
    · rfl
    · exact (orderValues_none _).trans (orderValues_none _).symm
  · cases b <;> rfl

theorem Unaffected.isLooselyEqual (h : Unaffected key a b) :
    IsLooselyEqual (id : ℕ → ℕ) stringToNumber a b ↔ IsLooselyEqual key numberOfString a b := by
  have hstring {s : List UInt16} {v : Primitive} (hs : Unaffected key (string s) v) {y : Double} (hy : v.plainNumber = some y) :
      (stringToNumber (text s)).eq y = (numberOfString (text s)).eq y := (hs y hy : ReadAlike (text s) y).eq
  cases a <;> cases b <;> first | rfl | skip
  case boolean.string p t =>
    change (ofBoolean p).eq _ = true ↔ (ofBoolean p).eq _ = true
    rw [Double.eq_comm (ofBoolean p), Double.eq_comm (ofBoolean p), hstring h.symm rfl]
  case number.string d t =>
    change d.eq _ = true ↔ d.eq _ = true
    rw [Double.eq_comm d, Double.eq_comm d, hstring h.symm rfl]
  case string.boolean s p =>
    change (stringToNumber (text s)).eq (ofBoolean p) = true ↔ _
    rw [hstring h rfl]
    rfl
  case string.number s d =>
    change (stringToNumber (text s)).eq d = true ↔ _
    rw [hstring h rfl]
    rfl
  case symbol.symbol o o' => exact ⟨congrArg key, h⟩

theorem looseEquals_comm (a b : Primitive) : looseEquals a b = looseEquals b a := by
  rw [Bool.eq_iff_iff, looseEquals_iff, looseEquals_iff, isLooselyEqual_comm]

theorem answerOf_eq {o : Option Ordering} : (answerOf o = .throws ↔ False) ∧ (answerOf o = .undefined ↔ o = none) ∧
    ∀ less, answerOf o = .answer less → (less = true ↔ o = some .lt) := by
  cases o with
  | none => simp [answerOf]
  | some o =>
    refine ⟨by simp [answerOf], by simp [answerOf], ?_⟩
    rintro less ⟨⟩
    rw [decide_eq_true_eq, Option.some.injEq]

/-- Operands that are not affected are compared rightly. -/
theorem Unaffected.compares (h : Unaffected key a b) : Compares key numberOfString a b := by
  have hequal : looseEquals a b = true ↔ IsLooselyEqual key numberOfString a b := (looseEquals_iff a b).trans h.isLooselyEqual
  rcases hsymbol : a.isSymbol || b.isSymbol with _ | _
  · obtain ⟨ha, hb⟩ := Bool.or_eq_false_iff.mp hsymbol
    obtain ⟨hthrows, hundefined, hanswers⟩ := @answerOf_eq (Primitive.exactOrder numberOfString a b)
    have horder := order_eq ha hb
    rw [h.exactOrder] at horder
    rw [← isLessThan_eq numberOfString ha hb] at hthrows hundefined hanswers
    refine ⟨looseEquals_comm a b, hequal, ?_, ?_, ?_, ?_, ?_⟩
    · rw [horder, hthrows]
      exact iff_of_false Bool.false_ne_true id
    · rw [horder, hthrows, hundefined, false_or]
    · rw [horder]
      exact hanswers
    · rw [horder]
      exact fun o ho => ho
    · rw [order_eq hb ha, horder, exactOrder_swap, h.exactOrder]
  · have hthrown : compareRelational a b = ⟨none, true⟩ ∧ compareRelational b a = ⟨none, true⟩ ∧
        isLessThan numberOfString a b = .throws := by
      rcases Bool.or_eq_true_iff.mp hsymbol with hsym | hsym
      · cases a <;> cases hsym
        exact ⟨(compareRelational_symbol b _).1, (compareRelational_symbol b _).2, (isLessThan_symbol _ b _).1⟩
      · cases b <;> cases hsym
        exact ⟨(compareRelational_symbol a _).2, (compareRelational_symbol a _).1, (isLessThan_symbol _ a _).2⟩
    obtain ⟨hab, hba, hless⟩ := hthrown
    refine ⟨looseEquals_comm a b, hequal, ?_, ?_, ?_, ?_, ?_⟩
    · rw [hab, hless]
      exact iff_of_true rfl rfl
    · rw [hab, hless]
      exact iff_of_true rfl (.inl rfl)
    · rw [hless]
      rintro less ⟨⟩
    · rw [hab]
      rintro o ⟨⟩
    · rw [hab, hba]
      rfl

/-- Operands that are compared rightly have the exact order, with strings as they are read. -/
theorem Compares.order (h : Compares key numberOfString a b) (ha : a.isSymbol = false) (hb : b.isSymbol = false) :
    exactOrder stringToNumber a b = exactOrder numberOfString a b := by
  obtain ⟨hthrows, hundefined, -⟩ := @answerOf_eq (exactOrder numberOfString a b)
  have hunordered := h.unordered
  have hexact := h.exact
  rw [isLessThan_eq numberOfString ha hb, hthrows, hundefined, false_or, order_eq ha hb] at hunordered
  rw [order_eq ha hb] at hexact
  cases hcode : exactOrder stringToNumber a b with
  | none => exact (hunordered.mp hcode).symm
  | some o => exact (hexact o hcode).symm

theorem Compares.unaffected (h : Compares key numberOfString a b) : Unaffected key a b := by
  rcases exists_kind a with ⟨x, hx⟩ | ⟨m, rfl⟩ | ⟨s, rfl⟩ | ⟨o, rfl⟩
  · rcases exists_kind b with ⟨y, hy⟩ | ⟨n, rfl⟩ | ⟨t, rfl⟩ | ⟨o, rfl⟩
    · cases a <;> cases b <;> trivial
    · cases a <;> trivial
    · have horder := h.order (by cases a <;> first | rfl | cases hx) rfl
      rw [(exactOrder_string _ t hx).2, (exactOrder_string _ t hx).2] at horder
      refine Unaffected.symm fun y hy _ => ?_
      rw [hx] at hy
      obtain rfl := Option.some_injective _ hy
      rw [orderValues_swap, horder, ← orderValues_swap]
    · cases a <;> trivial
  · cases b <;> first | trivial | exact fun y hy => by cases hy
  · rcases exists_kind b with ⟨y, hy⟩ | ⟨n, rfl⟩ | ⟨t, rfl⟩ | ⟨o, rfl⟩
    · have horder := h.order rfl (by cases b <;> first | rfl | cases hy)
      rw [(exactOrder_string _ s hy).1, (exactOrder_string _ s hy).1] at horder
      intro y' hy' _
      rw [hy] at hy'
      obtain rfl := Option.some_injective _ hy'
      exact horder
    · exact fun y hy => by cases hy
    · exact fun y hy => by cases hy
    · exact fun y hy => by cases hy
  · cases b <;> first | trivial | skip
    · exact fun y hy => by cases hy
    · exact fun hkey => (looseEquals_iff _ _).mp (h.equal.mpr hkey)

end Alike

/-- Two operands are compared as ECMA-262 compares them, both ways round, exactly when none is a string
that is read on another side of the other, and they are not two symbols of one key. -/
theorem comparison {κ : Type} (key : ℕ → κ) (a b : Primitive) :
    Compares key numberOfString a b ↔ Unaffected key a b :=
  ⟨Compares.unaffected, Unaffected.compares⟩

/-- Two objects of one symbol are not equal; and a string of seventeen hexadecimal digits is not
compared with zero. -/
theorem comparison_affected : ¬ Compares (fun _ => ascii "iterator") numberOfString (symbol 0) (symbol 1) ∧
    ¬ Compares (fun _ => ascii "iterator") numberOfString (number (.finite false 0))
      (string (wtf8ToUtf16 (ascii "0x10000000000000000"))) := by
  constructor
  · intro h
    exact absurd (h.unaffected rfl) (by decide)
  · intro h
    have htext : text (wtf8ToUtf16 (ascii "0x10000000000000000")) = ascii "0x10000000000000000" := by decide
    have hread : stringToNumber (ascii "0x10000000000000000") = .nan := by decide
    have hliteral : StrNumericLiteral (ascii "0x10000000000000000")
        (.nearest false (radixValue 16 (ascii "10000000000000000"))) :=
      .inr ⟨16, ascii "10000000000000000", ⟨⟨0x78, rfl, rfl⟩, by simp [ascii], by decide +kernel⟩, rfl⟩
    have hnumber : numberOfString (ascii "0x10000000000000000") ≠ .nan := by
      rw [← (stringToNumber_iff_eq _ _).mp (.inl ⟨[], _, [], by simp, .nil, .nil, .inr hliteral⟩)]
      exact Double.nearest_ne_nan _ _
    have halike := (h.unaffected.symm (.finite false 0) rfl : ReadAlike _ _).order
    rw [htext, hread] at halike
    cases hvalue : (numberOfString (ascii "0x10000000000000000")).extended with
    | none => exact hnumber (Double.extended_eq_none_iff.mp hvalue)
    | some v =>
      rw [hvalue] at halike
      cases halike

end Primitive

end CtBrowser.Script
