import CtBrowser.Core.Text

/-!
# Script Values

NaN-boxed script values: one 64-bit word that is a number, one of the four singleton
tags, or a heap pointer. Only the bit tests that never follow a pointer are modelled;
they are the ones the image reader may run on bytes nobody has validated.

## Main definitions

- `Value` — the boxed word.
- `Value.isNumber`, `Value.isHeap`, … — the pure bit tests.
- `Value.IsImmediate` — what a constant-pool entry may be.
-/

namespace CtBrowser.Script

/-- A script value: one NaN-boxed 64-bit word. -/
structure Value where
  -- the boxed word
  bits : UInt64
deriving DecidableEq, Repr

namespace Value

/-- The bits that mark a boxed value: all exponent bits, the quiet bit 51 and bit 50. -/
def qnanMask : UInt64 := 0x7FFC000000000000

/-- The sign bit, set beside `qnanMask` in every heap pointer. -/
def signBit : UInt64 := 0x8000000000000000

/-- The boxed `undefined`. -/
def tagUndefined : UInt64 := qnanMask ||| 0

/-- The boxed `null`. -/
def tagNull : UInt64 := qnanMask ||| 1

/-- The boxed `false`. -/
def tagFalse : UInt64 := qnanMask ||| 2

/-- The boxed `true`. -/
def tagTrue : UInt64 := qnanMask ||| 3

/-- The only NaN pattern a number may hold. -/
def canonicalNanBits : UInt64 := 0x7FF8000000000000

/-- The value `undefined`. -/
def undefined : Value := ⟨tagUndefined⟩

/-- The value `null`. -/
def null : Value := ⟨tagNull⟩

/-- The value of a boolean. -/
def boolean (b : Bool) : Value := ⟨if b then tagTrue else tagFalse⟩

/-- A double is any word that does not match the boxed pattern. -/
def isNumber (v : Value) : Bool := (v.bits &&& qnanMask) != qnanMask

/-- A heap pointer has the sign bit and the boxed pattern. -/
def isHeap (v : Value) : Bool := (v.bits &&& (signBit ||| qnanMask)) == (signBit ||| qnanMask)

/-- Whether the word is the boxed `undefined`. -/
def isUndefined (v : Value) : Bool := v.bits == tagUndefined

/-- Whether the word is the boxed `null`. -/
def isNull (v : Value) : Bool := v.bits == tagNull

/-- Whether the word is one of the two boxed booleans. -/
def isBoolean (v : Value) : Bool := v.bits == tagTrue || v.bits == tagFalse

/-- An IEEE-754 NaN: maximal exponent and a non-zero mantissa. -/
def isNan (v : Value) : Bool :=
  (v.bits &&& 0x7FF0000000000000) == 0x7FF0000000000000 &&
    (v.bits &&& 0x000FFFFFFFFFFFFF) != 0

/-- What arithmetic may do to the word of a NaN operand: set the quiet bit 51. -/
def quieted (v : Value) : Value := if v.isNan then ⟨v.bits ||| 0x0008000000000000⟩ else v

/-- What a constant-pool entry may be: a number whose only NaN is the canonical one, or
one of the four singletons. -/
inductive IsImmediate : Value → Prop
  | number {v : Value} (hnumber : v.isNumber = true)
      (hnan : v.isNan = true → v.bits = canonicalNanBits) : IsImmediate v
  | undefined : IsImmediate undefined
  | null : IsImmediate null
  | boolean (b : Bool) : IsImmediate (boolean b)

theorem isTag_iff (v : Value) : (v.isUndefined || v.isNull || v.isBoolean) = true ↔
    v = .undefined ∨ v = .null ∨ ∃ b, v = .boolean b := by
  obtain ⟨bits⟩ := v
  simp only [isUndefined, isNull, isBoolean, undefined, null,
    boolean, Bool.or_eq_true, beq_iff_eq, mk.injEq, Bool.exists_bool, if_true,
    Bool.false_eq_true, if_false, or_assoc]
  exact or_congr_right (or_congr_right or_comm)

theorem isNumber_eq_false_of_isHeap {v : Value} (h : v.isHeap = true) :
    v.isNumber = false := by
  have hheap : v.bits &&& (signBit ||| qnanMask) = signBit ||| qnanMask := by
    simpa [isHeap] using h
  have hboxed : v.bits &&& qnanMask = qnanMask := by
    calc
      v.bits &&& qnanMask = v.bits &&& ((signBit ||| qnanMask) &&& qnanMask) := by rfl
      _ = (v.bits &&& (signBit ||| qnanMask)) &&& qnanMask := by rw [UInt64.and_assoc]
      _ = qnanMask := by rw [hheap]; rfl
  simp [isNumber, hboxed]

theorem IsImmediate.isHeap_eq_false {v : Value} (h : v.IsImmediate) : v.isHeap = false := by
  cases h with
  | number hnumber hnan =>
    by_contra hheap
    have := isNumber_eq_false_of_isHeap (Bool.of_not_eq_false hheap)
    simp [this] at hnumber
  | undefined => rfl
  | null => rfl
  | boolean b => cases b <;> rfl

end Value

end CtBrowser.Script
