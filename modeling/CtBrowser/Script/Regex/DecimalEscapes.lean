import CtBrowser.Script.Regex.Matcher
import Mathlib.Data.List.TakeWhile

/-!
# Decimal escapes

A backslash before a digit other than zero may refer to a group, or be what is left of octal escapes. Which it is
shows when the groups of the whole pattern are counted: until then the digits are kept, and a number that names no
group makes them one literal. A quantifier that follows them has been read by then, and stays with all of that
literal. The number is read into 32 bits with a sign, which hold no more than their largest value.

## Main definitions

- `rxDecimalEscape` — what the digits and a quantifier are compiled into.
- `Reading` — how a pattern reads an escape: as a reference or as characters, some of them repeated.
- `decimalReading` — the reading by the grammar.

## Main results

- `decimalEscape_reading` — when the compiled escape is read by the grammar.
- `decimalEscape_octal` — `/\18*/` repeats two characters.
-/

namespace CtBrowser.Script.Regex

/-- Whether a byte is a digit. -/
def isDecimal (c : UInt8) : Bool := '0'.toNat ≤ c.toNat && c.toNat ≤ '9'.toNat

/-- The value of a digit. -/
def digitOf (c : UInt8) : ℕ := c.toNat - '0'.toNat

/-- The largest number of 32 bits with a sign. -/
def int32Max : ℕ := 0x7FFFFFFF

/-! ## Quantifiers -/

/-- Exactly once. -/
def exactlyOnce : Quantifier := ⟨1, some 1, true, 0, 0⟩

/-- One more digit of a bound, which stops at the largest number. -/
def accumulate (n : ℕ) (d : UInt8) : ℕ := if n > (int32Max - digitOf d) / 10 then int32Max else n * 10 + digitOf d

/-- A bound of a quantifier, and what comes after it. -/
def readBound (src : Text) : ℕ × Text := ((src.takeWhile isDecimal).foldl accumulate 0, src.dropWhile isDecimal)

/-- The bounds between braces, and what comes after those. -/
def readBounds (src : Text) : Option ((ℕ × Option ℕ) × Text) :=
  if (src.takeWhile isDecimal) = [] then none
  else
    let (lo, rest) := readBound src
    match rest with
    | 0x7D :: rest => some ((lo, some lo), rest)
    | 0x2C :: 0x7D :: rest => some ((lo, none), rest)
    | 0x2C :: rest =>
      let (hi, rest) := readBound rest
      match rest with
      | 0x7D :: rest => some ((lo, some hi), rest)
      | _ => none
    | _ => none

/-- The quantifier after an atom, exactly once if there is none, and what comes after it. -/
def rxParseQuant (src : Text) : Quantifier × Text :=
  let bounds : Option ((ℕ × Option ℕ) × Text) :=
    match src with
    | 0x2A :: rest => some ((0, none), rest)
    | 0x2B :: rest => some ((1, none), rest)
    | 0x3F :: rest => some ((0, some 1), rest)
    | 0x7B :: rest => readBounds rest
    | _ => none
  match bounds with
  | none => (exactlyOnce, src)
  | some ((lo, hi), 0x3F :: rest) => (⟨lo, hi, false, 0, 0⟩, rest)
  | some ((lo, hi), rest) => (⟨lo, hi, true, 0, 0⟩, rest)

/-! ## The escape -/

/-- The number of a group as it is read: none when it leaves 32 bits, which is undefined. -/
def readNumber : ℕ → Text → Option ℕ
  | n, [] => some n
  | n, c :: rest => if n * 10 + digitOf c ≤ int32Max then readNumber (n * 10 + digitOf c) rest else none

/-- The number as the check of a pattern under `u` reads it: it reads no more of a number that is large. -/
def scanNumber : ℕ → Text → ℕ
  | n, [] => n
  | n, c :: rest => if n < 100000 then scanNumber (n * 10 + digitOf c) rest else n

/-- An octal escape, with so many of its digits read, and the digits that it leaves. -/
def readOctal : ℕ → ℕ → Text → ℕ × Text
  | code, _, [] => (code, [])
  | code, used, c :: rest =>
    if used < 3 ∧ '0'.toNat ≤ c.toNat ∧ c.toNat ≤ '7'.toNat ∧ code * 8 + digitOf c ≤ 0o377 then
      readOctal (code * 8 + digitOf c) (used + 1) rest
    else (code, c :: rest)

/-- What digits that name no group are a literal of. -/
def fallbackText (digits : Text) : Text :=
  match digits with
  | [] => []
  | c :: rest =>
    if c.toNat = '8'.toNat ∨ c.toNat = '9'.toNat then c :: rest
    else
      let octal := readOctal 0 0 (c :: rest)
      appendUtf8 octal.1 ++ octal.2

/-- What an escape is compiled into. -/
inductive Escape
  | syntaxError
  /-- A number left 32 bits. -/
  | undefined
  | literal (text : Text) (quantifier : Quantifier)
  | reference (slot : ℕ) (quantifier : Quantifier)

/-- What digits are compiled into in a pattern with so many groups. -/
def compileDigits (unicode : Bool) (ngroups : ℕ) (digits : Text) (q : Quantifier) : Escape :=
  if unicode ∧ scanNumber 0 digits > ngroups then .syntaxError
  else (readNumber 0 digits).elim .undefined fun n =>
    if n - 1 ≥ ngroups then .literal (fallbackText digits) q else .reference (n - 1) q

/-- A decimal escape, from its first digit on, and what comes after it. -/
def rxDecimalEscape (unicode : Bool) (ngroups : ℕ) (first : UInt8) (src : Text) : Escape × Text :=
  let quantified := rxParseQuant (src.dropWhile isDecimal)
  (compileDigits unicode ngroups (first :: src.takeWhile isDecimal) quantified.1, quantified.2)

/-! ## Readings -/

/-- How a pattern reads an escape: as a reference, or as characters, some of them repeated together. -/
inductive Reading
  | syntaxError
  | undefined
  | reference (slot : ℕ) (quantifier : Quantifier)
  | characters (parts : List (List ℕ × Quantifier))
deriving DecidableEq

/-- The same quantifier, whether a lazy one or none says exactly once. -/
def Quantifier.settle (q : Quantifier) : Quantifier := if q.min = 1 ∧ q.max = some 1 then exactlyOnce else q

/-- Characters by themselves, or repeated together. -/
def together (q : Quantifier) (cs : List ℕ) : List (List ℕ × Quantifier) :=
  if q = exactlyOnce then cs.map fun c => ([c], exactlyOnce) else [(cs, q)]

/-- Characters of which the last one is repeated. -/
def onLast (q : Quantifier) : List ℕ → List (List ℕ × Quantifier)
  | [] => []
  | [c] => [([c], q)]
  | c :: rest => ([c], exactlyOnce) :: onLast q rest

/-- The reading of what is compiled: a literal is its characters, and repeated as a whole. -/
def Escape.reading : Escape → Reading
  | .syntaxError => .syntaxError
  | .undefined => .undefined
  | .literal text q => .characters (together q.settle ((sequences text).map Prod.fst))
  | .reference slot q => .reference slot q.settle

/-- The value of digits after a number. -/
def valueFrom (n : ℕ) (digits : Text) : ℕ := digits.foldl (fun n c => n * 10 + digitOf c) n

/-- Whether a byte is an octal digit. -/
def isOctal (c : UInt8) : Bool := '0'.toNat ≤ c.toNat && c.toNat ≤ '7'.toNat

/-- An octal escape by the grammar: three digits if the first one is at most 3, or else two. -/
def legacyOctal : Text → ℕ × Text
  | [] => (0, [])
  | [a] => (digitOf a, [])
  | [a, b] => if isOctal b then (digitOf a * 8 + digitOf b, []) else (digitOf a, [b])
  | a :: b :: c :: rest =>
    if isOctal b then
      if isOctal c ∧ a.toNat ≤ '3'.toNat then ((digitOf a * 8 + digitOf b) * 8 + digitOf c, rest)
      else (digitOf a * 8 + digitOf b, c :: rest)
    else (digitOf a, b :: c :: rest)

/-- The characters of digits that name no group: an octal escape, or an 8 or a 9, and the digits after it. -/
def annexB (digits : Text) : List ℕ :=
  match digits with
  | [] => []
  | c :: rest =>
    if c.toNat = '8'.toNat ∨ c.toNat = '9'.toNat then (c :: rest).map UInt8.toNat
    else
      let octal := legacyOctal (c :: rest)
      octal.1 :: octal.2.map UInt8.toNat

/-- The reading of digits by the grammar: as a reference if there are so many groups, otherwise as an error under
`u`, and as characters without it, of which a quantifier repeats the last. -/
def decimalReading (unicode : Bool) (ngroups : ℕ) (digits : Text) (q : Quantifier) : Reading :=
  if valueFrom 0 digits ≤ ngroups then .reference (valueFrom 0 digits - 1) q.settle
  else if unicode then .syntaxError
  else .characters (onLast q.settle (annexB digits))

/-! ## Numbers -/

theorem le_valueFrom (n : ℕ) (digits : Text) : n ≤ valueFrom n digits := by
  induction digits generalizing n with
  | nil => exact le_rfl
  | cons c rest ih =>
    have h := ih (n * 10 + digitOf c)
    show n ≤ valueFrom (n * 10 + digitOf c) rest
    omega

theorem readNumber_eq (n : ℕ) (hn : n ≤ int32Max) (digits : Text) :
    readNumber n digits = if valueFrom n digits ≤ int32Max then some (valueFrom n digits) else none := by
  induction digits generalizing n with
  | nil => exact (if_pos hn).symm
  | cons c rest ih =>
    have hle := le_valueFrom (n * 10 + digitOf c) rest
    rw [readNumber]
    split_ifs with hstep hall hall
    · rw [ih _ hstep]
      exact if_pos hall
    · rw [ih _ hstep]
      exact if_neg hall
    · exact absurd (hle.trans hall) hstep
    · rfl

theorem scanNumber_le (n : ℕ) (digits : Text) : scanNumber n digits ≤ valueFrom n digits := by
  induction digits generalizing n with
  | nil => exact le_rfl
  | cons c rest ih =>
    rw [scanNumber]
    split_ifs
    · exact ih _
    · exact le_valueFrom n (c :: rest)

/-! ## Octal escapes -/

theorem isOctal_iff {c : UInt8} : isOctal c = true ↔ '0'.toNat ≤ c.toNat ∧ c.toNat ≤ '7'.toNat := by
  rw [isOctal, Bool.and_eq_true, decide_eq_true_eq, decide_eq_true_eq]

theorem digitOf_octal {c : UInt8} (hc : isOctal c = true) : digitOf c ≤ 7 := by
  have hseven : '7'.toNat = '0'.toNat + 7 := rfl
  rw [isOctal_iff] at hc
  rw [digitOf]
  omega

theorem readOctal_read {code used : ℕ} {c : UInt8} (rest : Text) (hused : used < 3) (hc : isOctal c = true)
    (hcode : code * 8 + digitOf c ≤ 0o377) :
    readOctal code used (c :: rest) = readOctal (code * 8 + digitOf c) (used + 1) rest := by
  obtain ⟨hlow, hhigh⟩ := isOctal_iff.mp hc
  rw [readOctal, if_pos ⟨hused, hlow, hhigh, hcode⟩]

theorem readOctal_left {code used : ℕ} {c : UInt8} (rest : Text)
    (h : ¬ (used < 3 ∧ isOctal c = true ∧ code * 8 + digitOf c ≤ 0o377)) :
    readOctal code used (c :: rest) = (code, c :: rest) := by
  rw [readOctal, if_neg fun hread => h ⟨hread.1, isOctal_iff.mpr ⟨hread.2.1, hread.2.2.1⟩, hread.2.2.2⟩]

/-- The digits that are read are those of the grammar. -/
theorem readOctal_eq {a : UInt8} (ha : isOctal a = true) (rest : Text) :
    readOctal 0 0 (a :: rest) = legacyOctal (a :: rest) := by
  have ha' := digitOf_octal ha
  have hthree : digitOf a ≤ 3 ↔ a.toNat ≤ '3'.toNat := by
    have hdigit : '3'.toNat = '0'.toNat + 3 := rfl
    have hlow := (isOctal_iff.mp ha).1
    rw [digitOf]
    omega
  rw [readOctal_read rest (by norm_num) ha (by omega), Nat.zero_mul, Nat.zero_add]
  cases rest with
  | nil => rfl
  | cons b rest =>
    by_cases hb : isOctal b = true
    · have hb' := digitOf_octal hb
      rw [readOctal_read rest (by norm_num) hb (by omega)]
      cases rest with
      | nil =>
        rw [legacyOctal, if_pos hb]
        rfl
      | cons c rest =>
        rw [legacyOctal, if_pos hb]
        by_cases hc : isOctal c = true ∧ a.toNat ≤ '3'.toNat
        · have hc' := digitOf_octal hc.1
          have hless := hthree.mpr hc.2
          rw [if_pos hc, readOctal_read rest (by norm_num) hc.1 (by omega)]
          cases rest with
          | nil => rfl
          | cons e rest => exact readOctal_left rest fun h => absurd h.1 (by norm_num)
        · rw [if_neg hc]
          refine readOctal_left rest fun h => hc ⟨h.2.1, hthree.mp ?_⟩
          have hcode := h.2.2
          omega
    · rw [readOctal_left rest fun h => hb h.2.1]
      cases rest with
      | nil => exact (if_neg hb).symm
      | cons c rest => exact (if_neg hb).symm

/-! ## Characters -/

theorem sequences_ascii {text : Text} (h : ∀ c ∈ text, c.toNat < 0x80) :
    (sequences text).map Prod.fst = text.map UInt8.toNat := by
  induction text with
  | nil => rfl
  | cons c text ih =>
    obtain ⟨hc, htext⟩ := List.forall_mem_cons.mp h
    have hread : decodeUtf8 c text = (c.toNat, 1) := by rw [decodeUtf8, if_pos hc]
    rw [sequences_cons, hread, List.drop_succ_cons, List.drop_zero, List.map_cons, List.map_cons, ih htext]

theorem readOctal_spec {code : ℕ} (hcode : code ≤ 0o377) (used : ℕ) (text : Text) :
    (readOctal code used text).1 ≤ 0o377 ∧ ∀ c ∈ (readOctal code used text).2, c ∈ text := by
  induction text generalizing code used with
  | nil => exact ⟨hcode, fun _ h => h⟩
  | cons c text ih =>
    rw [readOctal]
    split_ifs with h
    · obtain ⟨hle, hmem⟩ := ih h.2.2.2 (used + 1)
      exact ⟨hle, fun b hb => List.mem_cons_of_mem c (hmem b hb)⟩
    · exact ⟨hcode, fun _ hb => hb⟩

theorem lt_of_isDecimal {c : UInt8} (h : isDecimal c = true) : c.toNat < 0x80 := by
  have hnine : '9'.toNat = 0x39 := rfl
  rw [isDecimal, Bool.and_eq_true, decide_eq_true_eq, decide_eq_true_eq] at h
  omega

theorem sequences_fallbackText {first : UInt8} {rest : Text} (hdigits : ∀ c ∈ first :: rest, isDecimal c = true) :
    (sequences (fallbackText (first :: rest))).map Prod.fst = annexB (first :: rest) := by
  have hascii : ∀ c ∈ first :: rest, c.toNat < 0x80 := fun c hc => lt_of_isDecimal (hdigits c hc)
  rw [fallbackText, annexB]
  by_cases hidentity : first.toNat = '8'.toNat ∨ first.toNat = '9'.toNat
  · rw [if_pos hidentity, if_pos hidentity]
    exact sequences_ascii hascii
  rw [if_neg hidentity, if_neg hidentity]
  have hoctal : isOctal first = true := by
    have hfirst := hdigits first (List.mem_cons_self ..)
    have hseven : '7'.toNat + 1 = '8'.toNat ∧ '7'.toNat + 2 = '9'.toNat := ⟨rfl, rfl⟩
    rw [isDecimal, Bool.and_eq_true, decide_eq_true_eq, decide_eq_true_eq] at hfirst
    rw [isOctal_iff]
    omega
  obtain ⟨hcode, hleft⟩ := readOctal_spec (Nat.zero_le 0o377) 0 (first :: rest)
  rw [readOctal_eq hoctal] at hcode hleft ⊢
  dsimp only
  rw [sequences_appendUtf8 (by omega), List.map_cons, sequences_ascii fun c hc => hascii c (hleft c hc)]

theorem together_once (cs : List ℕ) : together exactlyOnce cs = onLast exactlyOnce cs := by
  rw [together, if_pos rfl]
  induction cs with
  | nil => rfl
  | cons c cs ih =>
    cases cs with
    | nil => rfl
    | cons d cs => exact congrArg (_ :: ·) ih

theorem together_eq_onLast (q : Quantifier) {cs : List ℕ} (hcs : cs ≠ []) :
    together q cs = onLast q cs ↔ q = exactlyOnce ∨ cs.length = 1 := by
  by_cases hq : q = exactlyOnce
  · rw [hq]
    exact iff_of_true (together_once cs) (.inl rfl)
  · rw [together, if_neg hq]
    match cs, hcs with
    | [c], _ => exact iff_of_true rfl (.inr rfl)
    | c :: d :: cs, _ =>
      refine iff_of_false (fun h => ?_) fun h => ?_
      · exact hq (congrArg Prod.snd (List.cons.inj h).1)
      · rcases h with h | h
        · exact hq h
        · simp at h

theorem annexB_ne_nil (first : UInt8) (rest : Text) : annexB (first :: rest) ≠ [] := by
  rw [annexB]
  split_ifs
  · rintro ⟨⟩
  · rintro ⟨⟩

/-! ## The reading of an escape -/

section Compile

variable {unicode : Bool} {ngroups : ℕ} {digits : Text} (q : Quantifier)

theorem compileDigits_error (h : unicode = true ∧ ngroups < scanNumber 0 digits) :
    compileDigits unicode ngroups digits q = .syntaxError := if_pos h

variable (h : ¬ (unicode = true ∧ ngroups < scanNumber 0 digits))

include h in
theorem compileDigits_undefined (hwidth : ¬ valueFrom 0 digits ≤ int32Max) :
    compileDigits unicode ngroups digits q = .undefined := by
  rw [compileDigits, if_neg h, readNumber_eq 0 (Nat.zero_le _), if_neg hwidth]
  rfl

include h in
theorem compileDigits_reference (hwidth : valueFrom 0 digits ≤ int32Max) (hpos : 1 ≤ valueFrom 0 digits)
    (hgroup : valueFrom 0 digits ≤ ngroups) :
    compileDigits unicode ngroups digits q = .reference (valueFrom 0 digits - 1) q := by
  rw [compileDigits, if_neg h, readNumber_eq 0 (Nat.zero_le _), if_pos hwidth]
  exact if_neg (by omega)

include h in
theorem compileDigits_literal (hwidth : valueFrom 0 digits ≤ int32Max) (hgroup : ¬ valueFrom 0 digits ≤ ngroups) :
    compileDigits unicode ngroups digits q = .literal (fallbackText digits) q := by
  rw [compileDigits, if_neg h, readNumber_eq 0 (Nat.zero_le _), if_pos hwidth]
  exact if_pos (by omega)

end Compile

/-- Digits are compiled into what the grammar reads just where their number is one of 32 bits, or refused, and, if it
names no group, no quantifier follows several characters. -/
theorem compileDigits_reading (unicode : Bool) (ngroups : ℕ) {first : UInt8} {rest : Text} (q : Quantifier)
    (hdigits : ∀ c ∈ first :: rest, isDecimal c = true) (hzero : first.toNat ≠ '0'.toNat) :
    (compileDigits unicode ngroups (first :: rest) q).reading = decimalReading unicode ngroups (first :: rest) q ↔
      if valueFrom 0 (first :: rest) ≤ ngroups then valueFrom 0 (first :: rest) ≤ int32Max
      else if unicode then ngroups < scanNumber 0 (first :: rest)
      else valueFrom 0 (first :: rest) ≤ int32Max ∧ (q.settle = exactlyOnce ∨ (annexB (first :: rest)).length = 1) := by
  have hpos : 1 ≤ valueFrom 0 (first :: rest) := by
    have hle := le_valueFrom (0 * 10 + digitOf first) rest
    have hfirst := hdigits first (List.mem_cons_self ..)
    rw [isDecimal, Bool.and_eq_true, decide_eq_true_eq] at hfirst
    have hdigit : 1 ≤ 0 * 10 + digitOf first := by
      rw [digitOf]
      omega
    exact hdigit.trans hle
  have hscan := scanNumber_le 0 (first :: rest)
  rw [decimalReading]
  by_cases hgroup : valueFrom 0 (first :: rest) ≤ ngroups
  · have hplain : ¬ (unicode = true ∧ ngroups < scanNumber 0 (first :: rest)) := fun h => by omega
    rw [if_pos hgroup, if_pos hgroup]
    by_cases hwidth : valueFrom 0 (first :: rest) ≤ int32Max
    · rw [compileDigits_reference q hplain hwidth hpos hgroup]
      exact iff_of_true rfl hwidth
    · rw [compileDigits_undefined q hplain hwidth]
      exact iff_of_false (by rintro ⟨⟩) hwidth
  rw [if_neg hgroup, if_neg hgroup]
  cases unicode with
  | true =>
    rw [if_pos rfl, if_pos rfl]
    by_cases hrefused : ngroups < scanNumber 0 (first :: rest)
    · rw [compileDigits_error q ⟨rfl, hrefused⟩]
      exact iff_of_true rfl hrefused
    · have hplain : ¬ (true = true ∧ ngroups < scanNumber 0 (first :: rest)) := fun h => hrefused h.2
      refine iff_of_false ?_ hrefused
      by_cases hwidth : valueFrom 0 (first :: rest) ≤ int32Max
      · rw [compileDigits_literal q hplain hwidth hgroup]
        rintro ⟨⟩
      · rw [compileDigits_undefined q hplain hwidth]
        rintro ⟨⟩
  | false =>
    have hplain : ¬ (false = true ∧ ngroups < scanNumber 0 (first :: rest)) := fun h => Bool.false_ne_true h.1
    rw [if_neg Bool.false_ne_true, if_neg Bool.false_ne_true]
    by_cases hwidth : valueFrom 0 (first :: rest) ≤ int32Max
    · rw [compileDigits_literal q hplain hwidth hgroup, Escape.reading, sequences_fallbackText hdigits,
        Reading.characters.injEq, together_eq_onLast _ (annexB_ne_nil _ _)]
      exact (and_iff_right hwidth).symm
    · rw [compileDigits_undefined q hplain hwidth]
      exact iff_of_false (by rintro ⟨⟩) fun h => hwidth h.1

/-- A decimal escape is compiled into what the grammar reads just where its number is one of 32 bits, or refused, and,
if it names no group, no quantifier follows several characters. -/
theorem decimalEscape_reading (unicode : Bool) (ngroups : ℕ) {first : UInt8} (hfirst : isDecimal first = true)
    (hzero : first.toNat ≠ '0'.toNat) (src : Text) :
    let digits := first :: src.takeWhile isDecimal
    let q := (rxParseQuant (src.dropWhile isDecimal)).1
    (rxDecimalEscape unicode ngroups first src).1.reading = decimalReading unicode ngroups digits q ↔
      if valueFrom 0 digits ≤ ngroups then valueFrom 0 digits ≤ int32Max
      else if unicode then ngroups < scanNumber 0 digits
      else valueFrom 0 digits ≤ int32Max ∧ (q.settle = exactlyOnce ∨ (annexB digits).length = 1) := by
  refine compileDigits_reading unicode ngroups _ (fun c hc => ?_) hzero
  rcases List.mem_cons.mp hc with rfl | hc
  · exact hfirst
  · exact List.mem_takeWhile_imp hc

/-- The pieces of an escape. -/
def Escape.pieces : Escape → List Piece
  | .literal text q => [.mk (.lit 0 text) q]
  | .reference slot q => [.mk (.backref (some slot) []) q]
  | _ => []

/-- A subject for pieces in a row, without flags. -/
def rowSubject (s : Text) (pieces : List Piece) : Subject :=
  ⟨s, ⟨[pieces], 0, false, false, false, false, false, []⟩, ⟨id, fun _ => []⟩⟩

/-- `/\18*/` repeats U+0001 and the 8: of U+0001 and two times 8 it matches the first two, where the grammar has it
match all. -/
theorem decimalEscape_octal :
    let compiled := (rxDecimalEscape false 0 0x31 [0x38, 0x2A]).1
    compiled.reading ≠ decimalReading false 0 [0x31, 0x38] ⟨0, none, true, 0, 0⟩ ∧
      (attempt ⟨2500, 10000000, 10000000⟩ (rowSubject [0x01, 0x38, 0x38] compiled.pieces) 10000000 0 0).hit = some 2 ∧
      (attempt ⟨2500, 10000000, 10000000⟩ (rowSubject [0x01, 0x38, 0x38]
        [.mk (.lit 0x01 []) exactlyOnce, .mk (.lit 0x38 []) ⟨0, none, true, 0, 0⟩]) 10000000 0 0).hit = some 3 := by
  decide

theorem decimalEscape_reading_octal :
    (rxDecimalEscape false 0 0x31 [0x38, 0x2A]).1.reading =
        decimalReading false 0 (0x31 :: [0x38, 0x2A].takeWhile isDecimal)
          (rxParseQuant ([0x38, 0x2A].dropWhile isDecimal)).1 ↔
      if valueFrom 0 (0x31 :: [0x38, 0x2A].takeWhile isDecimal) ≤ 0 then
        valueFrom 0 (0x31 :: [0x38, 0x2A].takeWhile isDecimal) ≤ int32Max
      else if false then 0 < scanNumber 0 (0x31 :: [0x38, 0x2A].takeWhile isDecimal)
      else valueFrom 0 (0x31 :: [0x38, 0x2A].takeWhile isDecimal) ≤ int32Max ∧
        ((rxParseQuant ([0x38, 0x2A].dropWhile isDecimal)).1.settle = exactlyOnce ∨
          (annexB (0x31 :: [0x38, 0x2A].takeWhile isDecimal)).length = 1) :=
  decimalEscape_reading false 0 (by decide) (by decide) [0x38, 0x2A]

end CtBrowser.Script.Regex
