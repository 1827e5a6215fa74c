import CtBrowser.Core.Double
import CtBrowser.Core.Text
import Mathlib.Data.List.TakeWhile

/-!
# Decimal literals

A decimal literal without a sign, part by part, and the scanner that takes the longest one at the
start of a text. The order of a literal is the decimal exponent of its first significant digit; it
tells an overflow from an underflow.

## Main definitions

- `DecimalLiteral` — digits, perhaps a point, perhaps an exponent.
- `scan` — the longest literal at the start of a text.
- `order` — the decimal exponent of its value.

## Main results

- `scan_append` — a literal is read back when what follows does not continue it.
- `exists_stops` — what the scanner takes is the longest.
- `overflows_iff_order_pos` — out of the range, a literal of positive order overflows.
-/

namespace CtBrowser

def isDecimalDigit (c : UInt8) : Bool := '0'.toNat ≤ c.toNat ∧ c.toNat ≤ '9'.toNat

/-- The number that digits spell. -/
def digitsValue (ds : Text) : ℕ := ds.foldl (fun n c => 10 * n + (c.toNat - '0'.toNat)) 0

/-- The letter `e` of an exponent, in either case. -/
def isExponentLetter (c : UInt8) : Bool := asciiLower c == 0x65

/-- A point. -/
abbrev point : UInt8 := 0x2E

/-- A sign that is there or not, as whether it is a minus. -/
def signText : Option Bool → Text
  | none => []
  | some false => ascii "+"
  | some true => ascii "-"

/-- The exponent of a literal. -/
structure DecimalExponent where
  letter : UInt8
  minus : Option Bool
  digits : Text
  isLetter : isExponentLetter letter
  allDigits : ∀ c ∈ digits, isDecimalDigit c
  someDigit : digits ≠ []

namespace DecimalExponent

def text (e : DecimalExponent) : Text := e.letter :: (signText e.minus ++ e.digits)

def value (e : DecimalExponent) : ℤ := if e.minus = some true then -digitsValue e.digits else digitsValue e.digits

end DecimalExponent

/-- A decimal literal. -/
structure DecimalLiteral where
  whole : Text
  -- the digits after the point, if there is one
  fraction : Option Text
  exponent : Option DecimalExponent
  wholeDigits : ∀ c ∈ whole, isDecimalDigit c
  fractionDigits : ∀ c ∈ fraction.getD [], isDecimalDigit c
  someDigit : whole ++ fraction.getD [] ≠ []

namespace DecimalLiteral

/-- The point and what follows it, up to the exponent. -/
def fractionText (fraction : Option Text) : Text := (fraction.map (point :: ·)).getD []

def exponentText (e : Option DecimalExponent) : Text := (e.map DecimalExponent.text).getD []

/-- A literal as it is written. -/
def text (lit : DecimalLiteral) : Text := lit.whole ++ (fractionText lit.fraction ++ exponentText lit.exponent)

def exponentValue (lit : DecimalLiteral) : ℤ := (lit.exponent.map DecimalExponent.value).getD 0

/-- The magnitude that a literal stands for. -/
def value (lit : DecimalLiteral) : ℚ :=
  digitsValue (lit.whole ++ lit.fraction.getD []) * 10 ^ (lit.exponentValue - (lit.fraction.getD []).length)

/-! ## The scanner -/

/-- The digits that a text starts with, and what follows them. -/
def leadingDigits (s : Text) : Text := s.takeWhile isDecimalDigit
def afterDigits (s : Text) : Text := s.dropWhile isDecimalDigit

theorem allDigits_leadingDigits (s : Text) : ∀ c ∈ leadingDigits s, isDecimalDigit c := fun c hc =>
  List.all_eq_true.mp List.all_takeWhile c hc

/-- A sign, if there is one. -/
def scanSign : Text → Option Bool × Text
  | [] => (none, [])
  | c :: rest =>
    if c = 0x2B then (some false, rest) else if c = 0x2D then (some true, rest) else (none, c :: rest)

/-- An exponent, if there is a whole one. -/
def scanExponent : Text → Option DecimalExponent × Text
  | [] => (none, [])
  | c :: rest =>
    if h : isExponentLetter c ∧ leadingDigits (scanSign rest).2 ≠ [] then
      (some ⟨c, (scanSign rest).1, leadingDigits (scanSign rest).2, h.1, allDigits_leadingDigits _, h.2⟩,
        afterDigits (scanSign rest).2)
    else (none, c :: rest)

/-- A point and digits, if there is a point. -/
def scanFraction : Text → Option Text × Text
  | [] => (none, [])
  | c :: rest => if c = point then (some (leadingDigits rest), afterDigits rest) else (none, c :: rest)

theorem scanFraction_digits (s : Text) : ∀ c ∈ (scanFraction s).1.getD [], isDecimalDigit c := by
  rcases s with _ | ⟨c, rest⟩
  · simp [scanFraction]
  · rw [scanFraction]
    split_ifs
    · exact allDigits_leadingDigits rest
    · simp

/-- The longest literal that a text starts with, and what follows it. -/
def scan (s : Text) : Option (DecimalLiteral × Text) :=
  let fraction := scanFraction (afterDigits s)
  let exponent := scanExponent fraction.2
  if h : leadingDigits s ++ fraction.1.getD [] ≠ [] then
    some (⟨leadingDigits s, fraction.1, exponent.1, allDigits_leadingDigits s, scanFraction_digits _, h⟩, exponent.2)
  else none

/-! ## The scanner takes a literal -/

variable {s rest tail ds : Text} {lit : DecimalLiteral} {e : DecimalExponent}

theorem digits_append (s : Text) : leadingDigits s ++ afterDigits s = s := List.takeWhile_append_dropWhile

theorem sign_append (s : Text) : signText (scanSign s).1 ++ (scanSign s).2 = s := by
  rcases s with _ | ⟨c, rest⟩
  · rfl
  · rw [scanSign]
    split_ifs with hplus hminus
    · rw [hplus]
      rfl
    · rw [hminus]
      rfl
    · rfl

theorem exponent_append (s : Text) : exponentText (scanExponent s).1 ++ (scanExponent s).2 = s := by
  rcases s with _ | ⟨c, rest⟩
  · rfl
  · rw [scanExponent]
    split_ifs
    · have h := sign_append rest
      rw [← digits_append (scanSign rest).2] at h
      simpa [exponentText, DecimalExponent.text] using h
    · rfl

theorem fraction_append (s : Text) : fractionText (scanFraction s).1 ++ (scanFraction s).2 = s := by
  rcases s with _ | ⟨c, rest⟩
  · rfl
  · rw [scanFraction]
    split_ifs with hpoint
    · simp [fractionText, digits_append, hpoint]
    · rfl

theorem scan_eq (h : scan s = some (lit, rest)) : s = lit.text ++ rest := by
  rw [scan] at h
  split_ifs at h
  simp only [Option.some.injEq, Prod.mk.injEq] at h
  obtain ⟨rfl, rfl⟩ := h
  rw [text, List.append_assoc, List.append_assoc, exponent_append, fraction_append, digits_append]

/-! ## A literal is read back -/

/-- The text starts with no digit. -/
def NoDigit (s : Text) : Prop := ∀ c ∈ s.head?, isDecimalDigit c = false

theorem leadingDigits_append (h : ∀ c ∈ ds, isDecimalDigit c) (hrest : NoDigit rest) :
    leadingDigits (ds ++ rest) = ds ∧ afterDigits (ds ++ rest) = rest := by
  have hstop : rest.takeWhile isDecimalDigit = [] ∧ rest.dropWhile isDecimalDigit = rest := by
    rcases rest with _ | ⟨c, rest⟩
    · exact ⟨rfl, rfl⟩
    · have hc := hrest c rfl
      simp [hc]
  rw [leadingDigits, afterDigits, List.takeWhile_append_of_pos h, List.dropWhile_append_of_pos h, hstop.1, hstop.2,
    List.append_nil]
  exact ⟨rfl, rfl⟩

theorem scanSign_append (minus : Option Bool) (h : ∀ c ∈ ds, isDecimalDigit c) (hne : ds ≠ []) :
    scanSign (signText minus ++ (ds ++ rest)) = (minus, ds ++ rest) := by
  obtain ⟨d, ds, rfl⟩ := List.exists_cons_of_ne_nil hne
  have hd : isDecimalDigit d := h d (by simp)
  have hplus : d ≠ 0x2B := by
    rintro rfl
    exact absurd hd (by decide)
  have hminus : d ≠ 0x2D := by
    rintro rfl
    exact absurd hd (by decide)
  match minus with
  | none => simp [signText, scanSign, hplus, hminus]
  | some false => rfl
  | some true => rfl

theorem scanExponent_append (e : DecimalExponent) (hrest : NoDigit rest) :
    scanExponent (e.text ++ rest) = (some e, rest) := by
  have hsign : scanSign (signText e.minus ++ (e.digits ++ rest)) = (e.minus, e.digits ++ rest) :=
    scanSign_append e.minus e.allDigits e.someDigit
  have hdigits := leadingDigits_append e.allDigits hrest
  rw [DecimalExponent.text, List.cons_append, List.append_assoc, scanExponent]
  simp only [hsign, hdigits, e.isLetter, e.someDigit, ne_eq, not_false_eq_true, and_self, dite_true]

theorem not_digit_of_letter {c : UInt8} (h : isExponentLetter c) : isDecimalDigit c = false := by
  rw [Bool.eq_false_iff]
  intro hdigit
  simp only [isDecimalDigit, decide_eq_true_eq] at hdigit
  have hlower : asciiLower c = c := if_neg fun hupper => by
    have h1 : 'A'.toNat ≤ '9'.toNat := hupper.1.trans hdigit.2
    exact absurd h1 (by decide)
  rw [isExponentLetter, hlower, beq_iff_eq] at h
  rw [h] at hdigit
  exact absurd hdigit (by decide)

/-- What follows a literal does not continue it. -/
structure Stops (lit : DecimalLiteral) (tail : Text) : Prop where
  digit : NoDigit tail
  exponent : lit.exponent = none → (scanExponent tail).1 = none
  point : lit.exponent = none → lit.fraction = none → tail.head? ≠ some point

theorem Stops.noDigit (h : lit.Stops tail) : NoDigit (exponentText lit.exponent ++ tail) := by
  rcases hexp : lit.exponent with _ | e
  · exact h.digit
  · intro c hc
    obtain rfl : e.letter = c := by simpa [exponentText, DecimalExponent.text] using hc
    exact not_digit_of_letter e.isLetter

theorem Stops.scanExponent (h : lit.Stops tail) :
    scanExponent (exponentText lit.exponent ++ tail) = (lit.exponent, tail) := by
  rcases hexp : lit.exponent with _ | e
  · have happ := exponent_append tail
    have hnone := h.exponent hexp
    rw [hnone] at happ
    exact Prod.ext hnone happ
  · exact scanExponent_append e h.digit

theorem Stops.scanFraction (h : lit.Stops tail) :
    scanFraction (fractionText lit.fraction ++ (exponentText lit.exponent ++ tail)) =
      (lit.fraction, exponentText lit.exponent ++ tail) := by
  rcases hfrac : lit.fraction with _ | ds
  · have hhead : (exponentText lit.exponent ++ tail).head? ≠ some CtBrowser.point := by
      rcases hexp : lit.exponent with _ | e
      · exact h.point hexp hfrac
      · intro hpoint
        have hletter : e.letter = CtBrowser.point := by simpa [exponentText, DecimalExponent.text] using hpoint
        exact absurd (hletter ▸ e.isLetter) (by decide)
    rw [show fractionText none = [] from rfl, List.nil_append]
    generalize exponentText lit.exponent ++ tail = text at hhead
    rcases text with _ | ⟨c, text⟩
    · rfl
    · rw [DecimalLiteral.scanFraction, if_neg (by simpa using hhead)]
  · have hall : ∀ c ∈ ds, isDecimalDigit c := by simpa [hfrac] using lit.fractionDigits
    have hdigits := leadingDigits_append hall h.noDigit
    have htext : fractionText (some ds) ++ (exponentText lit.exponent ++ tail) =
        CtBrowser.point :: (ds ++ (exponentText lit.exponent ++ tail)) := rfl
    rw [htext, DecimalLiteral.scanFraction, if_pos rfl, hdigits.1, hdigits.2]

/-- A literal is read back when what follows does not continue it. -/
theorem scan_append (h : lit.Stops tail) : scan (lit.text ++ tail) = some (lit, tail) := by
  have hno : NoDigit (fractionText lit.fraction ++ (exponentText lit.exponent ++ tail)) := by
    rcases hfrac : lit.fraction with _ | ds
    · exact h.noDigit
    · intro c hc
      obtain rfl : CtBrowser.point = c := by simpa [fractionText] using hc
      rfl
  have htext : lit.text ++ tail = lit.whole ++ (fractionText lit.fraction ++ (exponentText lit.exponent ++ tail)) := by
    simp [text]
  have hdigits := leadingDigits_append lit.wholeDigits hno
  rw [htext, scan]
  simp only [hdigits.1, hdigits.2, h.scanFraction, h.scanExponent]
  rw [dif_pos lit.someDigit]

theorem stops_nil (lit : DecimalLiteral) : lit.Stops [] :=
  ⟨fun c hc => by simp at hc, fun _ => rfl, fun _ _ => by simp⟩

theorem scan_text (lit : DecimalLiteral) : scan lit.text = some (lit, []) := by
  simpa using scan_append (stops_nil lit)

/-- A literal that is continued by the next byte is the start of a longer one. -/
theorem exists_longer (lit : DecimalLiteral) {tail : Text} (h : ¬ lit.Stops tail) :
    ∃ (longer : DecimalLiteral) (rest : Text), lit.text ++ tail = longer.text ++ rest ∧ rest.length < tail.length := by
  by_cases hdigit : NoDigit tail
  · by_cases hexp : lit.exponent = none
    · rcases hscan : (DecimalLiteral.scanExponent tail).1 with _ | e
      · -- the point of a fraction
        obtain ⟨hfrac, hpoint⟩ : lit.fraction = none ∧ tail.head? = some CtBrowser.point := by
          by_contra hnot
          exact h ⟨hdigit, fun _ => hscan, fun _ hfrac hpoint => hnot ⟨hfrac, hpoint⟩⟩
        obtain ⟨rest, rfl⟩ := List.head?_eq_some_iff.mp hpoint
        have hwhole : lit.whole ≠ [] := by simpa [hfrac] using lit.someDigit
        refine ⟨⟨lit.whole, some [], none, lit.wholeDigits, by simp, by simpa using hwhole⟩, rest, ?_, by simp⟩
        simp [text, fractionText, exponentText, hfrac, hexp]
      · have happ := exponent_append tail
        rw [hscan] at happ
        refine ⟨{ lit with exponent := some e }, (DecimalLiteral.scanExponent tail).2, ?_, ?_⟩
        · conv_lhs => rw [← happ]
          simp [text, exponentText, hexp]
        · conv_rhs => rw [← happ]
          simp [exponentText, DecimalExponent.text]
          omega
    · exact absurd ⟨hdigit, fun h => absurd h hexp, fun h => absurd h hexp⟩ h
  · -- one more digit, in the last part
    obtain ⟨c, rest, rfl, hc⟩ : ∃ c rest, tail = c :: rest ∧ isDecimalDigit c := by
      rcases tail with _ | ⟨c, rest⟩
      · exact absurd (fun c hc => by simp at hc) hdigit
      · exact ⟨c, rest, rfl, by simpa [NoDigit] using hdigit⟩
    have hmore {ds : Text} (hds : ∀ c ∈ ds, isDecimalDigit c) : ∀ d ∈ ds ++ [c], isDecimalDigit d := by
      intro d hd
      rcases List.mem_append.mp hd with hd | hd
      · exact hds d hd
      · rwa [List.mem_singleton.mp hd]
    rcases hexp : lit.exponent with _ | e
    · rcases hfrac : lit.fraction with _ | ds
      · refine ⟨⟨lit.whole ++ [c], none, none, hmore lit.wholeDigits, by simp, by simp⟩, rest, ?_, by simp⟩
        simp [text, fractionText, exponentText, hfrac, hexp]
      · refine ⟨⟨lit.whole, some (ds ++ [c]), none, lit.wholeDigits,
          hmore (by simpa [hfrac] using lit.fractionDigits), by simp⟩, rest, ?_, by simp⟩
        simp [text, fractionText, exponentText, hfrac, hexp]
    · refine ⟨{ lit with exponent := some ⟨e.letter, e.minus, e.digits ++ [c], e.isLetter, hmore e.allDigits, by simp⟩ },
        rest, ?_, by simp⟩
      simp [text, exponentText, DecimalExponent.text, hexp]

/-- A literal that a text starts with is no longer than one that stops. -/
theorem exists_stops (lit : DecimalLiteral) (tail : Text) :
    ∃ (longest : DecimalLiteral) (rest : Text),
      lit.text ++ tail = longest.text ++ rest ∧ rest.length ≤ tail.length ∧ longest.Stops rest := by
  induction hn : tail.length using Nat.strong_induction_on generalizing lit tail with
  | _ n ih =>
    by_cases h : lit.Stops tail
    · exact ⟨lit, tail, rfl, hn.le, h⟩
    · obtain ⟨longer, rest, happ, hlen⟩ := exists_longer lit h
      obtain ⟨longest, rest', happ', hlen', hstops⟩ := ih rest.length (hn ▸ hlen) longer rest rfl
      exact ⟨longest, rest', happ.trans happ', hlen'.trans (hn ▸ hlen).le, hstops⟩

theorem scan_longest (lit : DecimalLiteral) (tail : Text) :
    ∃ (longest : DecimalLiteral) (rest : Text),
      scan (lit.text ++ tail) = some (longest, rest) ∧ lit.text.length ≤ longest.text.length := by
  obtain ⟨longest, rest, happ, hlen, hstops⟩ := exists_stops lit tail
  refine ⟨longest, rest, by rw [happ, scan_append hstops], ?_⟩
  have htotal := congrArg List.length happ
  rw [List.length_append, List.length_append] at htotal
  omega

theorem text_injective : Function.Injective text := by
  intro a b h
  have hscan := scan_text a
  rw [h, scan_text b] at hscan
  simpa using hscan.symm

/-! ## The order of a literal -/

/-- The digit zero. -/
abbrev zeroDigit : UInt8 := 0x30

/-- The decimal exponent of the first significant digit, of the digits alone. -/
def significandOrder (whole fraction : Text) : ℤ :=
  if whole.dropWhile (· = zeroDigit) = [] then -(fraction.takeWhile (· = zeroDigit)).length - 1
  else (whole.dropWhile (· = zeroDigit)).length - 1

/-- The decimal exponent of a literal's value. -/
def order (lit : DecimalLiteral) : ℤ := significandOrder lit.whole (lit.fraction.getD []) + lit.exponentValue

theorem digitsValue_append (a b : Text) : digitsValue (a ++ b) = digitsValue a * 10 ^ b.length + digitsValue b := by
  induction b using List.reverseRecOn with
  | nil => simp [digitsValue]
  | append_singleton b c ih =>
    have hsnoc (ds : Text) : digitsValue (ds ++ [c]) = 10 * digitsValue ds + (c.toNat - '0'.toNat) := by
      simp [digitsValue]
    rw [← List.append_assoc, hsnoc, hsnoc, ih, List.length_append, List.length_singleton, pow_succ]
    ring

theorem digitsValue_lt (h : ∀ c ∈ ds, isDecimalDigit c) : digitsValue ds < 10 ^ ds.length := by
  induction ds with
  | nil => simp [digitsValue]
  | cons c ds ih =>
    have hc : isDecimalDigit c := h c (by simp)
    simp only [isDecimalDigit, decide_eq_true_eq] at hc
    have h9 : '9'.toNat - '0'.toNat = 9 := rfl
    have hle : c.toNat - '0'.toNat ≤ 9 := h9 ▸ Nat.sub_le_sub_right hc.2 _
    have hone : digitsValue [c] = c.toNat - '0'.toNat := by simp [digitsValue]
    have hrest := ih fun c hc => h c (by simp [hc])
    rw [← List.singleton_append, digitsValue_append, hone, List.length_append, List.length_singleton, pow_add, pow_one]
    nlinarith

theorem digitsValue_zeros (h : ∀ c ∈ ds, c = zeroDigit) : digitsValue ds = 0 := by
  induction ds using List.reverseRecOn with
  | nil => rfl
  | append_singleton ds c ih =>
    have hc : c = zeroDigit := h c (by simp)
    rw [digitsValue_append, ih fun c hc => h c (by simp [hc]), hc]
    rfl

theorem le_digitsValue {c : UInt8} (hc : isDecimalDigit c) (hzero : c ≠ zeroDigit) (ds : Text) :
    10 ^ ds.length ≤ digitsValue (c :: ds) := by
  have hone : digitsValue [c] = c.toNat - '0'.toNat := by simp [digitsValue]
  simp only [isDecimalDigit, decide_eq_true_eq] at hc
  have hne : c.toNat ≠ '0'.toNat := fun h => hzero (UInt8.toNat_inj.mp h)
  have hpos : 1 ≤ digitsValue [c] := by omega
  rw [← List.singleton_append, digitsValue_append]
  nlinarith [Nat.zero_le (digitsValue ds), Nat.one_le_pow ds.length 10 (by norm_num)]

theorem digitsValue_bounds (h : ∀ c ∈ ds, isDecimalDigit c) (hne : ds.dropWhile (· = zeroDigit) ≠ []) :
    10 ^ ((ds.dropWhile (· = zeroDigit)).length - 1) ≤ digitsValue ds ∧
      digitsValue ds < 10 ^ (ds.dropWhile (· = zeroDigit)).length := by
  have hsplit := List.takeWhile_append_dropWhile (p := (· = zeroDigit)) (l := ds)
  have hhead := List.head?_dropWhile_not (· = zeroDigit) ds
  have hzeros : digitsValue (ds.takeWhile (· = zeroDigit)) = 0 := digitsValue_zeros fun c hc => by
    simpa using List.all_eq_true.mp List.all_takeWhile c hc
  have hvalue : digitsValue ds = digitsValue (ds.dropWhile (· = zeroDigit)) := by
    conv_lhs => rw [← hsplit]
    rw [digitsValue_append, hzeros, Nat.zero_mul, Nat.zero_add]
  have hdigits : ∀ c ∈ ds.dropWhile (· = zeroDigit), isDecimalDigit c := fun c hc =>
    h c ((List.dropWhile_sublist _).subset hc)
  rw [hvalue]
  refine ⟨?_, digitsValue_lt hdigits⟩
  obtain ⟨c, rest, hcons⟩ := List.exists_cons_of_ne_nil hne
  rw [hcons] at hhead hdigits ⊢
  have hc : c ≠ zeroDigit := by simpa using hhead
  exact le_digitsValue (hdigits c (by simp)) hc rest

theorem significandOrder_eq (whole fraction : Text) (hne : (whole ++ fraction).dropWhile (· = zeroDigit) ≠ []) :
    significandOrder whole fraction =
      ((whole ++ fraction).dropWhile (· = zeroDigit)).length - fraction.length - 1 := by
  rw [significandOrder]
  rw [List.dropWhile_append] at hne ⊢
  split_ifs with hzeros hempty hempty
  · have hlen := congrArg List.length (List.takeWhile_append_dropWhile (p := (· = zeroDigit)) (l := fraction))
    rw [List.length_append] at hlen
    omega
  · exact absurd (by simpa using hzeros) hempty
  · exact absurd (by simpa using hempty) hzeros
  · rw [List.length_append]
    omega

theorem value_bounds (lit : DecimalLiteral) (h : lit.value ≠ 0) :
    (10 : ℚ) ^ lit.order ≤ lit.value ∧ lit.value < (10 : ℚ) ^ (lit.order + 1) := by
  have hdigits : ∀ c ∈ lit.whole ++ lit.fraction.getD [], isDecimalDigit c := by
    intro c hc
    rcases List.mem_append.mp hc with hc | hc
    · exact lit.wholeDigits c hc
    · exact lit.fractionDigits c hc
  have hne : (lit.whole ++ lit.fraction.getD []).dropWhile (· = zeroDigit) ≠ [] := by
    intro hempty
    refine h ?_
    rw [value, digitsValue_zeros fun c hc => by simpa using List.dropWhile_eq_nil_iff.mp hempty c hc]
    simp
  obtain ⟨hlow, hhigh⟩ := digitsValue_bounds hdigits hne
  have hpos := List.length_pos_of_ne_nil hne
  have horder := significandOrder_eq lit.whole (lit.fraction.getD []) hne
  generalize ((lit.whole ++ lit.fraction.getD []).dropWhile (· = zeroDigit)).length = n at hlow hhigh hpos horder
  have hten : (10 : ℚ) ≠ 0 := by norm_num
  have hscale : (0 : ℚ) < 10 ^ (lit.exponentValue - (lit.fraction.getD []).length) := by positivity
  constructor
  · have hsplit : lit.order = ((n - 1 : ℕ) : ℤ) + (lit.exponentValue - (lit.fraction.getD []).length) := by
      rw [order, horder]
      omega
    rw [hsplit, zpow_add₀ hten, zpow_natCast, value]
    exact mul_le_mul_of_nonneg_right (by exact_mod_cast hlow) hscale.le
  · have hsplit : lit.order + 1 = (n : ℤ) + (lit.exponentValue - (lit.fraction.getD []).length) := by
      rw [order, horder]
      omega
    rw [hsplit, zpow_add₀ hten, zpow_natCast, value]
    exact mul_lt_mul_of_pos_right (by exact_mod_cast hhigh) hscale

theorem value_nonneg (lit : DecimalLiteral) : 0 ≤ lit.value := by
  rw [value]
  positivity

/-- Out of the range, a literal overflows when its order is positive and underflows otherwise. -/
theorem overflows_iff_order_pos (lit : DecimalLiteral) (h : OutOfRange lit.value) :
    Overflows lit.value ↔ 0 < lit.order := by
  have hne : lit.value ≠ 0 := by
    rcases h with hover | hunder
    · intro hzero
      exact not_overflows le_rfl (by norm_num : (0 : ℚ) < 10) (hzero ▸ hover)
    · exact hunder.1
  obtain ⟨hlow, hhigh⟩ := value_bounds lit hne
  rw [overflows_iff_of_outOfRange lit.value_nonneg h]
  constructor
  · intro hten
    by_contra hle
    have hpow : (10 : ℚ) ^ (lit.order + 1) ≤ 10 ^ (1 : ℤ) := zpow_le_zpow_right₀ (by norm_num) (by omega)
    rw [zpow_one] at hpow
    linarith
  · intro hpos
    have hpow : (10 : ℚ) ^ (1 : ℤ) ≤ 10 ^ lit.order := zpow_le_zpow_right₀ (by norm_num) (by omega)
    rw [zpow_one] at hpow
    linarith

end DecimalLiteral

end CtBrowser
