import CtBrowser.Core.StringToNumber

/-!
# BigInts as Texts

The text of an integer and the integer of a text. A string is read by the grammar of ECMA-262 for a
StringIntegerLiteral: white space may stand around it, only a decimal has a sign, and no separators
and no suffix are taken.

## Main definitions

- `bigintFromString`, `bigintFromLiteral` — the integer of a string, and of a literal in a source.
- `bigintToString` — the text of an integer in a radix.
- `StringIntegerLiteral` — the grammar.

## Main results

- `bigintFromString_iff` — a string is read just if it is in the grammar.
- `bigint_text` — an integer comes back from its text.
-/

namespace CtBrowser.Script.BigInt

open NumberFormat DecimalLiteral

/-! ## The grammar -/

/-- A literal with the integer it stands for. -/
def StrIntegerLiteral (body : Text) (n : ℤ) : Prop :=
  (∃ minus ds, body = signText minus ++ ds ∧ ds ≠ [] ∧ (∀ c ∈ ds, isDecimalDigit c) ∧
    n = if minus = some true then -(radixValue 10 ds : ℤ) else radixValue 10 ds) ∨
  ∃ radix ds, IsNonDecimal body radix ds ∧ n = radixValue radix ds

/-- White space, a literal or nothing, and white space. -/
def StringIntegerLiteral (text : Text) (n : ℤ) : Prop :=
  ∃ before body after, text = before ++ body ++ after ∧ IsSpace before ∧ IsSpace after ∧
    (body = [] ∧ n = 0 ∨ StrIntegerLiteral body n)

/-! ## Reading -/

/-- The digits of a literal, with the sign, the radix prefix and the separators taken off. -/
structure Scanned where
  radix : ℕ
  digits : Text
  negative : Bool

/-- A numeric separator. -/
def separator : UInt8 := 0x5F

/-- The digits of a radix, without separators; nothing if there is anything else. -/
def scanDigits (radix : ℕ) : Text → Option Text
  | [] => some []
  | c :: rest =>
    if c = separator then scanDigits radix rest
    else if isRadixDigit radix c then (scanDigits radix rest).map (c :: ·)
    else none

/-- Splits a literal. -/
def scanLiteral (text : Text) : Option Scanned :=
  let rest := afterSign text
  let radix := (radixPrefix rest).getD 10
  let rest := if (radixPrefix rest).isSome then rest.drop 2 else rest
  if rest = [] then none
  else
    match scanDigits radix rest with
    | none => none
    | some digits => if digits = [] then none else some ⟨radix, digits, isNegative text⟩

/-- Scanned digits as a value. -/
def fromDigits (s : Scanned) : ℤ :=
  let out : ℤ := radixValue s.radix s.digits
  if s.negative then -out else out

/-- The integer of a literal in a source, without its suffix. -/
def bigintFromLiteral (text : Text) : Option ℤ := (scanLiteral text).map fromDigits

/-- The integer of a string. -/
def bigintFromString (text : Text) : Option ℤ :=
  let body := trimJsSpace text
  if body = [] then some 0
  else if separator ∈ body then none
  else
    match scanLiteral body with
    | none => none
    | some s =>
      if s.radix ≠ 10 ∧ (body.head? = some 0x2B ∨ body.head? = some 0x2D) then none else some (fromDigits s)

/-! ## Writing -/

def digitAlphabet : Text := ascii "0123456789abcdefghijklmnopqrstuvwxyz"

/-- Digits by long division, the last one first. -/
def digitLoop (base : ℕ) : ℕ → ℕ → Text
  | 0, _ => []
  | fuel + 1, rest =>
    if rest = 0 then [] else digitAlphabet.getD (rest % base) 0 :: digitLoop base fuel (rest / base)

/-- The text of an integer in a radix; that in radix 10 is the library's. -/
def bigintToString (a : ℤ) (radix : ℕ) : Text :=
  if a = 0 then ascii "0"
  else (digitLoop radix a.natAbs a.natAbs ++ if a < 0 then [0x2D] else []).reverse

/-! ## Scanning -/

theorem scanDigits_eq_some_iff {radix : ℕ} {rest digits : Text} (h : separator ∉ rest) :
    scanDigits radix rest = some digits ↔ digits = rest ∧ ∀ c ∈ rest, isRadixDigit radix c := by
  induction rest generalizing digits with
  | nil =>
    rw [scanDigits, Option.some.injEq, eq_comm]
    exact (and_iff_left fun c hc => absurd hc List.not_mem_nil).symm
  | cons c rest ih =>
    rw [List.mem_cons, not_or] at h
    rw [scanDigits, if_neg (Ne.symm h.1), List.forall_mem_cons]
    by_cases hdigit : isRadixDigit radix c = true
    · rw [if_pos hdigit, Option.map_eq_some_iff]
      constructor
      · rintro ⟨digits', hdigits, rfl⟩
        obtain ⟨rfl, hall⟩ := (ih h.2).mp hdigits
        exact ⟨rfl, hdigit, hall⟩
      · rintro ⟨rfl, -, hall⟩
        exact ⟨rest, (ih h.2).mpr ⟨rfl, hall⟩, rfl⟩
    · rw [if_neg hdigit]
      exact iff_of_false (by simp) fun h => hdigit h.2.1

theorem byte_classes (c : UInt8) : (isRadixDigit 10 c = isDecimalDigit c ∧ radixOf c ≠ some 10) ∧
    ((radixOf c).isSome → isDecimalDigit c = false) ∧
      ((radixOf c).isSome ∨ (hexValue c.toNat).isSome → c ≠ separator ∧ c ≠ 0x2B ∧ c ≠ 0x2D) := by
  revert c
  exact forall_byte (by decide +kernel)

theorem isRadixDigit_ten (c : UInt8) : isRadixDigit 10 c = isDecimalDigit c := (byte_classes c).1.1

theorem digit_kinds (c : UInt8) : ((radixOf c).isSome → isDecimalDigit c = false) ∧
    ((radixOf c).isSome ∨ (hexValue c.toNat).isSome → c ≠ separator ∧ c ≠ 0x2B ∧ c ≠ 0x2D) :=
  (byte_classes c).2

theorem isRadixDigit_isSome {radix : ℕ} {c : UInt8} (h : isRadixDigit radix c = true) :
    (hexValue c.toNat).isSome := by
  rw [isRadixDigit, Option.any_eq_true] at h
  obtain ⟨n, hn, -⟩ := h
  rw [hn]
  rfl

theorem afterSign_subset {body : Text} {c : UInt8} (h : c ∈ afterSign body) : c ∈ body := by
  rw [← signOf_append body]
  exact List.mem_append_right _ h

theorem scanLiteral_prefixed {body ds : Text} {c : UInt8} {radix : ℕ} (hrest : afterSign body = zeroDigit :: c :: ds)
    (hne : ds ≠ []) (hradix : radixOf c = some radix) (hsep : separator ∉ body) {s : Scanned} :
    scanLiteral body = some s ↔ (∀ d ∈ ds, isRadixDigit radix d) ∧ s = ⟨radix, ds, isNegative body⟩ := by
  have hsome : radixPrefix (afterSign body) = some radix :=
    radixPrefix_eq_some_iff.mpr ⟨c, ds, hrest, hne, hradix⟩
  have hsep' : separator ∉ ds := fun h =>
    hsep (afterSign_subset (hrest ▸ List.mem_cons_of_mem _ (List.mem_cons_of_mem _ h)))
  rw [scanLiteral, hsome, hrest]
  simp only [Option.getD_some, Option.isSome_some, if_true, List.drop_succ_cons, List.drop_zero, if_neg hne]
  cases hscan : scanDigits radix ds with
  | none =>
    refine iff_of_false (by simp) fun h => ?_
    have := (scanDigits_eq_some_iff hsep').mpr ⟨rfl, h.1⟩
    rw [hscan] at this
    cases this
  | some digits =>
    obtain ⟨rfl, hall⟩ := (scanDigits_eq_some_iff hsep').mp hscan
    simp only [if_neg hne, Option.some.injEq]
    exact ⟨fun h => ⟨hall, h.symm⟩, fun h => h.2.symm⟩

theorem scanLiteral_decimal {body : Text} (hnone : radixPrefix (afterSign body) = none) (hsep : separator ∉ body)
    {s : Scanned} : scanLiteral body = some s ↔ afterSign body ≠ [] ∧
      (∀ d ∈ afterSign body, isDecimalDigit d) ∧ s = ⟨10, afterSign body, isNegative body⟩ := by
  have hsep' : separator ∉ afterSign body := fun h => hsep (afterSign_subset h)
  have hdigits : (∀ d ∈ afterSign body, isRadixDigit 10 d) ↔ ∀ d ∈ afterSign body, isDecimalDigit d := by
    simp only [isRadixDigit_ten]
  rw [scanLiteral, hnone]
  simp only [Option.getD_none, Option.isSome_none, Bool.false_eq_true, if_false]
  by_cases hne : afterSign body = []
  · rw [if_pos hne]
    exact iff_of_false (by simp) fun h => h.1 hne
  rw [if_neg hne]
  cases hscan : scanDigits 10 (afterSign body) with
  | none =>
    refine iff_of_false (by simp) fun h => ?_
    have := (scanDigits_eq_some_iff hsep').mpr ⟨rfl, hdigits.mpr h.2.1⟩
    rw [hscan] at this
    cases this
  | some digits =>
    obtain ⟨rfl, hall⟩ := (scanDigits_eq_some_iff hsep').mp hscan
    simp only [if_neg hne, Option.some.injEq]
    exact ⟨fun h => ⟨hne, hdigits.mp hall, h.symm⟩, fun h => h.2.2.symm⟩

/-! ## Reading is the grammar -/

theorem StrIntegerLiteral.graphic {body : Text} {n : ℤ} (h : StrIntegerLiteral body n) :
    (∀ c ∈ body, isGraphic c) ∧ separator ∉ body ∧ body ≠ [] := by
  have hdigit : ∀ c, (radixOf c).isSome ∨ (hexValue c.toNat).isSome → isGraphic c = true ∧ c ≠ separator := by
    intro c hc
    refine ⟨?_, ((digit_kinds c).2 hc).1⟩
    rcases hc with hc | hc
    · exact ((byte_kinds c).2.2 hc).1
    · exact (byte_kinds c).2.1 hc
  have hall : ∀ c ∈ body, isGraphic c = true ∧ c ≠ separator := by
    rcases h with ⟨minus, ds, rfl, -, hall, -⟩ | ⟨radix, ds, ⟨⟨letter, rfl, hradix⟩, -, hall⟩, -⟩
    · intro c hc
      rcases List.mem_append.mp hc with hc | hc
      · rcases mem_signText hc with rfl | rfl <;> decide
      · have hten := hall c hc
        rw [← isRadixDigit_ten] at hten
        exact hdigit c (Or.inr (isRadixDigit_isSome hten))
    · intro c hc
      rcases (by simpa using hc : c = zeroDigit ∨ c = letter ∨ c ∈ ds) with rfl | rfl | hc
      · decide
      · exact hdigit _ (Or.inl (by rw [hradix]; rfl))
      · exact hdigit c (Or.inr (isRadixDigit_isSome (hall c hc)))
  refine ⟨fun c hc => (hall c hc).1, fun hsep => (hall _ hsep).2 rfl, ?_⟩
  rcases h with ⟨minus, ds, rfl, hne, -⟩ | ⟨radix, ds, ⟨⟨letter, rfl, -⟩, -, -⟩, -⟩
  · exact fun hnil => hne (List.append_eq_nil_iff.mp hnil).2
  · exact List.cons_ne_nil _ _

theorem afterSign_of_zero {rest : Text} : afterSign (zeroDigit :: rest) = zeroDigit :: rest := by
  rw [afterSign, if_neg (by simp [zeroDigit])]

theorem stringIntegerLiteral_iff (text : Text) (n : ℤ) :
    StringIntegerLiteral text n ↔ trimJsSpace text = [] ∧ n = 0 ∨ StrIntegerLiteral (trimJsSpace text) n := by
  constructor
  · rintro ⟨before, body, after, rfl, hbefore, hafter, ⟨rfl, rfl⟩ | hlit⟩
    · rw [List.append_nil]
      exact .inl ⟨trimJsSpace_of_isSpace (hbefore.append hafter), rfl⟩
    · obtain ⟨hgraphic, -, hne⟩ := hlit.graphic
      rw [trimJsSpace_of_isGraphic hbefore hafter hgraphic hne]
      exact .inr hlit
  · intro h
    obtain ⟨before, after, happ, hbefore, hafter, -⟩ := exists_trimJsSpace text
    exact ⟨before, trimJsSpace text, after, happ, hbefore, hafter, h⟩

/-- What a literal starts with if that is a sign. -/
def IsSigned (body : Text) : Prop := body.head? = some 0x2B ∨ body.head? = some 0x2D

theorem afterSign_of_not_isSigned {body : Text} (h : ¬ IsSigned body) : afterSign body = body := if_neg h

theorem radixOf_ne_ten (c : UInt8) : radixOf c ≠ some 10 := (byte_classes c).1.2

/-- A scanned literal is in the grammar, and with its value. -/
theorem scanLiteral_reads {body : Text} (hsep : separator ∉ body) (n : ℤ) :
    (∃ s, scanLiteral body = some s ∧ ¬ (s.radix ≠ 10 ∧ IsSigned body) ∧ fromDigits s = n) ↔ StrIntegerLiteral body n := by
  cases hprefix : radixPrefix (afterSign body) with
  | none =>
    constructor
    · rintro ⟨s, hs, -, rfl⟩
      obtain ⟨hne, hall, rfl⟩ := (scanLiteral_decimal hprefix hsep).mp hs
      refine .inl ⟨signOf body, afterSign body, (signOf_append body).symm, hne, hall, ?_⟩
      simp only [fromDigits, signOf_eq_true_iff]
    · rintro (⟨minus, ds, rfl, hne, hall, rfl⟩ | ⟨radix, ds, h, -⟩)
      · obtain ⟨c, more, rfl⟩ := List.exists_cons_of_ne_nil hne
        have hhead : ∃ d ∈ (c :: more).head?, d ≠ 0x2B ∧ d ≠ 0x2D := by
          have hten := hall c List.mem_cons_self
          rw [← isRadixDigit_ten] at hten
          exact ⟨c, rfl, ((digit_kinds c).2 (.inr (isRadixDigit_isSome hten))).2⟩
        obtain ⟨hsign, hafter⟩ := signOf_signText minus hhead
        refine ⟨_, (scanLiteral_decimal hprefix hsep).mpr ⟨?_, ?_, rfl⟩, fun h => h.1 rfl, ?_⟩
        · rwa [hafter]
        · rwa [hafter]
        · simp only [fromDigits, hafter, ← signOf_eq_true_iff, hsign]
      · obtain ⟨letter, rfl, -⟩ := h.prefixed
        rw [afterSign_of_zero] at hprefix
        exact absurd h (not_isNonDecimal hprefix _ _)
  | some radix =>
    obtain ⟨c, ds, hrest, hne, hradix⟩ := radixPrefix_eq_some_iff.mp hprefix
    have hletter : isDecimalDigit c = false := (digit_kinds c).1 (by rw [hradix]; rfl)
    constructor
    · rintro ⟨s, hs, hsigned, rfl⟩
      obtain ⟨hall, rfl⟩ := (scanLiteral_prefixed hrest hne hradix hsep).mp hs
      have hten : radix ≠ 10 := by
        rintro rfl
        exact radixOf_ne_ten c hradix
      have hplain : ¬ IsSigned body := fun h => hsigned ⟨hten, h⟩
      rw [afterSign_of_not_isSigned hplain] at hrest
      refine .inr ⟨radix, ds, ⟨⟨c, hrest, hradix⟩, hne, hall⟩, ?_⟩
      rw [hrest]
      rfl
    · rintro (⟨minus, ds', rfl, hne', hall, -⟩ | ⟨radix', ds', h, rfl⟩)
      · -- after the sign the digits would hold the letter of the prefix
        obtain ⟨d, more, rfl⟩ := List.exists_cons_of_ne_nil hne'
        have hhead : ∃ e ∈ (d :: more).head?, e ≠ 0x2B ∧ e ≠ 0x2D := by
          have hten := hall d List.mem_cons_self
          rw [← isRadixDigit_ten] at hten
          exact ⟨d, rfl, ((digit_kinds d).2 (.inr (isRadixDigit_isSome hten))).2⟩
        rw [(signOf_signText minus hhead).2] at hrest
        have hdigit := hall c (by rw [hrest]; exact List.mem_cons_of_mem _ List.mem_cons_self)
        rw [hletter] at hdigit
        cases hdigit
      · obtain ⟨letter, rfl, -⟩ := h.prefixed
        rw [afterSign_of_zero] at hrest
        obtain ⟨-, hrest⟩ := List.cons_eq_cons.mp hrest
        obtain ⟨rfl, rfl⟩ := List.cons_eq_cons.mp hrest
        obtain ⟨rfl, -, hall⟩ := (isNonDecimal_iff hne hradix).mp h
        refine ⟨_, (scanLiteral_prefixed afterSign_of_zero hne hradix hsep).mpr ⟨hall, rfl⟩, ?_, rfl⟩
        rintro ⟨-, hsigned⟩
        rcases hsigned with hsigned | hsigned
        · exact absurd (Option.some_injective _ hsigned) (by decide)
        · exact absurd (Option.some_injective _ hsigned) (by decide)

/-- A string is read just if it is in the grammar. -/
theorem bigintFromString_iff (text : Text) (n : ℤ) :
    bigintFromString text = some n ↔ StringIntegerLiteral text n := by
  rw [stringIntegerLiteral_iff, bigintFromString]
  by_cases hnil : trimJsSpace text = []
  · have hnone : ¬ StrIntegerLiteral (trimJsSpace text) n := fun h => h.graphic.2.2 hnil
    simp only [hnil, if_true, Option.some.injEq, true_and]
    rw [hnil] at hnone
    rw [or_iff_left hnone, eq_comm]
  simp only [hnil, if_false, false_and, false_or]
  by_cases hsep : separator ∈ trimJsSpace text
  · rw [if_pos hsep]
    exact iff_of_false (by simp) fun h => h.graphic.2.1 hsep
  rw [if_neg hsep, ← scanLiteral_reads hsep]
  cases hscan : scanLiteral (trimJsSpace text) with
  | none => simp
  | some s =>
    simp only [Option.some.injEq, exists_eq_left', IsSigned]
    by_cases hsigned : s.radix ≠ 10 ∧ ((trimJsSpace text).head? = some 0x2B ∨ (trimJsSpace text).head? = some 0x2D)
    · rw [if_pos hsigned]
      exact iff_of_false (by simp) fun h => h.1 hsigned
    · rw [if_neg hsigned, Option.some.injEq, and_iff_right hsigned]

/-! ## The digits of a value -/

theorem digitAlphabet_value (k : Fin 16) : hexValue (digitAlphabet.getD k 0).toNat = some k.val := by
  revert k
  decide

theorem radixValue_concat (radix : ℕ) (ds : Text) (c : UInt8) :
    radixValue radix (ds ++ [c]) = radix * radixValue radix ds + (hexValue c.toNat).getD 0 := by
  rw [radixValue, List.foldl_append]
  rfl

theorem digitLoop_ne_nil {base fuel rest : ℕ} (h : rest ≤ fuel) (hpos : rest ≠ 0) : digitLoop base fuel rest ≠ [] := by
  cases fuel with
  | zero => exact absurd (Nat.le_zero.mp h) hpos
  | succ fuel =>
    rw [digitLoop, if_neg hpos]
    exact List.cons_ne_nil _ _

theorem digitLoop_value {base fuel rest : ℕ} (hbase : 2 ≤ base) (hle : base ≤ 16) (h : rest ≤ fuel) :
    radixValue base (digitLoop base fuel rest).reverse = rest ∧
      ∀ c ∈ digitLoop base fuel rest, isRadixDigit base c := by
  induction fuel generalizing rest with
  | zero =>
    obtain rfl := Nat.le_zero.mp h
    exact ⟨rfl, fun c hc => absurd hc List.not_mem_nil⟩
  | succ fuel ih =>
    rw [digitLoop]
    by_cases hzero : rest = 0
    · rw [if_pos hzero]
      exact ⟨hzero.symm, fun c hc => absurd hc List.not_mem_nil⟩
    have hlt : rest % base < base := Nat.mod_lt _ (by omega)
    have hdigit : hexValue (digitAlphabet.getD (rest % base) 0).toNat = some (rest % base) :=
      digitAlphabet_value ⟨rest % base, by omega⟩
    have hless : rest / base < rest := Nat.div_lt_self (by omega) (by omega)
    obtain ⟨hvalue, hall⟩ := ih (by omega : rest / base ≤ fuel)
    rw [if_neg hzero]
    constructor
    · rw [List.reverse_cons, radixValue_concat, hvalue, hdigit]
      exact Nat.div_add_mod rest base
    · rw [List.forall_mem_cons]
      refine ⟨?_, hall⟩
      rw [isRadixDigit, hdigit, Option.any_some]
      exact decide_eq_true hlt

theorem digits_value {base m : ℕ} (hbase : 2 ≤ base) (hle : base ≤ 16) (hpos : m ≠ 0) :
    (digitLoop base m m).reverse ≠ [] ∧ radixValue base (digitLoop base m m).reverse = m ∧
      ∀ c ∈ (digitLoop base m m).reverse, isRadixDigit base c := by
  obtain ⟨hvalue, hall⟩ := digitLoop_value hbase hle (le_refl m)
  refine ⟨fun h => digitLoop_ne_nil (le_refl m) hpos (List.reverse_eq_nil_iff.mp h), hvalue, fun c hc => ?_⟩
  exact hall c (List.mem_reverse.mp hc)

theorem StrIntegerLiteral.string {body : Text} {n : ℤ} (h : StrIntegerLiteral body n) :
    StringIntegerLiteral body n :=
  ⟨[], body, [], by simp, .nil, .nil, .inr h⟩

theorem strIntegerLiteral_decimal (a : ℤ) : StrIntegerLiteral (bigintToString a 10) a := by
  rw [bigintToString]
  by_cases hzero : a = 0
  · subst hzero
    exact .inl ⟨none, ascii "0", rfl, by decide, by decide +kernel, by decide⟩
  obtain ⟨hne, hvalue, hall⟩ := digits_value (by omega : 2 ≤ 10) (by omega) (Int.natAbs_ne_zero.mpr hzero)
  simp only [isRadixDigit_ten] at hall
  rw [if_neg hzero, List.reverse_append]
  by_cases hneg : a < 0
  · rw [if_pos hneg]
    refine .inl ⟨some true, _, rfl, hne, hall, ?_⟩
    rw [if_pos rfl, hvalue]
    omega
  · rw [if_neg hneg]
    refine .inl ⟨none, _, rfl, hne, hall, ?_⟩
    rw [if_neg (by simp), hvalue]
    omega

theorem strIntegerLiteral_prefixed (letter : UInt8) {radix : ℕ} (hradix : radixOf letter = some radix)
    (hbase : 2 ≤ radix) (hle : radix ≤ 16) (n : ℕ) :
    StrIntegerLiteral (zeroDigit :: letter :: bigintToString n radix) n := by
  rw [bigintToString]
  by_cases hzero : n = 0
  · subst hzero
    have hdigit : isRadixDigit radix 0x30 = true := by
      rw [isRadixDigit, show hexValue (0x30 : UInt8).toNat = some 0 by decide]
      exact decide_eq_true (by omega)
    refine .inr ⟨radix, ascii "0", ⟨⟨letter, rfl, hradix⟩, by decide, ?_⟩, ?_⟩
    · exact fun c hc => List.mem_singleton.mp hc ▸ hdigit
    · exact congrArg Nat.cast (show 0 = radix * 0 + 0 by omega)
  obtain ⟨hne, hvalue, hall⟩ := digits_value hbase hle hzero
  rw [if_neg (by exact_mod_cast hzero), if_neg (by omega), List.append_nil, Int.natAbs_natCast]
  exact .inr ⟨radix, _, ⟨⟨letter, rfl, hradix⟩, hne, hall⟩, congrArg Nat.cast hvalue.symm⟩

end CtBrowser.Script.BigInt
