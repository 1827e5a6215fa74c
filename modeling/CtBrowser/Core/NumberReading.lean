import CtBrowser.Core.WhiteSpace

/-!
# Texts without a sign as Numbers

The engine's reading of a text without a sign against the grammar. A literal is read as the Number it
stands for and anything else as NaN, apart from a text that still starts with a minus sign, one with a
point after its exponent, and literals out of the range with something after them or with an order
that is estimated wrongly.

## Main definitions

- `UnsignedLiteral` — a decimal literal without a sign.
- `MisreadUnsigned` — the kinds of text that are read wrongly.

## Main results

- `unsignedToNumber_iff` — a text is read as its Number exactly when it is of none of these kinds.
-/

namespace CtBrowser.NumberFormat

open DecimalLiteral

variable {rest tail : Text} {lit : DecimalLiteral}

/-! ## The bytes of a literal -/

/-- The bytes of a decimal literal without its sign. -/
def isNumberByte (c : UInt8) : Bool :=
  isDecimalDigit c || c == point || isExponentLetter c || c == 0x2B || c == 0x2D

theorem mem_signText {c : UInt8} {minus : Option Bool} (h : c ∈ signText minus) : c = 0x2B ∨ c = 0x2D := by
  rcases minus with _ | _ | _
  · simp [signText] at h
  · exact .inl (List.mem_singleton.mp h)
  · exact .inr (List.mem_singleton.mp h)

theorem isNumberByte_of_mem {c : UInt8} (h : c ∈ lit.text) : isNumberByte c := by
  rw [text, List.mem_append, List.mem_append] at h
  rcases h with h | h | h
  · simp [isNumberByte, lit.wholeDigits c h]
  · rcases hfrac : lit.fraction with _ | ds
    · simp [hfrac, fractionText] at h
    · have hdigits := lit.fractionDigits
      rw [hfrac] at h hdigits
      rcases (by simpa [fractionText] using h : c = point ∨ c ∈ ds) with rfl | hc
      · rfl
      · simp [isNumberByte, hdigits c hc]
  · rcases hexp : lit.exponent with _ | e
    · simp [hexp, exponentText] at h
    · rw [hexp] at h
      rcases (by simpa [exponentText, DecimalExponent.text] using h :
        c = e.letter ∨ c ∈ signText e.minus ∨ c ∈ e.digits) with rfl | hc | hc
      · simp [isNumberByte, e.isLetter]
      · rcases mem_signText hc with rfl | rfl <;> simp [isNumberByte]
      · simp [isNumberByte, e.allDigits c hc]

theorem head_text (lit : DecimalLiteral) : ∃ c more, lit.text = c :: more ∧ (isDecimalDigit c ∨ c = point) := by
  rcases hwhole : lit.whole with _ | ⟨c, whole⟩
  · obtain ⟨ds, hfrac⟩ : ∃ ds, lit.fraction = some ds := by
      rcases hfrac : lit.fraction with _ | ds
      · exact absurd (by simp [hwhole, hfrac]) lit.someDigit
      · exact ⟨ds, rfl⟩
    exact ⟨point, ds ++ exponentText lit.exponent, by simp [text, hwhole, hfrac, fractionText], .inr rfl⟩
  · exact ⟨c, _, by rw [text, hwhole]; rfl, .inl (lit.wholeDigits c (by simp [hwhole]))⟩

theorem text_ne_nil (lit : DecimalLiteral) : lit.text ≠ [] := by
  obtain ⟨c, more, h, -⟩ := head_text lit
  simp [h]

theorem scan_eq_none {c : UInt8} (hdigit : isDecimalDigit c = false) (hpoint : c ≠ point) (rest : Text) :
    scan (c :: rest) = none := by
  by_contra hsome
  obtain ⟨⟨lit, tail⟩, hscan⟩ := Option.ne_none_iff_exists'.mp hsome
  obtain ⟨d, more, htext, hd⟩ := head_text lit
  have happ := scan_eq hscan
  rw [htext] at happ
  obtain ⟨rfl, -⟩ := List.cons_eq_cons.mp happ
  rcases hd with hd | hd
  · simp [hd] at hdigit
  · exact hpoint hd

/-! ## A point that is dropped -/

/-- A literal without its last point, when no digit follows that. -/
def dropped (lit : DecimalLiteral) : DecimalLiteral :=
  if h : lit.fraction = some [] then
    ⟨lit.whole, none, lit.exponent, lit.wholeDigits, by simp, by simpa [h] using lit.someDigit⟩
  else lit

theorem dropped_value (lit : DecimalLiteral) : (dropped lit).value = lit.value ∧ (dropped lit).order = lit.order := by
  rw [dropped]
  split_ifs with h
  · simp [value, order, exponentValue, h]
  · exact ⟨rfl, rfl⟩

theorem dropPoint_of_not_mem (h : point ∉ rest) : dropPoint rest = rest := by
  have hdrop : rest.dropWhile (· ≠ point) = [] := by
    rw [List.dropWhile_eq_nil_iff]
    intro c hc
    have hne : c ≠ point := fun heq => h (heq ▸ hc)
    simpa using hne
  rw [dropPoint, hdrop]

theorem dropPoint_append {before after : Text} (h : point ∉ before) :
    dropPoint (before ++ point :: after) =
      if after.head?.all (isExponentLetter ·) then before ++ after else before ++ point :: after := by
  have hbefore : ∀ c ∈ before, decide (c ≠ point) = true := by
    intro c hc
    have hne : c ≠ point := fun heq => h (heq ▸ hc)
    simpa using hne
  have hdrop : (before ++ point :: after).dropWhile (· ≠ point) = point :: after := by
    rw [List.dropWhile_append_of_pos hbefore]
    rfl
  have htake : (before ++ point :: after).takeWhile (· ≠ point) = before := by
    rw [List.takeWhile_append_of_pos hbefore]
    simp
  rw [dropPoint, hdrop, htake]

theorem point_not_mem_digits {ds : Text} (h : ∀ c ∈ ds, isDecimalDigit c) : point ∉ ds := fun hc =>
  absurd (h _ hc) (by decide)

theorem point_not_mem_exponentText (e : Option DecimalExponent) : point ∉ exponentText e := by
  rcases e with _ | e
  · simp [exponentText]
  · intro hc
    rcases (by simpa [exponentText, DecimalExponent.text] using hc :
      point = e.letter ∨ point ∈ signText e.minus ∨ point ∈ e.digits) with heq | hc | hc
    · exact absurd (heq ▸ e.isLetter) (by decide)
    · have hall : ∀ m : Option Bool, point ∉ signText m := by decide
      exact hall _ hc
    · exact point_not_mem_digits e.allDigits hc

theorem exponentText_head (e : Option DecimalExponent) : (exponentText e).head?.all (isExponentLetter ·) := by
  rcases e with _ | e
  · rfl
  · exact e.isLetter

theorem dropPoint_text (lit : DecimalLiteral) : dropPoint lit.text = (dropped lit).text := by
  rcases hfrac : lit.fraction with _ | _ | ⟨d, ds⟩
  · have hnone : dropped lit = lit := by simp [dropped, hfrac]
    rw [hnone]
    refine dropPoint_of_not_mem fun hc => ?_
    rw [text, hfrac] at hc
    rcases List.mem_append.mp hc with hc | hc
    · exact point_not_mem_digits lit.wholeDigits hc
    · exact point_not_mem_exponentText _ hc
  · have htext : lit.text = lit.whole ++ point :: exponentText lit.exponent := by simp [text, hfrac, fractionText]
    rw [htext, dropPoint_append (point_not_mem_digits lit.wholeDigits), if_pos (exponentText_head _), dropped,
      dif_pos hfrac]
    simp [text, fractionText]
  · have hd : isExponentLetter d = false := by
      rw [Bool.eq_false_iff]
      intro hletter
      have hdigit : isDecimalDigit d := lit.fractionDigits d (by simp [hfrac])
      simp [not_digit_of_letter hletter] at hdigit
    have htext : lit.text = lit.whole ++ point :: (d :: ds ++ exponentText lit.exponent) := by
      simp [text, hfrac, fractionText]
    have hnone : dropped lit = lit := by simp [dropped, hfrac]
    rw [hnone]
    conv_lhs => rw [htext]
    rw [dropPoint_append (point_not_mem_digits lit.wholeDigits), if_neg (by simp [hd]), htext]

theorem head_dropPoint (rest : Text) :
    (dropPoint rest).head? = rest.head? ∨ rest.head? = some point ∧ (dropPoint rest).head?.all (isExponentLetter ·) := by
  by_cases hpoint : point ∈ rest
  · obtain ⟨before, after, rfl, hbefore⟩ := List.eq_append_cons_of_mem hpoint
    rw [dropPoint_append hbefore]
    split_ifs with hafter
    · cases before with
      | nil => exact .inr ⟨rfl, hafter⟩
      | cons c before => exact .inl rfl
    · exact .inl rfl
  · rw [dropPoint_of_not_mem hpoint]
    exact .inl rfl

theorem not_letter_of_mem {c : UInt8} (h : c ∈ lit.whole ++ fractionText lit.fraction) :
    isExponentLetter c = false := by
  rw [Bool.eq_false_iff]
  intro hletter
  have hdigit := not_digit_of_letter hletter
  rcases List.mem_append.mp h with h | h
  · simp [lit.wholeDigits c h] at hdigit
  · rcases hfrac : lit.fraction with _ | ds
    · simp [hfrac, fractionText] at h
    · have hdigits := lit.fractionDigits
      rw [hfrac] at h hdigits
      rcases (by simpa [fractionText] using h : c = point ∨ c ∈ ds) with rfl | hc
      · exact absurd hletter (by decide)
      · simp [hdigits c hc] at hdigit

theorem not_letter_of_mem_tail {c : UInt8} (h : c ∈ (exponentText lit.exponent).tail) :
    isExponentLetter c = false := by
  rcases hexp : lit.exponent with _ | e
  · simp [hexp, exponentText] at h
  · rw [hexp] at h
    rcases (by simpa [exponentText, DecimalExponent.text] using h : c ∈ signText e.minus ∨ c ∈ e.digits) with hc | hc
    · rcases mem_signText hc with rfl | rfl <;> rfl
    · rw [Bool.eq_false_iff]
      intro hletter
      have hdigit := e.allDigits c hc
      simp [not_digit_of_letter hletter] at hdigit

theorem split_text {before after : Text} {c : UInt8} (h : lit.text = before ++ c :: after) (hc : isExponentLetter c) :
    before = lit.whole ++ fractionText lit.fraction ∧ c :: after = exponentText lit.exponent := by
  rw [text, ← List.append_assoc, List.append_eq_append_iff] at h
  rcases h with ⟨cut, rfl, hexp⟩ | ⟨cut, hfront, hafter⟩
  · rcases cut with _ | ⟨d, cut⟩
    · exact ⟨by simp, hexp.symm⟩
    · have hmem : c ∈ (exponentText lit.exponent).tail := by simp [hexp]
      simp [not_letter_of_mem_tail hmem] at hc
  · rcases cut with _ | ⟨d, cut⟩
    · exact ⟨by simpa using hfront.symm, hafter⟩
    · obtain ⟨rfl, -⟩ := List.cons_eq_cons.mp hafter
      have hmem : c ∈ lit.whole ++ fractionText lit.fraction := by simp [hfront]
      simp [not_letter_of_mem hmem] at hc

/-- A literal with a point added after its digits. -/
def withPoint (lit : DecimalLiteral) (h : lit.fraction = none) : DecimalLiteral :=
  ⟨lit.whole, some [], lit.exponent, lit.wholeDigits, by simp, by simpa [h] using lit.someDigit⟩

theorem withPoint_text (h : lit.fraction = none) :
    (withPoint lit h).text = lit.whole ++ point :: exponentText lit.exponent := by
  simp [withPoint, text, fractionText]

theorem dropped_withPoint (h : lit.fraction = none) : dropped (withPoint lit h) = dropped lit := by
  obtain ⟨whole, fraction, exponent, _, _, _⟩ := lit
  obtain rfl : fraction = none := h
  simp [dropped, withPoint]

/-- A text that is a literal when its point is dropped is one of the same value, or a literal with an
exponent and a point after that. -/
theorem of_dropPoint (h : dropPoint rest = lit.text) :
    (∃ full : DecimalLiteral, rest = full.text ∧ dropped full = dropped lit) ∨
      rest = lit.text ++ [point] ∧ lit.fraction = none ∧ lit.exponent ≠ none := by
  by_cases hpoint : point ∈ rest
  · obtain ⟨before, after, rfl, hbefore⟩ := List.eq_append_cons_of_mem hpoint
    rw [dropPoint_append hbefore] at h
    split_ifs at h with hafter
    · have hfrac (hmem : point ∉ fractionText lit.fraction) : lit.fraction = none := by
        rcases hfrac : lit.fraction with _ | ds
        · rfl
        · exact absurd (by simp [hfrac, fractionText]) hmem
      rcases after with _ | ⟨c, after⟩
      · rw [List.append_nil] at h
        have hnone := hfrac fun hmem => hbefore (by simp [h, text, hmem])
        by_cases hexp : lit.exponent = none
        · refine .inl ⟨withPoint lit hnone, ?_, dropped_withPoint hnone⟩
          rw [withPoint_text, h]
          simp [text, hnone, hexp, fractionText, exponentText]
        · exact .inr ⟨by rw [h], hnone, hexp⟩
      · obtain ⟨hsplit, hexp⟩ := split_text h.symm hafter
        have hnone := hfrac fun hmem => hbefore (by simp [hsplit, hmem])
        refine .inl ⟨withPoint lit hnone, ?_, dropped_withPoint hnone⟩
        rw [withPoint_text, hsplit, hexp]
        simp [hnone, fractionText]
    · exact .inl ⟨lit, h, rfl⟩
  · rw [dropPoint_of_not_mem hpoint] at h
    exact .inl ⟨lit, h, rfl⟩

theorem append_point_ne (hexp : lit.exponent ≠ none) (other : DecimalLiteral) : lit.text ++ [point] ≠ other.text := by
  intro heq
  have hstops : lit.Stops [point] := by
    refine ⟨fun c hc => ?_, fun h => absurd h hexp, fun h => absurd h hexp⟩
    obtain rfl : point = c := by simpa using hc
    rfl
  have hscan := scan_append hstops
  rw [heq, scan_text] at hscan
  simp at hscan

/-! ## Texts without a sign -/

/-- A literal without a sign, with its Number. -/
def UnsignedLiteral (rest : Text) (v : Double) : Prop :=
  rest = ascii "Infinity" ∧ v = .infinity false ∨ ∃ lit : DecimalLiteral, rest = lit.text ∧ v = .nearest false lit.value

/-- What the library takes after a minus sign: a word for infinity, a literal, or anything after a
literal that is out of range. -/
def Taken (s : Text) : Prop :=
  asciiIequals s (ascii "inf") ∨ asciiIequals s (ascii "infinity") ∨
    ∃ lit tail, scan s = some (lit, tail) ∧ (tail = [] ∨ OutOfRange lit.value)

/-- The order of a literal is not estimated with its sign. -/
def Misestimated (rest : Text) (lit : DecimalLiteral) : Prop :=
  OutOfRange lit.value ∧ ¬ (0 < estimatedOrder rest ↔ 0 < lit.order)

/-- The kinds of text without a sign that are not read as their Number. -/
inductive MisreadUnsigned (rest : Text) : Prop
  | secondSign (s : Text) (h : rest = 0x2D :: s) (taken : Taken (dropPoint s))
  | afterRange (lit : DecimalLiteral) (tail : Text) (h : scan (dropPoint rest) = some (lit, tail)) (hne : tail ≠ [])
    (range : OutOfRange lit.value)
  | afterExponent (lit : DecimalLiteral) (h : rest = lit.text ++ [point]) (hfrac : lit.fraction = none)
    (hexp : lit.exponent ≠ none)
  | order (lit : DecimalLiteral) (h : rest = lit.text) (wrong : Misestimated (dropPoint rest) lit)

/-- The value is that of a literal, or NaN for a text that is none. -/
def NumberOf (literal : Double → Prop) (v : Double) : Prop := literal v ∨ (¬ ∃ v', literal v') ∧ v = .nan

theorem UnsignedLiteral.ne_nan {v : Double} (h : UnsignedLiteral rest v) : v ≠ .nan := by
  rcases h with ⟨-, rfl⟩ | ⟨lit, -, rfl⟩
  · simp
  · exact Double.nearest_ne_nan _ _

theorem not_literal_of_head {c : UInt8} (hdigit : isDecimalDigit c = false) (hpoint : c ≠ point) (hi : c ≠ 0x49)
    (s : Text) (v : Double) : ¬ UnsignedLiteral (c :: s) v := by
  rintro (⟨heq, -⟩ | ⟨lit, heq, -⟩)
  · exact hi (List.cons_eq_cons.mp heq).1
  · have hscan := scan_text lit
    rw [← heq, scan_eq_none hdigit hpoint] at hscan
    simp at hscan

theorem nearest_of_outOfRange (h : OutOfRange lit.value) :
    Double.nearest false lit.value = if 0 < lit.order then .infinity false else .finite false 0 := by
  rw [Double.nearest]
  have hiff := overflows_iff_order_pos lit h
  by_cases hover : Overflows lit.value
  · rw [if_pos hover, if_pos (hiff.mp hover)]
  · rw [if_neg hover, if_neg fun hpos => hover (hiff.mpr hpos)]
    rcases h with h | ⟨-, hzero⟩
    · exact absurd h hover
    · rw [hzero]

theorem outOfRangeValue_eq_iff (h : OutOfRange lit.value) (s : Text) :
    outOfRangeValue s = Double.nearest false lit.value ↔ ¬ Misestimated s lit := by
  rw [nearest_of_outOfRange h, outOfRangeValue, Misestimated]
  split_ifs with hs hl hl <;> simp [h, hs, hl]

theorem outOfRangeValue_ne_nan (s : Text) : outOfRangeValue s ≠ .nan := by
  rw [outOfRangeValue]
  split_ifs <;> simp

theorem head_of_word {s w : Text} {n : ℕ} {c : UInt8} (h : asciiIequals (s.take n) (c :: w) = true) :
    ∃ d ∈ s.head?, asciiLower d = asciiLower c := by
  rw [asciiIequals, beq_iff_eq] at h
  rcases n with _ | n
  · simp at h
  rcases s with _ | ⟨d, s⟩
  · simp at h
  · exact ⟨d, rfl, (List.cons_eq_cons.mp h).1⟩

/-- What the library makes of a text that starts with neither a minus sign nor a letter of a word. -/
def scanned (s : Text) : FromChars :=
  match scan s with
  | none => .invalid
  | some (lit, rest) => if OutOfRange lit.value then .outOfRange else .parsed (.nearest false lit.value) rest

theorem fromChars_eq_scanned {s : Text} (hminus : s.head? ≠ some 0x2D)
    (hletter : ∀ c ∈ s.head?, isLetter c → isExponentLetter c) : fromChars s = scanned s := by
  have hword (n : ℕ) (c : UInt8) (w : Text) (hc : asciiLower c = 0x69 ∨ asciiLower c = 0x6E) :
      ¬ asciiIequals (s.take n) (c :: w) = true := by
    intro h
    obtain ⟨d, hd, heq⟩ := head_of_word h
    have hisLetter : isLetter d := by
      rw [isLetter, heq]
      rcases hc with hc | hc <;> rw [hc] <;> decide
    have hexp := hletter d hd hisLetter
    rw [isExponentLetter, heq] at hexp
    rcases hc with hc | hc <;> rw [hc] at hexp <;> exact absurd hexp (by decide)
  have h1 : ¬ asciiIequals (s.take 8) (ascii "infinity") = true := hword 8 0x69 (ascii "nfinity") (.inl rfl)
  have h2 : ¬ asciiIequals (s.take 3) (ascii "inf") = true := hword 3 0x69 (ascii "nf") (.inl rfl)
  have h3 : ¬ asciiIequals (s.take 3) (ascii "nan") = true := hword 3 0x6E (ascii "an") (.inr rfl)
  simp only [fromChars, hminus, decide_false, Bool.false_eq_true, if_false]
  rw [if_neg h1, if_neg h2, if_neg h3]
  rfl

/-- What a text without a sign comes to when the library is asked. -/
def answered (r : FromChars) (s : Text) : Double :=
  match r with
  | .invalid => .nan
  | .outOfRange => outOfRangeValue s
  | .parsed v rest => if rest = [] then v else .nan

theorem asciiIequals_iff_take (s w : Text) :
    asciiIequals s w = true ↔ asciiIequals (s.take w.length) w = true ∧ s.drop w.length = [] := by
  constructor
  · intro h
    have hlen : s.length = w.length := by
      have heq := congrArg List.length (beq_iff_eq.mp h)
      simpa using heq
    rw [List.take_of_length_le hlen.le]
    exact ⟨h, List.drop_eq_nil_of_le hlen.le⟩
  · rintro ⟨h, hdrop⟩
    have hlen := List.drop_eq_nil_iff.mp hdrop
    rwa [List.take_of_length_le hlen] at h

theorem scan_of_word {s w : Text} {n : ℕ} {c : UInt8} (h : asciiIequals (s.take n) (c :: w) = true)
    (hc : asciiLower c = 0x69 ∨ asciiLower c = 0x6E) : scan s = none := by
  obtain ⟨d, hd, heq⟩ := head_of_word h
  obtain ⟨rest, rfl⟩ := List.head?_eq_some_iff.mp hd
  rw [← heq] at hc
  refine scan_eq_none ?_ ?_ rest
  · rw [Bool.eq_false_iff]
    intro hdigit
    simp only [isDecimalDigit, decide_eq_true_eq] at hdigit
    have hlower : asciiLower d = d := if_neg fun hupper => by
      have hle : 'A'.toNat ≤ '9'.toNat := hupper.1.trans hdigit.2
      exact absurd hle (by decide)
    rw [hlower] at hc
    rcases hc with rfl | rfl <;> exact absurd hdigit (by decide)
  · rintro rfl
    rcases hc with hc | hc <;> exact absurd hc (by decide)

/-- After a second sign the answer is a Number exactly when the library takes the whole. -/
theorem answered_minus (s : Text) : answered (fromChars (0x2D :: s)) (0x2D :: s) = .nan ↔ ¬ Taken s := by
  have hinfinity : asciiIequals s (ascii "infinity") = true ↔
      asciiIequals (s.take 8) (ascii "infinity") = true ∧ s.drop 8 = [] := asciiIequals_iff_take s _
  have hinf : asciiIequals s (ascii "inf") = true ↔
      asciiIequals (s.take 3) (ascii "inf") = true ∧ s.drop 3 = [] := asciiIequals_iff_take s _
  rw [Taken, hinf, hinfinity]
  simp only [fromChars, List.head?_cons, decide_true, if_true, List.tail_cons]
  by_cases h1 : asciiIequals (s.take 8) (ascii "infinity") = true
  · have hscan : scan s = none := scan_of_word (c := 0x69) (w := ascii "nfinity") h1 (.inl rfl)
    have hlong : s.drop 3 ≠ [] := by
      intro hdrop
      have hlen := congrArg List.length (beq_iff_eq.mp h1)
      have hshort := List.drop_eq_nil_iff.mp hdrop
      simp [ascii] at hlen
      omega
    rw [if_pos h1]
    by_cases hdrop : s.drop 8 = [] <;> simp [answered, h1, hscan, hlong, hdrop]
  rw [if_neg h1]
  by_cases h2 : asciiIequals (s.take 3) (ascii "inf") = true
  · have hscan : scan s = none := scan_of_word (c := 0x69) (w := ascii "nf") h2 (.inl rfl)
    rw [if_pos h2]
    by_cases hdrop : s.drop 3 = [] <;> simp [answered, h1, h2, hscan, hdrop]
  rw [if_neg h2]
  by_cases h3 : asciiIequals (s.take 3) (ascii "nan") = true
  · have hscan : scan s = none := scan_of_word (c := 0x6E) (w := ascii "an") h3 (.inr rfl)
    rw [if_pos h3]
    by_cases hdrop : afterNan (s.drop 3) = [] <;> simp [answered, h1, h2, hscan, hdrop]
  rw [if_neg h3]
  rcases scan s with _ | ⟨lit, tail⟩
  · simp [answered, h1, h2]
  · by_cases hrange : OutOfRange lit.value
    · simp [answered, h1, h2, hrange, outOfRangeValue_ne_nan]
    · by_cases htail : tail = [] <;> simp [answered, h1, h2, hrange, htail, Double.nearest_ne_nan]

theorem head_of_scan (h : scan rest = some (lit, tail)) : ∃ c ∈ rest.head?, isDecimalDigit c ∨ c = point := by
  obtain ⟨c, more, htext, hc⟩ := head_text lit
  rw [scan_eq h, htext]
  exact ⟨c, rfl, hc⟩

theorem MisreadUnsigned.head (h : MisreadUnsigned rest) :
    ∃ c ∈ rest.head?, c = 0x2D ∨ isDecimalDigit c ∨ c = point := by
  cases h with
  | secondSign s h _ => exact ⟨0x2D, by simp [h], .inl rfl⟩
  | afterRange lit tail h _ _ =>
    obtain ⟨c, hc, hstart⟩ := head_of_scan h
    rcases head_dropPoint rest with hsame | ⟨hpoint, -⟩
    · exact ⟨c, hsame ▸ hc, .inr hstart⟩
    · exact ⟨point, hpoint, .inr (.inr rfl)⟩
  | afterExponent lit h _ _ =>
    obtain ⟨c, more, htext, hc⟩ := head_text lit
    exact ⟨c, by simp [h, htext], .inr hc⟩
  | order lit h _ =>
    obtain ⟨c, more, htext, hc⟩ := head_text lit
    exact ⟨c, by simp [h, htext], .inr hc⟩

theorem not_letter_of_start {c : UInt8} (h : c = 0x2D ∨ isDecimalDigit c ∨ c = point) : isLetter c = false := by
  rcases h with rfl | h | rfl
  · decide
  · have hlower : asciiLower c = c := if_neg fun hupper => by
      simp only [isDecimalDigit, decide_eq_true_eq] at h
      have hle : 'A'.toNat ≤ '9'.toNat := hupper.1.trans h.2
      exact absurd hle (by decide)
    rw [isLetter, hlower, Bool.and_eq_false_iff]
    simp only [isDecimalDigit, decide_eq_true_eq] at h
    refine .inl (decide_eq_false fun hle => ?_)
    have hle' : 'a'.toNat ≤ '9'.toNat := (UInt8.le_iff_toNat_le.mp hle).trans h.2
    exact absurd hle' (by decide)
  · decide

theorem numberOf_nan_iff : NumberOf (UnsignedLiteral rest) .nan ↔ ∀ v, ¬ UnsignedLiteral rest v := by
  constructor
  · rintro (h | ⟨hnone, -⟩) v hv
    · exact h.ne_nan rfl
    · exact hnone ⟨v, hv⟩
  · exact fun h => .inr ⟨fun hv => hv.elim h, rfl⟩

theorem numberOf_literal_iff {v : Double} (h : rest = lit.text) :
    NumberOf (UnsignedLiteral rest) v ↔ v = .nearest false lit.value := by
  subst h
  have hunique {v : Double} (hv : UnsignedLiteral lit.text v) : v = .nearest false lit.value := by
    rcases hv with ⟨hword, -⟩ | ⟨other, heq, rfl⟩
    · obtain ⟨c, more, htext, hc⟩ := head_text lit
      rw [htext] at hword
      obtain ⟨rfl, -⟩ := List.cons_eq_cons.mp hword
      exact absurd hc (by decide)
    · rw [text_injective heq]
  constructor
  · rintro (hv | ⟨hnone, -⟩)
    · exact hunique hv
    · exact absurd ⟨_, .inr ⟨lit, rfl, rfl⟩⟩ hnone
  · rintro rfl
    exact .inl (.inr ⟨lit, rfl, rfl⟩)

theorem numberOf_iff_nan {v : Double} (h : ∀ v, ¬ UnsignedLiteral rest v) :
    NumberOf (UnsignedLiteral rest) v ↔ v = .nan := by
  constructor
  · rintro (hv | ⟨-, hnan⟩)
    · exact absurd hv (h v)
    · exact hnan
  · rintro rfl
    exact numberOf_nan_iff.mpr h

theorem misreadUnsigned_iff (hminus : rest.head? ≠ some 0x2D) :
    MisreadUnsigned rest ↔
      (∃ lit tail, scan (dropPoint rest) = some (lit, tail) ∧ tail ≠ [] ∧ OutOfRange lit.value) ∨
      (∃ lit : DecimalLiteral, rest = lit.text ++ [point] ∧ lit.fraction = none ∧ lit.exponent ≠ none) ∨
      ∃ lit : DecimalLiteral, rest = lit.text ∧ Misestimated (dropPoint rest) lit := by
  constructor
  · intro h
    cases h with
    | secondSign s h _ => exact absurd (by simp [h]) hminus
    | afterRange lit tail h hne range => exact .inl ⟨lit, tail, h, hne, range⟩
    | afterExponent lit h hfrac hexp => exact .inr (.inl ⟨lit, h, hfrac, hexp⟩)
    | order lit h wrong => exact .inr (.inr ⟨lit, h, wrong⟩)
  · rintro (⟨lit, tail, h, hne, range⟩ | ⟨lit, h, hfrac, hexp⟩ | ⟨lit, h, wrong⟩)
    · exact .afterRange lit tail h hne range
    · exact .afterExponent lit h hfrac hexp
    · exact .order lit h wrong

theorem scan_dropPoint (h : rest = lit.text) : scan (dropPoint rest) = some (dropped lit, []) := by
  rw [h, dropPoint_text, scan_text]

theorem scan_dropPoint_point (h : rest = lit.text ++ [point]) (hfrac : lit.fraction = none) :
    scan (dropPoint rest) = some (lit, []) := by
  have hmem : point ∉ lit.text := by
    intro hc
    rw [text, hfrac] at hc
    rcases List.mem_append.mp hc with hc | hc
    · exact point_not_mem_digits lit.wholeDigits hc
    · exact point_not_mem_exponentText _ hc
  rw [h, dropPoint_append hmem, if_pos (by simp), List.append_nil, scan_text]

theorem UnsignedLiteral.isText {v : Double} (h : UnsignedLiteral rest v) (hword : rest ≠ ascii "Infinity") :
    ∃ lit : DecimalLiteral, rest = lit.text := by
  rcases h with ⟨heq, -⟩ | ⟨lit, h, -⟩
  · exact absurd heq hword
  · exact ⟨lit, h⟩

section Answered

variable (hword : rest ≠ ascii "Infinity") (hminus : rest.head? ≠ some 0x2D)
include hword hminus

theorem answered_of_none (hscan : scan (dropPoint rest) = none) :
    NumberOf (UnsignedLiteral rest) (answered (scanned (dropPoint rest)) (dropPoint rest)) ↔ ¬ MisreadUnsigned rest := by
  have hnan : answered (scanned (dropPoint rest)) (dropPoint rest) = .nan := by simp [scanned, hscan, answered]
  rw [hnan, numberOf_nan_iff, misreadUnsigned_iff hminus]
  refine iff_of_true (fun v hv => ?_) ?_
  · obtain ⟨lit, h⟩ := hv.isText hword
    simp [scan_dropPoint h] at hscan
  · rintro (⟨lit, tail, h, -, -⟩ | ⟨lit, h, hfrac, -⟩ | ⟨lit, h, -⟩)
    · simp [hscan] at h
    · simp [scan_dropPoint_point h hfrac] at hscan
    · simp [scan_dropPoint h] at hscan

omit hword in
/-- A literal is read as its Number unless it is out of the range and its order is estimated wrongly. -/
theorem answered_of_text {full : DecimalLiteral} (hrest : rest = full.text) :
    NumberOf (UnsignedLiteral rest) (answered (scanned (dropPoint rest)) (dropPoint rest)) ↔ ¬ MisreadUnsigned rest := by
  have hscan := scan_dropPoint hrest
  obtain ⟨hvalue, -⟩ := dropped_value full
  have hmisread : MisreadUnsigned rest ↔ Misestimated (dropPoint rest) full := by
    rw [misreadUnsigned_iff hminus]
    constructor
    · rintro (⟨lit, tail, h, hne, -⟩ | ⟨lit, h, -, hexp⟩ | ⟨lit, h, wrong⟩)
      · rw [hscan, Option.some.injEq, Prod.mk.injEq] at h
        exact absurd h.2.symm hne
      · exact absurd (h.symm.trans hrest) (append_point_ne hexp full)
      · rwa [← text_injective (hrest.symm.trans h)] at wrong
    · exact fun wrong => .inr (.inr ⟨full, hrest, wrong⟩)
  rw [numberOf_literal_iff hrest, hmisread, scanned, hscan]
  by_cases hrange : OutOfRange full.value
  · simp only [hvalue, if_pos hrange, answered]
    exact outOfRangeValue_eq_iff hrange _
  · simp only [hvalue, if_neg hrange, answered, if_pos, true_iff]
    exact fun wrong => hrange wrong.1

theorem answered_of_point (hrest : rest = lit.text ++ [point]) (hfrac : lit.fraction = none)
    (hexp : lit.exponent ≠ none) :
    NumberOf (UnsignedLiteral rest) (answered (scanned (dropPoint rest)) (dropPoint rest)) ↔ ¬ MisreadUnsigned rest := by
  have hmisread : MisreadUnsigned rest := .afterExponent lit hrest hfrac hexp
  have hnone (v : Double) : ¬ UnsignedLiteral rest v := by
    intro hv
    obtain ⟨full, hfull⟩ := hv.isText hword
    exact append_point_ne hexp full (hrest.symm.trans hfull)
  rw [numberOf_iff_nan hnone, scanned, scan_dropPoint_point hrest hfrac]
  simp only [hmisread, not_true_eq_false, iff_false]
  by_cases hrange : OutOfRange lit.value
  · simp [hrange, answered, outOfRangeValue_ne_nan]
  · simp [hrange, answered, Double.nearest_ne_nan]

theorem answered_of_tail (hscan : scan (dropPoint rest) = some (lit, tail)) (htail : tail ≠ []) :
    NumberOf (UnsignedLiteral rest) (answered (scanned (dropPoint rest)) (dropPoint rest)) ↔ ¬ MisreadUnsigned rest := by
  have hnotText (full : DecimalLiteral) : rest ≠ full.text := by
    intro h
    rw [scan_dropPoint h, Option.some.injEq, Prod.mk.injEq] at hscan
    exact htail hscan.2.symm
  have hnone (v : Double) : ¬ UnsignedLiteral rest v := by
    intro hv
    obtain ⟨full, hfull⟩ := hv.isText hword
    exact hnotText full hfull
  have hmisread : MisreadUnsigned rest ↔ OutOfRange lit.value := by
    rw [misreadUnsigned_iff hminus]
    constructor
    · rintro (⟨other, tail', h, -, range⟩ | ⟨other, h, hfrac, -⟩ | ⟨other, h, -⟩)
      · rw [hscan, Option.some.injEq, Prod.mk.injEq] at h
        rwa [h.1]
      · rw [scan_dropPoint_point h hfrac, Option.some.injEq, Prod.mk.injEq] at hscan
        exact absurd hscan.2.symm htail
      · exact absurd h (hnotText other)
    · exact fun range => .inl ⟨lit, tail, hscan, htail, range⟩
  rw [numberOf_iff_nan hnone, hmisread, scanned, hscan]
  by_cases hrange : OutOfRange lit.value
  · simp [hrange, answered, outOfRangeValue_ne_nan]
  · simp [hrange, answered, htail]

theorem answered_iff :
    NumberOf (UnsignedLiteral rest) (answered (scanned (dropPoint rest)) (dropPoint rest)) ↔ ¬ MisreadUnsigned rest := by
  rcases hscan : scan (dropPoint rest) with _ | ⟨lit, tail⟩
  · exact answered_of_none hword hminus hscan
  by_cases htail : tail = []
  · subst htail
    rcases of_dropPoint (by simpa using scan_eq hscan) with ⟨full, hrest, -⟩ | ⟨hrest, hfrac, hexp⟩
    · exact answered_of_text hminus hrest
    · exact answered_of_point hword hminus hrest hfrac hexp
  · exact answered_of_tail hword hminus hscan htail

end Answered

theorem dropPoint_minus (s : Text) : dropPoint (0x2D :: s) = 0x2D :: dropPoint s := by
  by_cases hpoint : point ∈ s
  · obtain ⟨before, after, rfl, hbefore⟩ := List.eq_append_cons_of_mem hpoint
    have hmem : point ∉ (0x2D : UInt8) :: before := by
      rw [List.mem_cons, not_or]
      exact ⟨by decide, hbefore⟩
    rw [← List.cons_append, dropPoint_append hmem, dropPoint_append hbefore]
    split_ifs <;> rfl
  · have hmem : point ∉ (0x2D : UInt8) :: s := by
      rw [List.mem_cons, not_or]
      exact ⟨by decide, hpoint⟩
    rw [dropPoint_of_not_mem hpoint, dropPoint_of_not_mem hmem]

theorem text_append_ne {s : Text} (lit : DecimalLiteral) (tail : Text) : lit.text ++ tail ≠ 0x2D :: s := by
  intro heq
  obtain ⟨c, more, htext, hc⟩ := head_text lit
  rw [htext] at heq
  obtain ⟨rfl, -⟩ := List.cons_eq_cons.mp heq
  exact absurd hc (by decide)

/-- A text without a sign is read as its Number exactly when it is of none of the kinds. -/
theorem unsignedToNumber_iff (rest : Text) :
    NumberOf (UnsignedLiteral rest) (unsignedToNumber rest) ↔ ¬ MisreadUnsigned rest := by
  have hnotMisread (h : ∀ c ∈ rest.head?, c ≠ 0x2D ∧ isDecimalDigit c = false ∧ c ≠ point) :
      ¬ MisreadUnsigned rest := by
    intro hmis
    obtain ⟨c, hc, hstart⟩ := hmis.head
    obtain ⟨h1, h2, h3⟩ := h c hc
    rcases hstart with hstart | hstart | hstart
    · exact h1 hstart
    · simp [hstart] at h2
    · exact h3 hstart
  unfold unsignedToNumber
  by_cases hnil : rest = []
  · subst hnil
    rw [if_pos rfl, numberOf_nan_iff]
    refine iff_of_true (fun v hv => ?_) (hnotMisread (by simp))
    rcases hv with ⟨h, -⟩ | ⟨lit, h, -⟩
    · exact absurd h (by decide)
    · exact text_ne_nil lit h.symm
  rw [if_neg hnil]
  by_cases hword : rest = ascii "Infinity"
  · rw [if_pos hword]
    refine iff_of_true (.inl (.inl ⟨hword, rfl⟩)) (hnotMisread fun c hc => ?_)
    rw [hword] at hc
    obtain rfl : 0x49 = c := Option.some_injective _ hc
    decide
  rw [if_neg hword]
  by_cases hletter : startsWithLetter rest = true
  · rw [if_pos hletter, numberOf_nan_iff]
    obtain ⟨c, s, rfl⟩ := List.exists_cons_of_ne_nil hnil
    have hc : isLetter c := by simpa [startsWithLetter] using hletter
    have hstart : c ≠ 0x2D ∧ isDecimalDigit c = false ∧ c ≠ point := by
      refine ⟨?_, ?_, ?_⟩
      · rintro rfl
        exact absurd hc (by decide)
      · rw [Bool.eq_false_iff]
        intro hdigit
        simp [not_letter_of_start (.inr (.inl hdigit))] at hc
      · rintro rfl
        exact absurd hc (by decide)
    refine iff_of_true (fun v hv => ?_) (hnotMisread fun d hd => ?_)
    · rcases hv with ⟨h, -⟩ | ⟨lit, h, -⟩
      · exact hword h
      · have hscan := scan_text lit
        rw [← h, scan_eq_none hstart.2.1 hstart.2.2] at hscan
        simp at hscan
    · obtain rfl : c = d := by simpa using hd
      exact hstart
  rw [if_neg hletter]
  change NumberOf _ (answered (fromChars (dropPoint rest)) (dropPoint rest)) ↔ _
  by_cases hminus : rest.head? = some 0x2D
  · obtain ⟨s, rfl⟩ := List.head?_eq_some_iff.mp hminus
    have hnone := not_literal_of_head (c := 0x2D) (by decide) (by decide) (by decide) s
    rw [numberOf_iff_nan hnone, dropPoint_minus, answered_minus, not_iff_not]
    refine ⟨fun h => .secondSign s rfl h, fun hmis => ?_⟩
    cases hmis with
    | secondSign s' h htaken => rwa [(List.cons_eq_cons.mp h).2]
    | afterRange lit tail h _ _ =>
      rw [dropPoint_minus, scan_eq_none (by decide) (by decide)] at h
      simp at h
    | afterExponent lit h _ _ => exact absurd h.symm (text_append_ne lit [point])
    | order lit h _ => exact absurd (by simpa using h.symm) (text_append_ne lit [])
  · have hscanned : fromChars (dropPoint rest) = scanned (dropPoint rest) := by
      refine fromChars_eq_scanned ?_ fun c hc hisLetter => ?_
      · rcases head_dropPoint rest with hsame | ⟨-, hexp⟩
        · rwa [hsame]
        · intro hhead
          rw [hhead] at hexp
          exact absurd hexp (by decide)
      · rcases head_dropPoint rest with hsame | ⟨-, hexp⟩
        · rw [hsame] at hc
          refine absurd ?_ hletter
          rw [startsWithLetter, Option.mem_def.mp hc]
          exact hisLetter
        · rw [Option.mem_def.mp hc] at hexp
          exact hexp
    rw [hscanned]
    exact answered_iff hword hminus

end CtBrowser.NumberFormat
