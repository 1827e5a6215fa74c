import CtBrowser.Core.OrderEstimate

/-!
# When a string is read as its Number

Signs, radix prefixes and white space around what `NumberReading` compares. A string is read as its
Number unless it is of one of the kinds listed here: an integer with a radix prefix that takes more
than 64 bits, or after its sign a text of `MisreadUnsigned`.

## Main definitions

- `Misread`, `MisreadPrefix` — these kinds.
- `numberOfString` — the Number of a string.

## Main results

- `stringToNumber_iff` — for both readings.
-/

namespace CtBrowser.NumberFormat

open DecimalLiteral

variable {body : Text} {radix : ℕ} {c : UInt8}

/-! ## Signs -/

theorem UnsignedLiteral.head {rest : Text} {v : Double} (h : UnsignedLiteral rest v) :
    ∃ c ∈ rest.head?, c ≠ 0x2B ∧ c ≠ 0x2D := by
  rcases h with ⟨rfl, -⟩ | ⟨lit, rfl, -⟩
  · exact ⟨0x49, rfl, by decide⟩
  · obtain ⟨c, more, htext, hc⟩ := head_text lit
    refine ⟨c, by rw [htext]; rfl, ?_, ?_⟩
    · rintro rfl
      exact absurd hc (by decide)
    · rintro rfl
      exact absurd hc (by decide)

/-- The sign that a text starts with. -/
def signOf (body : Text) : Option Bool :=
  if body.head? = some 0x2B then some false else if body.head? = some 0x2D then some true else none

theorem signOf_append (body : Text) : signText (signOf body) ++ afterSign body = body := by
  rw [signOf, afterSign]
  by_cases hplus : body.head? = some 0x2B
  · obtain ⟨s, rfl⟩ := List.head?_eq_some_iff.mp hplus
    rfl
  by_cases hminus : body.head? = some 0x2D
  · obtain ⟨s, rfl⟩ := List.head?_eq_some_iff.mp hminus
    rfl
  rw [if_neg hplus, if_neg hminus, if_neg (by tauto)]
  rfl

theorem signOf_eq_true_iff : signOf body = some true ↔ isNegative body := by
  rw [signOf, isNegative, decide_eq_true_eq]
  split_ifs with hplus hminus <;> simp_all

theorem signOf_signText {rest : Text} (minus : Option Bool) (h : ∃ c ∈ rest.head?, c ≠ 0x2B ∧ c ≠ 0x2D) :
    signOf (signText minus ++ rest) = minus ∧ afterSign (signText minus ++ rest) = rest := by
  obtain ⟨c, hc, hplus, hminus⟩ := h
  obtain ⟨s, rfl⟩ := List.head?_eq_some_iff.mp hc
  rcases minus with _ | _ | _
  · simp [signText, signOf, afterSign, hplus, hminus]
  · exact ⟨rfl, rfl⟩
  · exact ⟨rfl, rfl⟩

theorem strDecimalLiteral_iff (body : Text) (v : Double) :
    StrDecimalLiteral body v ↔ ∃ u, UnsignedLiteral (afterSign body) u ∧ v = u.signed (isNegative body) := by
  have hunsigned (b : Text) (minus : Option Bool) : (b = ascii "Infinity" ∧ v = .infinity (minus = some true) ∨
      ∃ lit : DecimalLiteral, b = lit.text ∧ v = .nearest (minus = some true) lit.value) ↔
      ∃ u, UnsignedLiteral b u ∧ v = u.signed (minus = some true) := by
    constructor
    · rintro (⟨rfl, rfl⟩ | ⟨lit, rfl, rfl⟩)
      · exact ⟨_, .inl ⟨rfl, rfl⟩, by simp [Double.signed]⟩
      · exact ⟨_, .inr ⟨lit, rfl, rfl⟩, by simp⟩
    · rintro ⟨u, ⟨rfl, rfl⟩ | ⟨lit, rfl, rfl⟩, rfl⟩
      · exact .inl ⟨rfl, by simp [Double.signed]⟩
      · exact .inr ⟨lit, rfl, by simp⟩
  have hnegative : (decide (signOf body = some true)) = isNegative body := by
    rw [Bool.eq_iff_iff, decide_eq_true_eq, signOf_eq_true_iff]
  simp only [StrDecimalLiteral, hunsigned]
  constructor
  · rintro ⟨minus, b, rfl, u, hu, rfl⟩
    obtain ⟨hsign, hafter⟩ := signOf_signText minus hu.head
    refine ⟨u, by rwa [hafter], ?_⟩
    rw [← hnegative, hsign]
  · rintro ⟨u, hu, rfl⟩
    exact ⟨signOf body, afterSign body, (signOf_append body).symm, u, hu, by rw [hnegative]⟩

theorem signed_injective (n : Bool) : Function.Injective (Double.signed n) := by
  have hinv : Function.LeftInverse (Double.signed n) (Double.signed n) := by
    intro v
    cases v <;> simp [Double.signed]
  exact hinv.injective

theorem signed_eq_nan_iff (n : Bool) (u : Double) : u.signed n = .nan ↔ u = .nan := by
  cases u <;> simp [Double.signed]

theorem numberOf_signed_iff (body : Text) (u : Double) :
    NumberOf (StrDecimalLiteral body) (u.signed (isNegative body)) ↔ NumberOf (UnsignedLiteral (afterSign body)) u := by
  have hexists : (∃ v, StrDecimalLiteral body v) ↔ ∃ u, UnsignedLiteral (afterSign body) u := by
    simp only [strDecimalLiteral_iff]
    constructor
    · rintro ⟨v, u, hu, -⟩
      exact ⟨u, hu⟩
    · rintro ⟨u, hu⟩
      exact ⟨_, u, hu, rfl⟩
  rw [NumberOf, NumberOf, hexists, signed_eq_nan_iff, strDecimalLiteral_iff]
  refine or_congr_left ⟨?_, fun h => ⟨u, h, rfl⟩⟩
  rintro ⟨u', hu', heq⟩
  rwa [signed_injective _ heq]

/-! ## Radix prefixes -/

/-- An integer with a radix prefix that does not fit 64 bits. -/
def HugeWhole (body : Text) : Prop := ∃ radix ds, IsNonDecimal body radix ds ∧ 2 ^ 64 ≤ radixValue radix ds

theorem radixPrefix_eq_some_iff :
    radixPrefix body = some radix ↔ ∃ c ds, body = zeroDigit :: c :: ds ∧ ds ≠ [] ∧ radixOf c = some radix := by
  constructor
  · intro h
    rw [radixPrefix] at h
    by_cases hlong : 2 < body.length ∧ body.head? = some zeroDigit
    · rw [if_pos hlong] at h
      match body, hlong, h with
      | a :: c :: d :: ds, ⟨_, hzero⟩, h =>
        obtain rfl : a = zeroDigit := by simpa using hzero
        exact ⟨c, d :: ds, rfl, by simp, by simpa using h⟩
    · simp [hlong] at h
  · rintro ⟨c, ds, rfl, hne, h⟩
    have hlong : 2 < (zeroDigit :: c :: ds).length := by
      have hpos := List.length_pos_iff.mpr hne
      simp only [List.length_cons]
      omega
    rw [radixPrefix, if_pos ⟨hlong, rfl⟩]
    simpa using h

theorem isNonDecimal_iff {ds : Text} (hne : ds ≠ []) (hradix : radixOf c = some radix) {radix' : ℕ} {ds' : Text} :
    IsNonDecimal (zeroDigit :: c :: ds) radix' ds' ↔
      radix' = radix ∧ ds' = ds ∧ ∀ d ∈ ds, isRadixDigit radix d := by
  constructor
  · rintro ⟨⟨c', heq, hradix'⟩, -, hall⟩
    obtain ⟨-, heq⟩ := List.cons_eq_cons.mp heq
    obtain ⟨rfl, rfl⟩ := List.cons_eq_cons.mp heq
    obtain rfl : radix' = radix := Option.some_injective _ (hradix'.symm.trans hradix)
    exact ⟨rfl, rfl, hall⟩
  · rintro ⟨rfl, rfl, hall⟩
    exact ⟨⟨c, rfl, hradix⟩, hne, hall⟩

theorem forall_byte {p : UInt8 → Prop} (h : ∀ n : Fin 256, p ⟨⟨n⟩⟩) (c : UInt8) : p c := h c.toBitVec.toFin

theorem byte_kinds (c : UInt8) :
    (isNumberByte c → isGraphic c) ∧ ((hexValue c.toNat).isSome → isGraphic c) ∧
      ((radixOf c).isSome → isGraphic c ∧ isNumberByte c = false) := by
  revert c
  exact forall_byte (by decide +kernel)

theorem not_isNumberByte (h : radixOf c = some radix) : isNumberByte c = false :=
  ((byte_kinds c).2.2 (by simp [h])).2

theorem not_decimal_of_radix {ds : Text} (hradix : radixOf c = some radix) (v : Double) :
    ¬ StrDecimalLiteral (zeroDigit :: c :: ds) v := by
  rw [strDecimalLiteral_iff]
  rintro ⟨u, ⟨heq, -⟩ | ⟨lit, heq, -⟩, -⟩
  · exact absurd (List.cons_eq_cons.mp heq).1 (by decide)
  · have hmem : c ∈ lit.text := by
      rw [← heq]
      exact List.mem_cons_of_mem _ (List.mem_cons_self ..)
    have hbyte := isNumberByte_of_mem hmem
    simp [not_isNumberByte hradix] at hbyte

/-- With a radix prefix only the range can go wrong. -/
theorem wholeToNumber_iff (h : radixPrefix body = some radix) :
    NumberOf (StrNumericLiteral body) (wholeToNumber radix (body.drop 2)) ↔ ¬ HugeWhole body := by
  obtain ⟨c, ds, rfl, hne, hradix⟩ := radixPrefix_eq_some_iff.mp h
  have hnumeric (v : Double) : StrNumericLiteral (zeroDigit :: c :: ds) v ↔
      (∀ d ∈ ds, isRadixDigit radix d) ∧ v = .nearest false (radixValue radix ds) := by
    simp only [StrNumericLiteral, not_decimal_of_radix hradix, false_or, isNonDecimal_iff hne hradix]
    constructor
    · rintro ⟨_, _, ⟨rfl, rfl, hall⟩, rfl⟩
      exact ⟨hall, rfl⟩
    · rintro ⟨hall, rfl⟩
      exact ⟨radix, ds, ⟨rfl, rfl, hall⟩, rfl⟩
  have hhuge : HugeWhole (zeroDigit :: c :: ds) ↔ (∀ d ∈ ds, isRadixDigit radix d) ∧ 2 ^ 64 ≤ radixValue radix ds := by
    simp only [HugeWhole, isNonDecimal_iff hne hradix]
    constructor
    · rintro ⟨_, _, ⟨rfl, rfl, hall⟩, hle⟩
      exact ⟨hall, hle⟩
    · rintro ⟨hall, hle⟩
      exact ⟨radix, ds, ⟨rfl, rfl, hall⟩, hle⟩
  rw [hhuge, List.drop_succ_cons, List.drop_succ_cons, List.drop_zero]
  by_cases hall : ∀ d ∈ ds, isRadixDigit radix d
  · have htake : ds.takeWhile (isRadixDigit radix ·) = ds := List.takeWhile_eq_self_iff.mpr hall
    by_cases hle : 2 ^ 64 ≤ radixValue radix ds
    · have hnan : wholeToNumber radix ds = .nan := by
        simp only [wholeToNumber, htake]
        rw [if_pos (.inr (.inl hle))]
      refine iff_of_false ?_ fun h => h ⟨hall, hle⟩
      rintro (hv | ⟨hnone, -⟩)
      · rw [hnan] at hv
        exact Double.nearest_ne_nan _ _ ((hnumeric _).mp hv).2.symm
      · exact hnone ⟨_, (hnumeric _).mpr ⟨hall, rfl⟩⟩
    · have hvalue : wholeToNumber radix ds = .nearest false (radixValue radix ds) := by
        simp only [wholeToNumber, htake]
        rw [if_neg (by simp only [hne, hle, false_or, not_true_eq_false, ne_eq, not_false_eq_true])]
      exact iff_of_true (.inl ((hnumeric _).mpr ⟨hall, hvalue⟩)) fun h => hle h.2
  · have htake : ds.takeWhile (isRadixDigit radix ·) ≠ ds := fun heq => hall (List.takeWhile_eq_self_iff.mp heq)
    have hnan : wholeToNumber radix ds = .nan := by
      simp only [wholeToNumber]
      rw [if_pos (.inr (.inr htake))]
    refine iff_of_true (.inr ⟨?_, hnan⟩) fun h => hall h.1
    rintro ⟨v, hv⟩
    exact hall ((hnumeric v).mp hv).1

theorem not_isNonDecimal (h : radixPrefix body = none) (radix : ℕ) (ds : Text) : ¬ IsNonDecimal body radix ds := by
  rintro ⟨⟨c, rfl, hradix⟩, hne, -⟩
  have hsome := radixPrefix_eq_some_iff.mpr ⟨c, ds, rfl, hne, hradix⟩
  simp [h] at hsome

/-! ## White space -/

theorem isGraphic_of_isNumberByte (h : isNumberByte c) : isGraphic c := (byte_kinds c).1 h

theorem isGraphic_of_isRadixDigit (h : isRadixDigit radix c) : isGraphic c := by
  rw [isRadixDigit, Option.any_eq_true] at h
  obtain ⟨n, hn, -⟩ := h
  exact (byte_kinds c).2.1 (by simp [hn])

theorem isGraphic_of_radixOf (h : radixOf c = some radix) : isGraphic c :=
  ((byte_kinds c).2.2 (by simp [h])).1

theorem StrNumericLiteral.graphic {v : Double} (h : StrNumericLiteral body v) :
    (∀ c ∈ body, isGraphic c) ∧ body ≠ [] := by
  rcases h with ⟨minus, rest, rfl, h⟩ | ⟨radix, ds, ⟨⟨c, rfl, hradix⟩, -, hall⟩, -⟩
  · have hrest : (∀ c ∈ rest, isGraphic c) ∧ rest ≠ [] := by
      rcases h with ⟨rfl, -⟩ | ⟨lit, rfl, -⟩
      · simp [ascii, isGraphic]
      · exact ⟨fun c hc => isGraphic_of_isNumberByte (isNumberByte_of_mem hc), text_ne_nil lit⟩
    refine ⟨fun c hc => ?_, by simp [hrest.2]⟩
    rcases List.mem_append.mp hc with hc | hc
    · rcases mem_signText hc with rfl | rfl <;> rfl
    · exact hrest.1 c hc
  · refine ⟨fun d hd => ?_, by simp⟩
    rcases (by simpa using hd : d = zeroDigit ∨ d = c ∨ d ∈ ds) with rfl | rfl | hd
    · decide
    · exact isGraphic_of_radixOf hradix
    · exact isGraphic_of_isRadixDigit (hall d hd)

theorem stringNumericLiteral_iff (text : Text) (v : Double) :
    StringNumericLiteral text v ↔
      trimJsSpace text = [] ∧ v = .finite false 0 ∨ StrNumericLiteral (trimJsSpace text) v := by
  constructor
  · rintro ⟨before, body, after, rfl, hbefore, hafter, ⟨rfl, rfl⟩ | hlit⟩
    · rw [List.append_nil]
      exact .inl ⟨trimJsSpace_of_isSpace (hbefore.append hafter), rfl⟩
    · obtain ⟨hgraphic, hne⟩ := hlit.graphic
      rw [trimJsSpace_of_isGraphic hbefore hafter hgraphic hne]
      exact .inr hlit
  · intro h
    obtain ⟨before, after, happ, hbefore, hafter, -⟩ := exists_trimJsSpace text
    exact ⟨before, trimJsSpace text, after, happ, hbefore, hafter, h⟩

/-- The kinds of text, without white space around it, that are not read as their Number. -/
def MisreadNumeric (body : Text) : Prop :=
  HugeWhole body ∨ radixPrefix body = none ∧ MisreadUnsigned (afterSign body)

/-- The kinds of string that are not read as their Number. -/
def Misread (text : Text) : Prop := MisreadNumeric (trimJsSpace text)

theorem not_misreadNumeric_nil : ¬ MisreadNumeric [] := by
  rintro (⟨radix, ds, ⟨⟨c, h, -⟩, -, -⟩, -⟩ | ⟨-, h⟩)
  · simp at h
  · obtain ⟨c, hc, -⟩ := h.head
    simp [afterSign] at hc

/-- The whole of a string is read as its Number exactly when it is of none of the kinds. -/
theorem stringToNumber_whole (text : Text) :
    StringToNumber text (stringToNumber text) ↔ ¬ Misread text := by
  change NumberOf (StringNumericLiteral text) (stringToNumber text) ↔ _
  rw [Misread, stringToNumber]
  by_cases hnil : trimJsSpace text = []
  · simp only [hnil, if_true]
    refine iff_of_true (.inl ?_) not_misreadNumeric_nil
    rw [stringNumericLiteral_iff]
    exact .inl ⟨hnil, rfl⟩
  have hnumeric : StringNumericLiteral text = StrNumericLiteral (trimJsSpace text) := by
    funext v
    simp [stringNumericLiteral_iff, hnil]
  simp only [hnumeric, if_neg hnil]
  rcases hradix : radixPrefix (trimJsSpace text) with _ | radix
  · have hdecimal : StrNumericLiteral (trimJsSpace text) = StrDecimalLiteral (trimJsSpace text) := by
      funext v
      simp [StrNumericLiteral, not_isNonDecimal hradix]
    have hhuge : ¬ HugeWhole (trimJsSpace text) := by
      rintro ⟨radix, ds, h, -⟩
      exact not_isNonDecimal hradix radix ds h
    simp only [hdecimal, numberOf_signed_iff, unsignedToNumber_iff, MisreadNumeric, hradix, hhuge, true_and, false_or]
  · simp only [wholeToNumber_iff hradix, MisreadNumeric, hradix, reduceCtorEq, false_and, or_false]

/-! ## The Number of a string -/

theorem UnsignedLiteral.unique {rest : Text} {u v : Double} (hu : UnsignedLiteral rest u) (hv : UnsignedLiteral rest v) :
    u = v := by
  have hword (lit : DecimalLiteral) : lit.text ≠ ascii "Infinity" := by
    obtain ⟨c, more, htext, hc⟩ := head_text lit
    rw [htext]
    intro heq
    rw [(List.cons_eq_cons.mp heq).1] at hc
    exact absurd hc (by decide)
  rcases hu with ⟨rfl, rfl⟩ | ⟨lit, rfl, rfl⟩
  · rcases hv with ⟨-, rfl⟩ | ⟨lit, h, -⟩
    · rfl
    · exact absurd h.symm (hword lit)
  · rcases hv with ⟨h, -⟩ | ⟨lit', h, rfl⟩
    · exact absurd h (hword lit)
    · rw [text_injective h]

theorem StrNumericLiteral.unique {u v : Double} (hu : StrNumericLiteral body u) (hv : StrNumericLiteral body v) : u = v := by
  rcases hu with hu | ⟨radix, ds, h, rfl⟩
  · rcases hv with hv | ⟨radix', ds', h', -⟩
    · obtain ⟨u', hu', rfl⟩ := (strDecimalLiteral_iff body u).mp hu
      obtain ⟨v', hv', rfl⟩ := (strDecimalLiteral_iff body v).mp hv
      rw [hu'.unique hv']
    · obtain ⟨c, rfl, hradix⟩ := h'.prefixed
      exact absurd hu (not_decimal_of_radix hradix u)
  · obtain ⟨c, rfl, hradix⟩ := h.prefixed
    rcases hv with hv | ⟨radix', ds', h', rfl⟩
    · exact absurd hv (not_decimal_of_radix hradix v)
    · obtain ⟨rfl, rfl, -⟩ := (isNonDecimal_iff h.someDigit hradix).mp h'
      rfl

theorem StringNumericLiteral.unique {text : Text} {u v : Double} (hu : StringNumericLiteral text u)
    (hv : StringNumericLiteral text v) : u = v := by
  rw [stringNumericLiteral_iff] at hu hv
  rcases hu with ⟨hnil, rfl⟩ | hu
  · rcases hv with ⟨-, rfl⟩ | hv
    · rfl
    · exact absurd hnil hv.graphic.2
  · rcases hv with ⟨hnil, -⟩ | hv
    · exact absurd hnil hu.graphic.2
    · exact hu.unique hv

open Classical in
/-- The Number of a string. -/
noncomputable def numberOfString (text : Text) : Double :=
  if h : ∃ v, StringNumericLiteral text v then h.choose else .nan

theorem stringToNumber_iff_eq (text : Text) (v : Double) : StringToNumber text v ↔ v = numberOfString text := by
  rw [StringToNumber, numberOfString]
  by_cases h : ∃ v, StringNumericLiteral text v
  · rw [dif_pos h, or_iff_left fun hnone => hnone.1 h]
    refine ⟨fun hv => hv.unique h.choose_spec, ?_⟩
    rintro rfl
    exact h.choose_spec
  · rw [dif_neg h, or_iff_right fun hv => h ⟨v, hv⟩, and_iff_right h]

theorem stringToNumber_eq_iff (text : Text) : stringToNumber text = numberOfString text ↔ ¬ Misread text := by
  rw [← stringToNumber_iff_eq, stringToNumber_whole]

/-! ## Prefixes -/

/-- The Number of the longest prefix that is a literal without a sign. -/
def LongestUnsigned (rest : Text) (v : Double) : Prop :=
  (∃ taken tail, rest = taken ++ tail ∧ UnsignedLiteral taken v ∧
    ∀ taken' tail' v', rest = taken' ++ tail' → UnsignedLiteral taken' v' → taken'.length ≤ taken.length) ∨
  (∀ taken tail v', rest = taken ++ tail → ¬ UnsignedLiteral taken v') ∧ v = .nan

/-- The kinds of text without a sign whose start is not read as its Number. -/
inductive MisreadUnsignedPrefix (rest : Text) : Prop
  | secondSign (s : Text) (h : rest = 0x2D :: s) (taken : asciiIequals (s.take 3) (ascii "inf") ∨ (scan s).isSome)
  | order (lit : DecimalLiteral) (tail : Text) (h : scan rest = some (lit, tail)) (wrong : Misestimated rest lit)

/-- The kinds of string whose start is not read as its Number. -/
def MisreadPrefix (text : Text) : Prop := MisreadUnsignedPrefix (afterSign (skipSpace text.length text))

theorem UnsignedLiteral.length_le_word {rest taken tail : Text} {v : Double} (hword : ascii "Infinity" <+: rest)
    (happ : rest = taken ++ tail) (h : UnsignedLiteral taken v) : taken.length ≤ (ascii "Infinity").length := by
  rcases h with ⟨rfl, -⟩ | ⟨lit, rfl, -⟩
  · exact le_rfl
  · obtain ⟨more, rfl⟩ := hword
    obtain ⟨c, s, htext, hc⟩ := head_text lit
    rw [htext] at happ
    obtain ⟨rfl, -⟩ := List.cons_eq_cons.mp happ
    exact absurd hc (by decide)

theorem longestUnsigned_nan_iff {rest : Text} :
    LongestUnsigned rest .nan ↔ ∀ taken tail v, rest = taken ++ tail → ¬ UnsignedLiteral taken v := by
  constructor
  · rintro (⟨taken, tail, happ, h, -⟩ | ⟨hnone, -⟩)
    · exact absurd rfl h.ne_nan
    · exact hnone
  · exact fun h => .inr ⟨h, rfl⟩

theorem longestUnsigned_iff_nan {rest : Text} {v : Double}
    (h : ∀ taken tail v, rest = taken ++ tail → ¬ UnsignedLiteral taken v) : LongestUnsigned rest v ↔ v = .nan := by
  constructor
  · rintro (⟨taken, tail, happ, hv, -⟩ | ⟨-, hnan⟩)
    · exact absurd hv (h taken tail v happ)
    · exact hnan
  · rintro rfl
    exact longestUnsigned_nan_iff.mpr h

theorem longestUnsigned_scan {rest tail : Text} {lit : DecimalLiteral} {v : Double}
    (hscan : scan rest = some (lit, tail)) (hword : ¬ ascii "Infinity" <+: rest) :
    LongestUnsigned rest v ↔ v = .nearest false lit.value := by
  have hliteral {taken tail' : Text} {v' : Double} (happ : rest = taken ++ tail') (h : UnsignedLiteral taken v') :
      ∃ lit' : DecimalLiteral, taken = lit'.text ∧ v' = .nearest false lit'.value := by
    rcases h with ⟨rfl, -⟩ | h
    · exact absurd ⟨tail', happ.symm⟩ hword
    · exact h
  have hlongest {taken tail' : Text} {v' : Double} (happ : rest = taken ++ tail') (h : UnsignedLiteral taken v') :
      taken.length ≤ lit.text.length := by
    obtain ⟨lit', rfl, -⟩ := hliteral happ h
    obtain ⟨longest, more, hscan', hle⟩ := scan_longest lit' tail'
    rw [← happ, hscan, Option.some.injEq, Prod.mk.injEq] at hscan'
    rwa [hscan'.1]
  have hself : rest = lit.text ++ tail := scan_eq hscan
  constructor
  · rintro (⟨taken, tail', happ, h, hmax⟩ | ⟨hnone, -⟩)
    · obtain ⟨lit', htaken, rfl⟩ := hliteral happ h
      have hle := hmax lit.text tail _ hself (.inr ⟨lit, rfl, rfl⟩)
      obtain ⟨heq, -⟩ := List.append_inj (happ.symm.trans hself) (le_antisymm (hlongest happ h) hle)
      rw [text_injective (htaken.symm.trans heq)]
    · exact absurd (.inr ⟨lit, rfl, rfl⟩) (hnone lit.text tail _ hself)
  · rintro rfl
    exact .inl ⟨lit.text, tail, hself, .inr ⟨lit, rfl, rfl⟩, fun _ _ _ happ h => hlongest happ h⟩

theorem no_literal_of_scan {rest : Text} (hscan : scan rest = none) (hword : ¬ ascii "Infinity" <+: rest)
    (taken tail : Text) (v : Double) (happ : rest = taken ++ tail) : ¬ UnsignedLiteral taken v := by
  rintro (⟨rfl, -⟩ | ⟨lit, rfl, -⟩)
  · exact hword ⟨tail, happ.symm⟩
  · obtain ⟨longest, more, hscan', -⟩ := scan_longest lit tail
    rw [← happ, hscan] at hscan'
    simp at hscan'

/-- What the start of a text comes to when the library is asked. -/
def prefixAnswered (r : FromChars) (s : Text) : Double :=
  match r with
  | .invalid => .nan
  | .outOfRange => outOfRangeValue s
  | .parsed v _ => v

/-- After a second sign the answer is a Number exactly when the library takes anything but `nan`. -/
theorem prefixAnswered_minus (s : Text) :
    prefixAnswered (fromChars (0x2D :: s)) (0x2D :: s) = .nan ↔
      ¬ (asciiIequals (s.take 3) (ascii "inf") ∨ (scan s).isSome) := by
  simp only [fromChars, List.head?_cons, decide_true, if_true, List.tail_cons]
  by_cases h1 : asciiIequals (s.take 8) (ascii "infinity") = true
  · have h2 : asciiIequals (s.take 3) (ascii "inf") = true := by
      rw [asciiIequals, beq_iff_eq] at h1 ⊢
      have h := congrArg (List.take 3) h1
      rw [← List.map_take, ← List.map_take, List.take_take] at h
      exact h
    rw [if_pos h1]
    simp [prefixAnswered, h2]
  rw [if_neg h1]
  by_cases h2 : asciiIequals (s.take 3) (ascii "inf") = true
  · rw [if_pos h2]
    simp [prefixAnswered, h2]
  rw [if_neg h2]
  by_cases h3 : asciiIequals (s.take 3) (ascii "nan") = true
  · have hscan : scan s = none := scan_of_word (c := 0x6E) (w := ascii "an") h3 (.inr rfl)
    rw [if_pos h3]
    simp [prefixAnswered, h2, hscan]
  rw [if_neg h3]
  rcases scan s with _ | ⟨lit, tail⟩
  · simp [prefixAnswered, h2]
  · by_cases hrange : OutOfRange lit.value <;>
      simp [prefixAnswered, h2, hrange, outOfRangeValue_ne_nan, Double.nearest_ne_nan]

/-- The start of a text without a sign is read as its Number exactly when it is of none of the kinds. -/
theorem unsignedPrefix_iff (rest : Text) :
    LongestUnsigned rest (unsignedPrefix rest) ↔ ¬ MisreadUnsignedPrefix rest := by
  have hnotMisread (hminus : rest.head? ≠ some 0x2D) (hscan : scan rest = none) : ¬ MisreadUnsignedPrefix rest := by
    intro hmis
    cases hmis with
    | secondSign s h _ => exact hminus (by rw [h]; rfl)
    | order lit tail h _ => simp [hscan] at h
  unfold unsignedPrefix
  by_cases hnil : rest = []
  · subst hnil
    rw [if_pos rfl, longestUnsigned_nan_iff]
    exact iff_of_true (no_literal_of_scan rfl (by decide)) (hnotMisread (by simp) rfl)
  rw [if_neg hnil]
  by_cases hword : ascii "Infinity" <+: rest
  · rw [if_pos hword]
    obtain ⟨more, rfl⟩ := hword
    refine iff_of_true (.inl ⟨_, more, rfl, .inl ⟨rfl, rfl⟩, fun taken tail v happ h => ?_⟩) (hnotMisread (by simp [ascii]) ?_)
    · exact h.length_le_word ⟨more, rfl⟩ happ
    · exact scan_eq_none (by decide) (by decide) _
  rw [if_neg hword]
  by_cases hletter : startsWithLetter rest = true
  · rw [if_pos hletter, longestUnsigned_nan_iff]
    obtain ⟨c, s, rfl⟩ := List.exists_cons_of_ne_nil hnil
    have hc : isLetter c := by simpa [startsWithLetter] using hletter
    have hstart : ¬ (c = 0x2D ∨ isDecimalDigit c ∨ c = point) := fun h => by simp [not_letter_of_start h] at hc
    rw [not_or, not_or, Bool.not_eq_true] at hstart
    obtain ⟨hminus, hdigit, hpoint⟩ := hstart
    have hscan := scan_eq_none hdigit hpoint s
    exact iff_of_true (no_literal_of_scan hscan hword) (hnotMisread (by simpa using hminus) hscan)
  rw [if_neg hletter]
  change LongestUnsigned _ (prefixAnswered (fromChars rest) rest) ↔ _
  by_cases hminus : rest.head? = some 0x2D
  · obtain ⟨s, rfl⟩ := List.head?_eq_some_iff.mp hminus
    have hscan : scan (0x2D :: s) = none := scan_eq_none (by decide) (by decide) s
    rw [longestUnsigned_iff_nan (no_literal_of_scan hscan hword), prefixAnswered_minus, not_iff_not]
    refine ⟨fun h => .secondSign s rfl h, fun hmis => ?_⟩
    cases hmis with
    | secondSign s' h htaken => rwa [(List.cons_eq_cons.mp h).2]
    | order lit tail h _ => simp [hscan] at h
  have hscanned : fromChars rest = scanned rest := by
    refine fromChars_eq_scanned hminus fun c hc hisLetter => ?_
    refine absurd ?_ hletter
    rw [startsWithLetter, Option.mem_def.mp hc]
    exact hisLetter
  rw [hscanned, scanned]
  rcases hscan : scan rest with _ | ⟨lit, tail⟩
  · exact iff_of_true (longestUnsigned_nan_iff.mpr (no_literal_of_scan hscan hword)) (hnotMisread hminus hscan)
  have hmisread : MisreadUnsignedPrefix rest ↔ Misestimated rest lit := by
    refine ⟨fun hmis => ?_, fun wrong => .order lit tail hscan wrong⟩
    cases hmis with
    | secondSign s h _ => exact absurd (by rw [h]; rfl) hminus
    | order lit' tail' h wrong =>
      rw [hscan, Option.some.injEq, Prod.mk.injEq] at h
      rwa [h.1]
  rw [longestUnsigned_scan hscan hword, hmisread]
  by_cases hrange : OutOfRange lit.value
  · simp only [if_pos hrange, prefixAnswered]
    exact outOfRangeValue_eq_iff hrange rest
  · simp only [if_neg hrange, prefixAnswered, true_iff]
    exact fun wrong => hrange wrong.1

/-- A literal at the start of a text, and one without a sign after the sign of the text. -/
theorem prefix_iff {trimmed taken tail : Text} {v : Double} :
    (trimmed = taken ++ tail ∧ StrDecimalLiteral taken v) ↔
      ∃ rest u, taken = signText (signOf trimmed) ++ rest ∧ afterSign trimmed = rest ++ tail ∧
        UnsignedLiteral rest u ∧ v = u.signed (isNegative trimmed) := by
  have hmore {rest : Text} {u : Double} (hu : UnsignedLiteral rest u) (minus : Option Bool) :
      signOf (signText minus ++ (rest ++ tail)) = minus ∧ afterSign (signText minus ++ (rest ++ tail)) = rest ++ tail := by
    refine signOf_signText minus ?_
    obtain ⟨c, hc, hne⟩ := hu.head
    obtain ⟨s, rfl⟩ := List.head?_eq_some_iff.mp hc
    exact ⟨c, rfl, hne⟩
  constructor
  · rintro ⟨rfl, h⟩
    obtain ⟨u, hu, rfl⟩ := (strDecimalLiteral_iff taken v).mp h
    obtain ⟨hsign, hafter⟩ := hmore hu (signOf taken)
    rw [← List.append_assoc, signOf_append] at hsign hafter
    refine ⟨afterSign taken, u, by rw [hsign, signOf_append], hafter, hu, ?_⟩
    have hnegative : isNegative (taken ++ tail) = isNegative taken := by
      rw [Bool.eq_iff_iff, ← signOf_eq_true_iff, ← signOf_eq_true_iff, hsign]
    rw [hnegative]
  · rintro ⟨rest, u, rfl, hafter, hu, rfl⟩
    obtain ⟨hsign, hafter'⟩ := signOf_signText (signOf trimmed) hu.head
    refine ⟨by rw [List.append_assoc, ← hafter, signOf_append], ?_⟩
    rw [strDecimalLiteral_iff, hafter']
    refine ⟨u, hu, ?_⟩
    have hnegative : isNegative (signText (signOf trimmed) ++ rest) = isNegative trimmed := by
      rw [Bool.eq_iff_iff, ← signOf_eq_true_iff, ← signOf_eq_true_iff, hsign]
    rw [hnegative]

theorem longest_signed_iff (trimmed : Text) (u : Double) :
    LongestLiteral trimmed (u.signed (isNegative trimmed)) ↔ LongestUnsigned (afterSign trimmed) u := by
  constructor
  · rintro (⟨taken, tail, happ, hv, hmax⟩ | ⟨hnone, hnan⟩)
    · obtain ⟨rest, u', rfl, hafter, hu, heq⟩ := prefix_iff.mp ⟨happ, hv⟩
      rw [signed_injective _ heq]
      refine .inl ⟨rest, tail, hafter, hu, fun rest' tail' v' hafter' hu' => ?_⟩
      obtain ⟨happ', hv'⟩ := prefix_iff.mpr ⟨rest', v', rfl, hafter', hu', rfl⟩
      simpa using hmax _ _ _ happ' hv'
    · refine .inr ⟨fun rest tail v' hafter hu => ?_, (signed_eq_nan_iff _ u).mp hnan⟩
      obtain ⟨happ, hv⟩ := prefix_iff.mpr ⟨rest, v', rfl, hafter, hu, rfl⟩
      exact hnone _ _ _ happ hv
  · rintro (⟨rest, tail, hafter, hu, hmax⟩ | ⟨hnone, rfl⟩)
    · obtain ⟨happ, hv⟩ := prefix_iff.mpr ⟨rest, u, rfl, hafter, hu, rfl⟩
      refine .inl ⟨_, tail, happ, hv, fun taken' tail' v' happ' hv' => ?_⟩
      obtain ⟨rest', u', rfl, hafter', hu', -⟩ := prefix_iff.mp ⟨happ', hv'⟩
      simpa using hmax _ _ _ hafter' hu'
    · refine .inr ⟨fun taken tail v' happ hv => ?_, rfl⟩
      obtain ⟨rest, u', -, hafter, hu, -⟩ := prefix_iff.mp ⟨happ, hv⟩
      exact hnone _ _ _ hafter hu

theorem parseFloat_iff (text : Text) (v : Double) :
    ParseFloat text v ↔ LongestLiteral (skipSpace text.length text) v := by
  constructor
  · rintro ⟨before, trimmed, rfl, hbefore, hstops, h⟩
    rwa [skipSpace_append hbefore (jsSpaceWidth_eq_zero_iff.mpr hstops) le_rfl]
  · intro h
    obtain ⟨before, happ, hbefore, hzero⟩ := exists_skipSpace (s := text) le_rfl
    exact ⟨before, _, happ, hbefore, jsSpaceWidth_eq_zero_iff.mp hzero, h⟩

theorem stringToNumber_prefix (text : Text) :
    ParseFloat text (stringToNumberPrefix text) ↔ ¬ MisreadPrefix text := by
  rw [parseFloat_iff, MisreadPrefix, ← unsignedPrefix_iff, ← longest_signed_iff, stringToNumberPrefix]
  by_cases hnil : skipSpace text.length text = []
  · simp [hnil, afterSign, unsignedPrefix, Double.signed]
  · simp only [if_neg hnil]

/-- A string is read as its Number, and its start by `parseFloat`, exactly when they are of none of
the kinds. -/
theorem stringToNumber_iff (text : Text) :
    (StringToNumber text (stringToNumber text) ↔ ¬ Misread text) ∧
      (ParseFloat text (stringToNumberPrefix text) ↔ ¬ MisreadPrefix text) :=
  ⟨stringToNumber_whole text, stringToNumber_prefix text⟩

/-- A second sign is read, by both, and seventeen hexadecimal digits are not. -/
theorem stringToNumber_misread :
    ¬ StringToNumber (ascii "0x10000000000000000") (stringToNumber (ascii "0x10000000000000000")) ∧
      ¬ StringToNumber (ascii "--5") (stringToNumber (ascii "--5")) ∧
      ¬ ParseFloat (ascii "--5") (stringToNumberPrefix (ascii "--5")) := by
  have hwhole : trimJsSpace (ascii "0x10000000000000000") = ascii "0x10000000000000000" := by decide
  have hminus : trimJsSpace (ascii "--5") = ascii "--5" := by decide
  have hstart : afterSign (skipSpace (ascii "--5").length (ascii "--5")) = ascii "-5" := by decide
  have hscan : ∃ lit, scan (ascii "5") = some (lit, []) :=
    ⟨⟨ascii "5", none, none, by simp [ascii, isDecimalDigit], by simp, by simp [ascii]⟩, rfl⟩
  rw [stringToNumber_whole, stringToNumber_whole, stringToNumber_prefix, not_not, not_not, not_not, Misread, Misread,
    MisreadPrefix, hwhole, hminus, hstart]
  obtain ⟨lit, hlit⟩ := hscan
  refine ⟨.inl ⟨16, ascii "10000000000000000", ⟨⟨0x78, rfl, rfl⟩, by simp [ascii], by decide +kernel⟩, by decide⟩,
    .inr ⟨rfl, .secondSign (ascii "5") rfl (.inr (.inr ⟨lit, [], hlit, .inl rfl⟩))⟩,
    .secondSign (ascii "5") rfl (.inr (by simp [hlit]))⟩

end CtBrowser.NumberFormat
