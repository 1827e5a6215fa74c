import CtBrowser.Core.Utf8
import CtBrowser.Shell.Net.Url.Encoding

/-!
# Form-urlencoded text

The pairs of a query string: written with `&` between the pairs, `=` between a name and its value,
`+` for a space and escapes for the rest, and read back. What is read back is what was written, with
what is no scalar value replaced.

## Main definitions

- `toUsvString` — a text with what is no scalar value replaced.
- `parseFormUrlencoded`, `serializeFormUrlencoded` — the two directions.

## Main results

- `utf8Of_decodeReplacing` — scalar values are read back from their UTF-8.
- `percentDecode_formEncode` — a name or a value is read back from its escapes.
- `serializeFormUrlencoded_eq` — the written text, pair by pair.
- `parse_serialize` — the pairs of a written text.
-/

namespace CtBrowser.Shell.Url

/-- Pairs of a name and a value. -/
abbrev FormPairs := List (Text × Text)

/-- A text with what is no scalar value replaced by U+FFFD. -/
def toUsvString (text : Text) : Text := utf8Of (codePoints text)

namespace Form

/-- The byte between two pairs. -/
def ampersand : UInt8 := byte '&'.toNat

/-- The byte between a name and its value. -/
def equalsSign : UInt8 := byte '='.toNat

/-- A text with a space for every `+`. -/
def plusReplaced (text : Text) : Text :=
  text.map fun b => if b = byte '+'.toNat then byte ' '.toNat else b

/-- What an escaped name or value stands for. -/
def component (text : Text) : Text := utf8Of (decodeReplacing (percentDecode (plusReplaced text)))

/-- The pair of a sequence: all of it is the name when it has no `=`. -/
def pairOf (sequence : Text) : Text × Text :=
  (component (sequence.takeWhile (· ≠ equalsSign)),
    component ((sequence.dropWhile (· ≠ equalsSign)).drop 1))

/-- A code point of a name or a value, as it is written. -/
def formEncodeOne (c : ℕ) : Text :=
  if c = ' '.toNat then [byte '+'.toNat] else percentEncodeOne c .form

/-- A name or a value, as it is written. -/
def formEncode (text : Text) : Text := (codePoints text).flatMap formEncodeOne

/-- A pair, as it is written. -/
def sequenceOf (pair : Text × Text) : Text := formEncode pair.1 ++ equalsSign :: formEncode pair.2

end Form

open Form

/-- The pairs of a query string: the empty sequences between two `&` are none. -/
def parseFormUrlencoded (query : Text) : FormPairs :=
  ((query.splitOn ampersand).filter (· ≠ [])).map pairOf

/-- The query string of some pairs: an `&` before each pair that has something before it. -/
def serializeFormUrlencoded (pairs : FormPairs) : Text :=
  pairs.foldl (fun out pair => (if out ≠ [] then out ++ [ampersand] else out) ++ sequenceOf pair) []

namespace Form

/-! ## Scalar values -/

/-- What a code point is written as. -/
def scalar (c : ℕ) : ℕ := if isSurrogate c ∨ 0x10FFFF < c then 0xFFFD else c

theorem scalar_spec (c : ℕ) : scalar c ≤ 0x10FFFF ∧ ¬ isSurrogate (scalar c) := by
  rw [scalar]
  split_ifs with h
  · decide
  · rw [not_or, not_lt] at h
    exact ⟨h.2, h.1⟩

theorem scalar_scalar (c : ℕ) : scalar (scalar c) = scalar c := by
  obtain ⟨hle, hsurrogate⟩ := scalar_spec c
  exact if_neg (not_or.mpr ⟨hsurrogate, not_lt.mpr hle⟩)

theorem appendScalar_eq (c : ℕ) : appendScalar c = appendUtf8 (scalar c) := rfl

theorem sequences_utf8Of (cs : List ℕ) :
    sequences (utf8Of cs) = cs.map fun c => (scalar c, (appendScalar c).length) := by
  induction cs with
  | nil => rfl
  | cons c cs ih =>
    have hlt : scalar c < 0x200000 := (scalar_spec c).1.trans_lt (by norm_num)
    rw [utf8Of, List.flatMap_cons, ← utf8Of, appendScalar_eq, sequences_appendUtf8 hlt, ih]
    rfl

theorem decodeReplacing_utf8Of (cs : List ℕ) : decodeReplacing (utf8Of cs) = cs.map scalar := by
  have hsequences : decodeAll (utf8Of cs).length (utf8Of cs) = sequences (utf8Of cs) := rfl
  rw [decodeReplacing, hsequences, sequences_utf8Of, List.map_map]
  refine List.map_congr_left fun c _ => if_neg ?_
  obtain ⟨hle, hsurrogate⟩ := scalar_spec c
  rintro (⟨hhigh, hone⟩ | h | h)
  · rw [appendScalar_eq, appendUtf8_length, if_neg (not_lt.mpr hhigh)] at hone
    split_ifs at hone
    all_goals omega
  · exact hsurrogate h
  · exact absurd hle (not_le.mpr h)

theorem utf8Of_map_scalar (cs : List ℕ) : utf8Of (cs.map scalar) = utf8Of cs := by
  rw [utf8Of, utf8Of, List.flatMap_map]
  refine List.flatMap_congr fun c _ => ?_
  rw [appendScalar_eq, appendScalar_eq, scalar_scalar]

/-- Scalar values are read back from their UTF-8. -/
theorem utf8Of_decodeReplacing (cs : List ℕ) : utf8Of (decodeReplacing (utf8Of cs)) = utf8Of cs := by
  rw [decodeReplacing_utf8Of, utf8Of_map_scalar]

/-! ## Escapes -/

theorem plusReplaced_append (a b : Text) : plusReplaced (a ++ b) = plusReplaced a ++ plusReplaced b :=
  List.map_append

theorem plusReplaced_eq_self {text : Text} (h : ∀ b ∈ text, b ≠ byte '+'.toNat) : plusReplaced text = text := by
  calc plusReplaced text = text.map id := List.map_congr_left fun b hb => if_neg (h b hb)
    _ = text := List.map_id text

theorem percentDecode_cons {b : UInt8} (hb : b ≠ byte '%'.toNat) (rest : Text) :
    percentDecode (b :: rest) = b :: percentDecode rest := by
  rcases rest with - | ⟨c, - | ⟨d, rest⟩⟩
  · rfl
  · rfl
  · rw [percentDecode]
    split
    · rw [if_neg hb]
    · rfl

theorem hexValue_hexDigit : ∀ n < 16, hexValue (hexDigit n).toNat = some n := by decide

theorem hexDigit_plain : ∀ n < 16, hexDigit n ≠ byte '+'.toNat ∧ hexDigit n ≠ ampersand ∧ hexDigit n ≠ equalsSign := by
  decide

theorem nibbles (b : UInt8) : b.toNat >>> 4 < 16 ∧ b.toNat &&& 0x0F < 16 ∧
    byte ((b.toNat >>> 4) * 16 + (b.toNat &&& 0x0F)) = b := by
  have hlow : b.toNat &&& 0x0F = b.toNat % 2 ^ 4 := Nat.and_two_pow_sub_one_eq_mod b.toNat 4
  have hb : b.toNat < 256 := b.toNat_lt
  rw [hlow, Nat.shiftRight_eq_div_pow]
  refine ⟨by omega, Nat.mod_lt _ (by norm_num), ?_⟩
  have hsum : b.toNat / 2 ^ 4 * 16 + b.toNat % 2 ^ 4 = b.toNat := Nat.div_add_mod' b.toNat (2 ^ 4)
  rw [hsum]
  exact UInt8.ofNat_toNat

theorem percentDecode_escaped (b : UInt8) (rest : Text) :
    percentDecode (escaped b ++ rest) = b :: percentDecode rest := by
  obtain ⟨hhigh, hlow, hbyte⟩ := nibbles b
  rw [escaped, List.cons_append, List.cons_append, List.cons_append, List.nil_append, percentDecode,
    hexValue_hexDigit _ hhigh, hexValue_hexDigit _ hlow]
  dsimp only
  rw [if_pos rfl, hbyte]

theorem percentDecode_flatMap_escaped (bytes rest : Text) :
    percentDecode (bytes.flatMap escaped ++ rest) = bytes ++ percentDecode rest := by
  induction bytes with
  | nil => rfl
  | cons b bytes ih => rw [List.flatMap_cons, List.append_assoc, percentDecode_escaped, ih, List.cons_append]

theorem plain_of_mem_escaped {b x : UInt8} (hx : x ∈ escaped b) :
    x ≠ byte '+'.toNat ∧ x ≠ ampersand ∧ x ≠ equalsSign := by
  obtain ⟨hhigh, hlow, -⟩ := nibbles b
  simp only [escaped, List.mem_cons, List.not_mem_nil, or_false] at hx
  rcases hx with rfl | rfl | rfl
  · decide
  · exact hexDigit_plain _ hhigh
  · exact hexDigit_plain _ hlow

theorem plain_of_not_inSet {c : ℕ} (h : ¬ inSet c .form) :
    c < 0x80 ∧ byte c ≠ byte '+'.toNat ∧ byte c ≠ byte '%'.toNat ∧ byte c ≠ ampersand ∧ byte c ≠ equalsSign := by
  have hall : ∀ c < 0x80, ¬ inSet c .form → byte c ≠ byte '+'.toNat ∧ byte c ≠ byte '%'.toNat ∧
      byte c ≠ ampersand ∧ byte c ≠ equalsSign := by decide
  have hlt : c < 0x80 := by
    rw [inSet, not_or, not_or] at h
    omega
  exact ⟨hlt, hall c hlt h⟩

/-! ## Names and values -/

theorem percentDecode_formEncodeOne (c : ℕ) (rest : Text) :
    percentDecode (plusReplaced (formEncodeOne c ++ rest)) = appendScalar c ++ percentDecode (plusReplaced rest) := by
  rw [plusReplaced_append, formEncodeOne]
  by_cases hspace : c = ' '.toNat
  · subst hspace
    exact percentDecode_cons (by decide) _
  rw [if_neg hspace, percentEncodeOne]
  by_cases hset : inSet c .form
  · rw [if_pos hset, plusReplaced_eq_self, percentDecode_flatMap_escaped]
    intro x hx
    obtain ⟨b, -, hx⟩ := List.mem_flatMap.mp hx
    exact (plain_of_mem_escaped hx).1
  · obtain ⟨hlt, hplus, hpercent, -⟩ := plain_of_not_inSet hset
    have hscalar : scalar c = c := if_neg (by rw [isSurrogate]; omega)
    have hone : appendScalar c = [byte c] := by rw [appendScalar_eq, hscalar, appendUtf8, if_pos hlt]
    rw [if_neg hset, plusReplaced_eq_self (by simpa using hplus), hone]
    exact percentDecode_cons hpercent _

/-- A name or a value is read back from its escapes. -/
theorem percentDecode_formEncode (cs : List ℕ) :
    percentDecode (plusReplaced (cs.flatMap formEncodeOne)) = utf8Of cs := by
  induction cs with
  | nil => rfl
  | cons c cs ih => rw [List.flatMap_cons, percentDecode_formEncodeOne, ih, utf8Of, utf8Of, List.flatMap_cons]

theorem component_formEncode (text : Text) : component (formEncode text) = toUsvString text := by
  rw [component, formEncode, percentDecode_formEncode, utf8Of_decodeReplacing, toUsvString]

theorem plain_of_mem_formEncode {text : Text} {x : UInt8} (hx : x ∈ formEncode text) :
    x ≠ ampersand ∧ x ≠ equalsSign := by
  obtain ⟨c, -, hx⟩ := List.mem_flatMap.mp hx
  rw [formEncodeOne, percentEncodeOne] at hx
  split_ifs at hx with hspace hset
  · rw [List.mem_singleton.mp hx]
    decide
  · obtain ⟨b, -, hx⟩ := List.mem_flatMap.mp hx
    exact (plain_of_mem_escaped hx).2
  · rw [List.mem_singleton.mp hx]
    exact (plain_of_not_inSet hset).2.2.2

/-! ## Pairs -/

theorem ampersand_notMem_sequenceOf (pair : Text × Text) : ampersand ∉ sequenceOf pair := by
  intro h
  rcases List.mem_append.mp h with h | h
  · exact (plain_of_mem_formEncode h).1 rfl
  · rcases List.mem_cons.mp h with h | h
    · exact absurd h (by decide)
    · exact (plain_of_mem_formEncode h).1 rfl

theorem pairOf_sequenceOf (pair : Text × Text) :
    pairOf (sequenceOf pair) = (toUsvString pair.1, toUsvString pair.2) := by
  have hname : ∀ b ∈ formEncode pair.1, (b ≠ equalsSign : Bool) = true := fun b hb =>
    decide_eq_true (plain_of_mem_formEncode hb).2
  have htake : (sequenceOf pair).takeWhile (· ≠ equalsSign) = formEncode pair.1 := by
    rw [sequenceOf, List.takeWhile_append_of_pos hname, List.takeWhile_cons_of_neg (by simp), List.append_nil]
  have hdrop : (sequenceOf pair).dropWhile (· ≠ equalsSign) = equalsSign :: formEncode pair.2 := by
    rw [sequenceOf, List.dropWhile_append_of_pos hname, List.dropWhile_cons_of_neg (by simp)]
  rw [pairOf, htake, hdrop, List.drop_one, List.tail_cons, component_formEncode, component_formEncode]

theorem foldl_sequenceOf {out : Text} (hout : out ≠ []) (pairs : FormPairs) :
    pairs.foldl (fun out pair => (if out ≠ [] then out ++ [ampersand] else out) ++ sequenceOf pair) out =
      [ampersand].intercalate (out :: pairs.map sequenceOf) := by
  induction pairs generalizing out with
  | nil => exact List.intercalate_singleton.symm
  | cons pair pairs ih =>
    rw [List.foldl_cons, if_pos hout, ih (by simp [sequenceOf]), List.map_cons]
    rcases eq_or_ne pairs [] with rfl | hpairs
    · simp [List.intercalate_cons_cons]
    · have hmap : pairs.map sequenceOf ≠ [] := by simpa using hpairs
      rw [List.intercalate_cons_of_ne_nil hmap, List.intercalate_cons_cons,
        List.intercalate_cons_of_ne_nil hmap]
      simp only [List.append_assoc]

/-- The written text of some pairs, pair by pair. -/
theorem serializeFormUrlencoded_eq (pairs : FormPairs) :
    serializeFormUrlencoded pairs = [ampersand].intercalate (pairs.map sequenceOf) := by
  cases pairs with
  | nil => rfl
  | cons pair pairs => exact foldl_sequenceOf (by simp [sequenceOf] : sequenceOf pair ≠ []) pairs

end Form

open Form in
/-- What is read back from a written query string is its pairs, in order, with what is no scalar value
replaced: none is lost, merged or added. -/
theorem parse_serialize (pairs : FormPairs) : parseFormUrlencoded (serializeFormUrlencoded pairs) =
    pairs.map fun pair => (toUsvString pair.1, toUsvString pair.2) := by
  have hkept : (pairs.map sequenceOf).filter (· ≠ []) = pairs.map sequenceOf := by
    refine List.filter_eq_self.mpr fun sequence h => ?_
    obtain ⟨pair, -, rfl⟩ := List.mem_map.mp h
    simp [sequenceOf]
  rw [parseFormUrlencoded, serializeFormUrlencoded_eq]
  rcases eq_or_ne pairs [] with rfl | hpairs
  · rfl
  · rw [List.splitOn_intercalate _ (fun sequence h => ?_) (by simpa using hpairs), hkept, List.map_map]
    · exact List.map_congr_left fun pair _ => pairOf_sequenceOf pair
    · obtain ⟨pair, -, rfl⟩ := List.mem_map.mp h
      exact ampersand_notMem_sequenceOf pair

example : parseFormUrlencoded (ascii "a=1&&b+c&%=%41=") =
    [(ascii "a", ascii "1"), (ascii "b c", []), (ascii "%", ascii "A=")] := by decide

end CtBrowser.Shell.Url
