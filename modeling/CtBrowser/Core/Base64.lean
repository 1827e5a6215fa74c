import CtBrowser.Core.Text

/-!
# Base64

Bytes as letters of six bits each and back. The loop that decodes skips whatever is no letter of the
alphabet, so padding, white space and garbage are all the same to it; before it a strict decoder is
tried, which refuses garbage.

## Main definitions

- `base64Encode`, `base64Decode` — the conversions.
- `forgivingDecode` — what a strict decoder accepts, and what it gives.

## Main results

- `decodeLoop_eq` — the loop decodes the letters of a text, whatever stands between them.
- `base64_round_trip` — decoding gives the bytes back, and agrees with the strict decoder.
-/

namespace CtBrowser

/-! ## Encoding -/

/-- The letters for six bits, in the order of their values. -/
def base64Alphabet (url : Bool) : Text :=
  if url then ascii "ABCDEFGHIJKLMNOPQRSTUVWXYZabcdefghijklmnopqrstuvwxyz0123456789-_"
  else ascii "ABCDEFGHIJKLMNOPQRSTUVWXYZabcdefghijklmnopqrstuvwxyz0123456789+/"

/-- The letter for the lowest six bits. -/
def base64Letter (url : Bool) (bits : ℕ) : UInt8 := (base64Alphabet url).getD (bits &&& 0x3F) 0

/-- The letters of up to three bytes. The padding is what says how many of the last three bytes were
real. -/
def encodeTriple (url omitPadding : Bool) (b₀ : UInt8) (b₁ b₂ : Option UInt8) : Text :=
  let triple := b₀.toNat <<< 16 ||| (b₁.getD 0).toNat <<< 8 ||| (b₂.getD 0).toNat
  let pad := if omitPadding then [] else [byte '='.toNat]
  [base64Letter url (triple >>> 18), base64Letter url (triple >>> 12)] ++
    (if b₁.isSome then [base64Letter url (triple >>> 6)] else pad) ++
    (if b₂.isSome then [base64Letter url triple] else pad)

/-- Bytes as base64, three at a time. -/
def base64Encode (url omitPadding : Bool) : Text → Text
  | [] => []
  | [b₀] => encodeTriple url omitPadding b₀ none none
  | [b₀, b₁] => encodeTriple url omitPadding b₀ (some b₁) none
  | b₀ :: b₁ :: b₂ :: rest =>
    encodeTriple url omitPadding b₀ (some b₁) (some b₂) ++ base64Encode url omitPadding rest

/-! ## Decoding -/

/-- The value of one letter. -/
def base64Sextet (c : UInt8) : Option ℕ :=
  let c := c.toNat
  if 'A'.toNat ≤ c ∧ c ≤ 'Z'.toNat then some (c - 'A'.toNat)
  else if 'a'.toNat ≤ c ∧ c ≤ 'z'.toNat then some (c - 'a'.toNat + 26)
  else if '0'.toNat ≤ c ∧ c ≤ '9'.toNat then some (c - '0'.toNat + 52)
  else if c = '+'.toNat then some 62
  else if c = '/'.toNat then some 63
  else none

/-- The first byte of a group. -/
def groupByte₀ (g₀ g₁ : ℕ) : UInt8 := byte (g₀ <<< 2 ||| g₁ >>> 4)

def groupByte₁ (g₁ g₂ : ℕ) : UInt8 := byte ((g₁ &&& 0xF) <<< 4 ||| g₂ >>> 2)

def groupByte₂ (g₂ g₃ : ℕ) : UInt8 := byte ((g₂ &&& 0x3) <<< 6 ||| g₃)

/-- What a partial group at the end carries: one byte fewer than it has letters. -/
def decodeTail : List ℕ → Text
  | [g₀, g₁] => [groupByte₀ g₀ g₁]
  | [g₀, g₁, g₂] => [groupByte₀ g₀ g₁, groupByte₁ g₁ g₂]
  | _ => []

/-- The loop: letters are gathered until there are four. -/
def decodeLoop (group : List ℕ) : Text → Text
  | [] => decodeTail group
  | raw :: text =>
    match base64Sextet raw with
    | none => decodeLoop group text
    | some six =>
      match group with
      | [g₀, g₁, g₂] =>
        groupByte₀ g₀ g₁ :: groupByte₁ g₁ g₂ :: groupByte₂ g₂ six :: decodeLoop [] text
      | _ => decodeLoop (group ++ [six]) text

/-- The strict decoder first, if there is any text, and the loop for what it refuses. -/
def base64Decode (strict : Text → Option Text) (text : Text) : Text :=
  if text ≠ [] then (strict text).getD (decodeLoop [] text) else decodeLoop [] text

/-! ## What a strict decoder accepts -/

def isAsciiWhitespace (c : UInt8) : Bool := c ∈ [0x09, 0x0A, 0x0C, 0x0D, 0x20]

/-- One or two padding characters taken off the end. -/
def dropPadding (data : Text) : Text :=
  if data.length % 4 ≠ 0 then data
  else if data.drop (data.length - 2) = [byte '='.toNat, byte '='.toNat] then data.take (data.length - 2)
  else if data.drop (data.length - 1) = [byte '='.toNat] then data.take (data.length - 1)
  else data

/-- The bytes of six bits each, the most significant ones first. -/
def bytesOfSextets : List ℕ → Text
  | g₀ :: g₁ :: g₂ :: g₃ :: rest =>
    let bits := ((g₀ * 64 + g₁) * 64 + g₂) * 64 + g₃
    byte (bits / 65536) :: byte (bits / 256 % 256) :: byte (bits % 256) :: bytesOfSextets rest
  | [g₀, g₁, g₂] =>
    let bits := ((g₀ * 64 + g₁) * 64 + g₂) / 4
    [byte (bits / 256), byte (bits % 256)]
  | [g₀, g₁] => [byte ((g₀ * 64 + g₁) / 16)]
  | _ => []

/-- Forgiving decoding: white space is left out, padding may be missing but must be right if it is
there, and nothing else but letters may stand in the text. -/
def forgivingDecode (text : Text) : Option Text :=
  let data := dropPadding (text.filter fun c => !isAsciiWhitespace c)
  if data.length % 4 = 1 then none else (data.mapM base64Sextet).map bytesOfSextets

/-! ## The loop -/

theorem groupByte₀_eq {g₀ g₁ : ℕ} (h₁ : g₁ < 64) : groupByte₀ g₀ g₁ = byte (g₀ * 4 + g₁ / 16) := by
  have hlow : g₁ / 2 ^ 4 < 2 ^ 2 := by omega
  rw [groupByte₀, Nat.shiftRight_eq_div_pow, ← Nat.shiftLeft_add_eq_or_of_lt hlow, Nat.shiftLeft_eq]
  rfl

theorem groupByte₁_eq {g₁ g₂ : ℕ} (h₂ : g₂ < 64) : groupByte₁ g₁ g₂ = byte (g₁ % 16 * 16 + g₂ / 4) := by
  have hlow : g₂ / 2 ^ 2 < 2 ^ 4 := by omega
  have hmask : g₁ &&& 0xF = g₁ % 16 := Nat.and_two_pow_sub_one_eq_mod g₁ 4
  rw [groupByte₁, hmask, Nat.shiftRight_eq_div_pow, ← Nat.shiftLeft_add_eq_or_of_lt hlow, Nat.shiftLeft_eq]
  rfl

theorem groupByte₂_eq {g₂ g₃ : ℕ} (h₃ : g₃ < 64) : groupByte₂ g₂ g₃ = byte (g₂ % 4 * 64 + g₃) := by
  have hmask : g₂ &&& 0x3 = g₂ % 4 := Nat.and_two_pow_sub_one_eq_mod g₂ 2
  rw [groupByte₂, hmask, ← Nat.shiftLeft_add_eq_or_of_lt h₃, Nat.shiftLeft_eq]

theorem base64Sextet_lt {c : UInt8} {six : ℕ} (h : base64Sextet c = some six) : six < 64 := by
  have hletters : 'A'.toNat = 65 ∧ 'Z'.toNat = 90 ∧ 'a'.toNat = 97 ∧ 'z'.toNat = 122 ∧ '0'.toNat = 48 ∧
      '9'.toNat = 57 := by decide
  rw [base64Sextet] at h
  split_ifs at h <;> cases h <;> omega

theorem decodeTail_eq {group : List ℕ} (hgroup : ∀ g ∈ group, g < 64) (hlength : group.length ≤ 3) :
    decodeTail group = bytesOfSextets group := by
  rcases group with _ | ⟨g₀, _ | ⟨g₁, _ | ⟨g₂, _ | ⟨g₃, group⟩⟩⟩⟩
  · rfl
  · rfl
  · have h₁ : g₁ < 64 := hgroup _ (by simp)
    rw [decodeTail, bytesOfSextets, groupByte₀_eq h₁]
    congr 2
    omega
  · have h₁ : g₁ < 64 := hgroup _ (by simp)
    have h₂ : g₂ < 64 := hgroup _ (by simp)
    rw [decodeTail, bytesOfSextets, groupByte₀_eq h₁, groupByte₁_eq h₂]
    congr 2
    · omega
    · congr 2
      omega
  · simp only [List.length_cons] at hlength
    omega

theorem bytesOfSextets_group {g₀ g₁ g₂ g₃ : ℕ} (h₁ : g₁ < 64) (h₂ : g₂ < 64) (h₃ : g₃ < 64) (rest : List ℕ) :
    bytesOfSextets (g₀ :: g₁ :: g₂ :: g₃ :: rest) =
      groupByte₀ g₀ g₁ :: groupByte₁ g₁ g₂ :: groupByte₂ g₂ g₃ :: bytesOfSextets rest := by
  have hfirst : (((g₀ * 64 + g₁) * 64 + g₂) * 64 + g₃) / 65536 = g₀ * 4 + g₁ / 16 := by omega
  have hsecond : (((g₀ * 64 + g₁) * 64 + g₂) * 64 + g₃) / 256 % 256 = g₁ % 16 * 16 + g₂ / 4 := by omega
  have hthird : (((g₀ * 64 + g₁) * 64 + g₂) * 64 + g₃) % 256 = g₂ % 4 * 64 + g₃ := by omega
  rw [bytesOfSextets, hfirst, hsecond, hthird, groupByte₀_eq h₁, groupByte₁_eq h₂, groupByte₂_eq h₃]

/-- The loop decodes the letters, whatever stands between them. -/
theorem decodeLoop_eq (text : Text) {group : List ℕ} (hgroup : ∀ g ∈ group, g < 64)
    (hlength : group.length ≤ 3) :
    decodeLoop group text = bytesOfSextets (group ++ text.filterMap base64Sextet) := by
  induction text generalizing group with
  | nil => rw [decodeLoop, List.filterMap_nil, List.append_nil, decodeTail_eq hgroup hlength]
  | cons raw text ih =>
    rw [decodeLoop]
    cases hsix : base64Sextet raw with
    | none => rw [ih hgroup hlength, List.filterMap_cons_none hsix]
    | some six =>
      have hlt := base64Sextet_lt hsix
      have hmore : ∀ {group : List ℕ}, (∀ g ∈ group, g < 64) → ∀ g ∈ group ++ [six], g < 64 := by
        intro group hgroup g hg
        rcases List.mem_append.mp hg with hg | hg
        · exact hgroup g hg
        · rwa [List.mem_singleton.mp hg]
      rw [List.filterMap_cons_some hsix]
      rcases group with _ | ⟨g₀, _ | ⟨g₁, _ | ⟨g₂, _ | ⟨g₃, group⟩⟩⟩⟩
      · exact ih (hmore hgroup) (by simp)
      · exact ih (hmore hgroup) (by simp)
      · exact ih (hmore hgroup) (by simp)
      · have hdone := @ih [] (fun _ h => absurd h List.not_mem_nil) (by simp)
        have h₁ : g₁ < 64 := hgroup _ (by simp)
        have h₂ : g₂ < 64 := hgroup _ (by simp)
        rw [List.nil_append] at hdone
        simp only [List.cons_append, List.nil_append]
        rw [bytesOfSextets_group h₁ h₂ hlt, hdone]
      · simp only [List.length_cons] at hlength
        omega

theorem decodeLoop_nil (text : Text) :
    decodeLoop [] text = bytesOfSextets (text.filterMap base64Sextet) :=
  decodeLoop_eq text (fun _ h => absurd h List.not_mem_nil) (Nat.zero_le _)

/-! ## Round trip -/

theorem base64Sextet_letter (bits : ℕ) : base64Sextet (base64Letter false bits) = some (bits % 64) := by
  have hmask : bits &&& 0x3F = bits % 64 := Nat.and_two_pow_sub_one_eq_mod bits 6
  have hlt : bits % 64 < 64 := Nat.mod_lt _ (by norm_num)
  rw [base64Letter, hmask]
  generalize bits % 64 = six at hlt
  revert hlt
  revert six
  decide +kernel

theorem base64Sextet_pad : base64Sextet (byte '='.toNat) = none := by decide

theorem triple_eq {b₀ b₁ b₂ : ℕ} (h₁ : b₁ < 256) (h₂ : b₂ < 256) :
    b₀ <<< 16 ||| b₁ <<< 8 ||| b₂ = b₀ * 65536 + b₁ * 256 + b₂ := by
  have hlow : b₁ <<< 8 + b₂ = b₁ <<< 8 ||| b₂ := Nat.shiftLeft_add_eq_or_of_lt h₂ b₁
  have hshift : b₁ <<< 8 = b₁ * 256 := Nat.shiftLeft_eq ..
  rw [Nat.or_assoc, ← hlow, ← Nat.shiftLeft_add_eq_or_of_lt (by omega), hshift, Nat.shiftLeft_eq]
  omega

theorem sextets_encodeTriple (omitPadding : Bool) (b₀ : UInt8) (b₁ b₂ : Option UInt8) {triple : ℕ}
    (htriple : triple = b₀.toNat * 65536 + (b₁.getD 0).toNat * 256 + (b₂.getD 0).toNat) :
    (encodeTriple false omitPadding b₀ b₁ b₂).filterMap base64Sextet =
      [triple / 262144 % 64, triple / 4096 % 64] ++ (if b₁.isSome then [triple / 64 % 64] else []) ++
        (if b₂.isSome then [triple % 64] else []) := by
  have hbits := @triple_eq b₀.toNat _ _ (b₁.getD 0).toNat_lt (b₂.getD 0).toNat_lt
  have hpad : (if omitPadding then [] else [byte '='.toNat]).filterMap base64Sextet = [] := by
    cases omitPadding with
    | true => rfl
    | false => exact List.filterMap_cons_none base64Sextet_pad
  have hshift : ∀ k, triple >>> k = triple / 2 ^ k := fun k => Nat.shiftRight_eq_div_pow ..
  rw [encodeTriple, hbits, ← htriple]
  rw [List.filterMap_append, List.filterMap_append, List.filterMap_cons_some (base64Sextet_letter _),
    List.filterMap_cons_some (base64Sextet_letter _), List.filterMap_nil, hshift, hshift, hshift]
  congr 1
  · congr 1
    by_cases h₁ : b₁.isSome
    · rw [if_pos h₁, if_pos h₁]
      exact List.filterMap_cons_some (base64Sextet_letter _)
    · rw [if_neg h₁, if_neg h₁]
      exact hpad
  · by_cases h₂ : b₂.isSome
    · rw [if_pos h₂, if_pos h₂]
      exact List.filterMap_cons_some (base64Sextet_letter _)
    · rw [if_neg h₂, if_neg h₂]
      exact hpad

theorem byte_of_eq {n : ℕ} {b : UInt8} (h : n = b.toNat) : byte n = b := by
  rw [h]
  exact UInt8.ofNat_toNat

theorem bytesOfSextets_encode (omitPadding : Bool) (bytes : Text) :
    bytesOfSextets ((base64Encode false omitPadding bytes).filterMap base64Sextet) = bytes := by
  induction bytes using base64Encode.induct with
  | case1 => rfl
  | case2 b₀ =>
    have hlt := b₀.toNat_lt
    rw [base64Encode, sextets_encodeTriple omitPadding b₀ none none rfl]
    simp only [Option.getD_none, Option.isSome_none, List.append_nil, Bool.false_eq_true, if_false,
      UInt8.toNat_zero]
    rw [bytesOfSextets]
    exact congrArg (fun b => [b]) (byte_of_eq (by omega))
  | case3 b₀ b₁ =>
    have hlt := b₀.toNat_lt
    have hlt₁ := b₁.toNat_lt
    rw [base64Encode, sextets_encodeTriple omitPadding b₀ (some b₁) none rfl]
    simp only [Option.getD_none, Option.getD_some, Option.isSome_none, Option.isSome_some, List.cons_append,
      List.nil_append, List.append_nil, Bool.false_eq_true, if_false, if_true, UInt8.toNat_zero]
    rw [bytesOfSextets, byte_of_eq (b := b₀) (by omega), byte_of_eq (b := b₁) (by omega)]
  | case4 b₀ b₁ b₂ rest ih =>
    have hlt := b₀.toNat_lt
    have hlt₁ := b₁.toNat_lt
    have hlt₂ := b₂.toNat_lt
    rw [base64Encode, List.filterMap_append, sextets_encodeTriple omitPadding b₀ (some b₁) (some b₂) rfl]
    simp only [Option.getD_some, Option.isSome_some, List.cons_append, List.nil_append, if_true]
    rw [bytesOfSextets, ih, byte_of_eq (b := b₀) (by omega), byte_of_eq (b := b₁) (by omega),
      byte_of_eq (b := b₂) (by omega)]

/-! ## The strict decoder -/

theorem base64Sextet_whitespace {c : UInt8} (h : isAsciiWhitespace c = true) : base64Sextet c = none := by
  rw [isAsciiWhitespace, decide_eq_true_eq] at h
  simp only [List.mem_cons, List.not_mem_nil, or_false] at h
  rcases h with rfl | rfl | rfl | rfl | rfl <;> decide

theorem sextets_dropPadding (data : Text) :
    (dropPadding data).filterMap base64Sextet = data.filterMap base64Sextet := by
  have htake : ∀ k, (data.drop k).filterMap base64Sextet = [] →
      (data.take k).filterMap base64Sextet = data.filterMap base64Sextet := by
    intro k h
    conv_rhs => rw [← List.take_append_drop k data, List.filterMap_append, h, List.append_nil]
  rw [dropPadding]
  split_ifs with h₁ h₂ h₃
  · rfl
  · exact htake _ (by rw [h₂]; decide)
  · exact htake _ (by rw [h₃]; decide)
  · rfl

theorem mapM_sextet {data : Text} {values : List ℕ} (h : data.mapM base64Sextet = some values) :
    data.filterMap base64Sextet = values := by
  induction data generalizing values with
  | nil =>
    cases h
    rfl
  | cons c data ih =>
    rw [List.mapM_cons] at h
    cases hsix : base64Sextet c with
    | none =>
      rw [hsix] at h
      cases h
    | some six =>
      cases hrest : data.mapM base64Sextet with
      | none =>
        rw [hsix, hrest] at h
        cases h
      | some rest =>
        rw [hsix, hrest] at h
        cases h
        rw [List.filterMap_cons_some hsix, ih hrest]

theorem decodeLoop_forgiving {text out : Text} (h : forgivingDecode text = some out) :
    decodeLoop [] text = out := by
  rw [forgivingDecode] at h
  split_ifs at h with hone
  obtain ⟨values, hvalues, rfl⟩ := Option.map_eq_some_iff.mp h
  have hfilter : (text.filter fun c => !isAsciiWhitespace c).filterMap base64Sextet =
      text.filterMap base64Sextet := by
    rw [List.filterMap_filter]
    refine List.filterMap_congr fun c _ => ?_
    split_ifs with hspace
    · rfl
    · rw [Bool.not_eq_true, Bool.not_eq_false'] at hspace
      exact (base64Sextet_whitespace hspace).symm
  rw [decodeLoop_nil, ← hfilter, ← sextets_dropPadding, mapM_sextet hvalues]

/-- What is encoded, padded or not, decodes to the bytes it was made of. The loop gives what the strict
decoder gives where that accepts, so trying it first changes no result. -/
theorem base64_round_trip (omitPadding : Bool) (bytes : Text) {text out : Text}
    (h : forgivingDecode text = some out) :
    decodeLoop [] (base64Encode false omitPadding bytes) = bytes ∧ decodeLoop [] text = out ∧
      ∀ any, base64Decode forgivingDecode any = decodeLoop [] any := by
  refine ⟨?_, decodeLoop_forgiving h, fun any => ?_⟩
  · rw [decodeLoop_nil, bytesOfSextets_encode]
  · rw [base64Decode, ite_eq_right_iff]
    intro _
    cases hstrict : forgivingDecode any with
    | none => rfl
    | some out => exact (decodeLoop_forgiving hstrict).symm

/-- A text broken over two lines. -/
theorem base64_round_trip_wrapped :
    decodeLoop [] (base64Encode false true (ascii "hello")) = ascii "hello" ∧
      decodeLoop [] (ascii "aGVs\nbG8=") = ascii "hello" ∧
      ∀ any, base64Decode forgivingDecode any = decodeLoop [] any :=
  base64_round_trip true (ascii "hello") (by decide)

end CtBrowser
