import CtBrowser.Shell.Net.Url.Form

/-!
# Replacement Characters

`decodeReplacing` beside the Encoding Standard's UTF-8 decoder, on any bytes at all. Both read a
text piece by piece: a scalar value in its shortest form, a sequence that has all its bytes and is
no such form, and a start of a sequence that breaks off. They write a different number of U+FFFD
for the last two kinds, so the texts they agree on are those in which the differences cancel.

## Main definitions

- `Utf8Decoder`, `utf8Decode` — the standard's decoder, byte by byte.
- `Piece`, `pieces` — how bytes fall into sequences.
- `Balanced` — the differences cancel between any two code points other than U+FFFD.

## Main results

- `decodeReplacing_pieces`, `utf8Decode_pieces` — what both write, piece by piece.
- `decodeReplacing_eq_utf8Decode_iff` — exactly where they agree.
-/

namespace CtBrowser.Shell.Url

open Form (scalar scalar_spec)

/-! ## The standard's decoder -/

/-- The state of the standard's UTF-8 decoder. -/
structure Utf8Decoder where
  /-- The bits read so far. -/
  codePoint : ℕ := 0
  /-- The continuation bytes read of the sequence. -/
  bytesSeen : ℕ := 0
  /-- The continuation bytes the sequence has; none between two sequences. -/
  bytesNeeded : ℕ := 0
  /-- The least byte that may come next. -/
  lowerBoundary : ℕ := 0x80
  /-- The greatest byte that may come next. -/
  upperBoundary : ℕ := 0xBF
deriving DecidableEq

/-- The least byte after a lead byte. -/
def secondLow (lead : ℕ) : ℕ := if lead = 0xE0 then 0xA0 else if lead = 0xF0 then 0x90 else 0x80

/-- The greatest byte after a lead byte. -/
def secondHigh (lead : ℕ) : ℕ := if lead = 0xED then 0x9F else if lead = 0xF4 then 0x8F else 0xBF

/-- A byte between two sequences: what it emits, and the state after it. An error is U+FFFD. -/
def Utf8Decoder.first (c : ℕ) : List ℕ × Utf8Decoder :=
  let awaiting (bits needed : ℕ) : Utf8Decoder :=
    { codePoint := bits, bytesNeeded := needed
      lowerBoundary := secondLow c, upperBoundary := secondHigh c }
  if c ≤ 0x7F then ([c], {})
  else if 0xC2 ≤ c ∧ c ≤ 0xDF then ([], awaiting (c &&& 0x1F) 1)
  else if 0xE0 ≤ c ∧ c ≤ 0xEF then ([], awaiting (c &&& 0xF) 2)
  else if 0xF0 ≤ c ∧ c ≤ 0xF4 then ([], awaiting (c &&& 0x7) 3)
  else ([0xFFFD], {})

/-- One byte. One that may not come next is an error, and is read again as the first byte of a
sequence. -/
def Utf8Decoder.step (d : Utf8Decoder) (c : ℕ) : List ℕ × Utf8Decoder :=
  if d.bytesNeeded = 0 then first c
  else if c < d.lowerBoundary ∨ d.upperBoundary < c then (0xFFFD :: (first c).1, (first c).2)
  else
    let codePoint := d.codePoint <<< 6 ||| c &&& 0x3F
    if d.bytesSeen + 1 = d.bytesNeeded then ([codePoint], {})
    else
      ([], { codePoint, bytesSeen := d.bytesSeen + 1, bytesNeeded := d.bytesNeeded })

/-- The code points the decoder emits from a state. -/
def Utf8Decoder.run (d : Utf8Decoder) : Text → List ℕ
  | [] => if d.bytesNeeded = 0 then [] else [0xFFFD]
  | b :: rest => (d.step b.toNat).1 ++ run (d.step b.toNat).2 rest

/-- UTF-8 decode without BOM, with replacement. -/
def utf8Decode (bytes : Text) : List ℕ := Utf8Decoder.run {} bytes

/-! ## Pieces -/

/-- How some bytes of a text hang together. -/
inductive Piece
  /-- A scalar value in its shortest form. -/
  | wellFormed (v : ℕ)
  /-- A sequence of `n` bytes that says `v` and is overlong, a surrogate or out of range. -/
  | illFormed (v n : ℕ)
  /-- The first `k` bytes of a sequence that breaks off, or one byte that starts none. -/
  | cut (k : ℕ)
deriving DecidableEq

/-- A continuation byte. -/
def isContinuation (b : UInt8) : Prop := 0x80 ≤ b.toNat ∧ b.toNat ≤ 0xBF

instance (b : UInt8) : Decidable (isContinuation b) := inferInstanceAs (Decidable (_ ∧ _))

/-- A byte that may stand second after the lead byte of three bytes or four. -/
def maySecond (lead : ℕ) (b : UInt8) : Prop :=
  0xE0 ≤ lead ∧ lead ≤ 0xF4 ∧ secondLow lead ≤ b.toNat ∧ b.toNat ≤ secondHigh lead

instance (lead : ℕ) (b : UInt8) : Decidable (maySecond lead b) :=
  inferInstanceAs (Decidable (_ ∧ _))

/-- The number of bytes that could start a well-formed sequence. -/
def cutLength (lead : ℕ) : Text → ℕ
  | [] => 1
  | [b] => if maySecond lead b then 2 else 1
  | b :: c :: _ => if maySecond lead b then if 0xF0 ≤ lead ∧ isContinuation c then 3 else 2 else 1

/-- The piece at the start of a text. -/
def piece (lead : UInt8) (rest : Text) : Piece :=
  let one := decodeUtf8 lead rest
  if 0x80 ≤ lead.toNat ∧ one.2 = 1 then .cut (cutLength lead.toNat rest)
  else if (appendUtf8 one.1).length = one.2 ∧ scalar one.1 = one.1 then .wellFormed one.1
  else .illFormed one.1 one.2

namespace Piece

/-- The bytes of a piece. -/
def size : Piece → ℕ
  | wellFormed v => (appendUtf8 v).length
  | illFormed _ n => n
  | cut k => k

/-- What the engine makes of a piece. -/
def replaced : Piece → List ℕ
  | wellFormed v => [v]
  | illFormed v _ => [scalar v]
  | cut k => List.replicate k 0xFFFD

/-- What the standard makes of a piece. -/
def standard : Piece → List ℕ
  | wellFormed v => [v]
  | illFormed _ n => List.replicate n 0xFFFD
  | cut _ => [0xFFFD]

end Piece

/-- The first `limit` pieces of a text. -/
def piecesUpTo : ℕ → Text → List Piece
  | 0, _ | _, [] => []
  | limit + 1, lead :: rest =>
    piece lead rest :: piecesUpTo limit ((lead :: rest).drop (piece lead rest).size)

/-- The pieces of a text. -/
def pieces (text : Text) : List Piece := piecesUpTo text.length text

/-- The two outputs keep step: `ahead` is how many more U+FFFD the engine has written than the
standard since both wrote another code point. -/
def Balanced : ℤ → List Piece → Prop
  | ahead, [] => ahead = 0
  | ahead, .wellFormed v :: rest =>
    if v = 0xFFFD then Balanced ahead rest else ahead = 0 ∧ Balanced 0 rest
  | ahead, .illFormed v n :: rest => scalar v = 0xFFFD ∧ Balanced (ahead + 1 - n) rest
  | ahead, .cut k :: rest => Balanced (ahead + k - 1) rest

instance : ∀ (ahead : ℤ) (ps : List Piece), Decidable (Balanced ahead ps)
  | ahead, [] => inferInstanceAs (Decidable (ahead = 0))
  | ahead, .wellFormed v :: rest =>
    have := instDecidableBalanced ahead rest
    have := instDecidableBalanced 0 rest
    inferInstanceAs (Decidable (if v = 0xFFFD then Balanced ahead rest else ahead = 0 ∧ Balanced 0 rest))
  | ahead, .illFormed v n :: rest =>
    have := instDecidableBalanced (ahead + 1 - n) rest
    inferInstanceAs (Decidable (scalar v = 0xFFFD ∧ Balanced (ahead + 1 - n) rest))
  | ahead, .cut k :: rest => instDecidableBalanced (ahead + k - 1) rest

/-! ## One byte more -/

theorem shiftLeft_or_and (bits c : ℕ) : bits <<< 6 ||| c &&& 0x3F = bits * 64 + c % 64 := by
  have hlow : c &&& 0x3F = c % 2 ^ 6 := Nat.and_two_pow_sub_one_eq_mod c 6
  rw [hlow, ← Nat.shiftLeft_add_eq_or_of_lt (Nat.mod_lt c (by norm_num)), Nat.shiftLeft_eq]

theorem and_mask {c : ℕ} (hc : c < 256) :
    (c &&& 0xC0 = 0x80 ↔ 0x80 ≤ c ∧ c ≤ 0xBF) ∧ (c &&& 0xE0 = 0xC0 ↔ 0xC0 ≤ c ∧ c ≤ 0xDF) ∧
      (c &&& 0xF0 = 0xE0 ↔ 0xE0 ≤ c ∧ c ≤ 0xEF) ∧ (c &&& 0xF8 = 0xF0 ↔ 0xF0 ≤ c ∧ c ≤ 0xF7) := by
  revert c
  decide +kernel

theorem continued_cons (built count : ℕ) (b : UInt8) (rest : Text) :
    continued built (count + 1) (b :: rest) =
      if isContinuation b then continued (built * 64 + b.toNat % 64) count rest else none := by
  rw [continued, shiftLeft_or_and]
  exact if_congr (and_mask b.toNat_lt).1 rfl rfl

/-- The continuation bytes a lead byte asks for. -/
def extraOf (lead : ℕ) : ℕ :=
  if lead < 0xC0 ∨ 0xF8 ≤ lead then 0 else if lead < 0xE0 then 1 else if lead < 0xF0 then 2 else 3

/-- The bits in a lead byte. -/
def bitsOf (lead : ℕ) : ℕ :=
  if lead < 0xE0 then lead - 0xC0 else if lead < 0xF0 then lead - 0xE0 else lead - 0xF0

theorem and_bits {c : ℕ} (hc : c < 256) :
    (0xC0 ≤ c → c < 0xE0 → c &&& 0x1F = c - 0xC0) ∧ (0xE0 ≤ c → c < 0xF0 → c &&& 0x0F = c - 0xE0) ∧
      (0xF0 ≤ c → c < 0xF8 → c &&& 0x07 = c - 0xF0) := by
  revert c
  decide +kernel

theorem decodeUtf8_eq (lead : UInt8) (rest : Text) : decodeUtf8 lead rest =
    if extraOf lead.toNat = 0 then (lead.toNat, 1)
    else (continued (bitsOf lead.toNat) (extraOf lead.toNat) rest).elim (lead.toNat, 1)
      fun c => (c, extraOf lead.toNat + 1) := by
  have hlead : lead.toNat < 256 := lead.toNat_lt
  obtain ⟨-, htwo, hthree, hfour⟩ := and_mask hlead
  obtain ⟨hfive, hfourBits, hthreeBits⟩ := and_bits hlead
  rw [decodeUtf8, extraOf, bitsOf]
  simp only [htwo, hthree, hfour]
  by_cases h₁ : lead.toNat < 0xC0 ∨ 0xF8 ≤ lead.toNat
  · rw [if_pos h₁, if_pos rfl, if_neg (by omega : ¬ (0xC0 ≤ lead.toNat ∧ lead.toNat ≤ 0xDF)),
      if_neg (by omega : ¬ (0xE0 ≤ lead.toNat ∧ lead.toNat ≤ 0xEF)),
      if_neg (by omega : ¬ (0xF0 ≤ lead.toNat ∧ lead.toNat ≤ 0xF7)), ite_self]
  rw [if_neg h₁, if_neg (by omega : ¬ lead.toNat < 0x80)]
  by_cases h₂ : lead.toNat < 0xE0
  · rw [if_pos h₂, if_pos h₂, if_pos (by omega), hfive (by omega) h₂]
    cases continued (lead.toNat - 0xC0) 1 rest <;> rfl
  rw [if_neg h₂, if_neg h₂, if_neg (by omega)]
  by_cases h₃ : lead.toNat < 0xF0
  · rw [if_pos h₃, if_pos h₃, if_pos (by omega), hfourBits (by omega) h₃]
    cases continued (lead.toNat - 0xE0) 2 rest <;> rfl
  · rw [if_neg h₃, if_neg h₃, if_neg (by omega), if_pos (by omega), hthreeBits (by omega) (by omega)]
    cases continued (lead.toNat - 0xF0) 3 rest <;> rfl

/-! ## What the engine writes -/

theorem decodeReplacing_cons (lead : UInt8) (rest : Text) : decodeReplacing (lead :: rest) =
    (if 0x80 ≤ lead.toNat ∧ (decodeUtf8 lead rest).2 = 1 then 0xFFFD
      else scalar (decodeUtf8 lead rest).1) ::
      decodeReplacing ((lead :: rest).drop (decodeUtf8 lead rest).2) := by
  have hsequences : ∀ text : Text, decodeAll text.length text = sequences text := fun _ => rfl
  rw [decodeReplacing, decodeReplacing, hsequences, hsequences, sequences_cons, List.map_cons]
  congr 1
  dsimp only
  by_cases hone : (decodeUtf8 lead rest).2 = 1
  · have hlead : (decodeUtf8 lead rest).1 = lead.toNat := by
      rw [decodeUtf8_eq] at hone ⊢
      split_ifs at hone ⊢ with hextra
      · rfl
      cases h : continued (bitsOf lead.toNat) (extraOf lead.toNat) rest with
      | none => rfl
      | some c =>
        rw [h] at hone
        exact absurd (Nat.succ.inj hone) hextra
    rw [hlead, hone]
    by_cases hhigh : 0x80 ≤ lead.toNat
    · rw [if_pos (Or.inl ⟨hhigh, rfl⟩), if_pos ⟨hhigh, rfl⟩]
    · have hlow : ¬ (0x80 ≤ lead.toNat ∧ 1 = 1) := fun h => hhigh h.1
      rw [if_neg hlow, scalar]
      exact if_congr ⟨fun h => h.resolve_left hlow, Or.inr⟩ rfl rfl
  · have hlong : ¬ (0x80 ≤ lead.toNat ∧ (decodeUtf8 lead rest).2 = 1) := fun h => hone h.2
    rw [if_neg hlong, scalar]
    exact if_congr ⟨fun h => h.resolve_left fun h => hone h.2, Or.inr⟩ rfl rfl

theorem decodeReplacing_broken {lead : UInt8} {rest : Text} (hlead : 0x80 ≤ lead.toNat)
    (hone : (decodeUtf8 lead rest).2 = 1) :
    decodeReplacing (lead :: rest) = 0xFFFD :: decodeReplacing rest := by
  rw [decodeReplacing_cons, if_pos ⟨hlead, hone⟩, hone]
  rfl

theorem decodeReplacing_continuations {tail : Text} (htail : ∀ b ∈ tail, isContinuation b)
    (rest : Text) : decodeReplacing (tail ++ rest) =
      List.replicate tail.length 0xFFFD ++ decodeReplacing rest := by
  induction tail with
  | nil => rfl
  | cons b tail ih =>
    have hb : isContinuation b := htail b List.mem_cons_self
    have hone : (decodeUtf8 b (tail ++ rest)).2 = 1 := by
      have hextra : extraOf b.toNat = 0 := if_pos (Or.inl (hb.2.trans_lt (by norm_num)))
      rw [decodeUtf8_eq, if_pos hextra]
    rw [List.cons_append, decodeReplacing_broken hb.1 hone,
      ih fun c hc => htail c (List.mem_cons_of_mem b hc)]
    rfl

theorem isContinuation_of_maySecond {lead : ℕ} {b : UInt8} (h : maySecond lead b) :
    isContinuation b := by
  obtain ⟨-, -, hlow, hhigh⟩ := h
  rw [secondLow] at hlow
  rw [secondHigh] at hhigh
  constructor
  · split_ifs at hlow <;> omega
  · split_ifs at hhigh <;> omega

theorem cutLength_spec (lead : ℕ) (rest : Text) : ∃ tail after, rest = tail ++ after ∧
    (∀ b ∈ tail, isContinuation b) ∧ cutLength lead rest = tail.length + 1 := by
  match rest with
  | [] => exact ⟨[], [], rfl, List.forall_mem_nil _, rfl⟩
  | [b] =>
    by_cases hb : maySecond lead b
    · refine ⟨[b], [], rfl, ?_, if_pos hb⟩
      simpa using isContinuation_of_maySecond hb
    · exact ⟨[], [b], rfl, List.forall_mem_nil _, if_neg hb⟩
  | b :: c :: after =>
    rw [cutLength]
    split_ifs with hb hc
    · refine ⟨[b, c], after, rfl, ?_, rfl⟩
      simpa using ⟨isContinuation_of_maySecond hb, hc.2⟩
    · refine ⟨[b], c :: after, rfl, ?_, rfl⟩
      simpa using isContinuation_of_maySecond hb
    · exact ⟨[], b :: c :: after, rfl, List.forall_mem_nil _, rfl⟩

theorem decodeReplacing_piece (lead : UInt8) (rest : Text) : decodeReplacing (lead :: rest) =
    (piece lead rest).replaced ++
      decodeReplacing ((lead :: rest).drop (piece lead rest).size) := by
  rw [piece]
  by_cases hcut : 0x80 ≤ lead.toNat ∧ (decodeUtf8 lead rest).2 = 1
  · obtain ⟨tail, after, hrest, htail, hlength⟩ := cutLength_spec lead.toNat rest
    rw [if_pos hcut, decodeReplacing_broken hcut.1 hcut.2, Piece.replaced, Piece.size, hlength,
      List.drop_succ_cons, hrest, decodeReplacing_continuations htail, List.drop_left]
    rfl
  rw [if_neg hcut, decodeReplacing_cons, if_neg hcut]
  by_cases hshort : (appendUtf8 (decodeUtf8 lead rest).1).length = (decodeUtf8 lead rest).2 ∧
      scalar (decodeUtf8 lead rest).1 = (decodeUtf8 lead rest).1
  · rw [if_pos hshort, Piece.replaced, Piece.size, hshort.1, hshort.2]
    rfl
  · rw [if_neg hshort]
    rfl

/-! ## What the standard writes -/

namespace Utf8Decoder

theorem run_cons (d : Utf8Decoder) (b : UInt8) (rest : Text) :
    d.run (b :: rest) = (d.step b.toNat).1 ++ (d.step b.toNat).2.run rest := rfl

theorem run_first (b : UInt8) (rest : Text) :
    run {} (b :: rest) = (first b.toNat).1 ++ (first b.toNat).2.run rest := rfl

theorem run_reject {d : Utf8Decoder} {rest : Text} (hneeded : d.bytesNeeded ≠ 0)
    (h : ∀ b ∈ rest.head?, ¬ (d.lowerBoundary ≤ b.toNat ∧ b.toNat ≤ d.upperBoundary)) :
    d.run rest = 0xFFFD :: run {} rest := by
  cases rest with
  | nil => rw [run, if_neg hneeded, run, if_pos rfl]
  | cons b rest =>
    have hb := h b rfl
    rw [run_cons, step, if_neg hneeded, if_pos (by omega), run_first]
    rfl

theorem run_accept {d : Utf8Decoder} {b : UInt8} (hneeded : d.bytesNeeded ≠ 0)
    (hlow : d.lowerBoundary ≤ b.toNat) (hhigh : b.toNat ≤ d.upperBoundary) (rest : Text) :
    d.run (b :: rest) =
      if d.bytesSeen + 1 = d.bytesNeeded then (d.codePoint * 64 + b.toNat % 64) :: run {} rest
      else run { codePoint := d.codePoint * 64 + b.toNat % 64,
                 bytesSeen := d.bytesSeen + 1,
                 bytesNeeded := d.bytesNeeded } rest := by
  rw [run_cons, step, if_neg hneeded, if_neg (by omega), shiftLeft_or_and]
  by_cases hlast : d.bytesSeen + 1 = d.bytesNeeded
  · rw [if_pos hlast, if_pos hlast]
    rfl
  · rw [if_neg hlast, if_neg hlast]
    rfl

theorem run_invalid {b : UInt8} (h : 0x80 ≤ b.toNat ∧ b.toNat < 0xC2 ∨ 0xF4 < b.toNat)
    (rest : Text) : run {} (b :: rest) = 0xFFFD :: run {} rest := by
  rw [run_first, first]
  dsimp only
  rw [if_neg (by omega), if_neg (by omega), if_neg (by omega), if_neg (by omega)]
  rfl

theorem run_continuations {tail : Text} (htail : ∀ b ∈ tail, isContinuation b) (rest : Text) :
    run {} (tail ++ rest) = List.replicate tail.length 0xFFFD ++ run {} rest := by
  induction tail with
  | nil => rfl
  | cons b tail ih =>
    have hb : isContinuation b := htail b List.mem_cons_self
    rw [List.cons_append, run_invalid (Or.inl ⟨hb.1, hb.2.trans_lt (by norm_num)⟩),
      ih fun c hc => htail c (List.mem_cons_of_mem b hc)]
    rfl

theorem run_lead {b : UInt8} (hlow : 0xC2 ≤ b.toNat) (hhigh : b.toNat ≤ 0xF4) (rest : Text) :
    run {} (b :: rest) =
      run { codePoint := bitsOf b.toNat,
            bytesNeeded := extraOf b.toNat,
            lowerBoundary := secondLow b.toNat,
            upperBoundary := secondHigh b.toNat } rest := by
  obtain ⟨htwo, hthree, hfour⟩ := and_bits b.toNat_lt
  rw [run_first, first, extraOf, bitsOf]
  dsimp only
  rw [if_neg (by omega : ¬ b.toNat ≤ 0x7F), if_neg (by omega : ¬ (b.toNat < 0xC0 ∨ 0xF8 ≤ b.toNat))]
  by_cases h₂ : b.toNat < 0xE0
  · rw [if_pos (by omega), if_pos h₂, if_pos h₂, htwo (by omega) h₂]
    rfl
  rw [if_neg (by omega), if_neg h₂, if_neg h₂]
  by_cases h₃ : b.toNat < 0xF0
  · rw [if_pos (by omega), if_pos h₃, if_pos h₃, hthree (by omega) h₃]
    rfl
  · rw [if_neg (by omega), if_pos (by omega), if_neg h₃, if_neg h₃, hfour (by omega) (by omega)]
    rfl

end Utf8Decoder

open Utf8Decoder

theorem scalar_eq_self_iff (v : ℕ) : scalar v = v ↔ ¬ isSurrogate v ∧ v ≤ 0x10FFFF := by
  rw [scalar]
  split_ifs with h
  · constructor
    · rintro rfl
      decide
    · rintro ⟨hsurrogate, hle⟩
      exact absurd h (not_or.mpr ⟨hsurrogate, not_lt.mpr hle⟩)
  · rw [not_or, not_lt] at h
    exact ⟨fun _ => h, fun _ => rfl⟩

theorem shortest_iff (v n : ℕ) : (appendUtf8 v).length = n ∧ scalar v = v ↔
    (v < 0x80 ∧ n = 1 ∨ 0x80 ≤ v ∧ v < 0x800 ∧ n = 2 ∨
      0x800 ≤ v ∧ v < 0x10000 ∧ ¬ (0xD800 ≤ v ∧ v ≤ 0xDFFF) ∧ n = 3 ∨
      0x10000 ≤ v ∧ v ≤ 0x10FFFF ∧ n = 4) := by
  rw [scalar_eq_self_iff, appendUtf8_length, isSurrogate]
  split_ifs <;> omega

section Piece

variable {lead : UInt8} {rest : Text}

/-- The standard reads a piece as `Piece.standard` says. -/
def StandardPiece (lead : UInt8) (rest : Text) : Prop :=
  run {} (lead :: rest) =
    (piece lead rest).standard ++ run {} ((lead :: rest).drop (piece lead rest).size)

theorem standardPiece_of_cut (hlead : 0x80 ≤ lead.toNat) (hone : (decodeUtf8 lead rest).2 = 1)
    (hrun : run {} (lead :: rest) =
      0xFFFD :: run {} ((lead :: rest).drop (cutLength lead.toNat rest))) :
    StandardPiece lead rest := by
  rw [StandardPiece, piece, if_pos ⟨hlead, hone⟩, hrun]
  rfl

theorem standardPiece_of_shortest {v n : ℕ} (hread : decodeUtf8 lead rest = (v, n))
    (hlong : ¬ (0x80 ≤ lead.toNat ∧ n = 1))
    (hshortest : (appendUtf8 v).length = n ∧ scalar v = v)
    (hrun : run {} (lead :: rest) = v :: run {} ((lead :: rest).drop n)) :
    StandardPiece lead rest := by
  rw [StandardPiece, piece, hread]
  dsimp only
  rw [if_neg hlong, if_pos hshortest, hrun, Piece.standard, Piece.size, hshortest.1]
  rfl

theorem standardPiece_of_illFormed {v n : ℕ} (hread : decodeUtf8 lead rest = (v, n))
    (hlong : ¬ (0x80 ≤ lead.toNat ∧ n = 1))
    (hill : ¬ ((appendUtf8 v).length = n ∧ scalar v = v))
    (hrun : run {} (lead :: rest) = List.replicate n 0xFFFD ++ run {} ((lead :: rest).drop n)) :
    StandardPiece lead rest := by
  rw [StandardPiece, piece, hread]
  dsimp only
  rw [if_neg hlong, if_neg hill, hrun]
  rfl

theorem run_refused {tail after : Text} (htail : ∀ b ∈ tail, isContinuation b)
    (hrun : run {} (lead :: (tail ++ after)) = 0xFFFD :: run {} (tail ++ after)) {n : ℕ}
    (hn : n = tail.length + 1) :
    run {} (lead :: (tail ++ after)) =
      List.replicate n 0xFFFD ++ run {} ((lead :: (tail ++ after)).drop n) := by
  rw [hrun, hn, List.drop_succ_cons, List.drop_left, run_continuations htail]
  rfl

theorem standardPiece_zero (hextra : extraOf lead.toNat = 0) : StandardPiece lead rest := by
  have hread : decodeUtf8 lead rest = (lead.toNat, 1) := by rw [decodeUtf8_eq, if_pos hextra]
  have hclass : lead.toNat < 0xC0 ∨ 0xF8 ≤ lead.toNat := by
    rw [extraOf] at hextra
    split_ifs at hextra with h
    exact h
  by_cases hascii : lead.toNat < 0x80
  · refine standardPiece_of_shortest hread (by omega) ((shortest_iff _ _).mpr (by omega)) ?_
    rw [run_first, first]
    dsimp only
    rw [if_pos (by omega)]
    rfl
  · refine standardPiece_of_cut (by omega) (by rw [hread]) ?_
    have hcut : cutLength lead.toNat rest = 1 := by
      have hsecond : ∀ b, ¬ maySecond lead.toNat b := fun b h => by
        obtain ⟨hlow, hhigh, -⟩ := h
        omega
      match rest with
      | [] => rfl
      | [b] => exact if_neg (hsecond b)
      | b :: c :: _ => exact if_neg (hsecond b)
    rw [run_invalid (by omega), hcut]
    rfl

theorem continued_spec {built count v : ℕ} {rest : Text} (h : continued built count rest = some v) :
    (∃ tail after, rest = tail ++ after ∧ (∀ b ∈ tail, isContinuation b) ∧ tail.length = count) ∧
      built * 64 ^ count ≤ v ∧ v < (built + 1) * 64 ^ count := by
  induction count generalizing built rest with
  | zero =>
    cases h
    exact ⟨⟨[], rest, rfl, List.forall_mem_nil _, rfl⟩, by simp⟩
  | succ count ih =>
    cases rest with
    | nil => cases h
    | cons b rest =>
      rw [continued_cons] at h
      split_ifs at h with hb
      obtain ⟨⟨tail, after, rfl, htail, hlength⟩, hlow, hhigh⟩ := ih h
      refine ⟨⟨b :: tail, after, rfl, List.forall_mem_cons.mpr ⟨hb, htail⟩, by simp [hlength]⟩, ?_, ?_⟩
      · calc built * 64 ^ (count + 1) = built * 64 * 64 ^ count := by ring
          _ ≤ (built * 64 + b.toNat % 64) * 64 ^ count := Nat.mul_le_mul_right _ (Nat.le_add_right ..)
          _ ≤ v := hlow
      · have hbits : b.toNat % 64 < 64 := Nat.mod_lt _ (by norm_num)
        calc v < (built * 64 + b.toNat % 64 + 1) * 64 ^ count := hhigh
          _ ≤ (built + 1) * 64 * 64 ^ count := Nat.mul_le_mul_right _ (by omega)
          _ = (built + 1) * 64 ^ (count + 1) := by ring

theorem run_broken (hlead : 0x80 ≤ lead.toNat)
    (h : 0xC2 ≤ lead.toNat → lead.toNat ≤ 0xF4 →
      ∀ b ∈ rest.head?, ¬ (secondLow lead.toNat ≤ b.toNat ∧ b.toNat ≤ secondHigh lead.toNat)) :
    run {} (lead :: rest) = 0xFFFD :: run {} rest := by
  by_cases hvalid : 0xC2 ≤ lead.toNat ∧ lead.toNat ≤ 0xF4
  · have hneeded : extraOf lead.toNat ≠ 0 := by
      rw [extraOf]
      split_ifs <;> omega
    rw [run_lead hvalid.1 hvalid.2]
    exact run_reject hneeded (h hvalid.1 hvalid.2)
  · exact run_invalid (by omega) rest

theorem cutLength_one {c : ℕ} (h : ∀ b ∈ rest.head?, ¬ maySecond c b) : cutLength c rest = 1 := by
  match rest with
  | [] => rfl
  | [b] => exact if_neg (h b rfl)
  | b :: c :: _ => exact if_neg (h b rfl)

/-- The sequences of two bytes. -/
theorem standardPiece_two (hlow : 0xC0 ≤ lead.toNat) (hhigh : lead.toNat < 0xE0) :
    StandardPiece lead rest := by
  have hextra : extraOf lead.toNat = 1 := by
    rw [extraOf, if_neg (by omega), if_pos hhigh]
  have hbits : bitsOf lead.toNat = lead.toNat - 0xC0 := if_pos hhigh
  have hsecond : secondLow lead.toNat = 0x80 ∧ secondHigh lead.toNat = 0xBF := by
    constructor
    · rw [secondLow, if_neg (by omega), if_neg (by omega)]
    · rw [secondHigh, if_neg (by omega), if_neg (by omega)]
  have hread := decodeUtf8_eq lead rest
  rw [hextra, if_neg one_ne_zero, hbits] at hread
  cases h : continued (lead.toNat - 0xC0) 1 rest with
  | none =>
    rw [h] at hread
    have hbroken : ∀ b ∈ rest.head?, ¬ isContinuation b := by
      rintro b hb hcontinuation
      obtain ⟨after, rfl⟩ : ∃ after, rest = b :: after := List.head?_eq_some_iff.mp hb
      rw [continued_cons, if_pos hcontinuation] at h
      cases h
    refine standardPiece_of_cut (by omega) (by rw [hread]; rfl) ?_
    rw [cutLength_one fun b _ hb => absurd hb.1 (by omega)]
    refine run_broken (by omega) fun _ _ b hb => ?_
    rw [hsecond.1, hsecond.2]
    exact hbroken b hb
  | some v =>
    rw [h] at hread
    obtain ⟨⟨tail, after, rfl, htail, hlength⟩, hle, hlt⟩ := continued_spec h
    obtain ⟨b, rfl⟩ := List.length_eq_one_iff.mp hlength
    have hb : isContinuation b := htail b List.mem_cons_self
    have hv : v = (lead.toNat - 0xC0) * 64 + b.toNat % 64 := by
      rw [List.singleton_append, continued_cons, if_pos hb] at h
      exact (Option.some.inj h).symm
    by_cases hvalid : 0xC2 ≤ lead.toNat
    · refine standardPiece_of_shortest hread (by omega) ((shortest_iff _ _).mpr (by omega)) ?_
      rw [run_lead hvalid (by omega), List.singleton_append, run_accept (by dsimp only; omega)
        (by dsimp only; exact hsecond.1 ▸ hb.1) (by dsimp only; exact hsecond.2 ▸ hb.2)]
      dsimp only
      rw [if_pos (by omega), hbits, ← hv]
      rfl
    · refine standardPiece_of_illFormed hread (by omega)
        (fun hshort => absurd ((shortest_iff _ _).mp hshort) (by omega)) ?_
      exact run_refused htail (run_broken (by omega) fun h => absurd h hvalid) rfl

theorem run_continued {built seen count v : ℕ} {rest : Text}
    (h : continued built (count + 1) rest = some v) :
    run { codePoint := built, bytesSeen := seen, bytesNeeded := seen + (count + 1) } rest =
      v :: run {} (rest.drop (count + 1)) := by
  induction count generalizing built seen rest with
  | zero =>
    match rest with
    | [] => cases h
    | b :: rest =>
      rw [continued_cons] at h
      split_ifs at h with hb
      rw [run_accept (by simp) hb.1 hb.2, if_pos rfl, ← Option.some.inj h]
      rfl
  | succ count ih =>
    match rest with
    | [] => cases h
    | b :: rest =>
      rw [continued_cons] at h
      split_ifs at h with hb
      have hseen' : seen + (count + 1 + 1) = seen + 1 + (count + 1) := by ring
      have hlast : seen + 1 ≠ seen + 1 + (count + 1) := by omega
      rw [hseen', run_accept (by simp) hb.1 hb.2, if_neg hlast]
      exact ih h

theorem run_discontinued {built seen count : ℕ} {rest : Text}
    (h : continued built (count + 1) rest = none) :
    run { codePoint := built, bytesSeen := seen, bytesNeeded := seen + (count + 1) } rest =
      0xFFFD :: run {} (rest.dropWhile (isContinuation ·)) := by
  match rest with
  | [] => exact run_reject (by simp) (by simp)
  | b :: rest =>
    rw [continued_cons] at h
    by_cases hb : isContinuation b
    · rw [if_pos hb] at h
      cases count with
      | zero => cases h
      | succ count =>
        have hseen' : seen + (count + 1 + 1) = seen + 1 + (count + 1) := by ring
        have hlast : seen + 1 ≠ seen + 1 + (count + 1) := by omega
        rw [hseen', run_accept (by simp) hb.1 hb.2, if_neg hlast,
          List.dropWhile_cons_of_pos (by simpa using hb)]
        exact run_discontinued h
    · rw [List.dropWhile_cons_of_neg (by simpa using hb)]
      exact run_reject (by simp) (by simpa [isContinuation] using hb)

theorem shortest_iff_maySecond {b : UInt8} {count v : ℕ} {rest : Text} (hlow : 0xE0 ≤ lead.toNat)
    (hextra : extraOf lead.toNat = count + 2) (hb : isContinuation b)
    (h : continued (bitsOf lead.toNat * 64 + b.toNat % 64) (count + 1) rest = some v) :
    (appendUtf8 v).length = count + 3 ∧ scalar v = v ↔ maySecond lead.toNat b := by
  obtain ⟨-, hle, hlt⟩ := continued_spec h
  obtain ⟨hmin, hmax⟩ := hb
  rw [shortest_iff, maySecond, secondLow, secondHigh]
  rw [extraOf] at hextra
  rw [bitsOf] at hle hlt
  by_cases hthree : lead.toNat < 0xF0
  · rw [if_neg (by omega), if_neg (by omega), if_pos hthree] at hextra
    obtain rfl : count = 0 := by omega
    rw [if_neg (by omega), if_pos hthree] at hle hlt
    norm_num at hle hlt
    split_ifs <;> omega
  · have hone : count = 1 ∧ lead.toNat < 0xF8 := by split_ifs at hextra <;> omega
    obtain ⟨rfl, hfour⟩ := hone
    rw [if_neg (by omega), if_neg hthree] at hle hlt
    norm_num at hle hlt
    split_ifs <;> omega

/-- The bytes of a sequence that breaks off after its second byte. -/
theorem drop_cutLength {b : UInt8} {built count : ℕ} {rest : Text}
    (hextra : extraOf lead.toNat = count + 2) (hb : maySecond lead.toNat b)
    (h : continued built (count + 1) rest = none) :
    (lead :: b :: rest).drop (cutLength lead.toNat (b :: rest)) =
      rest.dropWhile (isContinuation ·) := by
  match rest with
  | [] =>
    rw [cutLength, if_pos hb]
    rfl
  | c :: rest =>
    rw [cutLength, if_pos hb]
    rw [continued_cons] at h
    by_cases hc : isContinuation c
    · rw [if_pos hc] at h
      rw [List.dropWhile_cons_of_pos (by simpa using hc)]
      -- two continuation bytes are missing, and one is there
      obtain ⟨k, rfl⟩ : ∃ k, count = k + 1 := by
        cases count with
        | zero => cases h
        | succ k => exact ⟨k, rfl⟩
      have hfour : 0xF0 ≤ lead.toNat ∧ k = 0 := by
        rw [extraOf] at hextra
        split_ifs at hextra <;> omega
      rw [if_pos ⟨hfour.1, hc⟩]
      obtain rfl := hfour.2
      cases rest with
      | nil => rfl
      | cons d rest =>
        rw [continued_cons] at h
        split_ifs at h with hd
        · cases h
        · rw [List.dropWhile_cons_of_neg (by simpa using hd)]
          rfl
    · rw [if_neg (fun h => hc h.2), List.dropWhile_cons_of_neg (by simpa using hc)]
      rfl

/-- The sequences of three bytes and of four. -/
theorem standardPiece_more {count : ℕ} (hlow : 0xE0 ≤ lead.toNat)
    (hextra : extraOf lead.toNat = count + 2) : StandardPiece lead rest := by
  have hread := decodeUtf8_eq lead rest
  rw [hextra, if_neg (by omega)] at hread
  have hhigh : 0x80 ≤ lead.toNat := by omega
  match rest with
  | [] =>
    refine standardPiece_of_cut hhigh (by rw [hread]; rfl) ?_
    exact run_broken hhigh fun _ _ b hb => by cases hb
  | b :: rest =>
    rw [show count + 2 = count + 1 + 1 from rfl, continued_cons] at hread
    by_cases hsecond : maySecond lead.toNat b
    · have hb := isContinuation_of_maySecond hsecond
      rw [if_pos hb] at hread
      have hstart : run {} (lead :: b :: rest) =
          run { codePoint := bitsOf lead.toNat * 64 + b.toNat % 64,
                bytesSeen := 1,
                bytesNeeded := 1 + (count + 1) } rest := by
        rw [run_lead (by omega) hsecond.2.1, run_accept (by dsimp only; omega) hsecond.2.2.1
          hsecond.2.2.2]
        dsimp only
        rw [if_neg (by omega), hextra, zero_add, show count + 2 = 1 + (count + 1) by ring]
      cases h : continued (bitsOf lead.toNat * 64 + b.toNat % 64) (count + 1) rest with
      | none =>
        rw [h] at hread
        refine standardPiece_of_cut hhigh (by rw [hread]; rfl) ?_
        rw [hstart, run_discontinued h, drop_cutLength hextra hsecond h]
      | some v =>
        rw [h] at hread
        refine standardPiece_of_shortest hread (by omega)
          ((shortest_iff_maySecond hlow hextra hb h).mpr hsecond) ?_
        rw [hstart, run_continued h]
        rfl
    · have hbroken : run {} (lead :: b :: rest) = 0xFFFD :: run {} (b :: rest) := by
        refine run_broken hhigh fun _ hvalid c hc hrange => hsecond ?_
        obtain rfl := Option.some.inj hc
        exact ⟨hlow, hvalid, hrange⟩
      by_cases hb : isContinuation b
      · rw [if_pos hb] at hread
        cases h : continued (bitsOf lead.toNat * 64 + b.toNat % 64) (count + 1) rest with
        | none =>
          rw [h] at hread
          refine standardPiece_of_cut hhigh (by rw [hread]; rfl) ?_
          rw [hbroken, cutLength_one fun c hc => by cases hc; exact hsecond]
          rfl
        | some v =>
          rw [h] at hread
          refine standardPiece_of_illFormed hread (by omega)
            (fun hshort => hsecond ((shortest_iff_maySecond hlow hextra hb h).mp hshort)) ?_
          obtain ⟨⟨tail, after, rfl, htail, hlength⟩, -⟩ := continued_spec h
          have hall : ∀ b' ∈ b :: tail, isContinuation b' := List.forall_mem_cons.mpr ⟨hb, htail⟩
          exact run_refused hall hbroken (by simp [hlength])
      · rw [if_neg hb] at hread
        refine standardPiece_of_cut hhigh (by rw [hread]; rfl) ?_
        rw [hbroken, cutLength_one fun c hc => by cases hc; exact hsecond]
        rfl

end Piece

theorem utf8Decode_piece (lead : UInt8) (rest : Text) : StandardPiece lead rest := by
  by_cases hzero : extraOf lead.toNat = 0
  · exact standardPiece_zero hzero
  by_cases htwo : lead.toNat < 0xE0
  · refine standardPiece_two ?_ htwo
    by_contra hlow
    exact hzero (if_pos (by omega))
  · obtain ⟨count, hcount⟩ : ∃ count, extraOf lead.toNat = count + 2 := by
      rw [extraOf] at hzero ⊢
      split_ifs at hzero ⊢ with hnone hfour
      · exact absurd rfl hzero
      · exact ⟨0, rfl⟩
      · exact ⟨1, rfl⟩
    exact standardPiece_more (by omega) hcount

/-! ## Whole texts -/

theorem size_pos (lead : UInt8) (rest : Text) : 1 ≤ (piece lead rest).size := by
  rw [piece]
  split_ifs with hcut hshort
  · obtain ⟨tail, after, -, -, hlength⟩ := cutLength_spec lead.toNat rest
    exact hlength ▸ Nat.le_add_left 1 _
  · rw [Piece.size, hshort.1]
    exact (decodeUtf8_width lead rest).1
  · exact (decodeUtf8_width lead rest).1

theorem flatMap_piecesUpTo {decode : Text → List ℕ} {out : Piece → List ℕ} (hnil : decode [] = [])
    (hpiece : ∀ lead rest, decode (lead :: rest) =
      out (piece lead rest) ++ decode ((lead :: rest).drop (piece lead rest).size))
    (limit : ℕ) (text : Text) (hlimit : text.length ≤ limit) :
    decode text = (piecesUpTo limit text).flatMap out := by
  induction limit generalizing text with
  | zero =>
    rw [List.length_eq_zero_iff.mp (Nat.le_zero.mp hlimit)]
    exact hnil
  | succ limit ih =>
    cases text with
    | nil => exact hnil
    | cons lead rest =>
      have hsize := size_pos lead rest
      rw [piecesUpTo, List.flatMap_cons, hpiece, ih]
      rw [List.length_drop]
      omega

/-- The engine, piece by piece. -/
theorem decodeReplacing_pieces (bytes : Text) :
    decodeReplacing bytes = (pieces bytes).flatMap Piece.replaced :=
  flatMap_piecesUpTo rfl decodeReplacing_piece _ bytes le_rfl

/-- The standard, piece by piece. -/
theorem utf8Decode_pieces (bytes : Text) :
    utf8Decode bytes = (pieces bytes).flatMap Piece.standard :=
  flatMap_piecesUpTo rfl utf8Decode_piece _ bytes le_rfl

theorem replicate_append_cons_inj {α : Type*} {x y : α} (hxy : x ≠ y) (a b : ℕ) (r s : List α) :
    List.replicate a y ++ x :: r = List.replicate b y ++ x :: s ↔ a = b ∧ r = s := by
  induction a generalizing b with
  | zero =>
    cases b with
    | zero => simp
    | succ b => simp [List.replicate_succ, hxy]
  | succ a ih =>
    cases b with
    | zero => simp [List.replicate_succ, Ne.symm hxy]
    | succ b => simpa [List.replicate_succ] using ih b

theorem countP_standard_le (ps : List Piece) :
    (ps.flatMap Piece.standard).countP (· ≠ 0xFFFD) ≤
      (ps.flatMap Piece.replaced).countP (· ≠ 0xFFFD) := by
  induction ps with
  | nil => exact le_rfl
  | cons p ps ih =>
    rw [List.flatMap_cons, List.flatMap_cons, List.countP_append, List.countP_append]
    refine Nat.add_le_add ?_ ih
    cases p with
    | wellFormed v => exact le_rfl
    | illFormed v n => simp [Piece.standard, List.countP_replicate]
    | cut k => simp [Piece.standard]

/-- Runs of U+FFFD before what two lists of pieces are written as, and the difference. -/
theorem flatMap_eq_iff_balanced (ps : List Piece) (a b : ℕ) :
    List.replicate a 0xFFFD ++ ps.flatMap Piece.replaced =
      List.replicate b 0xFFFD ++ ps.flatMap Piece.standard ↔ Balanced (a - b) ps := by
  have hjoin (m n : ℕ) (l : List ℕ) : List.replicate m 0xFFFD ++ (List.replicate n 0xFFFD ++ l) =
      List.replicate (m + n) 0xFFFD ++ l := by
    rw [← List.append_assoc, List.replicate_append_replicate]
  induction ps generalizing a b with
  | nil => simp [Balanced, sub_eq_zero, List.replicate_inj]
  | cons p ps ih =>
    rw [List.flatMap_cons, List.flatMap_cons]
    cases p with
    | wellFormed v =>
      rw [Balanced]
      by_cases hv : v = 0xFFFD
      · have hone : [v] = List.replicate 1 0xFFFD := by rw [hv]; rfl
        rw [if_pos hv, Piece.replaced, Piece.standard, hone, hjoin, hjoin]
        refine (ih _ _).trans ?_
        push_cast
        rw [add_sub_add_right_eq_sub]
      · rw [if_neg hv, Piece.replaced, Piece.standard, List.singleton_append,
          List.singleton_append, replicate_append_cons_inj hv, sub_eq_zero, Nat.cast_inj]
        exact and_congr_right fun _ => ih 0 0
    | illFormed v n =>
      rw [Balanced]
      by_cases hv : scalar v = 0xFFFD
      · have hone : [scalar v] = List.replicate 1 0xFFFD := by rw [hv]; rfl
        rw [Piece.replaced, Piece.standard, hone, hjoin, hjoin]
        refine (ih _ _).trans ?_
        push_cast
        rw [show (a : ℤ) + 1 - (b + n) = a - b + 1 - n by ring]
        exact (and_iff_right hv).symm
      · -- the engine has written one code point too many
        refine iff_of_false (fun heq => ?_) fun h => hv h.1
        have hcount := congrArg (List.countP (· ≠ 0xFFFD)) heq
        have hle := countP_standard_le ps
        simp [Piece.replaced, Piece.standard, List.countP_append,
          List.countP_replicate, hv] at hcount hle
        omega
    | cut k =>
      have hone : [0xFFFD] = List.replicate 1 0xFFFD := rfl
      rw [Balanced, Piece.replaced, Piece.standard, hone, hjoin, hjoin]
      refine (ih _ _).trans ?_
      push_cast
      rw [show (a : ℤ) + k - (b + 1) = a - b + k - 1 by ring]

/-- The engine and the standard agree on exactly the texts whose pieces are balanced. -/
theorem decodeReplacing_eq_utf8Decode_iff (bytes : Text) :
    decodeReplacing bytes = utf8Decode bytes ↔ Balanced 0 (pieces bytes) := by
  rw [decodeReplacing_pieces, utf8Decode_pieces]
  exact flatMap_eq_iff_balanced (pieces bytes) 0 0

/-- A sequence of three bytes that breaks off after two is one U+FFFD by the standard, and two by
the engine. -/
theorem decodeReplacing_truncated :
    decodeReplacing [0xE2, 0x82] ≠ utf8Decode [0xE2, 0x82] := by
  decide

-- two starts that break off make up for a surrogate
example : Balanced 0 (pieces [0xE2, 0x82, 0xE2, 0x82, 0xED, 0xA0, 0x80]) := by decide

end CtBrowser.Shell.Url
