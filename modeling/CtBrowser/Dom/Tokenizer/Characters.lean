import CtBrowser.Dom.Tokenizer.Token

/-!
# The characters of the input

The tokenizer works on bytes and normalises newlines as it goes: a CR LF and a lone CR are both
one LF. `characters` is the input as the specification's machine reads it, each character with
the bytes that are left after it.

## Main definitions

- `characters` — the characters of a text.
- `appendText` — the tokenizer's own reading of one byte outside of markup.
-/

namespace CtBrowser.Dom

/-- A carriage return, a line feed. -/
abbrev cr : UInt8 := 0x0D
abbrev lf : UInt8 := 0x0A

/-- The bytes that steer markup. -/
abbrev lessThan : UInt8 := 0x3C
abbrev greaterThan : UInt8 := 0x3E
abbrev bang : UInt8 := 0x21
abbrev dash : UInt8 := 0x2D
abbrev solidus : UInt8 := 0x2F

/-- U+FFFD, which stands for NUL. -/
def replacement : Text := [0xEF, 0xBF, 0xBD]

/-- The characters of a text, newlines normalised, each with what is left after it. -/
def characters : Text → List (UInt8 × Text)
  | [] => []
  | [c] => [(if c = cr then lf else c, [])]
  | c :: d :: rest =>
    if c = cr then
      if d = lf then (lf, rest) :: characters rest else (lf, d :: rest) :: characters (d :: rest)
    else (c, d :: rest) :: characters (d :: rest)

/-- What is left after a newline that a CR has begun. -/
def afterCr (rest : Text) : Text := if rest.head? = some lf then rest.tail else rest

@[simp] theorem characters_nil : characters [] = [] := rfl

theorem characters_cons {c : UInt8} (h : c ≠ cr) (rest : Text) :
    characters (c :: rest) = (c, rest) :: characters rest := by
  cases rest with
  | nil => simp [characters, h]
  | cons d rest => simp [characters, h]

theorem characters_cr (rest : Text) :
    characters (cr :: rest) = (lf, afterCr rest) :: characters (afterCr rest) := by
  cases rest with
  | nil => rfl
  | cons d rest => by_cases hd : d = lf <;> simp [characters, afterCr, hd]

/-- The character a byte begins, and what is left after it. -/
def normal (c : UInt8) : UInt8 := if c = cr then lf else c
def leftAfter (c : UInt8) (rest : Text) : Text := if c = cr then afterCr rest else rest

theorem characters_eq (c : UInt8) (rest : Text) :
    characters (c :: rest) = (normal c, leftAfter c rest) :: characters (leftAfter c rest) := by
  by_cases hc : c = cr
  · simpa [normal, leftAfter, hc] using characters_cr rest
  · simpa [normal, leftAfter, hc] using characters_cons hc rest

theorem normal_eq_iff {c d : UInt8} (hcr : d ≠ cr) (hlf : d ≠ lf) : normal c = d ↔ c = d := by
  rw [normal]
  split_ifs with hc
  · simp [hc, hcr.symm, hlf.symm]
  · rfl

theorem length_afterCr_le (rest : Text) : (afterCr rest).length ≤ rest.length := by
  rw [afterCr]
  split_ifs
  · exact (List.length_tail).trans_le (Nat.sub_le _ _)
  · exact le_rfl

/-- The data with one byte of the input added, and what is left: a newline may take two. -/
def appendText (model : ContentModel) (data : Text) (c : UInt8) (rest : Text) : Text × Text :=
  if c = 0 ∧ model ≠ .data then (data ++ replacement, rest)
  else if c ≠ cr then (data ++ [c], rest)
  else (data ++ [lf], afterCr rest)

end CtBrowser.Dom
