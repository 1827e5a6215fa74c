import CtBrowser.Shell.Net.Url.Encoding

/-!
# Punycode

The Punycode encoder and decoder of domain labels. Both compute in 32 bits and refuse a number that
does not fit; how many code points there are, and the encoder's last step of a round, may wrap.

## Main definitions

- `threshold`, `adapt` — the digit thresholds and the adaptive bias.
- `punycode` — a label to the text that follows `xn--`.
- `punycodeDecode` — that text back to a label.
-/

namespace CtBrowser.Shell.Url

namespace Punycode

/-- The number of digits. -/
def base : ℕ := 36

/-- The largest 32-bit value. -/
def maxWord : ℕ := 0xFFFFFFFF

/-- A number in 32 bits. -/
def word (n : ℕ) : ℕ := n % 2 ^ 32

theorem word_of_lt {n : ℕ} (h : n ≤ maxWord) : word n = n := Nat.mod_eq_of_lt (Nat.lt_succ_of_le h)

theorem word_le (n : ℕ) : word n ≤ maxWord := Nat.le_of_lt_succ (Nat.mod_lt n (by norm_num))

/-- The least digit that ends a number at weight position `k`. -/
def threshold (k bias : ℕ) : ℕ := if k ≤ bias then 1 else if bias + 26 ≤ k then 26 else k - bias

theorem threshold_bounds (k bias : ℕ) : 1 ≤ threshold k bias ∧ threshold k bias ≤ 26 := by
  unfold threshold
  split_ifs <;> omega

/-- The division loop of the bias adaptation. -/
def adaptLoop (delta k : ℕ) : ℕ :=
  if (35 * 26) / 2 < delta then adaptLoop (delta / 35) (k + base)
  else k + 36 * delta / (delta + 38)
termination_by delta
decreasing_by omega

/-- The bias after a delta. -/
def adapt (delta points : ℕ) (first : Bool) : ℕ :=
  let delta := if first then delta / 700 else delta / 2
  adaptLoop (delta + delta / points) 0

/-- The character of a digit. -/
def digit (d : ℕ) : UInt8 := if d < 26 then byte ('a'.toNat + d) else byte ('0'.toNat + (d - 26))

/-- The digits of a delta, least significant first. -/
def encodeDigits (q k bias : ℕ) : Text :=
  if q < threshold k bias then [digit q]
  else
    digit (threshold k bias + (q - threshold k bias) % (base - threshold k bias)) ::
      encodeDigits ((q - threshold k bias) / (base - threshold k bias)) (k + base) bias
termination_by q
decreasing_by
  have hbounds := threshold_bounds k bias
  exact (Nat.div_le_self _ _).trans_lt (by omega)

/-- The encoder's variables. -/
structure Encoding where
  out : Text
  delta : ℕ := 0
  bias : ℕ := 72
  handled : ℕ
deriving DecidableEq, Repr

/-- The inner loop of the encoder at one code point of the input. -/
def encodeOne (n basic : ℕ) (e : Encoding) (c : ℕ) : Option Encoding :=
  if c < n then
    if e.delta = maxWord then none else some { e with delta := e.delta + 1 }
  else if c ≠ n then some e
  else some {
    out := e.out ++ encodeDigits e.delta base e.bias
    bias := adapt e.delta (word (e.handled + 1)) (e.handled = basic)
    delta := 0
    handled := word (e.handled + 1) }

/-- The least code point of the input that is at least `n`. -/
def nextPoint (input : List ℕ) (n : ℕ) : ℕ :=
  input.foldl (fun m c => if n ≤ c ∧ c < m then c else m) 0x110000

/-- The outer loop of the encoder: one round for each distinct code point. A label that has 2^32 code
points or more is never done. -/
def encodeRounds (input : List ℕ) (basic : ℕ) : ℕ → ℕ → Encoding → Option Text
  | 0, _, _ => none
  | rounds + 1, n, e =>
    if input.length ≤ e.handled then some e.out
    else
      let m := nextPoint input n
      let gap := word (m + 2 ^ 32 - n)
      if (maxWord - e.delta) / word (e.handled + 1) < gap then none
      else do
        let e ← input.foldlM (encodeOne m basic) { e with delta := e.delta + gap * word (e.handled + 1) }
        encodeRounds input basic rounds (m + 1) { e with delta := word (e.delta + 1) }

end Punycode

open Punycode in
/-- A label as the ASCII text that follows `xn--`. -/
def punycode (input : List ℕ) : Option Text :=
  let out := (input.filter (· < 0x80)).map byte
  let basic := word out.length
  encodeRounds input basic (input.length + 1) 128 {
    out := if basic = 0 then out else out ++ [byte '-'.toNat]
    handled := basic }

namespace Punycode

/-- The value of a digit; `base` when the character is none. -/
def digitValue (c : UInt8) : ℕ :=
  if 'a'.toNat ≤ c.toNat ∧ c.toNat ≤ 'z'.toNat then c.toNat - 'a'.toNat
  else if 'A'.toNat ≤ c.toNat ∧ c.toNat ≤ 'Z'.toNat then c.toNat - 'A'.toNat
  else if '0'.toNat ≤ c.toNat ∧ c.toNat ≤ '9'.toNat then c.toNat - '0'.toNat + 26
  else base

/-- Read one delta: the sum of its digits, each times its weight `w`, added to `i`. -/
def decodeDigits (bias : ℕ) : ℕ → ℕ → ℕ → Text → Option (ℕ × Text)
  | _, _, _, [] => none
  | i, w, k, c :: rest =>
    let d := digitValue c
    if base ≤ d then none
    else if (maxWord - i) / w < d then none
    else if d < threshold k bias then some (i + d * w, rest)
    else if maxWord / (base - threshold k bias) < w then none
    else decodeDigits bias (i + d * w) (w * (base - threshold k bias)) (k + base) rest

/-- The decoder's variables. -/
structure Decoding where
  out : List ℕ
  n : ℕ := 128
  i : ℕ := 0
  bias : ℕ := 72
deriving DecidableEq, Repr

/-- Put the code point a delta stands for at its place. -/
def inserted (d : Decoding) (i : ℕ) : Option Decoding :=
  let points := word (d.out.length + 1)
  if 0x10FFFF - d.n < i / points then none
  else
    let n := d.n + i / points
    if 0x10FFFF < n ∨ isSurrogate n then none
    else some {
      out := d.out.insertIdx (i % points) n
      n
      i := i % points + 1
      bias := adapt (i - d.i) points (d.i = 0) }

/-- The loop of the decoder, over at most `limit` deltas. -/
def decodeDeltas : ℕ → Decoding → Text → Option (List ℕ)
  | _, d, [] => some d.out
  | 0, _, _ => none
  | limit + 1, d, text => do
    let (i, rest) ← decodeDigits d.bias d.i 1 base text
    let d ← inserted d i
    decodeDeltas limit d rest

end Punycode

open Punycode in
/-- The label that the text after `xn--` stands for. -/
def punycodeDecode (input : Text) : Option (List ℕ) :=
  let hyphen := byte '-'.toNat
  -- the basic code points end at the last hyphen
  let basic := if hyphen ∈ input then
    ((input.reverse.dropWhile (· ≠ hyphen)).drop 1).reverse else []
  let rest := if hyphen ∈ input then (input.reverse.takeWhile (· ≠ hyphen)).reverse else input
  if basic.all (·.toNat < 0x80) then
    decodeDeltas rest.length { out := basic.map UInt8.toNat } rest
  else none

end CtBrowser.Shell.Url
