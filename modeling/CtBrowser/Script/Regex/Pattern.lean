import CtBrowser.Core.Utf8

/-!
# Regular expression patterns

The tree a pattern is read into, and what its atoms that match text ask of a subject: each looks at
the text on one side of a position and says where it leaves it.

## Main definitions

- `Atom`, `Piece` — an atom, and an atom with its quantifier.
- `RxState` — what matching changes.
- `consumed` — where a literal, a back-reference or an assertion leaves the position.
- `classHit` — whether a class holds a code point.
-/

namespace CtBrowser.Script.Regex

/-- A character class: inclusive ranges of code points, sorted and apart, and, under `v`, strings. -/
structure RxClass where
  neg : Bool
  ranges : List (ℕ × ℕ)
  strings : List Text
deriving DecidableEq, Repr

/-- The flags that a group's modifiers name. -/
structure Modifiers where
  icase : Bool
  multi : Bool
  dotall : Bool
deriving DecidableEq, Repr

/-- Whether some flag is named. -/
def Modifiers.any (m : Modifiers) : Bool := m.icase || m.multi || m.dotall

/-- How often a piece is repeated, and the captures inside it, which a repetition clears. -/
structure Quantifier where
  min : ℕ
  max : Option ℕ
  greedy : Bool
  capsLo : ℕ
  capsHi : ℕ
deriving DecidableEq, Repr

mutual

/-- What one piece of a pattern matches. -/
inductive Atom
  /-- The bytes of `text`, or the byte `c` where it is empty. -/
  | lit (c : UInt8) (text : Text)
  | any
  | cls (cc : RxClass)
  | grp (sub : List (List Piece)) (cap : Option ℕ) (on off : Modifiers)
  | bol
  | eol
  | wordb
  | nwordb
  | ahead (sub : List (List Piece))
  | nahead (sub : List (List Piece))
  | behind (sub : List (List Piece))
  | nbehind (sub : List (List Piece))
  | backref (cap : Option ℕ) (refName : Text)

/-- An atom with its quantifier. -/
inductive Piece
  | mk (atom : Atom) (quantifier : Quantifier)

end

/-- A sequence of pieces. -/
abbrev RxSeq := List Piece

/-- Alternatives, tried in order. -/
abbrev RxAlt := List RxSeq

/-- A compiled pattern: its tree and flags, and the slots its group names fill. -/
structure RxProg where
  root : RxAlt
  ngroups : ℕ
  icase : Bool
  multi : Bool
  dotall : Bool
  unicode : Bool
  unicodeSets : Bool
  names : List (Text × ℕ)

/-- Simple case folding: the fold of a code point, and the others that share it. -/
structure CaseFolding where
  foldSimple : ℕ → ℕ
  unfold : ℕ → List ℕ

/-- What a search reads and never changes. -/
structure Subject where
  s : Text
  p : RxProg
  folding : CaseFolding

/-- A capture: where its text starts and ends, if it matched. -/
abbrev Capture := Option (ℕ × ℕ)

/-- The matcher's state during one search attempt. How deep it is in the pattern is not part of it:
the count is put back on every return, and so is handed down. -/
structure RxState where
  caps : List Capture
  icase : Bool
  multi : Bool
  dotall : Bool
  /-- Inside a lookbehind each atom matches the text that ends at the position. -/
  backward : Bool
  steps : ℕ
  /-- The budget is spent: every piece fails at once. -/
  exhausted : Bool
deriving DecidableEq, Repr

/-! ## Reading the subject -/

/-- The byte at a position. -/
def byteAt (s : Text) (pos : ℕ) : ℕ := (s.getD pos 0).toNat

/-- Where a sequence that holds the byte before `stop` may start: back from there over continuation
bytes, four bytes at most. -/
def sequenceStart (s : Text) (stop : ℕ) : ℕ → ℕ
  | 0 => 0
  | start + 1 =>
    if stop - (start + 1) < 4 ∧ byteAt s (start + 1) &&& 0xC0 = 0x80 then sequenceStart s stop start
    else start + 1

theorem sequenceStart_le (s : Text) (stop start : ℕ) : sequenceStart s stop start ≤ start := by
  induction start with
  | zero => exact le_rfl
  | succ start ih =>
    rw [sequenceStart]
    split_ifs
    · exact ih.trans (Nat.le_succ start)
    · exact le_rfl

/-- The code point that ends at a byte, with its width. A byte that is not the end of a sequence is
one code point. -/
def decodeBefore (s : Text) (stop : ℕ) : ℕ × ℕ :=
  let start := sequenceStart s stop (stop - 1)
  let one := decodeAt s start
  if start + one.2 ≠ stop then (byteAt s (stop - 1), 1) else (one.1, stop - start)

/-- The code point beside a position, with its width: before it when matching backward. -/
def decodeBeside (s : Text) (backward : Bool) (pos : ℕ) : ℕ × ℕ :=
  if backward then decodeBefore s pos else decodeAt s pos

/-- Whether no text is left on the side that is matched. -/
def atEdge (s : Text) (backward : Bool) (pos : ℕ) : Prop :=
  if backward then pos = 0 else pos ≥ s.length

instance (s : Text) (backward : Bool) (pos : ℕ) : Decidable (atEdge s backward pos) :=
  inferInstanceAs (Decidable (if backward then pos = 0 else pos ≥ s.length))

/-- The position past a code point of some width. -/
def advance (backward : Bool) (pos width : ℕ) : ℕ := if backward then pos - width else pos + width

/-- The byte beside a position. -/
def byteBeside (s : Text) (backward : Bool) (pos : ℕ) : UInt8 := s.getD (if backward then pos - 1 else pos) 0

/-- The position past a text, where the subject has it there. -/
def advanceOver (s : Text) (backward : Bool) (pos : ℕ) (text : Text) : Option ℕ :=
  let n := text.length
  if backward then if n ≤ pos ∧ (s.drop (pos - n)).take n = text then some (pos - n) else none
  else if (s.drop pos).take n = text then some (pos + n) else none

/-- ASCII case folding. -/
def rxFold (c : UInt8) (icase : Bool) : UInt8 := if icase then asciiLower c else c

/-- Whether a byte is an ASCII word character. -/
def isWord (c : ℕ) : Bool :=
  ('a'.toNat ≤ c && c ≤ 'z'.toNat) || ('A'.toNat ≤ c && c ≤ 'Z'.toNat) ||
    ('0'.toNat ≤ c && c ≤ '9'.toNat) || c == '_'.toNat

/-- Whether code points are compared by their simple case fold. -/
def Subject.folds (x : Subject) (st : RxState) : Bool := st.icase && (x.p.unicode || x.p.unicodeSets)

/-- Whether the sorted ranges hold a code point: the first that ends at or after it does. -/
def inRanges (ranges : List (ℕ × ℕ)) (probe : ℕ) : Bool :=
  match ranges.find? fun r => !decide (r.2 < probe) with
  | some r => r.1 ≤ probe
  | none => false

/-- The other ASCII case of a letter. -/
def otherCase (ch : ℕ) : ℕ :=
  if 'a'.toNat ≤ ch ∧ ch ≤ 'z'.toNat then ch - ('a'.toNat - 'A'.toNat)
  else if 'A'.toNat ≤ ch ∧ ch ≤ 'Z'.toNat then ch + ('a'.toNat - 'A'.toNat)
  else ch

/-- Whether a class holds a code point. -/
def classHit (folding : CaseFolding) (cc : RxClass) (ch : ℕ) (icase unicode : Bool) : Bool :=
  let holds := inRanges cc.ranges
  let hit :=
    if holds ch then true
    else if icase && unicode then
      let folded := folding.foldSimple ch
      (folded ≠ ch && holds folded) || (folding.unfold folded).any fun other => other ≠ ch && holds other
    else if icase then otherCase ch ≠ ch && holds (otherCase ch)
    else false
  if cc.neg then !hit else hit

/-! ## Atoms that match text -/

/-- Where a literal leaves the position. -/
def litAt (x : Subject) (st : RxState) (pos : ℕ) (c : UInt8) (text : Text) : Option ℕ :=
  let want := if text = [] then (c.toNat, 0) else decodeAt text 0
  -- under `iu` a literal is one code point, compared by its fold
  if x.folds st ∧ ¬ atEdge x.s st.backward pos ∧ (text = [] ∨ want.2 = text.length) then
    let got := decodeBeside x.s st.backward pos
    if x.folding.foldSimple got.1 = x.folding.foldSimple want.1 then some (advance st.backward pos got.2)
    else none
  else if text ≠ [] then advanceOver x.s st.backward pos text
  else if ¬ atEdge x.s st.backward pos ∧
      rxFold (byteBeside x.s st.backward pos) st.icase = rxFold c st.icase then
    some (advance st.backward pos 1)
  else none

/-- Where any one code point leaves the position: a line terminator only counts under `s`. -/
def anyAt (x : Subject) (st : RxState) (pos : ℕ) : Option ℕ :=
  if atEdge x.s st.backward pos then none
  else
    let one := decodeBeside x.s st.backward pos
    if ¬ st.dotall ∧ (one.1 = 0x0A ∨ one.1 = 0x0D ∨ one.1 = 0x2028 ∨ one.1 = 0x2029) then none
    else some (advance st.backward pos one.2)

/-- The capture a back-reference repeats: that of its slot, or else of the first slot of its name
that has one. -/
def referred (x : Subject) (st : RxState) (cap : Option ℕ) (refName : Text) : Capture :=
  let own := cap.bind fun c => st.caps.getD c none
  if own = none ∧ refName ≠ [] then
    (x.p.names.filter fun n => n.1 == refName).findSome? fun n => st.caps.getD n.2 none
  else own

/-- Where a back-reference leaves the position: one that has not captured matches empty. -/
def backrefAt (x : Subject) (st : RxState) (pos : ℕ) (cap : Option ℕ) (refName : Text) : Option ℕ :=
  match referred x st cap refName with
  | none => some pos
  | some (lo, hi) =>
    let len := hi - lo
    if (if st.backward then pos < len else pos + len > x.s.length) then none
    else
      let start := if st.backward then pos - len else pos
      let folded (i : ℕ) := ((x.s.drop i).take len).map fun c => rxFold c st.icase
      if folded start = folded lo then some (if st.backward then start else pos + len) else none

/-- Whether a word character stands before a position. -/
def wordBefore (x : Subject) (st : RxState) (pos : ℕ) : Bool :=
  if pos = 0 then false
  else if !x.folds st || byteAt x.s (pos - 1) < 0x80 then isWord (byteAt x.s (pos - 1))
  else
    let cp := (decodeBefore x.s pos).1
    cp == 0x017F || cp == 0x212A

/-- Whether a word character stands after a position. -/
def wordAfter (x : Subject) (st : RxState) (pos : ℕ) : Bool :=
  if pos ≥ x.s.length then false
  else if !x.folds st || byteAt x.s pos < 0x80 then isWord (byteAt x.s pos)
  else
    let cp := (decodeAt x.s pos).1
    cp == 0x017F || cp == 0x212A

/-- Whether a position lies between a word character and something else. -/
def wordBoundary (x : Subject) (st : RxState) (pos : ℕ) : Bool := wordBefore x st pos != wordAfter x st pos

/-- The position itself, if a condition holds there. -/
def stay (pos : ℕ) (holds : Bool) : Option ℕ := if holds then some pos else none

/-- Where the code point of a class leaves the position. -/
def classAt (x : Subject) (st : RxState) (pos : ℕ) (cc : RxClass) : Option ℕ :=
  if atEdge x.s st.backward pos then none
  else
    let one := decodeBeside x.s st.backward pos
    if classHit x.folding cc one.1 st.icase (x.p.unicode || x.p.unicodeSets) then
      some (advance st.backward pos one.2)
    else none

/-- Whether the line begins at a position. -/
def lineStarts (x : Subject) (st : RxState) (pos : ℕ) : Bool :=
  pos == 0 || (st.multi && byteAt x.s (pos - 1) == 0x0A)

/-- Whether the line ends at a position. -/
def lineEnds (x : Subject) (st : RxState) (pos : ℕ) : Bool :=
  pos == x.s.length || (st.multi && byteAt x.s pos == 0x0A)

end CtBrowser.Script.Regex
