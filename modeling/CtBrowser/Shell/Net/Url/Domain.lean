import CtBrowser.Shell.Net.Url.Punycode

/-!
# Domain to ASCII

UTS #46 processing of a domain with the parameters of the URL standard: mapping, NFC, the
validity criteria of a label, the Bidi rule, and Punycode both ways. The Unicode tables are a
parameter; the lookups in them are functions from code points.

## Main definitions

- `UnicodeTables` — the tables.
- `toNfc` — canonical decomposition, ordering and composition.
- `validLabel`, `validBidiLabel` — the criteria of a label.
- `domainToAscii` — the whole processing.
-/

namespace CtBrowser.Shell.Url

/-- The status of a code point in the mapping table. -/
inductive IdnaStatus
  | valid
  | mapped (replacement : List ℕ)
  | ignored
  | disallowed
deriving DecidableEq, Repr

/-- The Unicode tables: what the lookups of the source return. -/
structure UnicodeTables where
  idnaLookup : ℕ → Option IdnaStatus
  combiningClass : ℕ → ℕ
  -- the canonical decomposition of a code point that has one, Hangul syllables included
  decomposition : ℕ → Option (List ℕ)
  -- the primary composite of two code points that compose, Hangul included
  compose : ℕ → ℕ → Option ℕ
  isCombiningMark : ℕ → Bool
  isVirama : ℕ → Bool
  joiningType : ℕ → Char
  bidiClass : ℕ → Char

/-- Only ASCII code points. -/
def allAscii (text : List ℕ) : Bool := text.all (· < 0x80)

namespace UnicodeTables

variable (tables : UnicodeTables)

/-! ## NFC -/

/-- Put a code point behind the marks before it that have a higher class; the text before it
is given last code point first. -/
def orderInto (c : ℕ) : List ℕ → List ℕ
  | [] => [c]
  | d :: before =>
    if tables.combiningClass c < tables.combiningClass d then d :: orderInto c before
    else c :: d :: before

/-- Canonical ordering. -/
def canonicalOrder (parts : List ℕ) : List ℕ :=
  (parts.foldl (fun before c =>
    if tables.combiningClass c = 0 then c :: before else tables.orderInto c before) []).reverse

/-- The variables of canonical composition. -/
structure Composing where
  out : List ℕ
  starter : ℕ := 0
  lastClass : ℕ
deriving DecidableEq, Repr

/-- Fold a code point into the last starter, or append it. -/
def composeOne (s : Composing) (c : ℕ) : Composing :=
  let klass := tables.combiningClass c
  let append : Composing :=
    { out := s.out ++ [c], starter := if klass = 0 then s.out.length else s.starter
      lastClass := klass }
  match tables.compose (s.out.getD s.starter 0) c with
  | some composed =>
    if s.lastClass < klass ∨ s.lastClass = 0 then
      { s with out := s.out.set s.starter composed }
    else append
  | none => append

/-- Normalization Form C. -/
def toNfc (text : List ℕ) : List ℕ :=
  if allAscii text then text
  else
    let parts := text.flatMap fun c => (tables.decomposition c).getD [c]
    match tables.canonicalOrder parts with
    | [] => []
    | first :: rest =>
      let klass := tables.combiningClass first
      (rest.foldl tables.composeOne {
        out := [first], lastClass := if klass = 0 then 0 else 256 }).out

/-! ## Labels -/

/-- The two ContextJ rules at every joiner, given the text before it last code point first. -/
def contextJ : List ℕ → List ℕ → Bool
  | _, [] => true
  | before, c :: rest =>
    let here :=
      if c ≠ 0x200C ∧ c ≠ 0x200D then true
      else if before.head?.any tables.isVirama then true
      else if c = 0x200D then false
      else
        let isLink (kind : Char) (c : ℕ) :=
          tables.joiningType c = kind || tables.joiningType c = 'D'
        ((before.dropWhile (tables.joiningType · = 'T')).head?.any (isLink 'L')) &&
          ((rest.dropWhile (tables.joiningType · = 'T')).head?.any (isLink 'R'))
    here && contextJ (c :: before) rest

/-- The validity criteria of a label. -/
def validLabel (label : List ℕ) : Bool :=
  match label with
  | [] => true
  | first :: _ =>
    (allAscii label || tables.toNfc label = label) &&
      !tables.isCombiningMark first &&
      label.all (fun c => c ≠ '.'.toNat && tables.idnaLookup c = some IdnaStatus.valid) &&
      tables.contextJ [] label

/-- The rules of a Bidi domain for one label. -/
def validBidiLabel (label : List ℕ) : Bool :=
  match label with
  | [] => true
  | first :: _ =>
    let kinds := label.map tables.bidiClass
    -- the class of the last code point that is no mark
    let ending := (kinds.reverse.dropWhile (· = 'M')).head?
    if tables.bidiClass first = 'R' ∨ tables.bidiClass first = 'A' then
      kinds.all (· ∈ ['R', 'A', 'N', 'E', 'S', 'C', 'T', 'O', 'B', 'M']) &&
        !(kinds.contains 'E' && kinds.contains 'N') &&
        ending.any (· ∈ ['R', 'A', 'E', 'N'])
    else if tables.bidiClass first = 'L' then
      kinds.all (· ∈ ['L', 'E', 'S', 'C', 'T', 'O', 'B', 'M']) && ending.any (· ∈ ['L', 'E'])
    else false

end UnicodeTables

/-- The parts of a text between its dots, empty parts included. -/
def splitDots (text : List ℕ) : List (List ℕ) := text.splitOn '.'.toNat

/-- A processed label: its Unicode form, or the ASCII bytes of one that is kept as written. -/
inductive LabelForm
  | unicode (label : List ℕ)
  | verbatim (label : Text)
deriving DecidableEq, Repr

namespace UnicodeTables

variable (tables : UnicodeTables)

/-- Map a domain: a disallowed code point fails the whole domain. -/
def mapped (domain : List ℕ) : Option (List ℕ) := do
  let parts ← domain.mapM fun c =>
    match tables.idnaLookup c with
    | none | some .disallowed => none
    | some .ignored => some []
    | some (.mapped replacement) => some replacement
    | some .valid => some [c]
  return parts.flatten

/-- Whether a label starts with `xn--`. -/
def isPunycode (label : List ℕ) : Bool := (label.take 4).map lower = points "xn--"

/-- Convert and validate one label. A label that does not decode stays as it is when the whole
domain is ASCII. -/
def labelForm (domainAscii : Bool) (label : List ℕ) : Option LabelForm :=
  if isPunycode label then
    if !allAscii label then none
    else
      let asAscii := label.map byte
      match punycodeDecode (asAscii.drop 4) with
      | some converted =>
        if !allAscii converted && tables.validLabel converted then some (.unicode converted)
        else if domainAscii then some (.verbatim asAscii) else none
      | none => if domainAscii then some (.verbatim asAscii) else none
  else if tables.validLabel label then some (.unicode label)
  else none

/-- The Bidi rule over all labels of a domain. -/
def bidiOk (labels : List LabelForm) : Bool :=
  let unicode := labels.filterMap fun
    | .unicode label => some label
    | .verbatim _ => none
  !(unicode.any fun label => label.any fun c => tables.bidiClass c ∈ ['R', 'A', 'N']) ||
    unicode.all tables.validBidiLabel

/-- A label in ASCII. -/
def encodeLabel : LabelForm → Option Text
  | .verbatim label => some label
  | .unicode label =>
    if allAscii label then some (label.map byte)
    else (punycode label).map fun encoded => ascii "xn--" ++ encoded

/-- Domain to ASCII. -/
def domainToAscii (domain : List ℕ) : Option Text := do
  let mapped ← tables.mapped domain
  let labels ← (splitDots (tables.toNfc mapped)).mapM
    (tables.labelForm (allAscii domain))
  if allAscii domain || tables.bidiOk labels then
    let encoded ← labels.mapM encodeLabel
    let out := (ascii ".").intercalate encoded
    if out = [] then none else some out
  else none

end UnicodeTables

end CtBrowser.Shell.Url
