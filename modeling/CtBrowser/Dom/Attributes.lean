import CtBrowser.Core.Text

/-!
# Attributes and pseudo-attributes

An attribute of a node, and the two ways between the data of a processing instruction and its
attributes: `name="value"` pairs are written one space apart, and read back with references
decoded. Names are checked exactly in ASCII, and every byte above 0x7F may stand in one.

## Main definitions

- `Attribute` — a qualified name, a namespace and a value.
- `parsePseudoAttributes`, `serializePseudoAttributes` — the two directions.
-/

namespace CtBrowser.Dom

/-- An attribute. Interned names are equal when their texts are, so a text stands for an atom. -/
structure Attribute where
  -- the qualified name
  name : Text
  -- the empty text is the null namespace
  ns : Text := []
  value : Text
deriving DecidableEq, Repr

/-- The part of the qualified name that is the local name. -/
def attributeLocalName (a : Attribute) : Text :=
  if a.ns = [] then a.name
  else if byte ':'.toNat ∈ a.name then (a.name.dropWhile (· ≠ byte ':'.toNat)).drop 1
  else a.name

/-- Whether an attribute answers to a namespace and a local name. -/
def attributeIs (a : Attribute) (ns localName : Text) : Bool :=
  a.ns = ns && attributeLocalName a = localName

namespace PseudoAttributes

/-! ## Reading -/

/-- Whether a byte may begin an XML name. -/
def nameStart (c : UInt8) : Bool :=
  'a'.toNat ≤ c.toNat && c.toNat ≤ 'z'.toNat || 'A'.toNat ≤ c.toNat && c.toNat ≤ 'Z'.toNat ||
    c = byte '_'.toNat || c = byte ':'.toNat || 0x80 ≤ c.toNat

/-- Whether a byte may stand in an XML name. -/
def nameChar (c : UInt8) : Bool :=
  nameStart c || '0'.toNat ≤ c.toNat && c.toNat ≤ '9'.toNat || c = byte '-'.toNat || c = byte '.'.toNat

/-- White space of XML. -/
def xmlWhitespace (c : UInt8) : Bool := ascii " \t\r\n" |>.contains c

/-- What follows white space. -/
def skipSpace (data : Text) : Text := data.dropWhile xmlWhitespace

/-- The two quotes. -/
def quotationMark : UInt8 := 0x22

@[inherit_doc quotationMark]
def apostrophe : UInt8 := 0x27

/-- The five names a reference may have. -/
def predefined : List (Text × UInt8) :=
  [(ascii "amp", byte '&'.toNat), (ascii "lt", byte '<'.toNat), (ascii "gt", byte '>'.toNat),
    (ascii "quot", quotationMark), (ascii "apos", apostrophe)]

/-- The value of the digits of a character reference. -/
def charRefCode (hex : Bool) (digits : Text) : Option ℕ :=
  digits.foldlM (fun code d =>
    let v := if hex then hexValue d.toNat
      else if '0'.toNat ≤ d.toNat ∧ d.toNat ≤ '9'.toNat then some (d.toNat - '0'.toNat) else none
    v.bind fun v => if 0x10FFFF < code then none else some (code * (if hex then 16 else 10) + v)) 0

/-- A character that XML allows. -/
def legalChar (code : ℕ) : Bool :=
  code = 0x9 || code = 0xA || code = 0xD || 0x20 ≤ code && code ≤ 0xD7FF || 0xE000 ≤ code && code ≤ 0xFFFD ||
    0x10000 ≤ code && code ≤ 0x10FFFF

/-- What the text between `&` and `;` stands for. -/
def referenceText (body : Text) : Option Text :=
  match predefined.find? fun entry => body = entry.1 with
  | some entry => some [entry.2]
  | none =>
    if body.length < 2 ∨ body.head? ≠ some (byte '#'.toNat) then none
    else
      let hex := body[1]? = some (byte 'x'.toNat)
      let digits := body.drop (if hex then 2 else 1)
      if digits = [] then none
      else
        (charRefCode hex digits).bind fun code => if legalChar code then some (appendUtf8 code) else none

/-- A reference after its `&`, and what follows it. -/
def reference (rest : Text) : Option (Text × Text) :=
  if byte ';'.toNat ∈ rest then
    (referenceText (rest.takeWhile (· ≠ byte ';'.toNat))).map fun into =>
      (into, (rest.dropWhile (· ≠ byte ';'.toNat)).drop 1)
  else none

theorem length_reference {rest : Text} {r : Text × Text} (h : reference rest = some r) : r.2.length ≤ rest.length := by
  rw [reference] at h
  split_ifs at h
  obtain ⟨into, -, rfl⟩ := Option.map_eq_some_iff.mp h
  rw [List.length_drop]
  exact (Nat.sub_le _ 1).trans (List.dropWhile_suffix _).length_le

/-- The value up to its closing quote, after what is read of it, and what follows the quote. -/
def quotedValue (quote : UInt8) (value : Text) : Text → Option (Text × Text)
  | [] => none
  | c :: rest =>
    if c = quote then some (value, rest)
    else if c = byte '<'.toNat then none
    else if c = byte '&'.toNat then
      match h : reference rest with
      | some (into, next) =>
        have := length_reference h
        quotedValue quote (value ++ into) next
      | none => none
    else quotedValue quote (value ++ [c]) rest
termination_by data => data.length

/-- One pseudo-attribute, and what follows it. -/
def pseudoAttribute (data : Text) : Option (Attribute × Text) :=
  if data.head?.any nameStart then
    match skipSpace (data.dropWhile nameChar) with
    | e :: rest =>
      if e = byte '='.toNat then
        match skipSpace rest with
        | quote :: rest =>
          if quote = quotationMark ∨ quote = apostrophe then
            (quotedValue quote [] rest).map fun r => ({ name := data.takeWhile nameChar, value := r.1 }, r.2)
          else none
        | [] => none
      else none
    | [] => none
  else none

theorem length_quotedValue {quote : UInt8} {value data : Text} {r : Text × Text}
    (h : quotedValue quote value data = some r) : r.2.length < data.length := by
  fun_induction quotedValue quote value data with
  | case1 => cases h
  | case2 =>
    cases h
    exact Nat.lt_succ_self _
  | case3 => cases h
  | case4 value rest into next href hlength hquote hless ih => exact (ih h).trans_le (hlength.trans (Nat.le_succ _))
  | case5 => cases h
  | case6 value c rest hquote hless hamp ih => exact (ih h).trans (Nat.lt_succ_self _)

theorem length_skipSpace (data : Text) : (skipSpace data).length ≤ data.length :=
  (List.dropWhile_suffix _).length_le

theorem length_pseudoAttribute {data : Text} {r : Attribute × Text} (h : pseudoAttribute data = some r) :
    r.2.length < data.length := by
  rw [pseudoAttribute] at h
  split_ifs at h
  have hname := (length_skipSpace (data.dropWhile nameChar)).trans (List.dropWhile_suffix _).length_le
  split at h
  · next e rest hrest =>
    rw [hrest, List.length_cons] at hname
    split_ifs at h
    have hspace := length_skipSpace rest
    split at h
    · next quote value hvalue =>
      rw [hvalue, List.length_cons] at hspace
      split_ifs at h
      obtain ⟨found, hfound, rfl⟩ := Option.map_eq_some_iff.mp h
      have hquoted := length_quotedValue hfound
      dsimp only
      omega
    · cases h
  · cases h

/-- The pseudo-attributes of the rest of the data, after those that are read. -/
def readAttributes (out : List Attribute) (data : Text) : Option (List Attribute) :=
  let rest := skipSpace data
  if rest = [] then some out
  -- two need white space between them
  else if out ≠ [] ∧ rest.length = data.length then none
  else
    match h : pseudoAttribute rest with
    | some (a, next) =>
      have := (length_pseudoAttribute h).trans_le (length_skipSpace data)
      if out.any fun other => other.name = a.name then none else readAttributes (out ++ [a]) next
    | none => none
termination_by data.length

/-! ## Writing -/

/-- A byte of a value as it is written. -/
def escapedByte (c : UInt8) : Text :=
  if c = byte '&'.toNat then ascii "&amp;"
  else if c = byte '<'.toNat then ascii "&lt;"
  else if c = byte '>'.toNat then ascii "&gt;"
  else if c = quotationMark then ascii "&quot;"
  else [c]

/-- A pseudo-attribute as it is written. -/
def written (a : Attribute) : Text :=
  a.name ++ [byte '='.toNat, quotationMark] ++ a.value.flatMap escapedByte ++ [quotationMark]

end PseudoAttributes

open PseudoAttributes

/-- The pseudo-attributes that data stands for, unless it is malformed. -/
def parsePseudoAttributes (data : Text) : Option (List Attribute) := readAttributes [] data

/-- The data that attributes are written as. -/
def serializePseudoAttributes (attributes : List Attribute) : Text :=
  attributes.foldl (fun data a => (if data ≠ [] then data ++ [byte ' '.toNat] else data) ++ PseudoAttributes.written a) []

end CtBrowser.Dom
