import CtBrowser.Foundations.FirstAppearance
import CtBrowser.Style.Engine.LayerOrder

/-!
# The names of layers

How the parser and the engine know layers: by text. The parser joins the identifiers of a name with dots,
puts the enclosing layer's name before it and files it with the layers it lies in; an anonymous layer gets a
name that starts with U+0001. The engine looks the names of a sheet up in its own table, after it has put
the sheet's serial into the anonymous parts, and ranks the table anew.

Of a sheet only its `@layer` rules are kept, in document order; rules that hold others are left out and what
they hold stands in their place.

## Main definitions

- `LayerRule.parse`, `LayerTable.addSheet` — the parser and the engine.
- `LayerRule.identify` — the layers that a sheet mentions, by the identifiers it spells.
- `Precedes` — the order of layers.
-/

namespace CtBrowser.Style.LayerNames

open Foundations.FirstAppearance

/-! ## The parser -/

/-- A component of a layer name as it is written. -/
inductive NameToken
  | ident (text : Text)
  | delim (text : Text)
  | other
deriving DecidableEq, Repr

/-- An `@layer` statement, with its names, or an `@layer` block, whose name may be missing. -/
inductive LayerRule
  | statement (names : List (List NameToken))
  | block (name : List NameToken) (contents : List LayerRule)

abbrev dot : UInt8 := 0x2E

/-- What the name of an anonymous layer starts with. -/
abbrev anonymousMark : UInt8 := 0x01

/-- The text of a name; identifiers and points take turns. -/
def nameText : Bool → List NameToken → Option Text
  | _, [] => some []
  | true, .ident text :: rest => (nameText false rest).map (text ++ ·)
  | false, .delim text :: rest => if text = [dot] then (nameText true rest).map (dot :: ·) else none
  | _, _ => none

def layerNameOf (run : List NameToken) : Option Text :=
  (nameText true run).filter fun out => out ≠ [] && run.length % 2 = 1

/-- A name up to each of its dots, and the name. -/
def dotPrefixes (before : Text) : Text → List Text
  | [] => [before]
  | c :: rest =>
    if c = dot then before :: dotPrefixes (before ++ [c]) rest else dotPrefixes (before ++ [c]) rest

/-- What the parser keeps of layers. The mentions are the numbers of layers, counted from 1. -/
structure LayerParser where
  layers : List Text
  layerPrefix : Text
  anonymousLayers : ℕ
  mentions : List ℕ
deriving DecidableEq, Repr

/-- A layer is filed with those it lies in; its number comes last. -/
def declareLayer (p : LayerParser) (name : Text) : LayerParser :=
  let full := if p.layerPrefix = [] then name else p.layerPrefix ++ dot :: name
  let layers := enterAll p.layers (dotPrefixes [] full)
  { p with layers, mentions := p.mentions ++ [layers.idxOf full + 1] }

/-- The name of the layer that was mentioned last. -/
def LayerParser.lastName (p : LayerParser) : Text := p.layers.getD (p.mentions.getLastD 0 - 1) []

def decimalText (n : ℕ) : Text := (Nat.toDigits 10 n).map fun c => byte c.toNat

mutual

def LayerRule.parse : LayerRule → LayerParser → LayerParser
  | .statement names, p =>
    match names.mapM layerNameOf with
    | none => p
    | some names => names.foldl declareLayer p
  | .block run contents, p =>
    let number := p.anonymousLayers + 1
    let name := if run = [] then some (anonymousMark :: decimalText number) else layerNameOf run
    match name with
    | none => p
    | some name =>
      let opened := declareLayer { p with anonymousLayers := if run = [] then number else p.anonymousLayers } name
      let inside := parseRules contents { opened with layerPrefix := opened.lastName }
      { inside with layerPrefix := p.layerPrefix }

def parseRules : List LayerRule → LayerParser → LayerParser
  | [], p => p
  | rule :: rest, p => parseRules rest (rule.parse p)

end

def parseSheet (sheet : List LayerRule) : LayerParser := parseRules sheet ⟨[], [], 0, []⟩

/-! ## The engine -/

/-- A name with the serial of its sheet in the anonymous parts. -/
def engineName (serial : ℕ) (name : Text) : Text :=
  (name.splitOn dot).foldl (fun out part =>
    (if out = [] then out else out ++ [dot]) ++
      if part.head? = some anonymousMark then anonymousMark :: decimalText serial ++ ascii "_" ++ part.tail else part) []

/-- The engine's table of layers; entry 0 is no layer. -/
structure LayerTable where
  layerNames : List Text
  layerRank : List ℕ
  sheetSerial : ℕ
deriving DecidableEq, Repr

/-- The rank of rules in no layer. -/
def lastRank : ℕ := 0xFFFFFFFF

/-- The places of a name and of those it lies in. -/
def pathOf (names : List Text) (i : ℕ) : List ℕ := (dotPrefixes [] (names.getD i [])).map names.idxOf

/-- The places of the layers, in order. -/
def order (names : List Text) : List ℕ :=
  (List.range' 1 (names.length - 1)).insertionSort fun i j => !pathBefore (pathOf names j) (pathOf names i)

def rerank (names : List Text) : List ℕ := lastRank :: (List.range' 1 (names.length - 1)).map (order names).idxOf

def LayerTable.new : LayerTable := ⟨[[]], [lastRank], 0⟩

/-- A sheet is added; the numbers of the layers that it mentions have 16 bits. -/
def LayerTable.addSheet (e : LayerTable) (sheet : List LayerRule) : LayerTable × List ℕ :=
  let parsed := parseSheet sheet
  let serial := e.sheetSerial + 1
  let layers := parsed.layers.map (engineName serial)
  let layerNames := enterAll e.layerNames layers
  (⟨layerNames, if parsed.layers = [] then e.layerRank else rerank layerNames, serial⟩,
    parsed.mentions.map fun m => layerNames.idxOf (layers.getD (m - 1) []) % 2 ^ 16)

/-- The engine after some sheets, and the layers that they mention. -/
def addSheets (sheets : List (List LayerRule)) : LayerTable × List ℕ :=
  sheets.foldl (fun e sheet => ((e.1.addSheet sheet).1, e.2 ++ (e.1.addSheet sheet).2)) (.new, [])

def LayerTable.rankOf (e : LayerTable) (layer : ℕ) : ℕ := e.layerRank.getD layer lastRank

/-! ## Layers by their identifiers -/

/-- The identifiers of a name. -/
def identifiersOf : List NameToken → Option (List Text)
  | [.ident text] => some [text]
  | .ident text :: .delim point :: rest => if point = [dot] then (identifiersOf rest).map (text :: ·) else none
  | _ => none

/-- What a sheet's layers are counted with: the layer around, and the anonymous layers and the mentions so far. -/
structure Mentioned where
  around : LayerName
  anonymous : ℕ
  names : List LayerName
deriving DecidableEq, Repr

def Mentioned.add (m : Mentioned) (name : LayerName) : Mentioned := { m with names := m.names ++ [m.around ++ name] }

mutual

/-- The layers that a rule mentions. An anonymous block is a layer of its own. -/
def LayerRule.identify (serial : ℕ) : LayerRule → Mentioned → Mentioned
  | .statement names, m =>
    match names.mapM identifiersOf with
    | none => m
    | some names => names.foldl (fun m name => m.add (name.map .named)) m
  | .block run contents, m =>
    let number := m.anonymous + 1
    let name := if run = [] then some [.anonymous serial number] else (identifiersOf run).map (·.map .named)
    match name with
    | none => m
    | some name =>
      let opened := Mentioned.add { m with anonymous := if run = [] then number else m.anonymous } name
      let inside := identifyRules serial contents { opened with around := m.around ++ name }
      { inside with around := m.around }

def identifyRules (serial : ℕ) : List LayerRule → Mentioned → Mentioned
  | [], m => m
  | rule :: rest, m => identifyRules serial rest (rule.identify serial m)

end

/-- The layers that sheets mention, in order. -/
def identities (sheets : List (List LayerRule)) : List LayerName :=
  sheets.zipIdx.flatMap fun sheet => (identifyRules (sheet.2 + 1) sheet.1 ⟨[], 0, []⟩).names

/-- A layer and those it lies in, the outermost first. -/
def withOuter (name : LayerName) : List LayerName := name.inits.tail

/-- The layers of sheets in order of first appearance, after no layer. -/
def firstAppearances (sheets : List (List LayerRule)) : List LayerName :=
  enterAll [[]] ((identities sheets).flatMap withOuter)

/-- Layers in order: one that lies in another comes before it, and siblings stand as they first appeared. No
layer is what all lie in. -/
def Precedes (firsts : List LayerName) (a b : LayerName) : Prop :=
  (b <+: a ∧ a ≠ b) ∨ ∃ outer x y restA restB, a = outer ++ x :: restA ∧ b = outer ++ y :: restB ∧
    firsts.idxOf (outer ++ [x]) < firsts.idxOf (outer ++ [y])

/-- What identifiers are unless they are spelled with escapes. -/
def PlainIdent (text : Text) : Prop := text ≠ [] ∧ dot ∉ text ∧ text.head? ≠ some anonymousMark

def PlainName (name : LayerName) : Prop := ∀ text, Segment.named text ∈ name → PlainIdent text

end CtBrowser.Style.LayerNames
