import CtBrowser.Dom.Tokenizer.Characters
import CtBrowser.Foundations.CharacterMachine

/-!
# The script data states

The text of a script ends at its end tag, except inside `<!-- <script>` where an end tag belongs
to the script that was opened there. The specification has eighteen states for this. The tokenizer
has a level and looks ahead for whole words.

The machine is given the state that an opening leads to. With the specification's own state, which
counts the dashes of the opening, it is the specification's machine.

## Main definitions

- `ScriptState`, `machine`, `specification` — the machine of the specification.
- `scriptDataState`, `readScript` — the tokenizer's own function, and the calls that read a script.
-/

namespace CtBrowser.Dom.ScriptData

open Foundations CharacterMachine

def isAlpha (c : UInt8) : Bool :=
  'a'.toNat ≤ c.toNat ∧ c.toNat ≤ 'z'.toNat ∨ 'A'.toNat ≤ c.toNat ∧ c.toNat ≤ 'Z'.toNat

def isAlnum (c : UInt8) : Bool := isAlpha c || ('0'.toNat ≤ c.toNat ∧ c.toNat ≤ '9'.toNat)

/-- A byte that ends a tag's name. -/
def endsName (c : UInt8) : Bool := isWhitespace c || c == solidus || c == greaterThan

/-! ## The specification's machine -/

/-- The script data states of the specification, with their temporary buffers. -/
inductive ScriptState
  | scriptData
  | lessThanSign
  | endTagOpen
  | endTagName (name : Text)
  | escapeStart
  | escapeStartDash
  | escaped
  | escapedDash
  | escapedDashDash
  | escapedLessThanSign
  | escapedEndTagOpen
  | escapedEndTagName (name : Text)
  | doubleEscapeStart (buffer : Text)
  | doubleEscaped
  | doubleEscapedDash
  | doubleEscapedDashDash
  | doubleEscapedLessThanSign
  | doubleEscapeEnd (buffer : Text)
deriving DecidableEq, Repr

/-- What is emitted for a character, and the state that comes next unless the script is over. -/
abbrev Reaction := Text × Option ScriptState

/-- A character that is reconsumed after some output. -/
def reconsume (out : Text) (r : Reaction) : Reaction := (out ++ r.1, r.2)

/-- The output for a character that means nothing. -/
def plain (c : UInt8) : Text := if c = 0 then replacement else [c]

def inScriptData (c : UInt8) : Reaction :=
  if c = lessThan then ([], some .lessThanSign) else (plain c, some .scriptData)

def inEscaped (c : UInt8) : Reaction :=
  if c = dash then ([dash], some .escapedDash)
  else if c = lessThan then ([], some .escapedLessThanSign)
  else (plain c, some .escaped)

def inDoubleEscaped (c : UInt8) : Reaction :=
  if c = dash then ([dash], some .doubleEscapedDash)
  else if c = lessThan then ([lessThan], some .doubleEscapedLessThanSign)
  else (plain c, some .doubleEscaped)

/-- Inside the name of an end tag, which is over at a byte that ends names. The script ends if the
name is the appropriate one, otherwise all of it was text. -/
def inEndTagName (closeTag : Text) (named : Text → ScriptState) (text : UInt8 → Reaction) (name : Text)
    (c : UInt8) : Reaction :=
  if endsName c ∧ name.map asciiLower = closeTag then ([], none)
  else if isAlpha c then ([], some (named (name ++ [c])))
  else reconsume (ascii "</" ++ name) (text c)

/-- The word after a tag's opening in escaped text, which may be the name that changes the level. -/
def inDoubleEscape (other same : ScriptState) (named : Text → ScriptState) (text : UInt8 → Reaction)
    (buffer : Text) (c : UInt8) : Reaction :=
  if endsName c then ([c], some (if buffer = ascii "script" then other else same))
  else if isAlpha c then ([c], some (named (buffer ++ [asciiLower c])))
  else text c

variable (closeTag : Text) (opened : ScriptState)

/-- What the machine does with a character. -/
def react : ScriptState → UInt8 → Reaction
  | .scriptData, c => inScriptData c
  | .lessThanSign, c =>
    if c = solidus then ([], some .endTagOpen)
    else if c = bang then (ascii "<!", some .escapeStart)
    else reconsume [lessThan] (inScriptData c)
  | .endTagOpen, c =>
    if isAlpha c then inEndTagName closeTag .endTagName inScriptData [] c
    else reconsume (ascii "</") (inScriptData c)
  | .endTagName name, c => inEndTagName closeTag .endTagName inScriptData name c
  | .escapeStart, c => if c = dash then ([dash], some .escapeStartDash) else inScriptData c
  | .escapeStartDash, c => if c = dash then ([dash], some opened) else inScriptData c
  | .escaped, c => inEscaped c
  | .escapedDash, c => if c = dash then ([dash], some .escapedDashDash) else inEscaped c
  | .escapedDashDash, c =>
    if c = dash then ([dash], some .escapedDashDash)
    else if c = greaterThan then ([greaterThan], some .scriptData)
    else inEscaped c
  | .escapedLessThanSign, c =>
    if c = solidus then ([], some .escapedEndTagOpen)
    else if isAlpha c then
      reconsume [lessThan] (inDoubleEscape .doubleEscaped .escaped .doubleEscapeStart inEscaped [] c)
    else reconsume [lessThan] (inEscaped c)
  | .escapedEndTagOpen, c =>
    if isAlpha c then inEndTagName closeTag .escapedEndTagName inEscaped [] c
    else reconsume (ascii "</") (inEscaped c)
  | .escapedEndTagName name, c => inEndTagName closeTag .escapedEndTagName inEscaped name c
  | .doubleEscapeStart buffer, c => inDoubleEscape .doubleEscaped .escaped .doubleEscapeStart inEscaped buffer c
  | .doubleEscaped, c => inDoubleEscaped c
  | .doubleEscapedDash, c => if c = dash then ([dash], some .doubleEscapedDashDash) else inDoubleEscaped c
  | .doubleEscapedDashDash, c =>
    if c = dash then ([dash], some .doubleEscapedDashDash)
    else if c = greaterThan then ([greaterThan], some .scriptData)
    else inDoubleEscaped c
  | .doubleEscapedLessThanSign, c =>
    if c = solidus then ([solidus], some (.doubleEscapeEnd [])) else inDoubleEscaped c
  | .doubleEscapeEnd buffer, c => inDoubleEscape .escaped .doubleEscaped .doubleEscapeEnd inDoubleEscaped buffer c

/-- What has been held back when the input ends. -/
def heldBack : ScriptState → Text
  | .lessThanSign | .escapedLessThanSign => [lessThan]
  | .endTagOpen | .escapedEndTagOpen => ascii "</"
  | .endTagName name | .escapedEndTagName name => ascii "</" ++ name
  | _ => []

/-- The machine, for the state that an opening leads to. -/
def machine : CharacterMachine ScriptState UInt8 UInt8 where
  react := react closeTag opened
  atEnd s := some (heldBack s)

/-- The machine of the specification: the dashes of an opening count. -/
def specification : CharacterMachine ScriptState UInt8 UInt8 := machine closeTag .escapedDashDash

/-! ## The tokenizer's function -/

/-- How deep in escaped text the tokenizer is. -/
inductive Escape
  | outside
  | escaped
  | doubleEscaped
deriving DecidableEq, Repr

/-- What one call of the function comes to. -/
structure ScriptRun where
  data : Text
  rest : Text
  escape : Escape
  -- the end tag comes next, and is read as a tag
  ended : Bool := false
  starved : Bool := false
deriving DecidableEq, Repr

/-- What one turn of the loop comes to. -/
inductive Turn
  | again (data rest : Text) (escape : Escape)
  | done (run : ScriptRun)
deriving DecidableEq, Repr

/-- Whether the appropriate end tag is next, or could be with more input. -/
inductive Ahead
  | yes
  | no
  | starved
deriving DecidableEq, Repr

variable (truncated : Bool)

/-- What follows the name of the appropriate end tag has to end it. -/
def afterName : Text → Ahead
  | [] => if truncated then .starved else .no
  | follows :: _ => if endsName follows then .yes else .no

/-- Looks for the appropriate end tag after `</`. -/
def appropriateEndTagAhead (rest : Text) : Ahead :=
  if closeTag = [] then .no
  else if rest.length < closeTag.length then
    if truncated ∧ asciiIequals rest (closeTag.take rest.length) then .starved else .no
  else if asciiIequals (rest.take closeTag.length) closeTag = false then .no
  else afterName truncated (rest.drop closeTag.length)

/-- The view ends too early to decide: the text so far is a token, no text at all is starved. -/
def cut (data text : Text) (escape : Escape) : Turn := .done ⟨data, text, escape, false, data.isEmpty⟩

/-- A byte of text. -/
def append (data : Text) (c : UInt8) (rest : Text) (escape : Escape) : Turn :=
  .again (appendText .script data c rest).1 (appendText .script data c rest).2 escape

/-- A word after a tag's opening in escaped text, which changes the level if it is `script`. -/
def word (data opening rest : Text) (escape other : Escape) : Turn :=
  let name := rest.takeWhile (isAlnum ·)
  let after := rest.dropWhile (isAlnum ·)
  if truncated ∧ after = [] then cut data (opening ++ rest) escape
  else if asciiIequals name (ascii "script") ∧ after.head?.any (endsName ·) then
    .again (data ++ opening ++ name) after other
  else .again (data ++ opening ++ name) after escape

/-- A turn at a less-than sign. -/
def lessThanTurn (data rest : Text) (escape : Escape) : Turn :=
  match rest with
  | [] => if truncated then cut data [lessThan] escape else append data lessThan [] escape
  | next :: more =>
    if next = solidus then
      if escape = .doubleEscaped then word truncated data (ascii "</") more escape .escaped
      else
        match appropriateEndTagAhead closeTag truncated more with
        | .yes =>
          if data = [] then .done ⟨[], lessThan :: rest, .outside, true, false⟩
          else .done ⟨data, lessThan :: rest, escape, false, false⟩
        | .starved => .done ⟨data, lessThan :: rest, escape, false, true⟩
        | .no => append data lessThan rest escape
    else if next = bang ∧ escape = .outside then
      if truncated ∧ rest.length < 3 then cut data (lessThan :: rest) escape
      else if rest.take 3 = ascii "!--" then .again (data ++ ascii "<!--") (rest.drop 3) .escaped
      else append data lessThan rest escape
    else if escape = .escaped ∧ isAlpha next then word truncated data [lessThan] rest escape .doubleEscaped
    else append data lessThan rest escape

/-- One turn of the loop. -/
def turn (data : Text) (c : UInt8) (rest : Text) (escape : Escape) : Turn :=
  if c = lessThan then lessThanTurn closeTag truncated data rest escape
  else if c = dash ∧ escape ≠ .outside then
    if truncated ∧ rest.length < 2 then cut data (c :: rest) escape
    else if rest.take 2 = ascii "->" then .again (data ++ ascii "-->") (rest.drop 2) .outside
    else append data c rest escape
  else if c = cr ∧ truncated ∧ rest = [] then cut data (c :: rest) escape
  else append data c rest escape

/-- The loop. Each turn takes a byte. -/
def loop : ℕ → Text → Text → Escape → ScriptRun
  | _, data, [], escape => ⟨data, [], escape, false, false⟩
  | 0, data, rest, escape => ⟨data, rest, escape, false, false⟩
  | fuel + 1, data, c :: rest, escape =>
    match turn closeTag truncated data c rest escape with
    | .done run => run
    | .again data rest escape => loop fuel data rest escape

/-- Reads a run of text of a script, or comes to its end tag. -/
def scriptDataState (escape : Escape) (text : Text) : ScriptRun :=
  loop closeTag truncated text.length [] text escape

/-- The calls that read a script to its end: the characters of its tokens, and the text at its end tag
unless the input ends first. -/
def readScript : ℕ → Escape → Text → Text × Option Text
  | _, _, [] | 0, _, _ :: _ => ([], none)
  | calls + 1, escape, c :: rest =>
    let run := scriptDataState closeTag false escape (c :: rest)
    if run.ended then ([], some run.rest)
    else (run.data ++ (readScript calls run.escape run.rest).1, (readScript calls run.escape run.rest).2)

end CtBrowser.Dom.ScriptData
