import CtBrowser.Script.Regex.Pattern

/-!
# The backtracking matcher

A matcher is given the continuation that matches the rest of the pattern: it calls it at every
position it can leave, in order, until one succeeds. A failure says nothing of why: a piece that
runs out of budget fails as one that does not match, and leaves a mark in the state.

## Main definitions

- `matchOnce`, `matchPiece`, `matchAlt` — an atom, a piece and alternatives.
- `repeatSimple`, `repeatFrom` — the two ways to repeat an atom.
- `rxSearch` — the first match at or after a position.
-/

namespace CtBrowser.Script.Regex

/-- How deep a match may go, and how many steps it may take. -/
structure Limits where
  maxDepth : ℕ
  maxSteps : ℕ
deriving DecidableEq, Repr

/-- What a match leaves: where the last continuation ended if it succeeded, and the state. -/
structure Outcome where
  hit : Option ℕ
  st : RxState
deriving DecidableEq, Repr

/-- A continuation: matches the rest of the pattern, at a depth and from a position. -/
abbrev Cont := ℕ → RxState → ℕ → Outcome

/-- Matches a part of the pattern, at a depth and from a position, and then the rest. -/
abbrev Matcher := ℕ → RxState → ℕ → Cont → Outcome

/-- No match. -/
def failed (st : RxState) : Outcome := ⟨none, st⟩

/-- The continuation that accepts any position. -/
def accept : Cont := fun _ st pos => ⟨some pos, st⟩

/-- What comes next where a position was found. -/
def Cont.orFail (k : Cont) (d : ℕ) (st : RxState) : Option ℕ → Outcome
  | some pos => k d st pos
  | none => failed st

/-- The second attempt, in the state the first one left, if that failed. -/
def Outcome.orElse (first : Outcome) (second : RxState → Outcome) : Outcome :=
  match first.hit with
  | some _ => first
  | none => second first.st

/-- The state put right after an attempt that failed. -/
def Outcome.onFail (o : Outcome) (restore : RxState → RxState) : Outcome :=
  match o.hit with
  | some _ => o
  | none => failed (restore o.st)

namespace Outcome

theorem orElse_failed (o : Outcome) : o.orElse failed = o := by
  obtain ⟨hit, st⟩ := o
  cases hit <;> rfl

theorem failed_orElse (st : RxState) (second : RxState → Outcome) : (failed st).orElse second = second st := rfl

theorem orElse_assoc (o : Outcome) (second third : RxState → Outcome) :
    (o.orElse second).orElse third = o.orElse fun st => (second st).orElse third := by
  obtain ⟨hit, st⟩ := o
  cases hit <;> rfl

theorem onFail_id (o : Outcome) : o.onFail (fun st => st) = o := by
  obtain ⟨hit, st⟩ := o
  cases hit <;> rfl

theorem orElse_congr {o : Outcome} {second second' : RxState → Outcome}
    (h : o.hit = none → second o.st = second' o.st) : o.orElse second = o.orElse second' := by
  obtain ⟨hit, st⟩ := o
  cases hit with
  | some stop => rfl
  | none => exact h rfl

end Outcome

section Budget

variable (lim : Limits)

/-- One check of the budget: false once it is spent. -/
def budget (d : ℕ) (st : RxState) (step : Bool) : Bool × RxState :=
  if st.exhausted ∨ d > lim.maxDepth then (false, { st with exhausted := true })
  else if step then
    let st := { st with steps := st.steps + 1 }
    if st.steps > lim.maxSteps then (false, { st with exhausted := true }) else (true, st)
  else (true, st)

/-- A matcher one level deeper, behind a check of the budget. -/
def guarded (step : Bool) (m : Matcher) : Matcher := fun d st pos k =>
  match budget lim (d + 1) st step with
  | (true, st) => m (d + 1) st pos k
  | (false, st) => failed st

end Budget

/-! ## Atoms -/

/-- An atom that leaves at most one position. -/
def single (next : RxState → ℕ → Option ℕ) : Matcher := fun d st pos k => k.orFail d st (next st pos)

/-- The strings of a class in order, and then what else it holds. -/
def tryStrings (x : Subject) (last : Matcher) : List Text → Matcher
  | [] => last
  | str :: strings => fun d st pos k =>
    (k.orFail d st (advanceOver x.s st.backward pos str)).orElse fun st => tryStrings x last strings d st pos k

/-- The flags inside a group, by its modifiers. -/
def modified (on off : Modifiers) (st : RxState) : RxState :=
  { st with
    icase := (st.icase || on.icase) && !off.icase
    multi := (st.multi || on.multi) && !off.multi
    dotall := (st.dotall || on.dotall) && !off.dotall }

/-- The flags of another state. -/
def withFlags (outer st : RxState) : RxState :=
  { st with icase := outer.icase, multi := outer.multi, dotall := outer.dotall }

/-- A capture set. -/
def setCapture (cap : Option ℕ) (value : Capture) (st : RxState) : RxState :=
  match cap with
  | some c => { st with caps := st.caps.set c value }
  | none => st

/-- A group. The modifiers hold inside it and nowhere else: the continuation runs with the flags
from outside and puts those of the group back when it fails, since the body may still backtrack. -/
def group (cap : Option ℕ) (on off : Modifiers) (body : Matcher) : Matcher := fun d st pos k =>
  let saved := cap.bind fun c => st.caps.getD c none
  let mods := on.any || off.any
  let inside : RxState → RxState := fun now => if mods then withFlags (modified on off st) now else now
  let outside : RxState → RxState := fun now => if mods then withFlags st now else now
  let result := body d (inside st) pos fun d now stop =>
    (k d (outside (setCapture cap (some (min pos stop, max pos stop)) now)) stop).onFail inside
  let result : Outcome := ⟨result.hit, outside result.st⟩
  result.onFail (setCapture cap saved)

/-- What a lookaround makes of its pattern's match: the direction is put back, and the captures where
they do not stand. -/
def lookedAt (negative : Bool) (st : RxState) (rest : RxState → Outcome) (inner : Outcome) : Outcome :=
  let after := { inner.st with backward := st.backward }
  let dropped := { after with caps := st.caps }
  if negative then if inner.hit = none then rest dropped else failed dropped
  else if inner.hit = none then failed dropped
  else rest after

/-- A lookaround: its pattern is matched in its own direction only to ask whether it can be. -/
def look (backward negative : Bool) (body : Matcher) : Matcher := fun d st pos k =>
  lookedAt negative st (fun now => k d now pos) (body d { st with backward := backward } pos accept)

/-! ## Repetition -/

/-- The state in which a loop that outlasts the subject ends. None does: every turn but the last
moves on. -/
def outlasted (st : RxState) : RxState := { st with exhausted := true }

/-- Whether so many repetitions are all that may be. -/
def Quantifier.full (q : Quantifier) (n : ℕ) : Bool :=
  match q.max with
  | some most => most ≤ n
  | none => false

section Simple

variable (once : Matcher) (q : Quantifier)

/-- As few repetitions as will do. -/
def repeatLazy (k : Cont) (d : ℕ) : ℕ → RxState → ℕ → ℕ → Outcome
  | 0, st, _, _ => failed (outlasted st)
  | fuel + 1, st, pos, n =>
    (if q.min ≤ n then k d st pos else failed st).orElse fun st =>
      if q.full n then failed st
      else
        let turn := once d st pos accept
        let next := turn.hit.getD pos
        if next = pos then failed turn.st else repeatLazy k d fuel turn.st next (n + 1)

/-- Where each number of repetitions leaves the position, the most first. -/
def runOf (d : ℕ) : ℕ → RxState → ℕ → List ℕ → List ℕ × RxState
  | 0, st, pos, shorter => (pos :: shorter, outlasted st)
  | fuel + 1, st, pos, shorter =>
    if q.full shorter.length then (pos :: shorter, st)
    else
      let turn := once d st pos accept
      let next := turn.hit.getD pos
      if next = pos then (pos :: shorter, turn.st) else runOf d fuel turn.st next (pos :: shorter)

/-- The longest run first, then each shorter one down to the minimum. -/
def offer (k : Cont) (d : ℕ) : RxState → List ℕ → Outcome
  | st, [] => failed st
  | st, pos :: shorter =>
    (if q.min ≤ shorter.length then k d st pos else failed st).orElse fun st => offer k d st shorter

/-- An atom that takes one character, repeated in a loop. -/
def repeatSimple (x : Subject) : Matcher := fun d st pos k =>
  let fuel := x.s.length + 2
  if q.greedy then
    let run := runOf once q d fuel st pos []
    offer q k d run.2 run.1
  else repeatLazy once q k d fuel st pos 0

end Simple

section General

variable (once : Matcher) (q : Quantifier)

/-- The captures of a piece cleared. -/
def clearCaptures (caps : List Capture) : List Capture :=
  if q.capsLo < q.capsHi then
    caps.take q.capsLo ++ List.replicate (q.capsHi - q.capsLo) none ++ caps.drop q.capsHi
  else caps

/-- The captures of a piece put back. -/
def restoreCaptures (saved caps : List Capture) : List Capture :=
  if q.capsLo < q.capsHi then
    caps.take q.capsLo ++ (saved.drop q.capsLo).take (q.capsHi - q.capsLo) ++ caps.drop q.capsHi
  else caps

/-- One more repetition after `n`, with the captures inside it cleared until it fails, and then the
rest. -/
def oneMore (d : ℕ) (pos n : ℕ) (rest : Cont) (st : RxState) : Outcome :=
  if q.full n then failed st
  else
    (once d { st with caps := clearCaptures q st.caps } pos rest).onFail fun now =>
      { now with caps := restoreCaptures q st.caps now.caps }

/-- Another repetition before the rest of the pattern, or after it. -/
def inOrder (more done : RxState → Outcome) (st : RxState) : Outcome :=
  if q.greedy then (more st).orElse done else (done st).orElse more

/-- One repetition after the other, each inside the last: `n` of them are done. A repetition that
matches the empty string counts as a failure once the minimum is met; before that, it stands for all
those still owed. -/
def repeatFrom (k : Cont) : ℕ → ℕ → RxState → ℕ → ℕ → Outcome
  | 0, _, st, _, _ => failed (outlasted st)
  | fuel + 1, d, st, pos, n =>
    inOrder q
      (oneMore once q d pos n fun d st next =>
        if next ≠ pos then repeatFrom k fuel d st next (n + 1)
        else if n < q.min then repeatFrom k fuel d st next q.min
        else failed st)
      (fun st => if q.min ≤ n then k d st pos else failed st) st

end General

/-! ## Sequences and alternatives -/

/-- The last pieces of a sequence, `left` of them: the last first when matching backward. -/
def matchSeq (pieces : List Matcher) : ℕ → Matcher
  | 0 => fun d st pos k => k d st pos
  | left + 1 => fun d st pos k =>
    let idx := pieces.length - (left + 1)
    let place := if st.backward then pieces.length - 1 - idx else idx
    match pieces[place]? with
    | some piece => piece d st pos fun d st pos => matchSeq pieces left d st pos k
    | none => failed st

/-- The first alternative that succeeds. -/
def firstOf : List Matcher → Matcher
  | [] => fun _ st _ _ => failed st
  | alt :: alts => fun d st pos k => (alt d st pos k).orElse fun st => firstOf alts d st pos k

/-- Whether an atom takes one character and captures nothing. -/
def Atom.simple : Atom → Bool
  | .lit .. => true
  | .any => true
  | .cls cc => cc.strings.isEmpty
  | _ => false

section Matching

variable (lim : Limits) (x : Subject)

/-- A piece from a matcher of its atom. -/
def quantified (q : Quantifier) (simple : Bool) (once : Matcher) : Matcher :=
  guarded lim true fun d st pos k =>
    if (q.min ≠ 1 ∨ q.max ≠ some 1) ∧ simple then repeatSimple once q x d st pos k
    else repeatFrom once q k (lim.maxDepth + 1) d st pos 0

mutual

/-- What an atom matches, and then the rest. -/
def matchAtom : Atom → Matcher
  | .lit c text => single fun st pos => litAt x st pos c text
  | .any => single fun st pos => anyAt x st pos
  | .cls cc => tryStrings x (single fun st pos => classAt x st pos cc) cc.strings
  | .grp sub cap on off => group cap on off (firstOf (matchSeqs sub))
  | .bol => single fun st pos => stay pos (lineStarts x st pos)
  | .eol => single fun st pos => stay pos (lineEnds x st pos)
  | .wordb => single fun st pos => stay pos (wordBoundary x st pos)
  | .nwordb => single fun st pos => stay pos (!wordBoundary x st pos)
  | .ahead sub => look false false (firstOf (matchSeqs sub))
  | .nahead sub => look false true (firstOf (matchSeqs sub))
  | .behind sub => look true false (firstOf (matchSeqs sub))
  | .nbehind sub => look true true (firstOf (matchSeqs sub))
  | .backref cap refName => single fun st pos => backrefAt x st pos cap refName

/-- Matches a piece as often as its quantifier says, and then the rest. -/
def matchPiece : Piece → Matcher
  | .mk atom q => quantified lim x q atom.simple (guarded lim false (matchAtom atom))

/-- The matchers of the pieces of a sequence. -/
def matchPieces : List Piece → List Matcher
  | [] => []
  | piece :: pieces => matchPiece piece :: matchPieces pieces

/-- The matchers of alternatives. -/
def matchSeqs : List (List Piece) → List Matcher
  | [] => []
  | sq :: alts =>
    let pieces := matchPieces sq
    matchSeq pieces pieces.length :: matchSeqs alts

end

/-- Matches an atom once, whatever its quantifier, and then the rest. -/
def matchOnce (atom : Atom) : Matcher := guarded lim false (matchAtom lim x atom)

/-- Matches the first alternative that lets the rest match. -/
def matchAlt (alts : RxAlt) : Matcher := firstOf (matchSeqs lim x alts)

end Matching

/-! ## Searching -/

/-- The limits of a search: those of each start, and the steps of all together. -/
structure SearchLimits where
  maxDepth : ℕ
  maxSteps : ℕ
  maxSearchSteps : ℕ
deriving DecidableEq, Repr

/-- A match: where it starts and ends, and its captures. -/
structure RxMatch where
  start : ℕ
  stop : ℕ
  caps : List Capture
deriving DecidableEq, Repr

/-- What a search reports: a match, none, or that it gave up. -/
structure RxAnswer where
  found : Option RxMatch
  exhausted : Bool
deriving DecidableEq, Repr

/-- The state an attempt starts in. -/
def startState (p : RxProg) (steps : ℕ) : RxState :=
  { caps := List.replicate p.ngroups none
    icase := p.icase
    multi := p.multi
    dotall := p.dotall
    backward := false
    steps := steps
    exhausted := false }

section Search

variable (lim : SearchLimits) (x : Subject) (searchSteps : ℕ)

/-- The attempt at one start, after so many steps at those before. -/
def attempt (start steps : ℕ) : Outcome :=
  matchAlt ⟨lim.maxDepth, min (steps + lim.maxSteps) searchSteps⟩ x x.p.root 0 (startState x.p steps) start
    accept

/-- Whether a position is inside a code point. -/
def insideSequence (s : Text) (start : ℕ) : Prop := start < s.length ∧ byteAt s start &&& 0xC0 = 0x80

instance (s : Text) (start : ℕ) : Decidable (insideSequence s start) :=
  inferInstanceAs (Decidable (_ ∧ _))

/-- The attempts from one start on, so many of them. -/
def searchFrom (anchored : Bool) : ℕ → ℕ → ℕ → RxAnswer
  | 0, _, _ => ⟨none, false⟩
  | left + 1, start, steps =>
    if insideSequence x.s start then
      if anchored then ⟨none, false⟩ else searchFrom anchored left (start + 1) steps
    else
      let result := attempt lim x searchSteps start steps
      if result.st.exhausted then ⟨none, true⟩
      else match result.hit with
        | some stop => ⟨some ⟨start, stop, result.st.caps⟩, false⟩
        | none => if anchored then ⟨none, false⟩ else searchFrom anchored left (start + 1) result.st.steps

end Search

/-- The first match at or after a byte; only there, when anchored. -/
def rxSearch (lim : SearchLimits) (x : Subject) (start : ℕ) (anchored : Bool) : RxAnswer :=
  let searchSteps := lim.maxSearchSteps + 16 * (x.s.length - min start x.s.length)
  searchFrom lim x searchSteps anchored (x.s.length + 1 - start) start 0

end CtBrowser.Script.Regex
