import CtBrowser.Core.Text

/-!
# The Input Stream of the Parser

The buffer that the tokenizer reads and that `document.write` inserts into, with the stack of
insertion points: one for each script that the parser runs, and the end of an open stream under
them. The calls of the host and of the parser into each other are a stack of their own, so that a
run is a sequence of events, however deep they nest.

What the tokenizer answers is left open: any token within its view, `incomplete` when the view is
truncated, the end of the file when nothing is left of a view that is not. The elements of the
stream are of any type, so that bytes can be told apart by where they come from.

## Main definitions

- `InputStream` — the state.
- `write`, `close`, `enter`, `leave` — the operations.
- `Event`, `step`, `run` — what can happen next, and a run.
-/

namespace CtBrowser.Dom

variable {α : Type}

/-- A script that the parser runs. What is recorded of it decides nothing: it is what statements
about the order of the texts refer to. -/
structure RunningScript (α : Type) where
  -- what had been read when the script started, and what was left in the stream
  read : List α
  remainder : List α
  -- what the script has written
  wrote : List α := []
deriving DecidableEq, Repr

/-- A call that has not returned. -/
inductive Call (α : Type)
  -- the loop that reads tokens
  | pump
  -- the host's hook before a script
  | checkpoint
  -- the host's code that a token runs without being a script
  | hook
  -- a script at its end tag, and one that the parser waited for
  | script (s : RunningScript α)
  | blocking (s : RunningScript α)
deriving DecidableEq, Repr

/-- The input stream, with the parser's flags beside it. -/
structure InputStream (α : Type) where
  stream : List α
  -- the next unread element
  position : ℕ := 0
  -- the innermost insertion point comes last
  insertionPoints : List ℕ := []
  openStream : Bool := false
  finished : Bool := false
  aborted : Bool := false
  paused : Bool := false
  pendingBlocking : Bool := false
  nesting : ℕ := 0
  onScript : Bool := true
  -- the innermost call comes first
  calls : List (Call α) := []
  -- the texts of the tokens so far, and those of the writes
  tokens : List (List α) := []
  written : List (List α) := []
deriving DecidableEq, Repr

/-- A text put into a list at a position. -/
def insertText (stream : List α) (at' : ℕ) (text : List α) : List α :=
  stream.take at' ++ text ++ stream.drop at'

/-- What the innermost script has written, with a text added. -/
def noteWrite (text : List α) : List (Call α) → List (Call α)
  | .script s :: calls => .script { s with wrote := s.wrote ++ text } :: calls
  | .blocking s :: calls => .blocking { s with wrote := s.wrote ++ text } :: calls
  | calls => calls

namespace InputStream

/-- Where the tokenizer's view of the stream ends. -/
def limit (s : InputStream α) : ℕ := s.insertionPoints.getLast?.getD s.stream.length

/-- Whether the view may end short of the stream's end. -/
def truncated (s : InputStream α) : Bool := !s.insertionPoints.isEmpty || s.openStream

/-- Whether the loop goes on reading. -/
def reading (s : InputStream α) : Bool := !s.aborted && !s.finished && !s.paused

/-- A call that reads tokens. -/
def pump (s : InputStream α) : InputStream α := { s with calls := .pump :: s.calls }

/-- The start of a parse. -/
def begin (input : List α) (openStream onScript : Bool) : InputStream α :=
  pump
    { stream := input
      insertionPoints := if openStream then [input.length] else []
      openStream
      onScript }

def write (text : List α) (s : InputStream α) : InputStream α :=
  if s.finished || s.aborted then s
  else
    match s.insertionPoints.getLast? with
    | none => s
    | some at' =>
      pump
        { s with
          stream := insertText s.stream at' text
          insertionPoints := s.insertionPoints.map fun p => if at' ≤ p then p + text.length else p
          calls := noteWrite text s.calls
          written := s.written ++ [text] }

def close (s : InputStream α) : InputStream α :=
  if s.finished || !s.openStream then s
  else
    let s := { s with openStream := false, insertionPoints := s.insertionPoints.tail }
    if s.nesting = 0 then s.pump else s

/-- A token of `n` elements. -/
def read (n : ℕ) (s : InputStream α) : InputStream α :=
  { s with
    position := s.position + n
    tokens := s.tokens ++ [(s.stream.drop s.position).take n] }

/-- The end of a parse. -/
def finish (s : InputStream α) : InputStream α :=
  { s with finished := true, insertionPoints := [] }

/-- A script started, with the insertion point just before the next element. -/
def enter (call : RunningScript α → Call α) (s : InputStream α) : InputStream α :=
  { s with
    insertionPoints := s.insertionPoints ++ [s.position]
    nesting := s.nesting + 1
    calls :=
      call { read := s.stream.take s.position, remainder := s.stream.drop s.position } :: s.calls }

/-- A script has returned: its insertion point is gone. -/
def exit (s : InputStream α) : InputStream α :=
  { s with
    nesting := s.nesting - 1
    insertionPoints := s.insertionPoints.dropLast
    calls := s.calls.tail }

/-- The script that the parser waits for, if there is one, is started. -/
def runPending (s : InputStream α) : InputStream α :=
  if s.pendingBlocking && !s.aborted then enter .blocking { s with pendingBlocking := false } else s

/-- The innermost call of the host returns. -/
def leave (s : InputStream α) : Option (InputStream α) :=
  match s.calls with
  | .hook :: calls => some { s with calls }
  | .script _ :: _ =>
    let s := s.exit
    if 0 < s.nesting then some { s with paused := s.paused || s.pendingBlocking }
    else some (runPending { s with paused := false })
  | .blocking _ :: _ => some (runPending { s.exit with paused := false })
  | _ => none

/-- Whether it is the host that runs: its event loop, a script or a hook. -/
def hostRuns (s : InputStream α) : Bool :=
  match s.calls with
  | [] | .hook :: _ | .script _ :: _ | .blocking _ :: _ => true
  | _ => false

/-- What can happen next. -/
inductive Event (α : Type)
  -- the tokenizer's answers, a token with whether it is the end tag of a script
  | token (n : ℕ) (endsScript : Bool)
  | incomplete
  | endOfFile
  -- the loop ends because it is not to go on
  | stop
  -- a token runs the host's code
  | hook
  -- the hook before a script returns
  | start
  -- what the host does
  | write (text : List α)
  | close
  | block
  | abort
  | leave
deriving DecidableEq, Repr

/-- An event, when it can happen. -/
def step (s : InputStream α) : Event α → Option (InputStream α)
  | .token n endsScript =>
    match s.calls with
    | .pump :: _ =>
      if s.reading && s.position + n ≤ s.limit then
        let s := s.read n
        if endsScript && s.onScript then some { s with calls := .checkpoint :: s.calls } else some s
      else none
    | _ => none
  | .incomplete =>
    match s.calls with
    | .pump :: calls => if s.reading && s.truncated then some { s with calls } else none
    | _ => none
  | .endOfFile =>
    match s.calls with
    | .pump :: calls =>
      if s.reading && !s.truncated && s.position = s.stream.length then
        some { s.finish with calls }
      else none
    | _ => none
  | .stop =>
    match s.calls with
    | .pump :: calls => if s.reading then none else some { s with calls }
    | _ => none
  | .hook =>
    match s.calls with
    | .pump :: _ => some { s with calls := .hook :: s.calls }
    | _ => none
  | .start =>
    match s.calls with
    | .checkpoint :: calls =>
      if s.aborted then some { s with calls } else some (enter .script { s with calls })
    | _ => none
  | .write text => if s.hostRuns then some (s.write text) else none
  | .close => if s.hostRuns then some s.close else none
  | .block => if s.hostRuns then some { s with pendingBlocking := true } else none
  | .abort => some { s with aborted := true }
  | .leave => s.leave

/-- A sequence of events. -/
def run : List (Event α) → InputStream α → Option (InputStream α)
  | [], s => some s
  | e :: events, s => (s.step e).bind (run events)

end InputStream

end CtBrowser.Dom
