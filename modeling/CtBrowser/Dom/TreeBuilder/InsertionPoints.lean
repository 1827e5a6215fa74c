import CtBrowser.Dom.TreeBuilder.InputStream
import Mathlib.Data.List.Flatten
import Mathlib.Data.List.Forall2
import Mathlib.Data.List.Perm.Basic

/-!
# Insertion Points

However the parser and the scripts that it runs call each other, the tokenizer has passed no
insertion point and the inner points are at or before the outer ones. What a script writes follows
what it has written before, and comes before what was left in the stream when it started: the rest
of the text of the script around it, and of the file. The tokens are the stream's elements in their
order, each once.

## Main definitions

- `Placed` — where the texts of a running script are.
- `Inv` — the invariant.

## Main results

- `Inv.step` — every event keeps it.
- `insertionPoints_of_run` — what it says of every run.
-/

namespace CtBrowser.Dom

variable {α : Type}

/-! ## A text in the middle of a list -/

section InsertText

variable (stream : List α) (at' : ℕ) (text : List α)

theorem insertText_append (before after : List α) :
    insertText (before ++ after) before.length text = before ++ text ++ after := by
  simp [insertText]

theorem length_insertText : (insertText stream at' text).length = stream.length + text.length := by
  simp only [insertText, List.length_append, List.length_take, List.length_drop]
  omega

theorem sublist_insertText : stream.Sublist (insertText stream at' text) := by
  conv_lhs => rw [← List.take_append_drop at' stream]
  rw [insertText, List.append_assoc]
  exact (List.Sublist.refl _).append (List.sublist_append_right _ _)

theorem insertText_perm : (insertText stream at' text).Perm (stream ++ text) := by
  have hswap : (insertText stream at' text).Perm (stream.take at' ++ (stream.drop at' ++ text)) := by
    rw [insertText, List.append_assoc]
    exact List.perm_append_comm.append_left _
  rwa [← List.append_assoc, List.take_append_drop] at hswap

theorem take_insertText {n : ℕ} (hn : n ≤ at') (hat : at' ≤ stream.length) :
    (insertText stream at' text).take n = stream.take n := by
  rw [insertText, List.append_assoc, List.take_append_of_le_length (by simp; omega), List.take_take,
    Nat.min_eq_left hn]

end InsertText

/-! ## Where the texts of a script are -/

/-- The scripts that run, the innermost first. -/
def runningScripts (calls : List (Call α)) : List (RunningScript α) :=
  calls.filterMap fun
    | .script s | .blocking s => some s
    | _ => none

/-- Between what had been read when a script started and what was left, up to its insertion point,
is what was written since; what the script wrote itself is there in its order. -/
structure Placed (stream : List α) (position : ℕ) (s : RunningScript α) (point : ℕ)
    (since : List α) : Prop where
  stream : stream = s.read ++ since ++ s.remainder
  wrote : s.wrote.Sublist since
  read : s.read.length ≤ position
  point : point = (s.read ++ since).length

section Placed

variable {stream : List α} {position point at' : ℕ} {s : RunningScript α} {since : List α}

theorem Placed.insert (h : Placed stream position s point since) (hposition : position ≤ at')
    (hat : at' ≤ point) (text : List α) :
    Placed (insertText stream at' text) position s (point + text.length)
      (insertText since (at' - s.read.length) text) := by
  have hread := h.read.trans hposition
  have hpoint := h.point
  rw [List.length_append] at hpoint
  obtain ⟨front, back, rfl, hfront⟩ : ∃ front back,
      since = front ++ back ∧ front.length = at' - s.read.length :=
    ⟨_, _, (List.take_append_drop _ since).symm, List.length_take_of_le (by omega)⟩
  have hat' : at' = (s.read ++ front).length := by
    rw [List.length_append]
    omega
  rw [← hfront, insertText_append]
  refine ⟨?_, h.wrote.trans ?_, h.read, ?_⟩
  · have hstream : stream = s.read ++ front ++ (back ++ s.remainder) := by
      rw [h.stream]
      simp only [List.append_assoc]
    rw [hstream, hat', insertText_append]
    simp only [List.append_assoc]
  · rw [← insertText_append]
    exact sublist_insertText _ _ _
  · rw [h.point]
    simp only [List.length_append]
    omega

theorem Placed.write (h : Placed stream position s point since) (text : List α) :
    Placed (insertText stream point text) position { s with wrote := s.wrote ++ text }
      (point + text.length) (since ++ text) where
  stream := by
    rw [h.stream, h.point, insertText_append]
    simp only [List.append_assoc]
  wrote := h.wrote.append (.refl _)
  read := h.read
  point := by
    rw [h.point]
    simp only [List.length_append]
    omega

theorem Placed.mono (h : Placed stream position s point since) {position' : ℕ}
    (hle : position ≤ position') : Placed stream position' s point since :=
  { h with read := h.read.trans hle }

theorem Placed.start (hposition : position ≤ stream.length) :
    Placed stream position { read := stream.take position, remainder := stream.drop position }
      position [] where
  stream := by simp
  wrote := .refl _
  read := by simp
  point := by simp [hposition]

end Placed

namespace InputStream

/-- The stack of insertion points is ordered above the position, each running script has its own,
and what was tokenized is the front of the stream. -/
structure Inv (input : List α) (s : InputStream α) : Prop where
  bounded : s.position ≤ s.stream.length
  within : ∀ p ∈ s.insertionPoints, s.position ≤ p ∧ p ≤ s.stream.length
  ordered : s.insertionPoints.Pairwise (· ≥ ·)
  tokens : s.tokens.flatten = s.stream.take s.position
  texts : s.stream.Perm (input ++ s.written.flatten)
  finished : s.finished → s.position = s.stream.length
  running : ∃ outer inner, s.insertionPoints = outer ++ inner.reverse ∧
    outer.length = (if s.openStream then 1 else 0) ∧
    List.Forall₂ (fun p script => ∃ since, Placed s.stream s.position script p since) inner
      (runningScripts s.calls)

variable {input : List α} {s s' : InputStream α}

theorem Inv.begin (input : List α) (openStream onScript : Bool) :
    Inv input (begin input openStream onScript) where
  bounded := Nat.zero_le _
  within p hp := by
    cases openStream with
    | true => exact ⟨Nat.zero_le _, (List.mem_singleton.mp hp).le⟩
    | false => cases hp
  ordered := by cases openStream <;> simp [InputStream.begin, pump]
  tokens := by simp [InputStream.begin, pump]
  texts := by simp [InputStream.begin, pump]
  finished h := by cases h
  running := ⟨_, [], (List.append_nil _).symm, by cases openStream <;> rfl, .nil⟩

theorem Inv.congr (h : Inv input s) (hstream : s'.stream = s.stream)
    (hposition : s'.position = s.position) (hpoints : s'.insertionPoints = s.insertionPoints)
    (hopen : s'.openStream = s.openStream) (hfinished : s'.finished = s.finished)
    (hscripts : runningScripts s'.calls = runningScripts s.calls) (htokens : s'.tokens = s.tokens)
    (hwritten : s'.written = s.written) : Inv input s' := by
  obtain ⟨hbounded, hwithin, hordered, htok, htexts, hfin, hscr⟩ := h
  constructor
  all_goals simp only [hstream, hposition, hpoints, hopen, hfinished, hscripts, htokens, hwritten]
  all_goals assumption

theorem Inv.last_le (h : Inv input s) {at' : ℕ} (hlast : s.insertionPoints.getLast? = some at') :
    ∀ p ∈ s.insertionPoints, at' ≤ p := by
  obtain ⟨front, hfront⟩ := List.getLast?_eq_some_iff.mp hlast
  have hordered := h.ordered
  rw [hfront, List.pairwise_append] at hordered
  rw [hfront]
  intro p hp
  rcases List.mem_append.mp hp with hp | hp
  · exact hordered.2.2 p hp at' (.head _)
  · exact (List.mem_singleton.mp hp).ge

theorem Inv.limit_le (h : Inv input s) : s.position ≤ s.limit ∧ s.limit ≤ s.stream.length ∧
    ∀ p ∈ s.insertionPoints, s.limit ≤ p := by
  unfold limit
  cases hlast : s.insertionPoints.getLast? with
  | none => simpa [List.getLast?_eq_none_iff.mp hlast] using h.bounded
  | some at' =>
    have hwithin := h.within at' (List.mem_of_getLast? hlast)
    exact ⟨hwithin.1, hwithin.2, h.last_le hlast⟩

/-! ## Events -/

theorem Inv.read (h : Inv input s) {n : ℕ} (hn : s.position + n ≤ s.limit) :
    Inv input (s.read n) where
  bounded := hn.trans h.limit_le.2.1
  within p hp := ⟨hn.trans (h.limit_le.2.2 p hp), (h.within p hp).2⟩
  ordered := h.ordered
  tokens := by
    show (s.tokens ++ [_]).flatten = s.stream.take (s.position + n)
    rw [List.flatten_append, h.tokens, List.take_add]
    simp
  texts := h.texts
  finished hfin := by
    have hend := h.finished hfin
    have hlimit := h.limit_le.2.1
    show s.position + n = s.stream.length
    omega
  running := by
    obtain ⟨outer, inner, hpoints, houter, hplaced⟩ := h.running
    exact ⟨outer, inner, hpoints, houter, hplaced.imp fun _ _ hp =>
      hp.imp fun _ hp => hp.mono (Nat.le_add_right _ _)⟩

theorem noteWrite_cases (text : List α) (calls : List (Call α)) :
    runningScripts (noteWrite text calls) = runningScripts calls ∨
      ∃ script rest, runningScripts calls = script :: rest ∧
        runningScripts (noteWrite text calls) =
          { script with wrote := script.wrote ++ text } :: rest := by
  unfold noteWrite
  split
  · exact .inr ⟨_, _, rfl, rfl⟩
  · exact .inr ⟨_, _, rfl, rfl⟩
  · exact .inl rfl

theorem Inv.write (h : Inv input s) (text : List α) : Inv input (s.write text) := by
  unfold InputStream.write
  split_ifs with hends
  · exact h
  split
  · exact h
  next at' hlast =>
    have hat := h.within at' (List.mem_of_getLast? hlast)
    have hshift : (s.insertionPoints.map fun p => if at' ≤ p then p + text.length else p) =
        s.insertionPoints.map (· + text.length) :=
      List.map_congr_left fun p hp => if_pos (h.last_le hlast p hp)
    rw [hshift]
    constructor
    · show s.position ≤ (insertText s.stream at' text).length
      rw [length_insertText]
      exact h.bounded.trans (Nat.le_add_right _ _)
    · show ∀ p ∈ s.insertionPoints.map (· + text.length), s.position ≤ p ∧
        p ≤ (insertText s.stream at' text).length
      rw [length_insertText, List.forall_mem_map]
      exact fun p hp => ⟨(h.within p hp).1.trans (Nat.le_add_right _ _),
        Nat.add_le_add_right (h.within p hp).2 _⟩
    · exact List.pairwise_map.mpr (h.ordered.imp fun hle => Nat.add_le_add_right hle _)
    · show s.tokens.flatten = (insertText s.stream at' text).take s.position
      rw [take_insertText _ _ _ hat.1 hat.2, h.tokens]
    · show (insertText s.stream at' text).Perm (input ++ (s.written ++ [text]).flatten)
      have htexts := (insertText_perm s.stream at' text).trans (h.texts.append_right text)
      simpa using htexts
    · intro hfin
      simp [show s.finished = true from hfin] at hends
    · obtain ⟨outer, inner, hpoints, houter, hplaced⟩ := h.running
      refine ⟨outer.map (· + text.length), inner.map (· + text.length), ?_,
        (List.length_map _).trans houter, ?_⟩
      · show s.insertionPoints.map (· + text.length) = _
        rw [hpoints, List.map_append, List.map_reverse]
      · rw [List.forall₂_map_left_iff]
        show List.Forall₂ _ inner (runningScripts (noteWrite text s.calls))
        have hinner : ∀ p ∈ inner, at' ≤ p := fun p hp =>
          h.last_le hlast p (hpoints ▸ List.mem_append_right _ (List.mem_reverse.mpr hp))
        have hinsert (p : ℕ) (script : RunningScript α)
            (hp : at' ≤ p ∧ ∃ since, Placed s.stream s.position script p since) :
            ∃ since, Placed (insertText s.stream at' text) s.position script (p + text.length)
              since := by
          obtain ⟨hle, since, hp⟩ := hp
          exact ⟨_, hp.insert hat.1 hle text⟩
        have hboth := (List.forall₂_and_left _ _).mpr ⟨hinner, hplaced⟩
        rcases noteWrite_cases text s.calls with hsame | ⟨script, rest, hscripts, hnoted⟩
        · rw [hsame]
          exact hboth.imp hinsert
        · -- the innermost insertion point is the one that is written at
          rw [hscripts] at hboth
          rw [hnoted]
          cases hboth with
          | @cons p _ ps _ hfirst hrest =>
            obtain rfl : p = at' := by
              have hlast' : s.insertionPoints.getLast? = some p := by
                rw [hpoints, List.reverse_cons, ← List.append_assoc, List.getLast?_concat]
              exact Option.some.inj (hlast'.symm.trans hlast)
            obtain ⟨-, since, hplacedFirst⟩ := hfirst
            exact .cons ⟨_, hplacedFirst.write text⟩ (hrest.imp hinsert)

theorem Inv.close (h : Inv input s) : Inv input s.close := by
  unfold InputStream.close
  dsimp only
  split_ifs with hclosed
  · exact h
  all_goals
    obtain ⟨outer, inner, hpoints, houter, hplaced⟩ := h.running
    have hopen : s.openStream = true := by
      by_contra hopen
      simp [hopen] at hclosed
    rw [hopen, if_pos rfl] at houter
    obtain ⟨bottom, rfl⟩ := List.length_eq_one_iff.mp houter
    have htail : s.insertionPoints.tail = inner.reverse := by rw [hpoints]; rfl
    have hsublist := List.tail_sublist s.insertionPoints
    exact ⟨h.bounded, fun p hp => h.within p (hsublist.subset hp), h.ordered.sublist hsublist,
      h.tokens, h.texts, h.finished, [], inner, htail, rfl, hplaced⟩

theorem Inv.finish (h : Inv input s) (htruncated : s.truncated = false)
    (hend : s.position = s.stream.length) : Inv input s.finish := by
  obtain ⟨outer, inner, hpoints, houter, hplaced⟩ := h.running
  have hnone : s.insertionPoints = [] ∧ s.openStream = false := by
    simpa [truncated] using htruncated
  obtain ⟨-, hinner⟩ : outer = [] ∧ inner = [] := by simpa [hpoints] using hnone.1
  exact ⟨h.bounded, by simp [InputStream.finish], List.Pairwise.nil, h.tokens, h.texts,
    fun _ => hend, [], inner, by simp [InputStream.finish, hinner],
    by simp [InputStream.finish, hnone.2], hplaced⟩

theorem Inv.enter (h : Inv input s) {call : RunningScript α → Call α}
    (hcall : ∀ script, runningScripts (call script :: s.calls) = script :: runningScripts s.calls) :
    Inv input (s.enter call) := by
  obtain ⟨outer, inner, hpoints, houter, hplaced⟩ := h.running
  refine ⟨h.bounded, ?_, ?_, h.tokens, h.texts, h.finished, outer, s.position :: inner, ?_, houter,
    ?_⟩
  · exact List.forall_mem_append.mpr
      ⟨h.within, List.forall_mem_singleton.mpr ⟨le_rfl, h.bounded⟩⟩
  · exact List.pairwise_append.mpr ⟨h.ordered, List.pairwise_singleton _ _, fun p hp q hq =>
      List.mem_singleton.mp hq ▸ (h.within p hp).1⟩
  · show s.insertionPoints ++ [s.position] = _
    rw [hpoints, List.reverse_cons, List.append_assoc]
  · show List.Forall₂ _ _ (runningScripts (call _ :: s.calls))
    rw [hcall]
    exact .cons ⟨[], .start h.bounded⟩ hplaced

theorem Inv.exit (h : Inv input s) {script : RunningScript α}
    (hcalls : runningScripts s.calls = script :: runningScripts s.calls.tail) :
    Inv input s.exit := by
  obtain ⟨outer, inner, hpoints, houter, hplaced⟩ := h.running
  rw [hcalls] at hplaced
  cases hplaced with
  | @cons p _ inner _ hfirst hrest =>
    have hdrop : s.insertionPoints.dropLast = outer ++ inner.reverse := by
      rw [hpoints, List.reverse_cons, ← List.append_assoc, List.dropLast_concat]
    have hsublist := List.dropLast_sublist s.insertionPoints
    exact ⟨h.bounded, fun p hp => h.within p (hsublist.subset hp), h.ordered.sublist hsublist,
      h.tokens, h.texts, h.finished, outer, inner, hdrop, houter, hrest⟩

theorem Inv.runPending (h : Inv input s) : Inv input s.runPending := by
  unfold InputStream.runPending
  split_ifs
  · have hstarted : Inv input { s with pendingBlocking := false } :=
      h.congr rfl rfl rfl rfl rfl rfl rfl rfl
    exact hstarted.enter fun _ => rfl
  · exact h

theorem Inv.leave (h : Inv input s) (hs : s.leave = some s') : Inv input s' := by
  have hexit {script : RunningScript α} {calls : List (Call α)} {call : Call α}
      (hcalls : s.calls = call :: calls)
      (hcall : runningScripts (call :: calls) = script :: runningScripts calls) (paused : Bool) :
      Inv input { s.exit with paused } :=
    (h.exit (by rw [hcalls]; exact hcall)).congr rfl rfl rfl rfl rfl rfl rfl rfl
  unfold InputStream.leave at hs
  split at hs
  next calls hcalls =>
    obtain rfl := Option.some.inj hs
    exact h.congr rfl rfl rfl rfl rfl (by rw [hcalls]; rfl) rfl rfl
  next script calls hcalls =>
    dsimp only at hs
    split_ifs at hs
    · obtain rfl := Option.some.inj hs
      exact hexit hcalls rfl _
    · obtain rfl := Option.some.inj hs
      exact (hexit hcalls rfl false).runPending
  next script calls hcalls =>
    obtain rfl := Option.some.inj hs
    exact (hexit hcalls rfl false).runPending
  · cases hs

theorem Inv.step (h : Inv input s) {e : Event α} (hs : s.step e = some s') : Inv input s' := by
  have hcalls {calls : List (Call α)} (heq : runningScripts calls = runningScripts s.calls) :
      Inv input { s with calls } := h.congr rfl rfl rfl rfl rfl heq rfl rfl
  cases e with
  | token n endsScript =>
    simp only [InputStream.step] at hs
    split at hs
    · split_ifs at hs with hread hends
      all_goals
        obtain rfl := Option.some.inj hs
        have hn : s.position + n ≤ s.limit := by simp_all
      · exact (h.read hn).congr rfl rfl rfl rfl rfl rfl rfl rfl
      · exact h.read hn
    · cases hs
  | incomplete =>
    simp only [InputStream.step] at hs
    split at hs
    next calls heq =>
      split_ifs at hs
      obtain rfl := Option.some.inj hs
      exact hcalls (by rw [heq]; rfl)
    · cases hs
  | endOfFile =>
    simp only [InputStream.step] at hs
    split at hs
    next calls heq =>
      split_ifs at hs with hend
      obtain rfl := Option.some.inj hs
      have hfinish : Inv input s.finish := h.finish (by simp_all) (by simp_all)
      exact hfinish.congr rfl rfl rfl rfl rfl (by show _ = runningScripts s.calls; rw [heq]; rfl)
        rfl rfl
    · cases hs
  | stop =>
    simp only [InputStream.step] at hs
    split at hs
    next calls heq =>
      split_ifs at hs
      obtain rfl := Option.some.inj hs
      exact hcalls (by rw [heq]; rfl)
    · cases hs
  | hook =>
    simp only [InputStream.step] at hs
    split at hs
    · obtain rfl := Option.some.inj hs
      exact hcalls rfl
    · cases hs
  | start =>
    simp only [InputStream.step] at hs
    split at hs
    next calls heq =>
      have hreturned : Inv input { s with calls } := hcalls (by rw [heq]; rfl)
      split_ifs at hs
      · obtain rfl := Option.some.inj hs
        exact hreturned
      · obtain rfl := Option.some.inj hs
        exact hreturned.enter fun _ => rfl
    · cases hs
  | write text =>
    simp only [InputStream.step] at hs
    split_ifs at hs
    obtain rfl := Option.some.inj hs
    exact h.write text
  | close =>
    simp only [InputStream.step] at hs
    split_ifs at hs
    obtain rfl := Option.some.inj hs
    exact h.close
  | block =>
    simp only [InputStream.step] at hs
    split_ifs at hs
    obtain rfl := Option.some.inj hs
    exact h.congr rfl rfl rfl rfl rfl rfl rfl rfl
  | abort =>
    obtain rfl := Option.some.inj hs
    exact h.congr rfl rfl rfl rfl rfl rfl rfl rfl
  | leave => exact h.leave hs

/-! ## Runs -/

theorem stream_write (s : InputStream α) (text : List α) :
    s.stream.Sublist (s.write text).stream := by
  unfold InputStream.write
  split_ifs
  · exact .refl _
  split
  · exact .refl _
  · exact sublist_insertText _ _ _

theorem stream_step {e : Event α} (hs : s.step e = some s') : s.stream.Sublist s'.stream := by
  cases e with
  | write text =>
    simp only [InputStream.step] at hs
    split_ifs at hs
    obtain rfl := Option.some.inj hs
    exact stream_write s text
  | _ =>
    have hsame : s'.stream = s.stream := by
      simp only [InputStream.step] at hs
      grind [InputStream.read, InputStream.finish, InputStream.enter, InputStream.leave,
        InputStream.exit, InputStream.runPending, InputStream.close, InputStream.pump]
    rw [hsame]

theorem run_append (front back : List (Event α)) (s : InputStream α) :
    run (front ++ back) s = (run front s).bind (run back) := by
  induction front generalizing s with
  | nil => rfl
  | cons e front ih =>
    rw [List.cons_append, run, run, Option.bind_assoc]
    exact congrArg _ (funext ih)

theorem Inv.run (h : Inv input s) {events : List (Event α)} (hs : run events s = some s') :
    Inv input s' ∧ s.stream.Sublist s'.stream := by
  induction events generalizing s with
  | nil =>
    obtain rfl := Option.some.inj hs
    exact ⟨h, .refl _⟩
  | cons e events ih =>
    obtain ⟨t, ht, hs⟩ := Option.bind_eq_some_iff.mp hs
    obtain ⟨hinv, hsublist⟩ := ih (h.step ht) hs
    exact ⟨hinv, (stream_step ht).trans hsublist⟩

/-- Whether a write has somewhere to go. -/
def accepts (s : InputStream α) : Bool :=
  !s.finished && !s.aborted && !s.insertionPoints.isEmpty

/-- The script that runs, when it is a script that runs. -/
def caller (s : InputStream α) : Option (RunningScript α) :=
  match s.calls with
  | .script r :: _ | .blocking r :: _ => some r
  | _ => none

theorem runningScripts_of_caller {script : RunningScript α} (h : s.caller = some script) :
    ∃ rest, runningScripts s.calls = script :: rest := by
  unfold caller at h
  split at h
  next script' rest hcalls =>
    obtain rfl := Option.some.inj h
    exact ⟨_, by rw [hcalls]; rfl⟩
  next script' rest hcalls =>
    obtain rfl := Option.some.inj h
    exact ⟨_, by rw [hcalls]; rfl⟩
  · cases h

theorem Inv.write_place (h : Inv input s) (haccepts : s.accepts) (text : List α) :
    ∃ before after, s.stream = before ++ after ∧ s.position ≤ before.length ∧
      (s.write text).stream = before ++ text ++ after ∧
      ∀ script ∈ s.caller, ∃ since, before = script.read ++ since ∧
        script.wrote.Sublist since ∧ after = script.remainder := by
  have hends : (s.finished || s.aborted) = false := by
    simp only [accepts, Bool.and_eq_true, Bool.not_eq_true'] at haccepts
    simp [haccepts.1.1, haccepts.1.2]
  obtain ⟨at', hlast⟩ : ∃ at', s.insertionPoints.getLast? = some at' := by
    refine Option.ne_none_iff_exists'.mp fun hnone => ?_
    simp [accepts, List.getLast?_eq_none_iff.mp hnone] at haccepts
  have hat := h.within at' (List.mem_of_getLast? hlast)
  refine ⟨s.stream.take at', s.stream.drop at', (List.take_append_drop _ _).symm, ?_, ?_, ?_⟩
  · rw [List.length_take_of_le hat.2]
    exact hat.1
  · rw [InputStream.write, hends, hlast]
    rfl
  · intro script hscript
    obtain ⟨rest, hscripts⟩ := runningScripts_of_caller hscript
    obtain ⟨outer, inner, hpoints, -, hplaced⟩ := h.running
    rw [hscripts] at hplaced
    cases hplaced with
    | @cons p _ ps _ hfirst _ =>
      obtain ⟨since, hfirst⟩ := hfirst
      obtain rfl : p = at' := by
        rw [hpoints, List.reverse_cons, ← List.append_assoc, List.getLast?_concat] at hlast
        exact Option.some.inj hlast
      refine ⟨since, ?_, hfirst.wrote, ?_⟩
      · rw [hfirst.point, hfirst.stream, List.take_left]
      · rw [hfirst.point, hfirst.stream, List.drop_left]

/-- In every run the tokenizer has passed no insertion point, the inner points are at or before
the outer ones, and the tokens are the stream's elements in their order, each once: at the end
those of the input and of all that was written. What a script writes goes between all that was
read or written since it started, its own writes among it, and all that was left when it started,
and stays there. -/
theorem insertionPoints_of_run (input : List α) (openStream onScript : Bool)
    (events : List (Event α)) (s : InputStream α)
    (h : run events (begin input openStream onScript) = some s) :
    (∀ p ∈ s.insertionPoints, s.position ≤ p) ∧ s.insertionPoints.Pairwise (· ≥ ·) ∧
      s.tokens.flatten = s.stream.take s.position ∧
      (s.finished → s.tokens.flatten = s.stream) ∧
      s.stream.Perm (input ++ s.written.flatten) ∧
      ∀ front text back t, events = front ++ .write text :: back →
        run front (begin input openStream onScript) = some t → t.accepts →
        ∃ before after, t.stream = before ++ after ∧ t.position ≤ before.length ∧
          (before ++ text ++ after).Sublist s.stream ∧
          ∀ script ∈ t.caller, ∃ since, before = script.read ++ since ∧
            script.wrote.Sublist since ∧ after = script.remainder := by
  have hbegin := Inv.begin input openStream onScript
  obtain ⟨hinv, -⟩ := hbegin.run h
  refine ⟨fun p hp => (hinv.within p hp).1, hinv.ordered, hinv.tokens, fun hfin => ?_, hinv.texts,
    ?_⟩
  · rw [hinv.tokens, hinv.finished hfin, List.take_length]
  · rintro front text back t rfl ht haccepts
    obtain ⟨ht', -⟩ := hbegin.run ht
    obtain ⟨before, after, hstream, hposition, hwritten, hcaller⟩ := ht'.write_place haccepts text
    refine ⟨before, after, hstream, hposition, ?_, hcaller⟩
    rw [run_append, ht, Option.bind_some] at h
    obtain ⟨u, hu, h⟩ := Option.bind_eq_some_iff.mp h
    have hu' : u = t.write text := by
      simp only [InputStream.step] at hu
      split_ifs at hu
      exact (Option.some.inj hu).symm
    rw [← hwritten, ← hu']
    exact ((ht'.step hu).run h).2

/-- A script of a file writes a script and more, and the written one writes too. -/
def nestedWrites : List (Event ℕ) :=
  [.token 2 true, .start, .write [10, 11], .token 1 true, .start, .write [20], .token 1 false,
    .incomplete, .leave, .token 1 false, .incomplete, .leave, .token 2 false, .endOfFile]

theorem insertionPoints_nestedWrites :
    ∃ s, run nestedWrites (begin [1, 2, 3, 4] false true) = some s ∧ s.finished ∧
      s.tokens = [[1, 2], [10], [20], [11], [3, 4]] ∧ s.tokens.flatten = s.stream := by
  have hrun : (run nestedWrites (begin [1, 2, 3, 4] false true)).isSome := by decide
  obtain ⟨s, hs⟩ := Option.isSome_iff_exists.mp hrun
  have hend : s.finished ∧ s.tokens = [[1, 2], [10], [20], [11], [3, 4]] := by
    have hall : (run nestedWrites (begin [1, 2, 3, 4] false true)).all fun s =>
        s.finished && s.tokens == [[1, 2], [10], [20], [11], [3, 4]] := by decide
    simpa [hs] using hall
  exact ⟨s, hs, hend.1, hend.2, (insertionPoints_of_run _ _ _ _ s hs).2.2.2.1 hend.1⟩

end InputStream

end CtBrowser.Dom
