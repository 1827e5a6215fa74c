import CtBrowser.Core.Text

/-!
# The text of an XML document

What the XML parser reads from. An entity reference is replaced in the input: the replacement text is
written into the part that was consumed, just before the end of the reference, and the cursor steps back
over it. Where that part is too short the rest of the input is copied behind fresh slack.

A reader is a program over its source: what it does next depends on what it has read. The same program
can be run on the buffer and on a text in which references are spliced.

## Main definitions

- `Buffer` — the engine's source.
- `Spliced` — the same as the text that is left.
- `Reading`, `Reading.run` — a program that reads, and its run on a source.

## Main results

- `run_spliced` — every program reads the same from both.
-/

namespace CtBrowser.Dom.Xml

/-! ## Places and limits -/

structure Place where
  line : ℕ
  column : ℕ
deriving DecidableEq, Repr

def Place.after (p : Place) (c : UInt8) : Place :=
  if c = byte '\n'.toNat then ⟨p.line + 1, 1⟩ else ⟨p.line, p.column + 1⟩

def maxEntityExpansions : ℕ := 10000

def maxExpandedBytes : ℕ := 16 * 1024 * 1024

/-- The inclusions so far, and their bytes. -/
structure Spent where
  expansions : ℕ
  bytes : ℕ
deriving DecidableEq, Repr

/-- One more inclusion, and the error when it is one too many. -/
def Spent.add (spent : Spent) (size : ℕ) : Spent × Option Text :=
  if maxEntityExpansions < spent.expansions + 1 then
    ({ spent with expansions := spent.expansions + 1 }, some (ascii "entity expansion too deep"))
  else if maxExpandedBytes < spent.bytes + size then
    (⟨spent.expansions + 1, spent.bytes + size⟩, some (ascii "entity expansion too large"))
  else (⟨spent.expansions + 1, spent.bytes + size⟩, none)

/-! ## Sources -/

/-- What can be read from. An inclusion is given the replacement text and the length of the reference,
which starts at the cursor; its error is one of the limits. -/
class Source (σ : Type) where
  unread : σ → Text
  advance : ℕ → σ → σ
  spent : σ → Spent
  includeEntity : Text → ℕ → σ → σ × Option Text

/-- The view of the input, which is of the caller's text until something was spliced. -/
structure Buffer where
  src : Text
  at_ : ℕ
  spliced : Bool
  spent : Spent
  place : Place
deriving DecidableEq, Repr

namespace Buffer

def of (source : Text) : Buffer := ⟨source, 0, false, ⟨0, 0⟩, ⟨1, 1⟩⟩

def unread (b : Buffer) : Text := b.src.drop b.at_

def advance (n : ℕ) (b : Buffer) : Buffer :=
  let passed := b.unread.take n
  { b with at_ := b.at_ + passed.length, place := passed.foldl Place.after b.place }

/-- Bytes written over others, from a place on. -/
def overwrite (owned : Text) (start : ℕ) (written : Text) : Text :=
  owned.take start ++ written ++ owned.drop (start + written.length)

def includeEntity (replacement : Text) (length : ℕ) (b : Buffer) : Buffer × Option Text :=
  let referenceEnd := b.at_ + length
  match b.spent.add replacement.length with
  | (spent, some error) => ({ b with spent }, some error)
  | (spent, none) =>
    if !b.spliced ∨ referenceEnd < replacement.length then
      let slack := max (2 * replacement.length) (64 * 1024)
      let next := List.replicate slack 0 ++ b.src.drop referenceEnd
      let start := slack - replacement.length
      ({ b with src := overwrite next start replacement, at_ := start, spliced := true, spent }, none)
    else
      let start := referenceEnd - replacement.length
      ({ b with src := overwrite b.src start replacement, at_ := start, spent }, none)

instance : Source Buffer := ⟨unread, advance, spent, includeEntity⟩

end Buffer

/-- The text that is left, with replacements in place of their references. -/
structure Spliced where
  unread : Text
  spent : Spent
  place : Place
deriving DecidableEq, Repr

namespace Spliced

def of (source : Text) : Spliced := ⟨source, ⟨0, 0⟩, ⟨1, 1⟩⟩

def advance (n : ℕ) (s : Spliced) : Spliced :=
  { s with unread := s.unread.drop n, place := (s.unread.take n).foldl Place.after s.place }

def includeEntity (replacement : Text) (length : ℕ) (s : Spliced) : Spliced × Option Text :=
  match s.spent.add replacement.length with
  | (spent, some error) => ({ s with spent }, some error)
  | (spent, none) => ({ s with unread := replacement ++ s.unread.drop length, spent }, none)

instance : Source Spliced := ⟨unread, advance, spent, includeEntity⟩

end Spliced

/-! ## Programs that read -/

/-- What must not happen: a view is read that an inclusion may have overwritten or freed, an inclusion
is of no reference in the input, or a loop does not end. -/
inductive Fault
  | dangling | beyond | endless
deriving DecidableEq, Repr

/-- A program over a source. -/
inductive Reading (α : Type)
  | done (a : α)
  | fault (f : Fault)
  | look (next : Text → Reading α)
  | spent (next : Spent → Reading α)
  | advance (n : ℕ) (next : Reading α)
  | includeEntity (replacement : Text) (length : ℕ) (next : Option Text → Reading α)

namespace Reading

variable {α β σ τ : Type}

def bind : Reading α → (α → Reading β) → Reading β
  | done a, f => f a
  | fault e, _ => fault e
  | look next, f => look fun text => (next text).bind f
  | spent next, f => spent fun s => (next s).bind f
  | advance n next, f => advance n (next.bind f)
  | includeEntity replacement length next, f => includeEntity replacement length fun error => (next error).bind f

instance : Monad Reading where
  pure := done
  bind := bind

/-- The run of a program on a source. -/
def run [Source σ] : Reading α → σ → Except Fault (α × σ)
  | done a, s => .ok (a, s)
  | fault e, _ => .error e
  | look next, s => (next (Source.unread s)).run s
  | spent next, s => (next (Source.spent s)).run s
  | advance n next, s => next.run (Source.advance n s)
  | includeEntity replacement length next, s =>
    if length = 0 ∨ (Source.unread s).length < length then .error .beyond
    else
      let included := Source.includeEntity replacement length s
      (next included.2).run included.1

theorem run_bind [Source σ] (r : Reading α) (f : α → Reading β) (s : σ) :
    (r >>= f).run s = (r.run s).bind fun p => (f p.1).run p.2 := by
  change (r.bind f).run s = _
  induction r generalizing s with
  | done a => rfl
  | fault e => rfl
  | look next ih => exact ih _ s
  | spent next ih => exact ih _ s
  | advance n next ih => exact ih _
  | includeEntity replacement length next ih =>
    simp only [bind, run]
    split_ifs with h
    · rfl
    · exact ih _ _

/-- A map between sources that keeps what programs see. -/
structure Keeps [Source σ] [Source τ] (f : σ → τ) : Prop where
  unread : ∀ s, Source.unread (f s) = Source.unread s
  spent : ∀ s, Source.spent (f s) = Source.spent s
  advance : ∀ n s, Source.advance n (f s) = f (Source.advance n s)
  includeEntity : ∀ replacement length s, 0 < length → length ≤ (Source.unread s).length →
    Source.includeEntity replacement length (f s) =
      (f (Source.includeEntity replacement length s).1, (Source.includeEntity replacement length s).2)

theorem run_map [Source σ] [Source τ] {f : σ → τ} (h : Keeps f) (r : Reading α) (s : σ) :
    r.run (f s) = (r.run s).map fun p => (p.1, f p.2) := by
  induction r generalizing s with
  | done a => rfl
  | fault e => rfl
  | look next ih => rw [run, run, h.unread, ih]
  | spent next ih => rw [run, run, h.spent, ih]
  | advance n next ih => rw [run, run, h.advance, ih]
  | includeEntity replacement length next ih =>
    rw [run, run, h.unread]
    by_cases hlength : length = 0 ∨ (Source.unread s).length < length
    · rw [if_pos hlength, if_pos hlength]
      rfl
    · rw [if_neg hlength, if_neg hlength]
      rw [not_or, not_lt] at hlength
      rw [h.includeEntity _ _ _ (Nat.pos_of_ne_zero hlength.1) hlength.2]
      exact ih _ _

end Reading

/-! ## The buffer as a spliced text -/

namespace Buffer

def toSpliced (b : Buffer) : Spliced := ⟨b.unread, b.spent, b.place⟩

theorem drop_overwrite {owned written : Text} {start : ℕ} (h : start ≤ owned.length) :
    (overwrite owned start written).drop start = written ++ owned.drop (start + written.length) := by
  rw [overwrite, List.append_assoc, List.drop_left' (by rw [List.length_take]; omega)]

theorem unread_includeEntity {replacement : Text} {length : ℕ} {b : Buffer} (hpos : 0 < length)
    (hlength : length ≤ b.unread.length) (hnone : (b.spent.add replacement.length).2 = none) :
    (b.includeEntity replacement length).1.unread = replacement ++ b.unread.drop length := by
  have hrest : b.unread.drop length = b.src.drop (b.at_ + length) := List.drop_drop
  rw [unread, List.length_drop] at hlength
  rw [hrest, includeEntity]
  rcases hadd : b.spent.add replacement.length with ⟨spent, _ | error⟩
  · simp only
    by_cases hslack : (!b.spliced) = true ∨ b.at_ + length < replacement.length
    · rw [if_pos hslack, unread]
      simp only
      rw [drop_overwrite (by rw [List.length_append, List.length_replicate]; omega), Nat.sub_add_cancel (by omega),
        List.drop_left' (by rw [List.length_replicate])]
    · rw [if_neg hslack, unread]
      simp only
      rw [not_or, not_lt] at hslack
      rw [drop_overwrite (by omega), Nat.sub_add_cancel hslack.2]
  · rw [hadd] at hnone
    cases hnone

theorem unread_advance (n : ℕ) (b : Buffer) : (b.advance n).unread = b.unread.drop n := by
  rw [advance, unread, unread, List.length_take, ← List.drop_drop]
  exact (List.drop_eq_drop_min ..).symm

theorem keeps_toSpliced : Reading.Keeps toSpliced where
  unread _ := rfl
  spent _ := rfl
  advance n b := by
    change Spliced.mk _ _ _ = (⟨(b.advance n).unread, _, _⟩ : Spliced)
    rw [unread_advance]
    rfl
  includeEntity replacement length b hpos hlength := by
    have hunread (hnone) := @unread_includeEntity replacement length b hpos hlength hnone
    change Spliced.includeEntity _ _ _ =
      (⟨(b.includeEntity replacement length).1.unread, (b.includeEntity replacement length).1.spent,
        (b.includeEntity replacement length).1.place⟩, (b.includeEntity replacement length).2)
    rcases hadd : b.spent.add replacement.length with ⟨spent, _ | error⟩
    · rw [hunread (by rw [hadd])]
      simp only [Buffer.includeEntity, Spliced.includeEntity, toSpliced, hadd]
      split_ifs <;> rfl
    · simp only [Buffer.includeEntity, Spliced.includeEntity, toSpliced, hadd]
      rfl

end Buffer

/-- What a program reads from the buffer is what it reads from the text with the references spliced. -/
theorem run_spliced {α : Type} (r : Reading α) (b : Buffer) :
    r.run b.toSpliced = (r.run b).map fun p => (p.1, p.2.toSpliced) := Reading.run_map Buffer.keeps_toSpliced r b

end CtBrowser.Dom.Xml
