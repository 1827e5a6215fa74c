import Mathlib.Data.List.DropRight
import CtBrowser.Core.Json

/-!
# The Source Text of Parsed Values

A reviver is told the text that every primitive value was parsed from. The value tree is built
first, and the text is walked a second time in step with it. The tree holds a repeated key once,
with the place of the first and the value of the last, and the walk then takes the text of the
first for the value of the last and is out of step from there on.

## Main definitions

- `ParseRecord` — what the reviver is told about a value and its parts.
- `materializeRecorded` — the walk.
- `Source.record` — the records the text calls for.
- `Source.Distinct` — no object repeats a key.

## Main results

- `materializeRecorded_of_distinct` — without repeated keys every value has its own token.
-/

namespace CtBrowser.Json

/-! ## Records -/

/-- A parse record: the text of a primitive value, the records of an array's elements and those of
an object's members. -/
inductive ParseRecord where
  | mk (source : Text) (elements : List ParseRecord) (entries : List (Text × ParseRecord))

mutual

/-- The records a text calls for. -/
def Source.record {D : Type} : Source D → ParseRecord
  | .token spelled _ => ⟨spelled, [], []⟩
  | .array elements => ⟨[], Source.records elements, []⟩
  | .object members => ⟨[], [], Source.entries [] members⟩

/-- The records of some elements. -/
def Source.records {D : Type} : List (Source D) → List ParseRecord
  | [] => []
  | source :: rest => Source.record source :: Source.records rest

/-- The records of some members, after others: the last of a repeated key. -/
def Source.entries {D : Type} (before : List (Text × ParseRecord)) :
    List (Text × Source D) → List (Text × ParseRecord)
  | [] => before
  | (key, source) :: rest => Source.entries (putMember before key (Source.record source)) rest

end

mutual

/-- No object of a text repeats a key. -/
def Source.Distinct {D : Type} : Source D → Prop
  | .token _ _ => True
  | .array elements => Source.AllDistinct elements
  | .object members => (members.map Prod.fst).Nodup ∧ Source.MembersDistinct members

/-- No object of some elements repeats a key. -/
def Source.AllDistinct {D : Type} : List (Source D) → Prop
  | [] => True
  | source :: rest => Source.Distinct source ∧ Source.AllDistinct rest

/-- No object of some members repeats a key. -/
def Source.MembersDistinct {D : Type} : List (Text × Source D) → Prop
  | [] => True
  | (_, source) :: rest => Source.Distinct source ∧ Source.MembersDistinct rest

end

/-! ## The walk -/

/-- The cursor after white space. -/
def skipJsonSpace (text : Text) (at' : ℕ) : ℕ :=
  at' + ((text.drop at').takeWhile (isSpace ·)).length

/-- A character that ends a number or a literal. -/
def endsToken (b : UInt8) : Prop :=
  isSpace b ∨ Is b ',' ∨ Is b ']' ∨ Is b '\x7d' ∨ Is b ':'

instance (b : UInt8) : Decidable (endsToken b) := inferInstanceAs (Decidable (_ ∨ _))

/-- The number of characters up to a closing quote. A backslash takes the next one with it. -/
def quotedLength : Text → ℕ
  | [] => 0
  | [b] => if Is b '"' then 0 else if Is b '\\' then 2 else 1
  | b :: c :: rest =>
    if Is b '"' then 0
    else if Is b '\\' then 2 + quotedLength rest
    else 1 + quotedLength (c :: rest)

/-- The cursor after one primitive token. -/
def skipJsonToken (text : Text) (at' : ℕ) : ℕ :=
  match text.drop at' with
  | [] => at'
  | b :: rest =>
    if Is b '"' then at' + 1 + quotedLength rest + 1
    else at' + ((b :: rest).takeWhile (¬ endsToken ·)).length

/-- A part of a text; an error if it starts past the end. -/
def substr (text : Text) (pos count : ℕ) : Option Text :=
  if pos ≤ text.length then some ((text.drop pos).take count) else none

/-- The record of a primitive value. -/
def primitiveRecord (text : Text) (at' : ℕ) : Option (ParseRecord × ℕ) := do
  let start := skipJsonSpace text at'
  let stop := skipJsonToken text start
  let source ← substr text start (stop - start)
  return (⟨source, [], []⟩, stop)

section Walk

variable {D : Type} (text : Text)

mutual

/-- The record of a value and the cursor after it. -/
def materializeRecorded : JsonValue D → ℕ → Option (ParseRecord × ℕ)
  | .array items, at' => do
    let (records, at') ← recordElements items (skipJsonSpace text at' + 1)
    let at' := if items.isEmpty then skipJsonSpace text at' + 1 else at'
    return (⟨[], records, []⟩, at')
  | .object members, at' => do
    let (entries, at') ← recordMembers members [] (skipJsonSpace text at' + 1)
    let at' := if members.isEmpty then skipJsonSpace text at' + 1 else at'
    return (⟨[], [], entries⟩, at')
  | .null, at' | .boolean _, at' | .number _, at' | .string _, at' => primitiveRecord text at'

/-- The records of some elements, with the comma or bracket after each. -/
def recordElements : List (JsonValue D) → ℕ → Option (List ParseRecord × ℕ)
  | [], at' => some ([], at')
  | item :: rest, at' => do
    let (record, at') ← materializeRecorded item at'
    let (records, at') ← recordElements rest (skipJsonSpace text at' + 1)
    return (record :: records, at')

/-- The records of some members, with the comma or brace after each. -/
def recordMembers : List (Text × JsonValue D) → List (Text × ParseRecord) → ℕ →
    Option (List (Text × ParseRecord) × ℕ)
  | [], entries, at' => some (entries, at')
  | (key, child) :: rest, entries, at' => do
    let colon := skipJsonSpace text (skipJsonToken text (skipJsonSpace text at'))
    let (record, at') ← materializeRecorded child (colon + 1)
    recordMembers rest (putMember entries key record) (skipJsonSpace text at' + 1)

end

end Walk

/-! ## Tokens -/

/-- The cursor stands before what is left of a text. -/
structure At (text : Text) (at' : ℕ) (s : Text) : Prop where
  drop : text.drop at' = s
  le : at' ≤ text.length

/-- What follows a number or a literal. -/
def Stops (s : Text) : Prop := ∀ b ∈ s.head?, endsToken b

/-- Characters that bring a walk to a closing quote no nearer than their number. -/
def Passes (t : Text) : Prop := ∀ rest, quotedLength (t ++ rest) = t.length + quotedLength rest

section Tokens

variable {text s t rest : Text} {at' : ℕ} {b : UInt8}

theorem At.append (h : At text at' (t ++ s)) : At text (at' + t.length) s := by
  have hlength := congrArg List.length h.drop
  rw [List.length_drop, List.length_append] at hlength
  have hle := h.le
  refine ⟨?_, by omega⟩
  rw [← List.drop_drop, h.drop, List.drop_left]

theorem At.tail (h : At text at' (b :: s)) : At text (at' + 1) s :=
  At.append (t := [b]) h

theorem At.skip (h : At text at' s) : At text (skipJsonSpace text at') (skip s) := by
  have hsplit : s = s.takeWhile (isSpace ·) ++ Json.skip s := (List.takeWhile_append_dropWhile).symm
  rw [skipJsonSpace, h.drop]
  exact At.append (hsplit ▸ h)

theorem At.sub (h : At text at' (t ++ s)) {stop : ℕ} (hstop : At text stop s) :
    stop - at' = t.length := by
  have hlength := congrArg List.length h.drop
  have hlength' := congrArg List.length hstop.drop
  rw [List.length_drop, List.length_append] at hlength
  rw [List.length_drop] at hlength'
  have hle := h.le
  have hle' := hstop.le
  omega

theorem stops_of_skip (h : ∀ b ∈ (skip s).head?, endsToken b) : Stops s := by
  intro b hb
  obtain ⟨rest, rfl⟩ : ∃ rest, s = b :: rest := List.head?_eq_some_iff.mp hb
  by_cases hspace : isSpace b
  · exact Or.inl hspace
  · refine h b ?_
    rw [skip, List.dropWhile_cons_of_neg (by simpa using hspace)]
    rfl

theorem quotedLength_plain (hquote : ¬ Is b '"') (hslash : ¬ Is b '\\') :
    quotedLength (b :: rest) = 1 + quotedLength rest := by
  cases rest with
  | nil => simp [quotedLength, hquote, hslash]
  | cons c rest => rw [quotedLength, if_neg hquote, if_neg hslash]

theorem passes_nil : Passes [] := fun _ => (Nat.zero_add _).symm

theorem Passes.append {t u : Text} (ht : Passes t) (hu : Passes u) : Passes (t ++ u) := by
  intro rest
  rw [List.append_assoc, ht, hu, List.length_append, Nat.add_assoc]

theorem passes_plain (hquote : ¬ Is b '"') (hslash : ¬ Is b '\\') : Passes [b] :=
  fun _ => quotedLength_plain hquote hslash

theorem passes_escape {slash : UInt8} (hslash : Is slash '\\') (b : UInt8) : Passes [slash, b] := by
  intro rest
  have hquote : ¬ Is slash '"' := by
    intro h
    exact absurd (h.symm.trans hslash) (by decide)
  show quotedLength (slash :: b :: rest) = _
  rw [quotedLength, if_neg hquote, if_pos hslash]
  rfl

theorem passes_hexDigit {v : ℕ} (h : hexValue b.toNat = some v) : Passes [b] := by
  apply passes_plain <;>
  · intro hb
    have hnone : hexValue b.toNat = none := by
      rw [hb]
      decide
    rw [hnone] at h
    cases h

theorem readHex4_passes {v : ℕ} (h : readHex4 s = some (v, rest)) :
    ∃ t, s = t ++ rest ∧ Passes t := by
  match s with
  | [] | [_] | [_, _] | [_, _, _] => cases h
  | a :: b :: c :: d :: after =>
    simp only [readHex4, Option.bind_eq_bind, Option.bind_eq_some_iff] at h
    obtain ⟨_, ha, _, hb, _, hc, _, hd, hresult⟩ := h
    obtain ⟨-, rfl⟩ := Prod.mk.inj (Option.some.inj hresult)
    refine ⟨[a, b, c, d], rfl, ?_⟩
    exact (((passes_hexDigit ha).append (passes_hexDigit hb)).append (passes_hexDigit hc)).append
      (passes_hexDigit hd)

theorem lowEscape_passes {v : ℕ} (h : lowEscape s = some (v, rest)) :
    ∃ t, s = t ++ rest ∧ Passes t := by
  match s with
  | [] | [_] => cases h
  | slash :: u :: after =>
    rw [lowEscape] at h
    split_ifs at h with hescape
    cases hread : readHex4 after with
    | none =>
      rw [hread] at h
      cases h
    | some result =>
      rw [hread] at h
      dsimp only at h
      split_ifs at h
      obtain ⟨t, rfl, ht⟩ := readHex4_passes (h ▸ hread)
      exact ⟨[slash, u] ++ t, rfl, (passes_escape hescape.1 u).append ht⟩

theorem unicodeEscape_passes {v : ℕ} (h : unicodeEscape s = some (v, rest)) :
    ∃ t, s = t ++ rest ∧ Passes t := by
  rw [unicodeEscape, Option.bind_eq_bind, Option.bind_eq_some_iff] at h
  obtain ⟨⟨code, after⟩, hread, h⟩ := h
  obtain ⟨t, rfl, ht⟩ := readHex4_passes hread
  dsimp only at h
  by_cases hhigh : isHigh code
  · rw [if_pos hhigh] at h
    cases hlow : lowEscape after with
    | none =>
      rw [hlow] at h
      obtain ⟨-, rfl⟩ := Prod.mk.inj (Option.some.inj h)
      exact ⟨t, rfl, ht⟩
    | some result =>
      rw [hlow] at h
      obtain ⟨-, rfl⟩ := Prod.mk.inj (Option.some.inj h)
      obtain ⟨u, rfl, hu⟩ := lowEscape_passes hlow
      exact ⟨t ++ u, (List.append_assoc ..).symm, ht.append hu⟩
  · rw [if_neg hhigh] at h
    obtain ⟨-, rfl⟩ := Prod.mk.inj (Option.some.inj h)
    exact ⟨t, rfl, ht⟩

theorem stringPiece_passes {piece : Text} (hquote : ¬ Is b '"')
    (h : stringPiece b s = some (piece, rest)) : ∃ t, b :: s = t ++ rest ∧ Passes t := by
  rw [stringPiece.eq_def] at h
  split_ifs at h with hcontrol hslash
  · cases s with
    | nil => cases h
    | cons escape after =>
      dsimp only at h
      have hstart := passes_escape hslash escape
      split_ifs at h with hu
      · obtain ⟨⟨code, last⟩, hcode, hresult⟩ := Option.map_eq_some_iff.mp h
        obtain ⟨-, rfl⟩ := Prod.mk.inj hresult
        obtain ⟨t, rfl, ht⟩ := unicodeEscape_passes hcode
        exact ⟨[b, escape] ++ t, rfl, hstart.append ht⟩
      · obtain ⟨c, -, hresult⟩ := Option.map_eq_some_iff.mp h
        obtain ⟨-, rfl⟩ := Prod.mk.inj hresult
        exact ⟨[b, escape], rfl, hstart⟩
  · obtain ⟨-, rfl⟩ := Prod.mk.inj (Option.some.inj h)
    exact ⟨[b], rfl, passes_plain hquote hslash⟩

theorem stringBody_passes {fuel : ℕ} {v : Text} (h : stringBody fuel s = some (v, rest)) :
    ∃ t quote, s = t ++ quote :: rest ∧ Is quote '"' ∧ Passes t := by
  induction fuel generalizing s v with
  | zero => cases h
  | succ fuel ih =>
    cases s with
    | nil => cases h
    | cons b s =>
      rw [stringBody] at h
      by_cases hquote : Is b '"'
      · rw [if_pos hquote] at h
        obtain ⟨-, rfl⟩ := Prod.mk.inj (Option.some.inj h)
        exact ⟨[], b, rfl, hquote, passes_nil⟩
      · rw [if_neg hquote] at h
        simp only [Option.bind_eq_bind, Option.bind_eq_some_iff] at h
        obtain ⟨⟨piece, after⟩, hpiece, ⟨more, last⟩, hmore, hresult⟩ := h
        obtain ⟨-, rfl⟩ := Prod.mk.inj (Option.some.inj hresult)
        obtain ⟨t, ht, hpasses⟩ := stringPiece_passes hquote hpiece
        obtain ⟨u, quote, rfl, hclose, hpasses'⟩ := ih hmore
        exact ⟨t ++ u, quote, by rw [ht, List.append_assoc], hclose, hpasses.append hpasses'⟩

theorem At.string {v : Text} (h : At text at' s) (hparse : parseString s = some (v, rest)) :
    ∃ spelled, s = spelled ++ rest ∧ At text (skipJsonToken text at') rest := by
  cases s with
  | nil => cases hparse
  | cons b s =>
    rw [parseString] at hparse
    split_ifs at hparse with hquote
    obtain ⟨t, quote, rfl, hclose, ht⟩ := stringBody_passes hparse
    have hlength : quotedLength (t ++ quote :: rest) = t.length := by
      have hend : quotedLength (quote :: rest) = 0 := by
        cases rest <;> exact if_pos hclose
      rw [ht, hend]
      rfl
    refine ⟨b :: (t ++ [quote]), by simp, ?_⟩
    rw [skipJsonToken, h.drop]
    dsimp only
    rw [if_pos hquote, hlength]
    exact h.tail.append.tail

/-! ## Numbers and literals -/

/-- A character inside a number or a literal. -/
def Inner (b : UInt8) : Prop := ¬ endsToken b ∧ ¬ Is b '"'

theorem inner_of_toNat (h : b.toNat ∉ [0x20, 0x09, 0x0A, 0x0D, 0x2C, 0x5D, 0x7D, 0x3A, 0x22]) :
    Inner b := by
  simp only [List.mem_cons, List.not_mem_nil, or_false, not_or] at h
  obtain ⟨h₁, h₂, h₃, h₄, h₅, h₆, h₇, h₈, h₉⟩ := h
  refine ⟨?_, h₉⟩
  rintro ((h | h | h | h) | h | h | h | h)
  · exact h₁ h
  · exact h₂ h
  · exact h₃ h
  · exact h₄ h
  · exact h₅ h
  · exact h₆ h
  · exact h₇ h
  · exact h₈ h

theorem inner_of_digit (h : isDigit b) : Inner b := by
  have hlow : 0x30 ≤ b.toNat := h.1
  have hhigh : b.toNat ≤ 0x39 := h.2
  apply inner_of_toNat
  simp only [List.mem_cons, List.not_mem_nil, or_false]
  omega

theorem inner_of_is {c : Char} (h : Is b c) (hc : c ∈ ['-', '+', '.', 'e', 'E', '0']) : Inner b := by
  have hnone : ∀ c ∈ ['-', '+', '.', 'e', 'E', '0'],
      c.toNat ∉ [0x20, 0x09, 0x0A, 0x0D, 0x2C, 0x5D, 0x7D, 0x3A, 0x22] := by
    simp only [List.forall_mem_cons, List.not_mem_nil, IsEmpty.forall_iff, implies_true, and_true]
    decide
  apply inner_of_toNat
  rw [h]
  exact hnone c hc

/-- A part of a number was read. -/
def Reads (s t rest : Text) : Prop := s = t ++ rest ∧ ∀ b ∈ t, Inner b

theorem Reads.append {u after : Text} (h : Reads s t rest) (h' : Reads rest u after) :
    Reads s (t ++ u) after := by
  obtain ⟨rfl, ht⟩ := h
  obtain ⟨rfl, hu⟩ := h'
  refine ⟨(List.append_assoc ..).symm, fun b hb => ?_⟩
  exact (List.mem_append.mp hb).elim (ht b) (hu b)

theorem Reads.cons (hb : Inner b) (h : Reads s t rest) : Reads (b :: s) (b :: t) rest := by
  obtain ⟨rfl, ht⟩ := h
  exact ⟨rfl, List.forall_mem_cons.mpr ⟨hb, ht⟩⟩

theorem reads_nil (s : Text) : Reads s [] s := ⟨rfl, List.forall_mem_nil _⟩

theorem reads_digits (h : digits s = some (t, rest)) : Reads s t rest ∧ t ≠ [] := by
  have hsplit : s = s.takeWhile (isDigit ·) ++ s.dropWhile (isDigit ·) :=
    (List.takeWhile_append_dropWhile).symm
  rw [digits] at h
  split at h
  · cases h
  · next hne =>
    obtain ⟨rfl, rfl⟩ := Prod.mk.inj (Option.some.inj h)
    refine ⟨⟨hsplit, fun b hb => inner_of_digit ?_⟩, hne⟩
    exact of_decide_eq_true (List.all_eq_true.mp List.all_takeWhile b hb)

theorem reads_wholePart (h : wholePart s = some (t, rest)) : Reads s t rest ∧ t ≠ [] := by
  cases s with
  | nil => cases h
  | cons b s =>
    rw [wholePart] at h
    split_ifs at h with hzero
    · obtain ⟨rfl, rfl⟩ := Prod.mk.inj (Option.some.inj h)
      exact ⟨(reads_nil s).cons (inner_of_is hzero (by decide)), List.cons_ne_nil b []⟩
    · exact reads_digits h

theorem reads_fractionPart (h : fractionPart s = some (t, rest)) : Reads s t rest := by
  cases s with
  | nil =>
    obtain ⟨rfl, rfl⟩ := Prod.mk.inj (Option.some.inj h)
    exact reads_nil []
  | cons b s =>
    rw [fractionPart] at h
    split_ifs at h with hpoint
    · obtain ⟨⟨ds, after⟩, hds, hresult⟩ := Option.map_eq_some_iff.mp h
      obtain ⟨rfl, rfl⟩ := Prod.mk.inj hresult
      exact (reads_digits hds).1.cons (inner_of_is hpoint (by decide))
    · obtain ⟨rfl, rfl⟩ := Prod.mk.inj (Option.some.inj h)
      exact reads_nil _

theorem reads_signedDigits (h : signedDigits s = some (t, rest)) : Reads s t rest := by
  cases s with
  | nil => cases h
  | cons b s =>
    rw [signedDigits] at h
    split_ifs at h with hsign
    · obtain ⟨⟨ds, after⟩, hds, hresult⟩ := Option.map_eq_some_iff.mp h
      obtain ⟨rfl, rfl⟩ := Prod.mk.inj hresult
      refine (reads_digits hds).1.cons ?_
      exact hsign.elim (inner_of_is · (by decide)) (inner_of_is · (by decide))
    · exact (reads_digits h).1

theorem reads_exponentPart (h : exponentPart s = some (t, rest)) : Reads s t rest := by
  cases s with
  | nil =>
    obtain ⟨rfl, rfl⟩ := Prod.mk.inj (Option.some.inj h)
    exact reads_nil []
  | cons b s =>
    rw [exponentPart] at h
    split_ifs at h with he
    · obtain ⟨⟨ds, after⟩, hds, hresult⟩ := Option.map_eq_some_iff.mp h
      obtain ⟨rfl, rfl⟩ := Prod.mk.inj hresult
      refine (reads_signedDigits hds).cons ?_
      exact he.elim (inner_of_is · (by decide)) (inner_of_is · (by decide))
    · obtain ⟨rfl, rfl⟩ := Prod.mk.inj (Option.some.inj h)
      exact reads_nil _

theorem reads_minusPart (s : Text) : Reads s (minusPart s).1 (minusPart s).2 := by
  cases s with
  | nil => exact reads_nil []
  | cons b s =>
    rw [minusPart]
    split_ifs with hminus
    · exact (reads_nil s).cons (inner_of_is hminus (by decide))
    · exact reads_nil _

theorem reads_parseNumber (h : parseNumber s = some (t, rest)) : Reads s t rest ∧ t ≠ [] := by
  simp only [parseNumber, Option.bind_eq_bind, Option.bind_eq_some_iff] at h
  obtain ⟨⟨whole, s₁⟩, hwhole, ⟨fraction, s₂⟩, hfraction, ⟨exponent, s₃⟩, hexponent, hresult⟩ := h
  obtain ⟨rfl, rfl⟩ := Prod.mk.inj (Option.some.inj hresult)
  obtain ⟨hreads, hne⟩ := reads_wholePart hwhole
  refine ⟨(((reads_minusPart s).append hreads).append (reads_fractionPart hfraction)).append
    (reads_exponentPart hexponent), ?_⟩
  simp [hne]

theorem At.inner (h : At text at' s) (hreads : Reads s t rest) (hne : t ≠ []) (hstops : Stops rest) :
    At text (skipJsonToken text at') rest := by
  obtain ⟨rfl, ht⟩ := hreads
  have htake : (t ++ rest).takeWhile (¬ endsToken ·) = t := by
    rw [List.takeWhile_append_of_pos fun b hb => by simpa using (ht b hb).1]
    cases rest with
    | nil => simp
    | cons c rest =>
      rw [List.takeWhile_cons_of_neg (by simpa using hstops c rfl), List.append_nil]
  rw [skipJsonToken, h.drop]
  cases t with
  | nil => exact absurd rfl hne
  | cons b t =>
    rw [List.cons_append] at htake h ⊢
    dsimp only
    rw [if_neg (ht b List.mem_cons_self).2, htake]
    exact At.append (t := b :: t) h

theorem reads_literal {word : String} (h : ascii word <+: s) (hinner : ∀ b ∈ ascii word, Inner b) :
    Reads s (ascii word) (s.drop (ascii word).length) := by
  obtain ⟨rest, rfl⟩ := h
  exact ⟨by rw [List.drop_left], hinner⟩

end Tokens

/-! ## The walk in step with the reader -/

section Lockstep

variable {D : Type} {fromChars : Text → D} {text : Text}

theorem skip_skip (s : Text) : skip (skip s) = skip s :=
  List.dropWhile_idempotent _ s

theorem primitiveRecord_eq {at' : ℕ} {spelled rest : Text}
    (hstart : At text (skipJsonSpace text at') (spelled ++ rest))
    (hstop : At text (skipJsonToken text (skipJsonSpace text at')) rest) :
    primitiveRecord text at' =
      some (⟨spelled, [], []⟩, skipJsonToken text (skipJsonSpace text at')) := by
  rw [primitiveRecord, substr, if_pos hstart.le, hstart.sub hstop, hstart.drop, List.take_left]
  rfl

/-- A primitive value that was read is given its token. -/
theorem materializeRecorded_primitive {at' : ℕ} {s spelled rest : Text} {value : JsonValue D}
    (h : parsePrimitive fromChars s = some (value, spelled, rest))
    (hat : At text (skipJsonSpace text at') s) (hstops : Stops rest) :
    ∃ stop, materializeRecorded text value at' = some (⟨spelled, [], []⟩, stop) ∧
      At text stop rest := by
  have hplain (hrecord : materializeRecorded text value at' = primitiveRecord text at')
      (hreads : Reads s spelled rest ∧ spelled ≠ []) :
      ∃ stop, materializeRecorded text value at' = some (⟨spelled, [], []⟩, stop) ∧
        At text stop rest := by
    have hstop := hat.inner hreads.1 hreads.2 hstops
    rw [hreads.1.1] at hat
    exact ⟨_, hrecord.trans (primitiveRecord_eq hat hstop), hstop⟩
  rw [parsePrimitive] at h
  split_ifs at h with hquote htrue hfalse hnull
  · obtain ⟨⟨v, after⟩, hstring, hresult⟩ := Option.map_eq_some_iff.mp h
    obtain ⟨rfl, hspelled, rfl⟩ : JsonValue.string v = value ∧ _ = spelled ∧ after = rest := by
      simpa using hresult
    obtain ⟨t, rfl, hstop⟩ := hat.string hstring
    have ht : t = spelled := by
      rw [← hspelled, List.length_append, Nat.add_sub_cancel, List.take_left]
    subst ht
    exact ⟨_, primitiveRecord_eq hat hstop, hstop⟩
  · obtain ⟨rfl, rfl, rfl⟩ : _ = value ∧ _ = spelled ∧ _ = rest := by simpa using h
    refine hplain rfl ⟨reads_literal htrue ?_, by decide⟩
    intro b hb
    exact inner_of_toNat (by revert b; decide +kernel)
  · obtain ⟨rfl, rfl, rfl⟩ : _ = value ∧ _ = spelled ∧ _ = rest := by simpa using h
    refine hplain rfl ⟨reads_literal hfalse ?_, by decide⟩
    intro b hb
    exact inner_of_toNat (by revert b; decide +kernel)
  · obtain ⟨rfl, rfl, rfl⟩ : _ = value ∧ _ = spelled ∧ _ = rest := by simpa using h
    refine hplain rfl ⟨reads_literal hnull ?_, by decide⟩
    intro b hb
    exact inner_of_toNat (by revert b; decide +kernel)
  · obtain ⟨⟨t, after⟩, hnumber, hresult⟩ := Option.map_eq_some_iff.mp h
    obtain ⟨rfl, rfl, rfl⟩ : JsonValue.number (fromChars t) = value ∧ t = spelled ∧ after = rest := by
      simpa using hresult
    exact hplain rfl (reads_parseNumber hnumber)

theorem stops_of_next {s rest : Text} {b : UInt8} (h : skip s = b :: rest) (hb : endsToken b) :
    Stops s := by
  refine stops_of_skip fun c hc => ?_
  rw [h] at hc
  exact Option.some.inj hc ▸ hb

variable (fromChars text) in
/-- A reading of a value is followed by the walk. -/
structure Follows (fuel : ℕ) : Prop where
  value : ∀ {depth at' s₀ s v source rest}, parse fromChars fuel depth s = some (v, source, rest) →
    Source.Distinct source → skip s₀ = skip s → At text at' s₀ → Stops rest →
    ∃ stop, materializeRecorded text v at' = some (Source.record source, stop) ∧ At text stop rest
  array : ∀ {depth at' s v source rest}, parseArray fromChars fuel depth s = some (v, source, rest) →
    Source.Distinct source → At text (skipJsonSpace text at' + 1) s →
    ∃ stop, materializeRecorded text v at' = some (Source.record source, stop) ∧ At text stop rest
  elements : ∀ {depth at' s₀ s items elements rest},
    parseElements fromChars fuel depth s = some (items, elements, rest) →
    Source.AllDistinct elements → skip s₀ = skip s → At text at' s₀ →
    items ≠ [] ∧ ∃ stop, recordElements text items at' = some (Source.records elements, stop) ∧
      At text stop rest
  object : ∀ {depth at' s v source rest}, parseObject fromChars fuel depth s = some (v, source, rest) →
    Source.Distinct source → At text (skipJsonSpace text at' + 1) s →
    ∃ stop, materializeRecorded text v at' = some (Source.record source, stop) ∧ At text stop rest
  members : ∀ {depth at' s₀ s obj obj' members rest},
    parseMembers fromChars fuel depth obj s = some (obj', members, rest) →
    (obj.map Prod.fst ++ members.map Prod.fst).Nodup → Source.MembersDistinct members →
    skip s₀ = skip s → At text at' s₀ →
    ∃ added, obj' = obj ++ added ∧ added ≠ [] ∧
      ∀ entries : List (Text × ParseRecord), entries.map Prod.fst = obj.map Prod.fst →
        ∃ stop, recordMembers text added entries at' = some (Source.entries entries members, stop) ∧
          At text stop rest

theorem putMember_of_not_mem {α : Type} {members : List (Text × α)} {key : Text}
    (h : key ∉ members.map Prod.fst) (each : α) :
    putMember members key each = members ++ [(key, each)] := by
  have hcontains : ¬ (members.map Prod.fst).contains key = true := by rwa [List.contains_iff_mem]
  exact if_neg hcontains

theorem endsToken_of_is {b : UInt8} {c : Char} (h : Is b c)
    (hc : c = ',' ∨ c = ']' ∨ c = '\x7d' ∨ c = ':') : endsToken b := by
  rcases hc with rfl | rfl | rfl | rfl
  · exact Or.inr (Or.inl h)
  · exact Or.inr (Or.inr (Or.inl h))
  · exact Or.inr (Or.inr (Or.inr (Or.inl h)))
  · exact Or.inr (Or.inr (Or.inr (Or.inr h)))

theorem follows_zero : Follows fromChars text 0 where
  value h := by rw [parse] at h; cases h
  array h := by rw [parseArray] at h; cases h
  elements h := by rw [parseElements] at h; cases h
  object h := by rw [parseObject] at h; cases h
  members h := by rw [parseMembers] at h; cases h

section Step

variable {fuel depth at' : ℕ} {s₀ s rest : Text} {v : JsonValue D} {source : Source D}

theorem Follows.value_succ (ih : Follows fromChars text fuel)
    (h : parse fromChars (fuel + 1) depth s = some (v, source, rest))
    (hdistinct : Source.Distinct source) (hskip : skip s₀ = skip s) (hat : At text at' s₀)
    (hstops : Stops rest) :
    ∃ stop, materializeRecorded text v at' = some (Source.record source, stop) ∧ At text stop rest := by
  have hstart := hat.skip
  rw [hskip] at hstart
  rw [parse] at h
  cases hs : skip s with
  | nil =>
    rw [hs] at h
    cases h
  | cons b after =>
    rw [hs] at h hstart
    dsimp only at h
    split_ifs at h with hobject hdeep harray hdeep'
    · exact ih.object h hdistinct hstart.tail
    · exact ih.array h hdistinct hstart.tail
    · obtain ⟨⟨value, spelled, last⟩, hprimitive, hresult⟩ := Option.map_eq_some_iff.mp h
      obtain ⟨rfl, rfl, rfl⟩ : value = v ∧ Source.token spelled value = source ∧ last = rest := by
        simpa using hresult
      exact materializeRecorded_primitive hprimitive hstart hstops

theorem Follows.array_succ (ih : Follows fromChars text fuel)
    (h : parseArray fromChars (fuel + 1) depth s = some (v, source, rest))
    (hdistinct : Source.Distinct source) (hat : At text (skipJsonSpace text at' + 1) s) :
    ∃ stop, materializeRecorded text v at' = some (Source.record source, stop) ∧ At text stop rest := by
  rw [parseArray] at h
  cases hs : skip s with
  | nil =>
    rw [hs] at h
    cases h
  | cons b after =>
    rw [hs] at h
    dsimp only at h
    split_ifs at h with hclose
    · obtain ⟨rfl, rfl, rfl⟩ : .array [] = v ∧ .array [] = source ∧ after = rest := by simpa using h
      have hskipped := hat.skip
      rw [hs] at hskipped
      exact ⟨_, rfl, hskipped.tail⟩
    · obtain ⟨⟨items, elements, last⟩, helements, hresult⟩ := Option.map_eq_some_iff.mp h
      obtain ⟨rfl, rfl, rfl⟩ : .array items = v ∧ .array elements = source ∧ last = rest := by
        simpa using hresult
      have hskip : skip s = skip (b :: after) := by rw [← hs, skip_skip]
      obtain ⟨hne, stop, hwalk, hstop⟩ := ih.elements helements hdistinct hskip hat
      refine ⟨stop, ?_, hstop⟩
      rw [materializeRecorded, hwalk]
      simp [hne, Source.record]

theorem Follows.elements_succ (ih : Follows fromChars text fuel) {items : List (JsonValue D)}
    {elements : List (Source D)}
    (h : parseElements fromChars (fuel + 1) depth s = some (items, elements, rest))
    (hdistinct : Source.AllDistinct elements) (hskip : skip s₀ = skip s) (hat : At text at' s₀) :
    items ≠ [] ∧ ∃ stop, recordElements text items at' = some (Source.records elements, stop) ∧
      At text stop rest := by
  rw [parseElements, Option.bind_eq_bind, Option.bind_eq_some_iff] at h
  obtain ⟨⟨value, source, after⟩, hvalue, h⟩ := h
  dsimp only at h
  cases hs : skip after with
  | nil =>
    rw [hs] at h
    cases h
  | cons b next =>
    rw [hs] at h
    dsimp only at h
    split_ifs at h with hcomma hclose
    · simp only [Option.bind_eq_bind, Option.bind_eq_some_iff] at h
      obtain ⟨⟨items', elements', last⟩, hmore, hresult⟩ := h
      obtain ⟨rfl, rfl, rfl⟩ : value :: items' = items ∧ source :: elements' = elements ∧ last = rest := by
        simpa using hresult
      have hstops := stops_of_next hs (endsToken_of_is hcomma (Or.inl rfl))
      obtain ⟨middle, hfirst, hmiddle⟩ := ih.value hvalue hdistinct.1 hskip hat hstops
      have hnext := hmiddle.skip
      rw [hs] at hnext
      obtain ⟨-, stop, hwalk, hstop⟩ := ih.elements hmore hdistinct.2 rfl hnext.tail
      refine ⟨List.cons_ne_nil _ _, stop, ?_, hstop⟩
      rw [recordElements, hfirst]
      simp [hwalk, Source.records]
    · obtain ⟨rfl, rfl, rfl⟩ : [value] = items ∧ [source] = elements ∧ next = rest := by simpa using h
      have hstops := stops_of_next hs (endsToken_of_is hclose (Or.inr (Or.inl rfl)))
      obtain ⟨middle, hfirst, hmiddle⟩ := ih.value hvalue hdistinct.1 hskip hat hstops
      have hnext := hmiddle.skip
      rw [hs] at hnext
      refine ⟨List.cons_ne_nil _ _, skipJsonSpace text middle + 1, ?_, hnext.tail⟩
      rw [recordElements, hfirst]
      simp [recordElements, Source.records]

theorem Follows.object_succ (ih : Follows fromChars text fuel)
    (h : parseObject fromChars (fuel + 1) depth s = some (v, source, rest))
    (hdistinct : Source.Distinct source) (hat : At text (skipJsonSpace text at' + 1) s) :
    ∃ stop, materializeRecorded text v at' = some (Source.record source, stop) ∧ At text stop rest := by
  rw [parseObject] at h
  cases hs : skip s with
  | nil =>
    rw [hs] at h
    cases h
  | cons b after =>
    rw [hs] at h
    dsimp only at h
    split_ifs at h with hclose
    · obtain ⟨rfl, rfl, rfl⟩ : .object [] = v ∧ .object [] = source ∧ after = rest := by simpa using h
      have hskipped := hat.skip
      rw [hs] at hskipped
      exact ⟨_, rfl, hskipped.tail⟩
    · obtain ⟨⟨obj, members, last⟩, hmembers, hresult⟩ := Option.map_eq_some_iff.mp h
      obtain ⟨rfl, rfl, rfl⟩ : .object obj = v ∧ .object members = source ∧ last = rest := by
        simpa using hresult
      have hskip : skip s = skip (b :: after) := by rw [← hs, skip_skip]
      obtain ⟨added, rfl, hne, hwalk⟩ :=
        ih.members hmembers (by simpa using hdistinct.1) hdistinct.2 hskip hat
      obtain ⟨stop, hwalk, hstop⟩ := hwalk [] rfl
      refine ⟨stop, ?_, hstop⟩
      rw [materializeRecorded, hwalk]
      simp [hne, Source.record]

theorem Follows.members_succ (ih : Follows fromChars text fuel) {obj obj' : List (Text × JsonValue D)}
    {members : List (Text × Source D)}
    (h : parseMembers fromChars (fuel + 1) depth obj s = some (obj', members, rest))
    (hkeys : (obj.map Prod.fst ++ members.map Prod.fst).Nodup)
    (hdistinct : Source.MembersDistinct members) (hskip : skip s₀ = skip s) (hat : At text at' s₀) :
    ∃ added, obj' = obj ++ added ∧ added ≠ [] ∧
      ∀ entries : List (Text × ParseRecord), entries.map Prod.fst = obj.map Prod.fst →
        ∃ stop, recordMembers text added entries at' = some (Source.entries entries members, stop) ∧
          At text stop rest := by
  rw [parseMembers, Option.bind_eq_bind, Option.bind_eq_some_iff] at h
  obtain ⟨⟨key, s₁⟩, hkey, h⟩ := h
  have hstart := hat.skip
  rw [hskip] at hstart
  obtain ⟨-, -, hcolon⟩ := hstart.string hkey
  dsimp only at h
  cases hs₁ : skip s₁ with
  | nil =>
    rw [hs₁] at h
    cases h
  | cons colon s₂ =>
    have hvalue := hcolon.skip
    rw [hs₁] at h hvalue
    dsimp only at h
    split_ifs at h with hmark
    rw [Option.bind_eq_bind, Option.bind_eq_some_iff] at h
    obtain ⟨⟨value, source, s₃⟩, hparse, h⟩ := h
    dsimp only at h
    -- the cursor is after the value, and a comma or a brace comes next
    have hafter {b : UInt8} {next : Text} (hs₃ : skip s₃ = b :: next) (hb : endsToken b)
        (hsource : Source.Distinct source) : ∃ middle,
        materializeRecorded text value
          (skipJsonSpace text (skipJsonToken text (skipJsonSpace text at')) + 1) =
            some (Source.record source, middle) ∧ At text (skipJsonSpace text middle + 1) next := by
      obtain ⟨middle, hfirst, hmiddle⟩ :=
        ih.value hparse hsource rfl hvalue.tail (stops_of_next hs₃ hb)
      have hnext := hmiddle.skip
      rw [hs₃] at hnext
      exact ⟨middle, hfirst, hnext.tail⟩
    cases hs₃ : skip s₃ with
    | nil =>
      rw [hs₃] at h
      cases h
    | cons b next =>
      rw [hs₃] at h
      dsimp only at h
      split_ifs at h with hcomma hclose
      · simp only [Option.bind_eq_bind, Option.bind_eq_some_iff] at h
        obtain ⟨⟨obj₁, members', last⟩, hmore, hresult⟩ := h
        obtain ⟨rfl, rfl, rfl⟩ : obj₁ = obj' ∧ (key, source) :: members' = members ∧ last = rest := by
          simpa using hresult
        obtain ⟨middle, hfirst, hmiddle⟩ :=
          hafter hs₃ (endsToken_of_is hcomma (Or.inl rfl)) hdistinct.1
        rw [List.map_cons, List.append_cons] at hkeys
        have hnew : key ∉ obj.map Prod.fst := by
          have hleft := List.Nodup.of_append_left hkeys
          rw [List.nodup_append] at hleft
          exact fun hmem => hleft.2.2 key hmem key (List.mem_singleton_self key) rfl
        rw [putMember_of_not_mem hnew] at hmore
        obtain ⟨added, rfl, -, hwalk⟩ := ih.members hmore (by simpa using hkeys) hdistinct.2 rfl hmiddle
        refine ⟨(key, value) :: added, by simp, List.cons_ne_nil _ _, fun entries hentries => ?_⟩
        have hnew' : key ∉ entries.map Prod.fst := hentries ▸ hnew
        obtain ⟨stop, hrest, hstop⟩ := hwalk (entries ++ [(key, Source.record source)]) (by
          rw [List.map_append, List.map_append, hentries]
          rfl)
        refine ⟨stop, ?_, hstop⟩
        rw [recordMembers, hfirst, Source.entries, putMember_of_not_mem hnew']
        simp [putMember_of_not_mem hnew', hrest]
      · obtain ⟨rfl, rfl, rfl⟩ :
            putMember obj key value = obj' ∧ [(key, source)] = members ∧ next = rest := by
          simpa using h
        obtain ⟨middle, hfirst, hmiddle⟩ :=
          hafter hs₃ (endsToken_of_is hclose (Or.inr (Or.inr (Or.inl rfl)))) hdistinct.1
        have hnew : key ∉ obj.map Prod.fst := by
          rw [List.nodup_append] at hkeys
          exact fun hmem => hkeys.2.2 key hmem key (List.mem_singleton_self key) rfl
        refine ⟨[(key, value)], putMember_of_not_mem hnew value, List.cons_ne_nil _ _,
          fun entries _ => ⟨skipJsonSpace text middle + 1, ?_, hmiddle⟩⟩
        rw [recordMembers, hfirst]
        simp [recordMembers, Source.entries]

end Step

theorem follows (fuel : ℕ) : Follows fromChars text fuel := by
  induction fuel with
  | zero => exact follows_zero
  | succ fuel ih =>
    exact ⟨ih.value_succ, ih.array_succ, ih.elements_succ, ih.object_succ, ih.members_succ⟩

/-- In a text that no object of repeats a key, every primitive value is recorded with the token it
was parsed from, and the walk ends inside the text. -/
theorem materializeRecorded_of_distinct {fuel : ℕ} {value : JsonValue D} {source : Source D}
    (h : parseJson fromChars fuel text = some (value, source)) (hdistinct : Source.Distinct source) :
    ∃ stop, materializeRecorded text value 0 = some (Source.record source, stop) ∧
      stop ≤ text.length := by
  rw [parseJson, Option.bind_eq_bind, Option.bind_eq_some_iff] at h
  obtain ⟨⟨v, src, rest⟩, hparse, h⟩ := h
  dsimp only at h
  split_ifs at h with hend
  obtain ⟨rfl, rfl⟩ := Prod.mk.inj (Option.some.inj h)
  have hstops : Stops rest := stops_of_skip fun b hb => by rw [hend] at hb; cases hb
  obtain ⟨stop, hwalk, hstop⟩ :=
    (follows fuel).value hparse hdistinct rfl ⟨rfl, Nat.zero_le _⟩ hstops
  exact ⟨stop, hwalk, hstop.le⟩

end Lockstep

/-! ## Repeated keys -/

mutual

/-- Whether no object of a text repeats a key. -/
def Source.decideDistinct {D : Type} : (source : Source D) → Decidable (Source.Distinct source)
  | .token _ _ => isTrue trivial
  | .array elements => Source.decideAllDistinct elements
  | .object members =>
    have := Source.decideMembersDistinct members
    inferInstanceAs (Decidable ((members.map Prod.fst).Nodup ∧ Source.MembersDistinct members))

/-- Whether no object of some elements repeats a key. -/
def Source.decideAllDistinct {D : Type} :
    (elements : List (Source D)) → Decidable (Source.AllDistinct elements)
  | [] => isTrue trivial
  | source :: rest =>
    have := Source.decideDistinct source
    have := Source.decideAllDistinct rest
    inferInstanceAs (Decidable (Source.Distinct source ∧ Source.AllDistinct rest))

/-- Whether no object of some members repeats a key. -/
def Source.decideMembersDistinct {D : Type} :
    (members : List (Text × Source D)) → Decidable (Source.MembersDistinct members)
  | [] => isTrue trivial
  | (_, source) :: rest =>
    have := Source.decideDistinct source
    have := Source.decideMembersDistinct rest
    inferInstanceAs (Decidable (Source.Distinct source ∧ Source.MembersDistinct rest))

end

instance {D : Type} (source : Source D) : Decidable (Source.Distinct source) :=
  Source.decideDistinct source

/-- The text of the first member of a record. -/
def ParseRecord.firstEntry : ParseRecord → Option Text
  | ⟨_, _, (_, ⟨source, _, _⟩) :: _⟩ => some source
  | _ => none

/-- A text with nesting and without repeated keys. -/
def nestedText : Text := ascii "[\x7b\"a\" : [1, -2.5e3], \"b\\\"\" : \x7b\x7d\x7d, null]"

theorem materializeRecorded_nestedText : ∃ (value : JsonValue Text) (source : Source Text) (stop : ℕ),
    parseJson id 20 nestedText = some (value, source) ∧
      materializeRecorded nestedText value 0 = some (Source.record source, stop) ∧
      stop ≤ nestedText.length := by
  have hread : (parseJson id 20 nestedText).any (fun r => decide (Source.Distinct r.2)) = true := by
    decide +kernel
  obtain ⟨⟨value, source⟩, hparse, hdistinct⟩ := (Option.any_eq_true _ _).mp hread
  obtain ⟨stop, hwalk⟩ := materializeRecorded_of_distinct hparse (of_decide_eq_true hdistinct)
  exact ⟨value, source, stop, hparse, hwalk⟩

/-- In `\x7b"a":1,"a":2\x7d` the value 2 is recorded with the token 1. -/
theorem materializeRecorded_repeatedKey : ∃ (value : JsonValue Text) (source : Source Text)
    (record : ParseRecord) (stop : ℕ),
    parseJson id 20 (ascii "\x7b\"a\":1,\"a\":2\x7d") = some (value, source) ∧
      materializeRecorded (ascii "\x7b\"a\":1,\"a\":2\x7d") value 0 = some (record, stop) ∧
      record.firstEntry = some (ascii "1") ∧ (Source.record source).firstEntry = some (ascii "2") := by
  have hread : (parseJson id 20 (ascii "\x7b\"a\":1,\"a\":2\x7d")).any (fun r =>
      (materializeRecorded (ascii "\x7b\"a\":1,\"a\":2\x7d") r.1 0).any fun m =>
        m.1.firstEntry = some (ascii "1") ∧ (Source.record r.2).firstEntry = some (ascii "2")) = true := by
    decide +kernel
  obtain ⟨⟨value, source⟩, hparse, hwalk⟩ := (Option.any_eq_true _ _).mp hread
  obtain ⟨⟨record, stop⟩, hrecord, hentries⟩ := (Option.any_eq_true _ _).mp hwalk
  exact ⟨value, source, record, stop, hparse, hrecord, of_decide_eq_true hentries⟩

-- the walk takes the key's closing quote for an opening one, and asks for a text past the end
example : (parseJson id 30 (ascii "[\x7b\" \":1,\" \":2\x7d,3,4]")).any (fun r =>
    (materializeRecorded (ascii "[\x7b\" \":1,\" \":2\x7d,3,4]") r.1 0).isNone) = true := by
  decide +kernel

end CtBrowser.Json
