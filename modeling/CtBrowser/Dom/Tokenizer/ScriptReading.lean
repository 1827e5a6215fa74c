import CtBrowser.Dom.Tokenizer.ScriptData

/-!
# Reading a script

The tokenizer forgets one thing: the dashes of `<!--` are already two of the dashes that a `>`
ends the escaped text with. It reads a script as the machine does in which an opening leads to the
escaped state, and so as the specification says when no opening is followed by `>` or `->`.

A reading is followed turn by turn. At the start of a turn the machine is in the state of the
level, or in one that the next bytes do not tell from it.

## Main definitions

- `reading` — what the machine makes of a text after some output.
- `AtEndTag` — the appropriate end tag comes next.
- `EmptyOpening` — an opening that ends the escaped text at once.

## Main results

- `readScript_eq_run` — the tokenizer reads a script as the machine that forgets the dashes.
- `readScript_eq_specification` — without empty openings it reads one as the specification says.
-/

namespace CtBrowser.Dom.ScriptData

open Foundations CharacterMachine

variable {closeTag : Text} {opened s u : ScriptState} {out o rest name : Text} {c : UInt8} {e : Escape}

/-- What the machine makes of a text after some output. -/
def reading (closeTag : Text) (opened s : ScriptState) (out text : Text) : Option (Reading UInt8 Text) :=
  ((machine closeTag opened).run s (characters text)).map (Reading.after out)

theorem reading_nil (s : ScriptState) (out : Text) :
    reading closeTag opened s out [] = some ⟨out ++ heldBack s, none⟩ := rfl

theorem reading_stop (h : react closeTag opened s (normal c) = (o, none)) :
    reading closeTag opened s out (c :: rest) = some ⟨out ++ o, some (leftAfter c rest)⟩ := by
  rw [reading, characters_eq, run_stop (m := machine closeTag opened) h]
  rfl

theorem reading_go (hc : c ≠ cr) (h : react closeTag opened s c = (o, some u)) :
    reading closeTag opened s out (c :: rest) = reading closeTag opened u (out ++ o) rest := by
  rw [reading, characters_cons hc, run_go (m := machine closeTag opened) h, Reading.map_after_after]
  rfl

theorem reading_reconsume {text : Text} (hend : heldBack s = o ++ heldBack u)
    (h : ∀ c ∈ text.head?,
      react closeTag opened s (normal c) = reconsume o (react closeTag opened u (normal c))) :
    reading closeTag opened s out text = reading closeTag opened u (out ++ o) text := by
  rcases text with _ | ⟨c, rest⟩
  · simp [reading_nil, hend]
  have hreact : (machine closeTag opened).react s (normal c) =
      reconsume o ((machine closeTag opened).react u (normal c)) := h c rfl
  rw [reading, reading, characters_eq, run_cons, run_cons, hreact, reconsume]
  cases ((machine closeTag opened).react u (normal c)).2 with
  | none => simp [Reading.after]
  | some t => simp only [Reading.map_after_after, List.append_assoc]

/-- The state at the start of a turn. -/
def Escape.base : Escape → ScriptState
  | .outside => .scriptData
  | .escaped => .escaped
  | .doubleEscaped => .doubleEscaped

theorem reading_append (hlt : c ≠ lessThan) (hdash : c = dash → e = .outside) :
    reading closeTag opened e.base out (c :: rest) = reading closeTag opened e.base
      (appendText .script out c rest).1 (appendText .script out c rest).2 := by
  have hreact (d : UInt8) (hd : d ≠ lessThan) (hd' : d = dash → e = .outside) :
      react closeTag opened e.base d = (plain d, some e.base) := by
    cases e <;> simp_all [Escape.base, react, inScriptData, inEscaped, inDoubleEscaped]
  by_cases hcr : c = cr
  · subst hcr
    have hlf : (machine closeTag opened).react e.base lf = ([lf], some e.base) :=
      hreact lf (by decide) fun h => absurd h (by decide)
    rw [reading, characters_cr, run_go hlf, Reading.map_after_after]
    rfl
  · rw [reading_go hcr (hreact c hlt hdash), appendText, plain]
    split_ifs with h1 h2 h3 <;> simp_all

/-! Letters and digits steer nothing, and a letter ends no name. -/

theorem isAlnum_of_isAlpha (h : isAlpha c) : isAlnum c := by
  simp [isAlnum, h]

theorem ne_of_isAlnum {d : UInt8} (h : isAlnum c) (hd : isAlnum d = false) : c ≠ d := by
  rintro rfl
  simp [h] at hd

theorem of_endsName {p : UInt8 → Bool} (hall : (htmlWhitespace ++ [solidus, greaterThan]).all p) (h : endsName c) :
    p c := by
  have hmem : c ∈ htmlWhitespace ++ [solidus, greaterThan] := by
    simpa [endsName, isWhitespace, or_assoc] using h
  exact List.all_eq_true.mp hall c hmem

theorem not_isAlpha_of_endsName (h : endsName c) : isAlpha c = false := by
  simpa using of_endsName (p := (! isAlpha ·)) (by decide) h

theorem endsName_normal (c : UInt8) : endsName (normal c) = endsName c := by
  rw [normal]
  split_ifs with h
  · subst h
    rfl
  · rfl

theorem isAlpha_normal (c : UInt8) : isAlpha (normal c) = isAlpha c := by
  rw [normal]
  split_ifs with h
  · subst h
    rfl
  · rfl

theorem reading_alnum (h : ∀ c ∈ name, isAlnum c) :
    reading closeTag opened e.base out (name ++ rest) = reading closeTag opened e.base (out ++ name) rest := by
  induction name generalizing out with
  | nil => simp
  | cons c name ih =>
    have hc : isAlnum c := h c (by simp)
    have hne {d : UInt8} (hd : isAlnum d = false) : c ≠ d := ne_of_isAlnum hc hd
    rw [List.cons_append, reading_append (hne (by decide)) fun hd => absurd hd (hne (by decide)), appendText,
      if_neg fun h => hne (by decide) h.1, if_pos (hne (by decide)), ih fun c hc => h c (by simp [hc])]
    simp

/-! ## End tags -/

/-- The states of the end tag of a level that can end the script. -/
def Escape.endTagName (e : Escape) : Text → ScriptState :=
  if e = .escaped then .escapedEndTagName else .endTagName

/-- How the text of a level goes on. -/
def Escape.text : Escape → UInt8 → Reaction
  | .outside => inScriptData
  | .escaped => inEscaped
  | .doubleEscaped => inDoubleEscaped

theorem react_base (e : Escape) (c : UInt8) : react closeTag opened e.base c = e.text c := by
  cases e <;> rfl

theorem react_endTagName (he : e ≠ .doubleEscaped) (name : Text) (c : UInt8) :
    react closeTag opened (e.endTagName name) c = inEndTagName closeTag e.endTagName e.text name c := by
  cases e
  · rfl
  · rfl
  · exact absurd rfl he

theorem heldBack_endTagName (e : Escape) (name : Text) : heldBack (e.endTagName name) = ascii "</" ++ name := by
  cases e <;> rfl

/-- The state before its name. -/
def Escape.endTagOpen (e : Escape) : ScriptState := if e = .escaped then .escapedEndTagOpen else .endTagOpen

theorem react_endTagOpen (he : e ≠ .doubleEscaped) (c : UInt8) :
    react closeTag opened e.endTagOpen c = if isAlpha c then inEndTagName closeTag e.endTagName e.text [] c
      else reconsume (ascii "</") (e.text c) := by
  cases e
  · rfl
  · rfl
  · exact absurd rfl he

theorem heldBack_endTagOpen (e : Escape) : heldBack e.endTagOpen = ascii "</" := by
  cases e <;> rfl

theorem reading_endTagName_letters (he : e ≠ .doubleEscaped) {letters : Text} (h : ∀ c ∈ letters, isAlpha c)
    (name : Text) :
    reading closeTag opened (e.endTagName name) out (letters ++ rest) =
      reading closeTag opened (e.endTagName (name ++ letters)) out rest := by
  induction letters generalizing name out with
  | nil => simp
  | cons c letters ih =>
    have hc : isAlpha c := h c (by simp)
    have hends : endsName c = false := by
      by_contra hends
      simp [not_isAlpha_of_endsName (by simpa using hends)] at hc
    have hreact : react closeTag opened (e.endTagName name) c = ([], some (e.endTagName (name ++ [c]))) := by
      simp [react_endTagName he, inEndTagName, hc, hends]
    rw [List.cons_append, reading_go (ne_of_isAlnum (isAlnum_of_isAlpha hc) (by decide)) hreact,
      ih fun c hc => h c (by simp [hc])]
    simp

theorem reading_endTagName_text (he : e ≠ .doubleEscaped) {tail : Text} (halpha : tail.head?.all (! isAlpha ·))
    (h : ∀ c ∈ tail.head?, endsName c → name.map asciiLower ≠ closeTag) :
    reading closeTag opened (e.endTagName name) out tail =
      reading closeTag opened e.base (out ++ (ascii "</" ++ name)) tail := by
  refine reading_reconsume ?_ fun c hc => ?_
  · rw [heldBack_endTagName]
    cases e <;> simp [Escape.base, heldBack]
  · have hends : ¬ (endsName (normal c) ∧ name.map asciiLower = closeTag) := by
      rw [endsName_normal]
      exact fun hboth => h c hc hboth.1 hboth.2
    have hal : isAlpha (normal c) = false := by
      rw [isAlpha_normal]
      simpa [Option.mem_def.mp hc] using halpha
    rw [react_endTagName he, inEndTagName, if_neg hends, hal, react_base]
    rfl

/-- The start of an end tag, or of what looks like one. -/
theorem reading_endTagOpen (he : e ≠ .doubleEscaped) (out rest : Text) :
    reading closeTag opened e.base out (lessThan :: solidus :: rest) =
      if rest.head?.any (isAlpha ·) then reading closeTag opened (e.endTagName []) out rest
      else reading closeTag opened e.base (out ++ ascii "</") rest := by
  have hopen : reading closeTag opened e.base out (lessThan :: solidus :: rest) =
      reading closeTag opened e.endTagOpen out rest := by
    cases e with
    | outside =>
      rw [reading_go (u := .lessThanSign) (by decide) rfl, reading_go (u := .endTagOpen) (by decide) rfl]
      simp [Escape.endTagOpen]
    | escaped =>
      rw [reading_go (u := .escapedLessThanSign) (by decide) rfl,
        reading_go (u := .escapedEndTagOpen) (by decide) rfl]
      simp [Escape.endTagOpen]
    | doubleEscaped => exact absurd rfl he
  rw [hopen]
  split_ifs with halpha
  · rw [reading_reconsume (u := e.endTagName []) (o := []), List.append_nil]
    · rw [heldBack_endTagName, heldBack_endTagOpen]
      rfl
    · intro c hc
      have hc : isAlpha (normal c) := by
        rw [isAlpha_normal]
        simpa [Option.mem_def.mp hc] using halpha
      rw [react_endTagOpen he, if_pos hc, react_endTagName he]
      rfl
  · refine reading_reconsume ?_ fun c hc => ?_
    · rw [heldBack_endTagOpen]
      cases e <;> rfl
    · have hc : ¬ isAlpha (normal c) := by
        rw [isAlpha_normal]
        simpa [Option.mem_def.mp hc] using halpha
      rw [react_endTagOpen he, if_neg hc, react_base]

/-- Whether the appropriate end tag comes after `</`: its name and a byte that ends it. -/
def AtEndTag (closeTag rest : Text) : Prop :=
  ∃ name c tail, rest = name ++ c :: tail ∧ name ≠ [] ∧ name.map asciiLower = closeTag ∧ endsName c

theorem isAlpha_asciiLower (c : UInt8) : isAlpha (asciiLower c) = isAlpha c := by
  rw [asciiLower]
  split_ifs with hupper
  · have hadd : (c + 0x20).toNat = c.toNat + 0x20 := by
      rw [UInt8.toNat_add]
      exact Nat.mod_eq_of_lt (by have := hupper.2; simp at this ⊢; omega)
    have h1 : 'A'.toNat = 65 := rfl
    have h2 : 'Z'.toNat = 90 := rfl
    have h3 : 'a'.toNat = 97 := rfl
    have h4 : 'z'.toNat = 122 := rfl
    rw [isAlpha, isAlpha, hadd, h1, h2, h3, h4, decide_eq_decide]
    omega
  · rfl

theorem letters_append (rest : Text) : rest.takeWhile (isAlpha ·) ++ rest.dropWhile (isAlpha ·) = rest :=
  List.takeWhile_append_dropWhile

theorem isAlpha_of_mem_letters (rest : Text) : ∀ c ∈ rest.takeWhile (isAlpha ·), isAlpha c := by
  intro c hc
  exact List.all_eq_true.mp List.all_takeWhile c hc

theorem head?_afterLetters (rest : Text) : (rest.dropWhile (isAlpha ·)).head?.all (! isAlpha ·) := by
  have h := List.head?_dropWhile_not (isAlpha ·) rest
  cases hd : (rest.dropWhile (isAlpha ·)).head? with
  | none => rfl
  | some c => simpa [hd] using h

theorem reading_text_of_not_atEndTag (he : e ≠ .doubleEscaped) (out : Text) (h : ¬ AtEndTag closeTag rest) :
    reading closeTag opened e.base out (lessThan :: solidus :: rest) =
      reading closeTag opened e.base (out ++ [lessThan]) (solidus :: rest) := by
  have hsolidus : reading closeTag opened e.base (out ++ [lessThan]) (solidus :: rest) =
      reading closeTag opened e.base (out ++ ascii "</") rest := by
    rw [reading_append (by decide) fun h => absurd h (by decide), appendText, if_neg (by decide), if_pos (by decide),
      List.append_assoc]
    rfl
  rw [hsolidus, reading_endTagOpen he]
  split_ifs with halpha
  · have hne : rest.takeWhile (isAlpha ·) ≠ [] := by
      cases rest with
      | nil => simp at halpha
      | cons c rest =>
        have hc : isAlpha c := by simpa using halpha
        simp [hc]
    conv_lhs => rw [← letters_append rest]
    conv_rhs => rw [← letters_append rest]
    rw [reading_endTagName_letters he (isAlpha_of_mem_letters rest), List.nil_append,
      reading_endTagName_text he (head?_afterLetters rest),
      reading_alnum fun c hc => isAlnum_of_isAlpha (isAlpha_of_mem_letters rest c hc), List.append_assoc]
    intro c hc hends hname
    obtain ⟨tail, htail⟩ := List.head?_eq_some_iff.mp hc
    exact h ⟨_, c, tail, by rw [← htail, letters_append], hne, hname, hends⟩
  · rfl

/-- What is left after the end tag that a text starts with. -/
def afterEndTag (closeTag text : Text) : Text :=
  match text.drop (2 + closeTag.length) with
  | [] => []
  | c :: tail => leftAfter c tail

theorem reading_atEndTag (he : e ≠ .doubleEscaped) (out : Text) (hletters : ∀ c ∈ closeTag, isAlpha c)
    (h : AtEndTag closeTag rest) :
    reading closeTag opened e.base out (lessThan :: solidus :: rest) =
      some ⟨out, some (afterEndTag closeTag (lessThan :: solidus :: rest))⟩ := by
  obtain ⟨name, c, tail, rfl, hne, hname, hends⟩ := h
  have halpha : ∀ c ∈ name, isAlpha c := by
    intro c hc
    rw [← isAlpha_asciiLower]
    exact hletters _ (hname ▸ List.mem_map_of_mem hc)
  have hhead : (name ++ c :: tail).head?.any (isAlpha ·) := by
    cases name with
    | nil => exact absurd rfl hne
    | cons d name => simpa using halpha d (by simp)
  have hstop : react closeTag opened (e.endTagName name) (normal c) = ([], none) := by
    rw [react_endTagName he, inEndTagName, if_pos ⟨(endsName_normal c).trans hends, hname⟩]
  have hlen : (lessThan :: solidus :: (name ++ c :: tail)).drop (2 + closeTag.length) = c :: tail := by
    rw [← hname, Nat.add_comm]
    simp
  rw [reading_endTagOpen he, if_pos hhead, reading_endTagName_letters he halpha, List.nil_append,
    reading_stop hstop, List.append_nil, afterEndTag, hlen]

theorem asciiIequals_iff (hlower : closeTag.map asciiLower = closeTag) (name : Text) :
    asciiIequals name closeTag = true ↔ name.map asciiLower = closeTag := by
  rw [asciiIequals, hlower, beq_iff_eq]

theorem afterName_yes_iff (truncated : Bool) (rest : Text) :
    afterName truncated rest = .yes ↔ ∃ c tail, rest = c :: tail ∧ endsName c := by
  rcases rest with _ | ⟨c, tail⟩
  · cases truncated <;> simp [afterName]
  · cases h : endsName c <;> simp [afterName, h]

theorem appropriateEndTagAhead_yes_iff (hlower : closeTag.map asciiLower = closeTag) (truncated : Bool)
    (rest : Text) : appropriateEndTagAhead closeTag truncated rest = .yes ↔ AtEndTag closeTag rest := by
  constructor
  · intro h
    rw [appropriateEndTagAhead] at h
    split_ifs at h with hempty hshort hcut hname
    have hmatch : (rest.take closeTag.length).map asciiLower = closeTag :=
      (asciiIequals_iff hlower _).mp (by simpa using hname)
    obtain ⟨c, tail, hdrop, hends⟩ := (afterName_yes_iff _ _).mp h
    refine ⟨rest.take closeTag.length, c, tail, ?_, ?_, hmatch, hends⟩
    · rw [← hdrop, List.take_append_drop]
    · rintro hnil
      rw [hnil] at hmatch
      exact hempty hmatch.symm
  · rintro ⟨name, c, tail, rfl, hne, hname, hends⟩
    have hlen : closeTag.length = name.length := by rw [← hname, List.length_map]
    have hempty : closeTag ≠ [] := by
      rw [← hname]
      simpa using hne
    have hmatch : asciiIequals name closeTag = true := (asciiIequals_iff hlower name).mpr hname
    simp [appropriateEndTagAhead, afterName, hempty, hlen, hmatch, hends]

theorem appropriateEndTagAhead_no (rest : Text) (h : appropriateEndTagAhead closeTag false rest ≠ .yes) :
    appropriateEndTagAhead closeTag false rest = .no := by
  rw [appropriateEndTagAhead] at h ⊢
  simp only [Bool.false_eq_true, false_and, if_false] at h ⊢
  split_ifs at h ⊢ with hempty hshort hname
  · rfl
  · rfl
  · rfl
  · generalize rest.drop closeTag.length = after at h ⊢
    rcases after with _ | ⟨c, tail⟩
    · rfl
    · cases hends : endsName c with
      | true => simp [afterName, hends] at h
      | false => simp [afterName, hends]

/-! ## Words that change the level -/

/-- The states of such a word, and the level it leads to. -/
def Escape.wordState (e : Escape) : Text → ScriptState :=
  if e = .escaped then .doubleEscapeStart else .doubleEscapeEnd

def Escape.other (e : Escape) : Escape := if e = .escaped then .doubleEscaped else .escaped

theorem react_wordState (he : e ≠ .outside) (buffer : Text) (c : UInt8) :
    react closeTag opened (e.wordState buffer) c =
      inDoubleEscape e.other.base e.base e.wordState e.text buffer c := by
  cases e
  · exact absurd rfl he
  · rfl
  · rfl

theorem heldBack_wordState (e : Escape) (buffer : Text) : heldBack (e.wordState buffer) = [] := by
  cases e <;> rfl

theorem heldBack_base (e : Escape) : heldBack e.base = [] := by
  cases e <;> rfl

theorem reading_word_letters (he : e ≠ .outside) {letters : Text} (h : ∀ c ∈ letters, isAlpha c)
    (buffer : Text) :
    reading closeTag opened (e.wordState buffer) out (letters ++ rest) =
      reading closeTag opened (e.wordState (buffer ++ letters.map asciiLower)) (out ++ letters) rest := by
  induction letters generalizing buffer out with
  | nil => simp
  | cons c letters ih =>
    have hc : isAlpha c := h c (by simp)
    have hends : endsName c = false := by
      by_contra hends
      simp [not_isAlpha_of_endsName (by simpa using hends)] at hc
    have hreact : react closeTag opened (e.wordState buffer) c =
        ([c], some (e.wordState (buffer ++ [asciiLower c]))) := by
      simp [react_wordState he, inDoubleEscape, hc, hends]
    rw [List.cons_append, reading_go (ne_of_isAlnum (isAlnum_of_isAlpha hc) (by decide)) hreact,
      ih fun c hc => h c (by simp [hc])]
    simp

theorem text_of_endsName (e : Escape) (h : endsName c) : e.text c = ([c], some e.base) := by
  have hlt : c ≠ lessThan := by simpa using of_endsName (p := (· != lessThan)) (by decide) h
  have hdash : c ≠ dash := by simpa using of_endsName (p := (· != dash)) (by decide) h
  have hnul : c ≠ 0 := by simpa using of_endsName (p := (· != 0)) (by decide) h
  cases e <;> simp [Escape.text, Escape.base, inScriptData, inEscaped, inDoubleEscaped, plain, hlt, hdash, hnul]

theorem reading_word_end (he : e ≠ .outside) {tail buffer : Text} (halpha : tail.head?.all (! isAlpha ·)) :
    reading closeTag opened (e.wordState buffer) out tail =
      reading closeTag opened (if buffer = ascii "script" ∧ tail.head?.any (endsName ·) then e.other else e).base
        out tail := by
  have hbase (e' : Escape) (hreact : ∀ c ∈ tail.head?,
      react closeTag opened (e.wordState buffer) (normal c) = e'.text (normal c)) :
      reading closeTag opened (e.wordState buffer) out tail = reading closeTag opened e'.base out tail := by
    rw [reading_reconsume (u := e'.base) (o := []), List.append_nil]
    · rw [heldBack_wordState, heldBack_base]
      rfl
    · intro c hc
      rw [hreact c hc, react_base]
      rfl
  refine hbase _ fun c hc => ?_
  have hal : isAlpha (normal c) = false := by
    rw [isAlpha_normal]
    simpa [Option.mem_def.mp hc] using halpha
  rw [react_wordState he, inDoubleEscape, Option.mem_def.mp hc, Option.any_some, endsName_normal]
  cases hends : endsName c with
  | true =>
    have hn : endsName (normal c) := (endsName_normal c).trans hends
    by_cases hb : buffer = ascii "script" <;> simp [hb, text_of_endsName _ hn]
  | false => simp [hal]

/-- Reads a word as the tokenizer does, in one go. -/
theorem reading_word (he : e ≠ .outside) (out rest : Text) :
    reading closeTag opened (e.wordState []) out rest =
      reading closeTag opened (if asciiIequals (rest.takeWhile (isAlnum ·)) (ascii "script") ∧
          (rest.dropWhile (isAlnum ·)).head?.any (endsName ·) then e.other else e).base
        (out ++ rest.takeWhile (isAlnum ·)) (rest.dropWhile (isAlnum ·)) := by
  have halpha := isAlpha_of_mem_letters rest
  have hhead := head?_afterLetters rest
  have halnum : ∀ c ∈ rest.takeWhile (isAlpha ·), isAlnum c := fun c hc => isAlnum_of_isAlpha (halpha c hc)
  have hscript : (ascii "script").map asciiLower = ascii "script" := by decide
  rw [← letters_append rest]
  generalize rest.takeWhile (isAlpha ·) = letters at *
  generalize rest.dropWhile (isAlpha ·) = tail at *
  rw [reading_word_letters he halpha, reading_word_end he hhead, List.nil_append,
    List.takeWhile_append_of_pos halnum, List.dropWhile_append_of_pos halnum]
  by_cases hdigit : tail.head?.any (isAlnum ·)
  · -- a digit, which is in no name that counts
    obtain ⟨d, tail, rfl⟩ : ∃ d tail', tail = d :: tail' := by
      cases tail with
      | nil => simp at hdigit
      | cons d tail => exact ⟨d, tail, rfl⟩
    have hd : isAlnum d := by simpa using hdigit
    have hd' : isAlpha d = false := by simpa using hhead
    have hends : endsName d = false := by
      by_contra hends
      have hnot := of_endsName (p := (! isAlnum ·)) (by decide) (by simpa using hends)
      simp [hd] at hnot
    have hword : asciiIequals (letters ++ d :: tail.takeWhile (isAlnum ·)) (ascii "script") = false := by
      rw [Bool.eq_false_iff]
      intro heq
      have hmem : asciiLower d ∈ ascii "script" := by
        rw [← (asciiIequals_iff hscript _).mp heq]
        simp
      have hall : (ascii "script").all (isAlpha ·) := by decide
      have hd'' : isAlpha (asciiLower d) := List.all_eq_true.mp hall _ hmem
      simp [isAlpha_asciiLower, hd'] at hd''
    rw [List.takeWhile_cons_of_pos hd, List.dropWhile_cons_of_pos hd, hword]
    have hname : ∀ c ∈ d :: tail.takeWhile (isAlnum ·), isAlnum c := by
      rintro c (_ | ⟨_, hc⟩)
      · exact hd
      · exact List.all_eq_true.mp List.all_takeWhile c hc
    have htail : d :: tail = (d :: tail.takeWhile (isAlnum ·)) ++ tail.dropWhile (isAlnum ·) := by
      rw [List.cons_append, List.takeWhile_append_dropWhile]
    rw [if_neg (by simp [hends]), if_neg (by simp), htail, reading_alnum hname, List.append_assoc]
  · have htake : tail.takeWhile (isAlnum ·) = [] ∧ tail.dropWhile (isAlnum ·) = tail := by
      cases tail with
      | nil => simp
      | cons d tail =>
        have hd : isAlnum d = false := by simpa using hdigit
        simp [hd]
    rw [htake.1, htake.2, List.append_nil]
    simp only [asciiIequals_iff hscript]

/-! ## Openings and dashes -/

/-- Whether the dashes of an opening end the escaped text at once. -/
def endsAtOnce (rest : Text) : Bool := rest.head? = some greaterThan ∨ rest.take 2 = ascii "->"

theorem reading_opening (out rest : Text) :
    reading closeTag opened .scriptData out (ascii "<!--" ++ rest) =
      reading closeTag opened opened (out ++ ascii "<!--") rest := by
  have hascii : ascii "<!--" = [lessThan, bang, dash, dash] := rfl
  rw [hascii]
  simp only [List.cons_append, List.nil_append]
  rw [reading_go (u := .lessThanSign) (by decide) rfl, reading_go (u := .escapeStart) (by decide) rfl,
    reading_go (u := .escapeStartDash) (by decide) rfl, reading_go (u := opened) (by decide) rfl]
  simp [ascii]

theorem reading_congr {text : Text} (hend : heldBack s = heldBack u)
    (h : ∀ c ∈ text.head?, react closeTag opened s (normal c) = react closeTag opened u (normal c)) :
    reading closeTag opened s out text = reading closeTag opened u out text := by
  rw [reading_reconsume (u := u) (o := []) hend fun c hc => by rw [h c hc]; rfl, List.append_nil]

theorem normal_ne {d : UInt8} (hcr : d ≠ cr) (hlf : d ≠ lf) (h : c ≠ d) : normal c ≠ d :=
  fun he => h ((normal_eq_iff hcr hlf).mp he)

theorem reading_notOpening (out rest : Text) (h : rest.take 2 ≠ ascii "--") :
    reading closeTag opened .scriptData out (lessThan :: bang :: rest) =
      reading closeTag opened .scriptData (out ++ [lessThan]) (bang :: rest) := by
  rw [reading_go (u := .lessThanSign) (by decide) rfl,
    reading_go (u := .escapeStart) (o := ascii "<!") (by decide) rfl,
    reading_go (u := .scriptData) (o := [bang]) (by decide) rfl]
  simp only [List.append_nil, List.append_assoc]
  rcases rest with _ | ⟨c, more⟩
  · rfl
  by_cases hc : c = dash
  · subst hc
    rw [reading_go (u := .escapeStartDash) (by decide) rfl,
      reading_go (u := .scriptData) (o := [dash]) (by decide) rfl]
    refine reading_congr rfl fun d hd => ?_
    have hne : d ≠ dash := by
      rintro rfl
      obtain ⟨more, rfl⟩ := List.head?_eq_some_iff.mp hd
      exact h rfl
    simp [react, normal_ne (by decide) (by decide) hne]
  · refine reading_congr rfl fun d hd => ?_
    obtain rfl : c = d := by simpa using hd
    simp [react, normal_ne (by decide) (by decide) hc]

theorem reading_lessThan (e : Escape) (out rest : Text) (hslash : rest.head? ≠ some solidus)
    (hbang : e = .outside → rest.head? ≠ some bang) (halpha : e = .escaped → rest.head?.all (! isAlpha ·)) :
    reading closeTag opened e.base out (lessThan :: rest) =
      reading closeTag opened e.base (out ++ [lessThan]) rest := by
  have hne {c d : UInt8} (hd : rest.head? ≠ some d) (hcr : d ≠ cr) (hlf : d ≠ lf) (hc : c ∈ rest.head?) :
      normal c ≠ d := normal_ne hcr hlf fun h => hd (h ▸ Option.mem_def.mp hc)
  cases e with
  | outside =>
    rw [reading_go (u := .lessThanSign) (o := []) (by decide) rfl, List.append_nil]
    refine reading_reconsume rfl fun c hc => ?_
    have h1 := hne hslash (by decide) (by decide) hc
    have h2 := hne (hbang rfl) (by decide) (by decide) hc
    simp [react, Escape.base, h1, h2]
  | escaped =>
    rw [reading_go (u := .escapedLessThanSign) (o := []) (by decide) rfl, List.append_nil]
    refine reading_reconsume rfl fun c hc => ?_
    have h1 := hne hslash (by decide) (by decide) hc
    have h2 : isAlpha (normal c) = false := by
      rw [isAlpha_normal]
      simpa [Option.mem_def.mp hc] using halpha rfl
    simp [react, Escape.base, h1, h2]
  | doubleEscaped =>
    rw [reading_go (u := .doubleEscapedLessThanSign) (o := [lessThan]) (by decide) rfl]
    refine reading_congr rfl fun c hc => ?_
    have h1 := hne hslash (by decide) (by decide) hc
    simp [react, Escape.base, h1]

/-- The states after a dash and after two, in escaped text. -/
def Escape.dash (e : Escape) : ScriptState := if e = .escaped then .escapedDash else .doubleEscapedDash
def Escape.dashDash (e : Escape) : ScriptState := if e = .escaped then .escapedDashDash else .doubleEscapedDashDash

theorem react_dash (he : e ≠ .outside) (c : UInt8) : react closeTag opened e.dash c =
    if c = Dom.dash then ([Dom.dash], some e.dashDash) else e.text c := by
  cases e
  · exact absurd rfl he
  · rfl
  · rfl

theorem react_dashDash (he : e ≠ .outside) (c : UInt8) : react closeTag opened e.dashDash c =
    if c = Dom.dash then ([Dom.dash], some e.dashDash)
    else if c = greaterThan then ([greaterThan], some .scriptData) else e.text c := by
  cases e
  · exact absurd rfl he
  · rfl
  · rfl

theorem text_dash (he : e ≠ .outside) : e.text Dom.dash = ([Dom.dash], some e.dash) := by
  cases e
  · exact absurd rfl he
  · rfl
  · rfl

theorem heldBack_dash (e : Escape) : heldBack e.dash = [] ∧ heldBack e.dashDash = [] := by
  cases e <;> exact ⟨rfl, rfl⟩

theorem reading_dashDash_eq_dash (he : e ≠ .outside) {text : Text} (h : text.head? ≠ some greaterThan)
    (out : Text) :
    reading closeTag opened e.dashDash out text = reading closeTag opened e.dash out text := by
  refine reading_congr ((heldBack_dash e).2.trans (heldBack_dash e).1.symm) fun c hc => ?_
  have hne : normal c ≠ greaterThan :=
    normal_ne (by decide) (by decide) fun heq => h (heq ▸ Option.mem_def.mp hc)
  rw [react_dash he, react_dashDash he, if_neg hne]

theorem reading_dash_eq_base (he : e ≠ .outside) {text : Text} (h : text.take 2 ≠ ascii "->") (out : Text) :
    reading closeTag opened e.dash out text = reading closeTag opened e.base out text := by
  have hend : heldBack e.dash = heldBack e.base := by rw [(heldBack_dash e).1, heldBack_base]
  rcases text with _ | ⟨c, more⟩
  · exact reading_congr hend (by simp)
  by_cases hc : c = Dom.dash
  · subst hc
    have hhead : more.head? ≠ some greaterThan := by
      intro hgt
      obtain ⟨more, rfl⟩ := List.head?_eq_some_iff.mp hgt
      exact h rfl
    rw [reading_go (u := e.dashDash) (o := [Dom.dash]) (by decide) (by rw [react_dash he, if_pos rfl]),
      reading_go (s := e.base) (u := e.dash) (o := [Dom.dash]) (by decide) (by rw [react_base, text_dash he]),
      reading_dashDash_eq_dash he hhead]
  · refine reading_congr hend fun d hd => ?_
    obtain rfl : c = d := by simpa using hd
    rw [react_dash he, react_base, if_neg (normal_ne (by decide) (by decide) hc)]

theorem reading_dash (he : e ≠ .outside) (out rest : Text) :
    reading closeTag opened e.base out (Dom.dash :: rest) = reading closeTag opened e.dash (out ++ [Dom.dash]) rest :=
  reading_go (by decide) (by rw [react_base, text_dash he])

theorem reading_closing (he : e ≠ .outside) (out rest : Text) :
    reading closeTag opened e.base out (Dom.dash :: (ascii "->" ++ rest)) =
      reading closeTag opened .scriptData (out ++ ascii "-->") rest := by
  have hgt : react closeTag opened e.dashDash greaterThan = ([greaterThan], some .scriptData) := by
    rw [react_dashDash he, if_neg (by decide), if_pos rfl]
  have happ : ascii "->" ++ rest = Dom.dash :: greaterThan :: rest := rfl
  rw [reading_dash he, happ,
    reading_go (u := e.dashDash) (o := [Dom.dash]) (by decide) (by rw [react_dash he, if_pos rfl]),
    reading_go (by decide) hgt]
  simp [ascii]

/-! ## The function reads as the machine that forgets the dashes -/

/-- The machine that the tokenizer amounts to: an opening leads to the start of escaped text. -/
abbrev forgetful (closeTag : Text) (s : ScriptState) (out text : Text) : Option (Reading UInt8 Text) :=
  reading closeTag .escaped s out text

/-- What a turn comes to is what the machine makes of the text at its level, after some output. -/
def Turn.Means (closeTag : Text) (e : Escape) (data text : Text) : Turn → Prop
  | .again data' rest e' =>
    forgetful closeTag e.base data text = forgetful closeTag e'.base data' rest ∧ rest.length < text.length
  | .done run =>
    if run.ended then
      data = [] ∧ run.rest = text ∧
        forgetful closeTag e.base [] text = some ⟨[], some (afterEndTag closeTag text)⟩
    else data ≠ [] ∧ run.data = data ∧ run.rest = text ∧ run.escape = e

variable {data : Text}

theorem means_append (h : forgetful closeTag e.base data (c :: rest) =
      forgetful closeTag e.base (appendText .script data c rest).1 (appendText .script data c rest).2) :
    (append data c rest e).Means closeTag e data (c :: rest) := by
  refine ⟨h, ?_⟩
  rw [appendText]
  split_ifs
  · simp
  · simp
  · exact Nat.lt_succ_of_le (length_afterCr_le rest)

theorem means_append_lessThan (h : forgetful closeTag e.base data (lessThan :: rest) =
      forgetful closeTag e.base (data ++ [lessThan]) rest) :
    (append data lessThan rest e).Means closeTag e data (lessThan :: rest) :=
  means_append h

theorem means_word (he : e ≠ .outside) {opening text : Text}
    (h : forgetful closeTag e.base data text = forgetful closeTag (e.wordState []) (data ++ opening) rest)
    (hlen : rest.length < text.length) :
    (word false data opening rest e e.other).Means closeTag e data text := by
  have hshort : (rest.dropWhile (isAlnum ·)).length < text.length :=
    (List.dropWhile_sublist _).length_le.trans_lt hlen
  rw [forgetful, forgetful, reading_word he] at h
  simp only [word, Bool.false_eq_true, false_and, if_false]
  split_ifs with hword
  · rw [if_pos hword] at h
    exact ⟨h, hshort⟩
  · rw [if_neg hword] at h
    exact ⟨h, hshort⟩

theorem means_lessThanTurn (hletters : ∀ c ∈ closeTag, isAlpha c) (hlower : closeTag.map asciiLower = closeTag)
    (data rest : Text) (e : Escape) :
    (lessThanTurn closeTag false data rest e).Means closeTag e data (lessThan :: rest) := by
  rcases rest with _ | ⟨next, more⟩
  · exact means_append_lessThan (reading_lessThan e data [] (by simp) (by simp) (by simp))
  rw [lessThanTurn]
  by_cases hslash : next = solidus
  · subst hslash
    rw [if_pos rfl]
    by_cases he : e = .doubleEscaped
    · subst he
      rw [if_pos rfl]
      refine means_word (e := .doubleEscaped) (by simp) ?_ (by simp)
      rw [forgetful, reading_go (u := .doubleEscapedLessThanSign) (o := [lessThan]) (by decide) rfl,
        reading_go (u := .doubleEscapeEnd []) (o := [solidus]) (by decide) rfl, List.append_assoc]
      rfl
    rw [if_neg he]
    by_cases htag : AtEndTag closeTag more
    · rw [(appropriateEndTagAhead_yes_iff hlower false more).mpr htag]
      have hend : forgetful closeTag e.base [] (lessThan :: solidus :: more) =
          some ⟨[], some (afterEndTag closeTag (lessThan :: solidus :: more))⟩ :=
        reading_atEndTag he [] hletters htag
      by_cases hdata : data = []
      · subst hdata
        exact ⟨rfl, rfl, hend⟩
      · simp only [if_neg hdata]
        exact ⟨hdata, rfl, rfl, rfl⟩
    · rw [appropriateEndTagAhead_no more fun h => htag ((appropriateEndTagAhead_yes_iff hlower false more).mp h)]
      exact means_append_lessThan (reading_text_of_not_atEndTag he data htag)
  rw [if_neg hslash]
  by_cases hbang : next = bang ∧ e = .outside
  · obtain ⟨rfl, rfl⟩ := hbang
    rw [if_pos ⟨rfl, rfl⟩, if_neg (by simp)]
    by_cases hopening : more.take 2 = ascii "--"
    · have hmore : more = ascii "--" ++ more.drop 2 := by rw [← hopening, List.take_append_drop]
      have hthree : (bang :: more).take 3 = ascii "!--" := by
        rw [List.take_succ_cons, hopening]
        rfl
      have htext : lessThan :: bang :: more = ascii "<!--" ++ more.drop 2 := by
        conv_lhs => rw [hmore]
        rfl
      rw [if_pos hthree]
      refine ⟨?_, by simp only [List.length_drop, List.length_cons]; omega⟩
      rw [htext]
      exact reading_opening data (more.drop 2)
    · have hthree : (bang :: more).take 3 ≠ ascii "!--" := by
        rw [List.take_succ_cons]
        exact fun h => hopening (List.cons_eq_cons.mp h).2
      rw [if_neg hthree]
      exact means_append_lessThan (reading_notOpening data more hopening)
  rw [if_neg hbang]
  by_cases halpha : e = .escaped ∧ isAlpha next
  · obtain ⟨rfl, halpha⟩ := halpha
    rw [if_pos ⟨rfl, halpha⟩]
    refine means_word (e := .escaped) (by simp) ?_ (by simp)
    rw [forgetful, reading_go (u := .escapedLessThanSign) (o := []) (by decide) rfl, List.append_nil]
    refine reading_reconsume rfl fun c hc => ?_
    obtain rfl : next = c := by simpa using hc
    have hne : normal next ≠ solidus := normal_ne (by decide) (by decide) hslash
    rw [react, if_neg hne, if_pos ((isAlpha_normal next).trans halpha)]
    rfl
  · rw [if_neg halpha]
    refine means_append_lessThan (reading_lessThan e data _ (by simpa using hslash) ?_ ?_)
    · rintro rfl
      simpa using hbang
    · rintro rfl
      simpa using halpha

theorem means_turn (hletters : ∀ c ∈ closeTag, isAlpha c) (hlower : closeTag.map asciiLower = closeTag)
    (data : Text) (c : UInt8) (rest : Text) (e : Escape) :
    (turn closeTag false data c rest e).Means closeTag e data (c :: rest) := by
  rw [turn]
  by_cases hlt : c = lessThan
  · subst hlt
    rw [if_pos rfl]
    exact means_lessThanTurn hletters hlower data rest e
  rw [if_neg hlt]
  by_cases hdash : c = Dom.dash ∧ e ≠ .outside
  · obtain ⟨rfl, he⟩ := hdash
    rw [if_pos ⟨rfl, he⟩, if_neg (by simp)]
    by_cases hclosing : rest.take 2 = ascii "->"
    · have hrest : rest = ascii "->" ++ rest.drop 2 := by rw [← hclosing, List.take_append_drop]
      rw [if_pos hclosing]
      refine ⟨?_, by rw [List.length_drop, List.length_cons]; omega⟩
      conv_lhs => rw [hrest]
      exact reading_closing he data (rest.drop 2)
    · rw [if_neg hclosing]
      refine means_append ?_
      rw [forgetful, reading_dash he, reading_dash_eq_base he hclosing]
      rfl
  · rw [if_neg hdash, if_neg (by simp)]
    exact means_append (reading_append hlt fun h => by_contra fun he => hdash ⟨h, he⟩)

/-- What a call comes to that has some output already: the script's end, or a part of its text. -/
def ScriptRun.Means (closeTag : Text) (e : Escape) (data text : Text) (run : ScriptRun) : Prop :=
  if run.ended then forgetful closeTag e.base data text = some ⟨[], some (afterEndTag closeTag run.rest)⟩
  else
    forgetful closeTag e.base data text = forgetful closeTag run.escape.base run.data run.rest ∧
      run.rest.length ≤ text.length ∧ (data = [] → text ≠ [] → run.rest.length < text.length)

theorem means_loop (hletters : ∀ c ∈ closeTag, isAlpha c) (hlower : closeTag.map asciiLower = closeTag)
    {fuel : ℕ} {text : Text} (h : text.length ≤ fuel) (data : Text) (e : Escape) :
    (loop closeTag false fuel data text e).Means closeTag e data text := by
  induction fuel generalizing data text e with
  | zero =>
    obtain rfl := List.length_eq_zero_iff.mp (Nat.le_zero.mp h)
    exact ⟨rfl, le_rfl, fun _ h => absurd rfl h⟩
  | succ fuel ih =>
    rcases text with _ | ⟨c, rest⟩
    · exact ⟨rfl, le_rfl, fun _ h => absurd rfl h⟩
    have hturn := means_turn hletters hlower data c rest e
    rw [loop]
    cases hc : turn closeTag false data c rest e with
    | done run =>
      rw [hc, Turn.Means] at hturn
      simp only [ScriptRun.Means]
      split_ifs at hturn ⊢ with hended
      · obtain ⟨rfl, hrest, hread⟩ := hturn
        rw [hrest]
        exact hread
      · obtain ⟨hne, hdata, hrest, hescape⟩ := hturn
        rw [hdata, hrest, hescape]
        exact ⟨rfl, le_rfl, fun h => absurd h hne⟩
    | again data' rest' e' =>
      rw [hc] at hturn
      have hrun := ih (Nat.le_of_lt_succ (hturn.2.trans_le h)) data' e'
      simp only [ScriptRun.Means] at hrun ⊢
      split_ifs at hrun ⊢ with hended
      · exact hturn.1.trans hrun
      · exact ⟨hturn.1.trans hrun.1, hrun.2.1.trans hturn.2.le, fun _ _ => hrun.2.1.trans_lt hturn.2⟩

/-- The tokenizer reads a script as the machine does that forgets the dashes of an opening: the
same characters, up to the same end tag. -/
theorem readScript_eq_run (hletters : ∀ c ∈ closeTag, isAlpha c) (hlower : closeTag.map asciiLower = closeTag)
    {calls : ℕ} {text : Text} (h : text.length ≤ calls) (e : Escape) :
    (machine closeTag .escaped).run e.base (characters text) =
      some ⟨(readScript closeTag calls e text).1,
        (readScript closeTag calls e text).2.map (afterEndTag closeTag)⟩ := by
  have hreading (e : Escape) (text : Text) : (machine closeTag .escaped).run e.base (characters text) =
      forgetful closeTag e.base [] text := by
    simp [forgetful, reading]
  induction calls generalizing text e with
  | zero =>
    obtain rfl := List.length_eq_zero_iff.mp (Nat.le_zero.mp h)
    cases e <;> rfl
  | succ calls ih =>
    rcases text with _ | ⟨c, rest⟩
    · cases e <;> rfl
    have hrun : (scriptDataState closeTag false e (c :: rest)).Means closeTag e [] (c :: rest) :=
      means_loop hletters hlower le_rfl [] e
    rw [hreading, readScript]
    rw [ScriptRun.Means] at hrun
    split_ifs at hrun ⊢ with hended
    · exact hrun
    · have hshort := hrun.2.2 rfl (by simp)
      have hnext := ih (Nat.le_of_lt_succ (hshort.trans_le h)) (scriptDataState closeTag false e (c :: rest)).escape
      rw [hrun.1, forgetful, reading, hnext]
      rfl

/-! ## Where it parts from the specification -/

/-- A part of the input leads the machine to the dash of an opening, and after the second dash comes
a `>` that ends the escaped text before it has begun, with or without a third dash. -/
def EmptyOpening (closeTag : Text) (s : ScriptState) (input : Text) : Prop :=
  ∃ pre tail, input = pre ++ Dom.dash :: tail ∧ (specification closeTag).feed s pre = some .escapeStartDash ∧
    endsAtOnce tail = true

theorem emptyOpening_cons (closeTag : Text) (s : ScriptState) (c : UInt8) (input : Text) :
    EmptyOpening closeTag s (c :: input) ↔ s = .escapeStartDash ∧ c = Dom.dash ∧ endsAtOnce input = true ∨
      ∃ t ∈ ((specification closeTag).react s c).2, EmptyOpening closeTag t input := by
  constructor
  · rintro ⟨pre, tail, happ, hfeed, htail⟩
    cases pre with
    | nil =>
      obtain ⟨rfl, rfl⟩ := List.cons_eq_cons.mp happ
      exact .inl ⟨Option.some_injective _ hfeed, rfl, htail⟩
    | cons d pre =>
      obtain ⟨rfl, rfl⟩ := List.cons_eq_cons.mp happ
      obtain ⟨t, ht, hfeed⟩ := Option.bind_eq_some_iff.mp ((feed_cons _ s c pre).symm.trans hfeed)
      exact .inr ⟨t, ht, pre, tail, rfl, hfeed, htail⟩
  · rintro (⟨rfl, rfl, htail⟩ | ⟨t, ht, pre, tail, rfl, hfeed, htail⟩)
    · exact ⟨[], input, rfl, rfl, htail⟩
    · refine ⟨c :: pre, tail, rfl, ?_, htail⟩
      rw [feed_cons, Option.mem_def.mp ht]
      exact hfeed

theorem not_emptyOpening_nil (closeTag : Text) (s : ScriptState) : ¬ EmptyOpening closeTag s [] := by
  rintro ⟨pre, tail, happ, -⟩
  simp at happ

instance decidableEmptyOpening (closeTag : Text) : ∀ s input, Decidable (EmptyOpening closeTag s input)
  | s, [] => isFalse (not_emptyOpening_nil closeTag s)
  | s, c :: input =>
    have := fun t => decidableEmptyOpening closeTag t input
    decidable_of_iff _ (emptyOpening_cons closeTag s c input).symm

theorem endsAtOnce_characters (h : endsAtOnce rest = true) : endsAtOnce ((characters rest).map Prod.fst) = true := by
  simp only [endsAtOnce, decide_eq_true_eq] at h ⊢
  rcases h with h | h
  · obtain ⟨rest, rfl⟩ := List.head?_eq_some_iff.mp h
    rw [characters_cons (by decide)]
    exact .inl rfl
  · have hrest := List.take_append_drop 2 rest
    rw [h] at hrest
    obtain ⟨more, rfl⟩ : ∃ more, rest = Dom.dash :: greaterThan :: more := ⟨rest.drop 2, hrest.symm⟩
    refine .inr ?_
    rw [characters_cons (by decide), characters_cons (by decide)]
    rfl

theorem forgetful_dashDash (h : endsAtOnce rest = false) (out : Text) :
    reading closeTag opened .escapedDashDash out rest = reading closeTag opened .escaped out rest := by
  simp only [endsAtOnce, decide_eq_false_iff_not, not_or] at h
  exact (reading_dashDash_eq_dash (e := .escaped) (by simp) h.1 out).trans
    (reading_dash_eq_base (e := .escaped) (by simp) h.2 out)

theorem react_eq_specification (s : ScriptState) (c : UInt8) (h : ¬ (s = .escapeStartDash ∧ c = Dom.dash)) :
    react closeTag .escaped s c = react closeTag .escapedDashDash s c := by
  cases s with
  | escapeStartDash =>
    have hc : c ≠ Dom.dash := fun hc => h ⟨rfl, hc⟩
    simp only [react, if_neg hc]
  | _ => rfl

theorem run_eq_specification (closeTag text : Text) (s : ScriptState)
    (h : ¬ EmptyOpening closeTag s ((characters text).map Prod.fst)) :
    (machine closeTag .escaped).run s (characters text) = (specification closeTag).run s (characters text) := by
  induction hn : text.length using Nat.strong_induction_on generalizing text s with
  | _ n ih =>
    subst hn
    rcases text with _ | ⟨c, rest⟩
    · rfl
    have hlen : (leftAfter c rest).length < (c :: rest).length := by
      rw [leftAfter]
      split_ifs
      · exact Nat.lt_succ_of_le (length_afterCr_le rest)
      · exact Nat.lt_succ_self _
    rw [characters_eq, List.map_cons] at h
    -- after this character there is no empty opening either
    have hlater {t : ScriptState} (ht : ((specification closeTag).react s (normal c)).2 = some t) :
        ¬ EmptyOpening closeTag t ((characters (leftAfter c rest)).map Prod.fst) := by
      rintro ⟨pre, tail, happ, hfeed, htail⟩
      refine h ⟨normal c :: pre, tail, by rw [happ]; rfl, ?_, htail⟩
      rw [feed_cons, ht]
      exact hfeed
    rw [characters_eq]
    by_cases hdash : s = .escapeStartDash ∧ normal c = Dom.dash
    · obtain ⟨rfl, hc⟩ := hdash
      have hforget : (machine closeTag .escaped).react .escapeStartDash (normal c) =
          ([Dom.dash], some .escaped) := by
        rw [hc]
        rfl
      have hspec : (specification closeTag).react .escapeStartDash (normal c) =
          ([Dom.dash], some .escapedDashDash) := by
        rw [hc]
        rfl
      have hnot : endsAtOnce (leftAfter c rest) = false := by
        rw [Bool.eq_false_iff]
        intro hends
        exact h ⟨[], _, by rw [hc]; rfl, rfl, endsAtOnce_characters hends⟩
      have hdashes : (machine closeTag .escaped).run .escaped (characters (leftAfter c rest)) =
          (machine closeTag .escaped).run .escapedDashDash (characters (leftAfter c rest)) := by
        have hread : reading closeTag .escaped .escapedDashDash [] (leftAfter c rest) =
            reading closeTag .escaped .escaped [] (leftAfter c rest) := forgetful_dashDash hnot []
        simpa [reading] using hread.symm
      rw [run_go hforget, run_go hspec, hdashes,
        ih _ hlen (leftAfter c rest) .escapedDashDash (hlater (congrArg Prod.snd hspec)) rfl]
    · have hreact : (machine closeTag .escaped).react s (normal c) = (specification closeTag).react s (normal c) :=
        react_eq_specification s (normal c) hdash
      rw [run_cons, run_cons, hreact]
      rcases ht : ((specification closeTag).react s (normal c)).2 with _ | t
      · rfl
      · exact congrArg (Option.map _) (ih _ hlen (leftAfter c rest) t (hlater ht) rfl)

/-- Without empty openings the tokenizer ends a script at the end tag at which the specification's
machine ends it, and emits the same characters. -/
theorem readScript_eq_specification (closeTag text : Text) (hletters : ∀ c ∈ closeTag, isAlpha c)
    (hlower : closeTag.map asciiLower = closeTag)
    (h : ¬ EmptyOpening closeTag .scriptData ((characters text).map Prod.fst)) :
    (specification closeTag).run .scriptData (characters text) =
      some ⟨(readScript closeTag text.length .outside text).1,
        (readScript closeTag text.length .outside text).2.map (afterEndTag closeTag)⟩ := by
  rw [← run_eq_specification closeTag text .scriptData h]
  exact readScript_eq_run hletters hlower le_rfl .outside

/-- A script with another one in a comment, where the first end tag does not end it. -/
theorem readScript_eq_specification_nested :
    (specification (ascii "script")).run .scriptData (characters (ascii "<!-- <script></script> --></script>")) =
      some ⟨ascii "<!-- <script></script> -->", some []⟩ := by
  rw [readScript_eq_specification (ascii "script") (ascii "<!-- <script></script> --></script>")
    (by decide +kernel) (by decide) (by decide)]
  decide

/-- An empty opening before a script tag in a text: the end tag of the script is taken for that of the
other one. -/
theorem readScript_emptyOpening :
    (specification (ascii "script")).run .scriptData (characters (ascii "<!--><script></script>")) =
        some ⟨ascii "<!--><script>", some []⟩ ∧
      readScript (ascii "script") 22 .outside (ascii "<!--><script></script>") =
        (ascii "<!--><script></script>", none) := by
  decide

end CtBrowser.Dom.ScriptData
