import CtBrowser.Dom.Tokenizer.Characters
import CtBrowser.Foundations.CharacterMachine

/-!
# The comment states

The tokenizer reads a comment with the states of the specification unrolled into nested tests.
What follows two dashes is written twice, in the loop of the comment end state and after an
opening inside the comment, and the second copy does not know of the bang that may come after
more dashes.

The specification's machine is given a state for each of its own. The unrolled one differs from
it in one situation, so the two read an input alike exactly when it does not come to that.

## Main definitions

- `CommentState`, `specification` — the machine of the specification.
- `commentState` — the tokenizer's own function, on what is left of the view.
- `unrolled` — the machine that the function amounts to.
- `UnseenBang` — the situation in which they differ.

## Main results

- `conclude_commentState` — the function reads a text as the unrolled machine does.
- `commentState_eq_specification_iff` — when it reads it as the specification's machine does.
-/

namespace CtBrowser.Dom.Comment

open Foundations CharacterMachine

/-! ## The specification's machine -/

/-- The comment states of the specification. -/
inductive CommentState
  | start
  | startDash
  | comment
  | lessThanSign
  | lessThanSignBang
  | lessThanSignBangDash
  | lessThanSignBangDashDash
  | endDash
  | commentEnd
  | endBang
deriving DecidableEq, Repr

/-- What is added to the comment's data for a character, and the state that comes next unless the
comment is over. -/
abbrev Reaction := Text × Option CommentState

/-- A character that is reconsumed after some data. -/
def reconsume (out : Text) (r : Reaction) : Reaction := (out ++ r.1, r.2)

def inComment (c : UInt8) : Reaction :=
  if c = lessThan then ([c], some .lessThanSign)
  else if c = dash then ([], some .endDash)
  else if c = 0 then (replacement, some .comment)
  else ([c], some .comment)

def inEndDash (c : UInt8) : Reaction :=
  if c = dash then ([], some .commentEnd) else reconsume [dash] (inComment c)

def inCommentEnd (c : UInt8) : Reaction :=
  if c = greaterThan then ([], none)
  else if c = bang then ([], some .endBang)
  else if c = dash then ([dash], some .commentEnd)
  else reconsume (ascii "--") (inComment c)

def inEndBang (c : UInt8) : Reaction :=
  if c = dash then (ascii "--!", some .endDash)
  else if c = greaterThan then ([], none)
  else reconsume (ascii "--!") (inComment c)

/-- What the machine does with a character. -/
def react : CommentState → UInt8 → Reaction
  | .start, c =>
    if c = dash then ([], some .startDash) else if c = greaterThan then ([], none) else inComment c
  | .startDash, c =>
    if c = dash then ([], some .commentEnd) else if c = greaterThan then ([], none)
    else reconsume [dash] (inComment c)
  | .comment, c => inComment c
  | .lessThanSign, c =>
    if c = bang then ([c], some .lessThanSignBang)
    else if c = lessThan then ([c], some .lessThanSign)
    else inComment c
  | .lessThanSignBang, c => if c = dash then ([], some .lessThanSignBangDash) else inComment c
  | .lessThanSignBangDash, c => if c = dash then ([], some .lessThanSignBangDashDash) else inEndDash c
  -- an error of its own for anything but the end of the comment, and nothing else
  | .lessThanSignBangDashDash, c => inCommentEnd c
  | .endDash, c => inEndDash c
  | .commentEnd, c => inCommentEnd c
  | .endBang, c => inEndBang c

/-- The machine. The end of the input ends the comment in every state, unless more may come. -/
def specification (truncated : Bool) : CharacterMachine CommentState UInt8 UInt8 where
  react := react
  atEnd _ := if truncated then none else some []

/-! ## The tokenizer's function -/

/-- A comment that was read, with what is left of the view. A starved one is thrown away and read
again when more has come. -/
structure CommentRun where
  data : Text
  rest : Text
  starved : Bool
deriving DecidableEq, Repr

/-- What one turn of the loop comes to. -/
inductive Turn
  | again (data rest : Text)
  | done (run : CommentRun)
deriving DecidableEq, Repr

variable (truncated : Bool)

/-- The view is over inside the comment. -/
def starve (data : Text) : CommentRun := ⟨data, [], truncated⟩

/-- The comment is over. -/
def close (data rest : Text) : Turn := .done ⟨data, rest, false⟩

/-- After an opening inside the comment. -/
def nestedOpening (data : Text) : Text → Turn
  | [] => .done (starve truncated data)
  | c :: rest =>
    if c = greaterThan then close data rest
    else if c = bang then
      match rest with
      | [] => .done (starve truncated data)
      | d :: more => if d = greaterThan then close data more else .again (data ++ ascii "--!") (d :: more)
    else if c = dash then
      let dashed := data ++ dash :: rest.takeWhile (· = dash)
      match rest.dropWhile (· = dash) with
      | [] => .done (starve truncated dashed)
      -- no bang is looked for here
      | d :: more => if d = greaterThan then close dashed more else .again (dashed ++ ascii "--") (d :: more)
    else .again (data ++ ascii "--") (c :: rest)

/-- After a less-than sign. -/
def lessThanSign (data rest : Text) : Turn :=
  let data := data ++ rest.takeWhile (· = lessThan)
  match rest.dropWhile (· = lessThan) with
  | [] => .again data []
  | c :: rest =>
    if c = bang then
      let data := data ++ [bang]
      match rest with
      | [] => .again data []
      | d :: more =>
        if d = dash then
          match more with
          | [] => .done (starve truncated data)
          | e :: after => if e = dash then nestedOpening truncated data after else .again (data ++ [dash]) (e :: after)
        else .again data (d :: more)
    else .again data (c :: rest)

/-- After two dashes, by a loop of its own. -/
def commentEnd (data : Text) : Text → Turn
  | [] => .done (starve truncated data)
  | e :: rest =>
    if e = greaterThan then close data rest
    else if e = bang then
      match rest with
      | [] => .done (starve truncated data)
      | d :: more =>
        if d = dash then
          match more with
          | [] => .done (starve truncated (data ++ ascii "--!"))
          | f :: after =>
            if f = dash then commentEnd (data ++ ascii "--!") after
            else .again (data ++ ascii "--!" ++ [dash]) (f :: after)
        else if d = greaterThan then close data more
        else .again (data ++ ascii "--!") (d :: more)
    else if e = dash then commentEnd (data ++ [dash]) rest
    else .again (data ++ ascii "--") (e :: rest)

/-- One turn of the comment loop. -/
def turn (data : Text) (c : UInt8) (rest : Text) : Turn :=
  if c = lessThan then lessThanSign truncated (data ++ [lessThan]) rest
  else if c = dash then
    match rest with
    | [] => .done (starve truncated data)
    | d :: more => if d = dash then commentEnd truncated data more else .again (data ++ [dash]) (d :: more)
  else if c = 0 then .again (data ++ replacement) rest
  -- a CR that the view ends after may be half of a newline
  else if c = cr ∧ truncated ∧ rest = [] then .done ⟨data, c :: rest, true⟩
  else .again (appendText .data data c rest).1 (appendText .data data c rest).2

/-- The comment loop. Each turn takes a byte. -/
def loop : ℕ → Text → Text → CommentRun
  | _, data, [] => starve truncated data
  | 0, data, rest => ⟨data, rest, true⟩
  | fuel + 1, data, c :: rest =>
    match turn truncated data c rest with
    | .done run => run
    | .again data rest => loop fuel data rest

/-- Reads a comment from the view after its opening. -/
def commentState (text : Text) : CommentRun :=
  if text.head? = some greaterThan then ⟨[], text.tail, false⟩
  else if text = [dash] then ⟨[], [], truncated⟩
  else if text.take 2 = [dash, greaterThan] then ⟨[], text.drop 2, false⟩
  else loop truncated text.length [] text

/-- What a comment is to the caller: its data and what is left, unless it was starved. -/
def CommentRun.token (r : CommentRun) : Option (Text × Text) :=
  if r.starved then none else some (r.data, r.rest)

/-- The same of a reading by a machine. -/
def conclude (r : Option (Reading UInt8 Text)) : Option (Text × Text) :=
  r.map fun r => (r.output, r.stopped.getD [])

/-! ## The machine it amounts to -/

/-- The states, with those after the dashes of an opening inside the comment told apart. -/
inductive Tracked
  | plain (s : CommentState)
  | nestedDashes
  | nestedBang
deriving DecidableEq, Repr

namespace Tracked

/-- The state of the specification. -/
def state : Tracked → CommentState
  | plain s => s
  | nestedDashes => .commentEnd
  | nestedBang => .endBang

/-- Where a character leads when the specification's machine comes to a state. -/
def next (t : Tracked) (c : UInt8) (s : CommentState) : Tracked :=
  if (t = plain .lessThanSignBangDashDash ∨ t = nestedDashes) ∧ c = dash then nestedDashes
  else if t = nestedDashes ∧ c = bang then nestedBang
  else plain s

theorem next_plain {s : CommentState} (h : s ≠ .lessThanSignBangDashDash) (c : UInt8) :
    (plain s).next c = plain := by
  funext s'
  simp [next, h]

end Tracked

/-- The specification's machine, with these states told apart. -/
def tracked : CharacterMachine Tracked UInt8 UInt8 where
  react t c := ((react t.state c).1, (react t.state c).2.map (t.next c))
  atEnd _ := if truncated then none else some []

/-- The machine of the tokenizer. A bang after the dashes of an opening is data like any other. -/
def unrolled : CharacterMachine Tracked UInt8 UInt8 where
  react t c :=
    if t = .nestedBang then (ascii "--!" ++ (inComment c).1, (inComment c).2.map .plain)
    else (tracked truncated).react t c
  atEnd t := if truncated then none else some (if t = .nestedBang then ascii "--!" else [])

variable {truncated} {t u : Tracked} {data o rest : Text} {c : UInt8}

/-- What the machine makes of a text after some data. -/
def reading (truncated : Bool) (t : Tracked) (data text : Text) : Option (Reading UInt8 Text) :=
  ((unrolled truncated).run t (characters text)).map (Reading.after data)

theorem reading_nil (h : t ≠ .nestedBang) :
    reading truncated t data [] = if truncated then none else some ⟨data, none⟩ := by
  cases truncated <;> simp [reading, run, unrolled, h, Reading.after]

theorem reading_stop (hc : c ≠ cr) (h : (unrolled truncated).react t c = (o, none)) :
    reading truncated t data (c :: rest) = some ⟨data ++ o, some rest⟩ := by
  rw [reading, characters_cons hc, run_stop h]
  rfl

theorem reading_go (hc : c ≠ cr) (h : (unrolled truncated).react t c = (o, some u)) :
    reading truncated t data (c :: rest) = reading truncated u (data ++ o) rest := by
  rw [reading, characters_cons hc, run_go h, Reading.map_after_after]
  rfl

theorem reading_reconsume
    (h : (unrolled truncated).react t (normal c) =
      (o ++ (inComment (normal c)).1, (inComment (normal c)).2.map .plain)) :
    reading truncated t data (c :: rest) = reading truncated (.plain .comment) (data ++ o) (c :: rest) := by
  have hcomment : (unrolled truncated).react (.plain .comment) (normal c) =
      ((inComment (normal c)).1, (inComment (normal c)).2.map .plain) := by
    simp [unrolled, tracked, Tracked.state, react, Tracked.next_plain]
  rw [reading, reading, characters_eq, run_cons, run_cons, h, hcomment]
  cases (inComment (normal c)).2 with
  | none => simp [Reading.after]
  | some s => simp only [Option.map_some, Reading.map_after_after, List.append_assoc]

/-! ## The function reads as the machine -/

/-- What a turn comes to is what the machine makes of the text in a state, after some data. If there
is another turn, no more than `n` bytes are left for it. -/
def Turn.Means (truncated : Bool) (n : ℕ) (t : Tracked) (data text : Text) : Turn → Prop
  | .done run => run.token = conclude (reading truncated t data text)
  | .again data' rest =>
    reading truncated t data text = reading truncated (.plain .comment) data' rest ∧ rest.length ≤ n

theorem Turn.Means.of_reading {text rest : Text} {data' : Text} {turn : Turn} {n : ℕ}
    (h : reading truncated t data text = reading truncated u data' rest) (hlen : rest.length ≤ n)
    (hmeans : turn.Means truncated rest.length u data' rest) : turn.Means truncated n t data text := by
  cases turn with
  | done run => exact hmeans.trans (congrArg conclude h.symm)
  | again data'' rest' => exact ⟨h.trans hmeans.1, hmeans.2.trans hlen⟩

theorem means_close {n : ℕ} (hc : c ≠ cr) (h : (unrolled truncated).react t c = ([], none)) :
    (close data rest).Means truncated n t data (c :: rest) := by
  rw [close, Turn.Means, reading_stop hc h]
  simp [CommentRun.token, conclude]

theorem means_starve {n : ℕ} (h : t ≠ .nestedBang) :
    (Turn.done (starve truncated data)).Means truncated n t data [] := by
  rw [Turn.Means, reading_nil h]
  cases truncated <;> rfl

theorem means_again
    (h : (unrolled truncated).react t (normal c) =
      (o ++ (inComment (normal c)).1, (inComment (normal c)).2.map .plain)) :
    (Turn.again (data ++ o) (c :: rest)).Means truncated (c :: rest).length t data (c :: rest) :=
  ⟨reading_reconsume h, le_rfl⟩

theorem react_plain {s : CommentState} (h : s ≠ .lessThanSignBangDashDash) (c : UInt8) :
    (unrolled truncated).react (.plain s) c = ((react s c).1, (react s c).2.map .plain) := by
  simp [unrolled, tracked, Tracked.state, Tracked.next_plain h]

theorem normal_ne {d : UInt8} (hcr : d ≠ cr) (hlf : d ≠ lf) (h : c ≠ d) : normal c ≠ d :=
  fun he => h ((normal_eq_iff hcr hlf).mp he)

theorem reconsume_commentEnd (hgt : c ≠ greaterThan) (hbang : c ≠ bang) (hdash : c ≠ dash)
    (ht : t = .plain .commentEnd ∨ t = .plain .lessThanSignBangDashDash ∨ t = .nestedDashes) :
    (unrolled truncated).react t (normal c) =
      (ascii "--" ++ (inComment (normal c)).1, (inComment (normal c)).2.map .plain) := by
  have hgt := normal_ne (by decide) (by decide) hgt
  have hbang := normal_ne (by decide) (by decide) hbang
  have hdash := normal_ne (by decide) (by decide) hdash
  have hnext : t.next (normal c) = .plain := by
    funext s
    simp [Tracked.next, hdash, hbang]
  have hreact : react t.state (normal c) = reconsume (ascii "--") (inComment (normal c)) := by
    rcases ht with rfl | rfl | rfl <;> simp [Tracked.state, react, inCommentEnd, hgt, hbang, hdash]
  have hne : t ≠ .nestedBang := by rcases ht with rfl | rfl | rfl <;> simp
  simp only [unrolled, if_neg hne, tracked, hreact, hnext, reconsume]

theorem reconsume_endBang (hgt : c ≠ greaterThan) :
    (unrolled truncated).react (.plain .endBang) (normal c) =
      (ascii "--!" ++ (inComment (normal c)).1, (inComment (normal c)).2.map .plain) := by
  rw [react_plain (by simp), react, inEndBang, if_neg (normal_ne (by decide) (by decide) hgt)]
  split_ifs with hdash
  · rw [hdash]
    rfl
  · rfl

theorem reconsume_endDash {s : CommentState} (hdash : c ≠ dash) (hs : s = .endDash ∨ s = .lessThanSignBangDash) :
    (unrolled truncated).react (.plain s) (normal c) =
      ([dash] ++ (inComment (normal c)).1, (inComment (normal c)).2.map .plain) := by
  have hdash := normal_ne (by decide) (by decide) hdash
  have hreact : react s (normal c) = reconsume [dash] (inComment (normal c)) := by
    rcases hs with rfl | rfl <;> simp only [react, inEndDash, if_neg hdash]
  rw [react_plain (by rcases hs with rfl | rfl <;> simp), hreact]
  rfl

theorem reading_nestedBang (data text : Text) :
    reading truncated .nestedBang data text = reading truncated (.plain .comment) (data ++ ascii "--!") text := by
  cases text with
  | nil => cases truncated <;> simp [reading, run, unrolled, Reading.after]
  | cons c rest => exact reading_reconsume (by simp [unrolled])

theorem reading_dashes (data text : Text) :
    reading truncated .nestedDashes data text = reading truncated .nestedDashes
      (data ++ text.takeWhile (· = dash)) (text.dropWhile (· = dash)) := by
  induction text generalizing data with
  | nil => simp
  | cons c rest ih =>
    by_cases hc : c = dash
    · subst hc
      rw [reading_go (t := .nestedDashes) (u := .nestedDashes) (by decide) (o := [dash]) rfl, ih]
      simp
    · simp [hc]

theorem means_nestedOpening (data text : Text) :
    (nestedOpening truncated data text).Means truncated text.length (.plain .lessThanSignBangDashDash) data text := by
  cases text with
  | nil => exact means_starve (by simp)
  | cons c rest =>
    by_cases hgt : c = greaterThan
    · subst hgt
      exact means_close (by decide) rfl
    by_cases hbang : c = bang
    · subst hbang
      refine .of_reading (reading_go (by decide) (o := []) (u := .plain .endBang) rfl) (by simp) ?_
      simp only [nestedOpening, if_neg hgt, if_pos, List.append_nil]
      cases rest with
      | nil => exact means_starve (t := .plain .endBang) (by simp)
      | cons d more =>
        by_cases hd : d = greaterThan
        · subst hd
          exact means_close (by decide) rfl
        · simpa only [if_neg hd] using means_again (reconsume_endBang hd)
    by_cases hdash : c = dash
    · subst hdash
      refine .of_reading (reading_go (by decide) (o := [dash]) (u := .nestedDashes) rfl) (by simp) ?_
      refine .of_reading (reading_dashes _ rest) (List.dropWhile_sublist _).length_le ?_
      simp only [nestedOpening, if_neg hgt, if_neg hbang, if_pos, List.append_assoc, List.singleton_append]
      -- what follows the dashes is no dash
      have hhead := List.head?_dropWhile_not (· = dash) rest
      rcases hafter : rest.dropWhile (· = dash) with _ | ⟨d, more⟩
      · exact means_starve (by simp)
      · replace hhead : d ≠ dash := by simpa [hafter] using hhead
        by_cases hd : d = greaterThan
        · subst hd
          exact means_close (by decide) rfl
        · simp only [if_neg hd]
          by_cases hb : d = bang
          · subst hb
            refine ⟨?_, le_rfl⟩
            rw [reading_go (by decide) (o := []) (u := .nestedBang) rfl, reading_nestedBang,
              reading_go (by decide) (o := [bang]) (u := .plain .comment) rfl]
            simp [ascii]
          · rw [← List.append_assoc]
            exact means_again (reconsume_commentEnd hd hb hhead (.inr (.inr rfl)))
    · simp only [nestedOpening, if_neg hgt, if_neg hbang, if_neg hdash]
      exact means_again (reconsume_commentEnd hgt hbang hdash (.inr (.inl rfl)))

theorem means_commentEnd (data text : Text) :
    (commentEnd truncated data text).Means truncated text.length (.plain .commentEnd) data text := by
  induction data, text using commentEnd.induct with
  | case1 data => exact means_starve (by simp)
  | case2 data rest =>
    rw [commentEnd.eq_def]
    dsimp only
    rw [if_pos rfl]
    exact means_close (by decide) rfl
  | case3 data hgt =>
    refine .of_reading (reading_go (by decide) (o := []) (u := .plain .endBang) rfl) (by simp) ?_
    rw [commentEnd.eq_def]
    dsimp only
    rw [if_neg hgt, if_pos rfl, List.append_nil]
    exact means_starve (t := .plain .endBang) (by simp)
  | case4 data hgt =>
    refine .of_reading (reading_go (by decide) (o := []) (u := .plain .endBang) rfl) (by simp) ?_
    refine .of_reading (reading_go (by decide) (o := ascii "--!") (u := .plain .endDash) rfl) (by simp) ?_
    rw [commentEnd.eq_def]
    dsimp only
    rw [if_neg hgt, if_pos rfl, if_pos rfl, List.append_nil]
    exact means_starve (t := .plain .endDash) (by simp)
  | case5 data after hgt ih =>
    refine .of_reading (reading_go (by decide) (o := []) (u := .plain .endBang) rfl) (by simp) ?_
    refine .of_reading (reading_go (by decide) (o := ascii "--!") (u := .plain .endDash) rfl) (by simp) ?_
    refine .of_reading (reading_go (by decide) (o := []) (u := .plain .commentEnd) rfl) (by simp) ?_
    rw [commentEnd.eq_def]
    dsimp only
    rw [if_neg hgt, if_pos rfl, if_pos rfl, List.append_nil, List.append_nil]
    exact ih
  | case6 data f after hf hgt =>
    refine .of_reading (reading_go (by decide) (o := []) (u := .plain .endBang) rfl) (by simp) ?_
    refine .of_reading (reading_go (by decide) (o := ascii "--!") (u := .plain .endDash) rfl) (by simp) ?_
    rw [commentEnd.eq_def]
    dsimp only
    rw [if_neg hgt, if_pos rfl, if_pos rfl, List.append_nil]
    simp only [if_neg hf]
    exact means_again (reconsume_endDash hf (.inl rfl))
  | case7 data more hgt hne =>
    refine .of_reading (reading_go (by decide) (o := []) (u := .plain .endBang) rfl) (by simp) ?_
    rw [commentEnd.eq_def]
    dsimp only
    rw [if_neg hgt, if_pos rfl, if_neg hne, if_pos rfl, List.append_nil]
    exact means_close (by decide) rfl
  | case8 data d more hd hd' hgt =>
    refine .of_reading (reading_go (by decide) (o := []) (u := .plain .endBang) rfl) (by simp) ?_
    rw [commentEnd.eq_def]
    dsimp only
    rw [if_neg hgt, if_pos rfl, if_neg hd, if_neg hd', List.append_nil]
    exact means_again (reconsume_endBang hd')
  | case9 data rest hgt hbang ih =>
    refine .of_reading (reading_go (by decide) (o := [dash]) (u := .plain .commentEnd) rfl) (by simp) ?_
    rw [commentEnd.eq_def]
    dsimp only
    rw [if_neg hgt, if_neg hbang, if_pos rfl]
    exact ih
  | case10 data e rest hgt hbang hdash =>
    rw [commentEnd.eq_def]
    dsimp only
    rw [if_neg hgt, if_neg hbang, if_neg hdash]
    exact means_again (reconsume_commentEnd hgt hbang hdash (.inl rfl))

theorem reading_lessThanSigns (data text : Text) :
    reading truncated (.plain .lessThanSign) data text = reading truncated (.plain .lessThanSign)
      (data ++ text.takeWhile (· = lessThan)) (text.dropWhile (· = lessThan)) := by
  induction text generalizing data with
  | nil => simp
  | cons c rest ih =>
    by_cases hc : c = lessThan
    · subst hc
      rw [reading_go (u := .plain .lessThanSign) (by decide) (o := [lessThan]) rfl, ih]
      simp
    · simp [hc]

theorem means_again_comment {s : CommentState} (h : react s (normal c) = inComment (normal c))
    (hs : s ≠ .lessThanSignBangDashDash) :
    (Turn.again data (c :: rest)).Means truncated (c :: rest).length (.plain s) data (c :: rest) := by
  have hreact : (unrolled truncated).react (.plain s) (normal c) =
      ([] ++ (inComment (normal c)).1, (inComment (normal c)).2.map .plain) := by
    rw [react_plain hs, h, List.nil_append]
  have hagain : (Turn.again (data ++ []) (c :: rest)).Means truncated (c :: rest).length (.plain s) data (c :: rest) :=
    means_again hreact
  simpa using hagain

theorem means_again_nil (h : t ≠ .nestedBang) : (Turn.again data []).Means truncated 0 t data [] :=
  ⟨(reading_nil h).trans (reading_nil (by simp)).symm, le_rfl⟩

theorem means_lessThanSign (data text : Text) :
    (lessThanSign truncated data text).Means truncated text.length (.plain .lessThanSign) data text := by
  refine .of_reading (reading_lessThanSigns data text) (List.dropWhile_sublist _).length_le ?_
  have hhead := List.head?_dropWhile_not (· = lessThan) text
  rw [lessThanSign]
  rcases hafter : text.dropWhile (· = lessThan) with _ | ⟨c, rest⟩
  · exact means_again_nil (by simp)
  replace hhead : c ≠ lessThan := by simpa [hafter] using hhead
  by_cases hbang : c = bang
  · subst hbang
    simp only [if_pos]
    refine .of_reading (reading_go (by decide) (o := [bang]) (u := .plain .lessThanSignBang) rfl) (by simp) ?_
    rcases rest with _ | ⟨d, more⟩
    · exact means_again_nil (by simp)
    by_cases hd : d = dash
    · subst hd
      simp only [if_pos]
      refine .of_reading (reading_go (by decide) (o := []) (u := .plain .lessThanSignBangDash) rfl) (by simp) ?_
      rcases more with _ | ⟨e, after⟩
      · simpa using means_starve (t := .plain .lessThanSignBangDash) (by simp)
      by_cases he : e = dash
      · subst he
        refine .of_reading (reading_go (by decide) (o := []) (u := .plain .lessThanSignBangDashDash) rfl)
          (by simp) ?_
        simpa using means_nestedOpening _ after
      · simp only [if_neg he, List.append_nil]
        exact means_again (reconsume_endDash he (.inr rfl))
    · simp only [if_neg hd]
      exact means_again_comment (by simp [react, normal_ne (by decide) (by decide) hd]) (by simp)
  · simp only [if_neg hbang]
    exact means_again_comment (by simp [react, normal_ne (by decide) (by decide) hbang,
      normal_ne (by decide) (by decide) hhead]) (by simp)

theorem means_turn (data : Text) (c : UInt8) (rest : Text) :
    (turn truncated data c rest).Means truncated rest.length (.plain .comment) data (c :: rest) := by
  unfold turn
  by_cases hlt : c = lessThan
  · subst hlt
    rw [if_pos rfl]
    exact .of_reading (reading_go (by decide) (o := [lessThan]) (u := .plain .lessThanSign) rfl) (by simp)
      (means_lessThanSign _ _)
  rw [if_neg hlt]
  by_cases hdash : c = dash
  · subst hdash
    rw [if_pos rfl]
    refine .of_reading (reading_go (by decide) (o := []) (u := .plain .endDash) rfl) (by simp) ?_
    rcases rest with _ | ⟨d, more⟩
    · simpa using means_starve (t := .plain .endDash) (by simp)
    by_cases hd : d = dash
    · subst hd
      refine .of_reading (reading_go (by decide) (o := []) (u := .plain .commentEnd) rfl) (by simp) ?_
      simpa using means_commentEnd data more
    · simpa [hd] using means_again (reconsume_endDash hd (.inl rfl))
  rw [if_neg hdash]
  by_cases hnul : c = 0
  · subst hnul
    rw [if_pos rfl]
    exact ⟨reading_go (by decide) rfl, by simp⟩
  rw [if_neg hnul]
  by_cases hcr : c = cr
  · subst hcr
    have hgo (data : Text) : reading truncated (.plain .comment) data (cr :: rest) =
        reading truncated (.plain .comment) (data ++ [lf]) (afterCr rest) := by
      rw [reading, characters_cr, run_go (o := [lf]) (t := .plain .comment) rfl, Reading.map_after_after]
      rfl
    by_cases hcut : truncated ∧ rest = []
    · obtain ⟨rfl, rfl⟩ := hcut
      rfl
    · rw [if_neg (by simpa using hcut)]
      exact ⟨hgo data, length_afterCr_le rest⟩
  · rw [if_neg (fun h => hcr h.1)]
    have hreact : (unrolled truncated).react (.plain .comment) c = ([c], some (.plain .comment)) := by
      simp [react_plain, react, inComment, hlt, hdash, hnul]
    have hgo : reading truncated (.plain .comment) data (c :: rest) =
        reading truncated (.plain .comment) (data ++ [c]) rest := reading_go hcr hreact
    simpa [appendText, hcr, Turn.Means] using hgo

theorem token_loop {fuel : ℕ} {text : Text} (h : text.length ≤ fuel) (data : Text) :
    (loop truncated fuel data text).token = conclude (reading truncated (.plain .comment) data text) := by
  induction fuel generalizing data text with
  | zero =>
    obtain rfl := List.length_eq_zero_iff.mp (Nat.le_zero.mp h)
    exact means_starve (n := 0) (by simp)
  | succ fuel ih =>
    cases text with
    | nil => exact means_starve (n := 0) (by simp)
    | cons c rest =>
      have hturn : (turn truncated data c rest).Means truncated rest.length (.plain .comment) data (c :: rest) :=
        means_turn data c rest
      rw [loop]
      cases hc : turn truncated data c rest with
      | done run =>
        rw [hc] at hturn
        exact hturn
      | again data' rest' =>
        rw [hc] at hturn
        rw [hturn.1]
        exact ih (hturn.2.trans (Nat.le_of_succ_le_succ h)) data'

/-- What comes in the comment start state is read as in the comment state, apart from `>` and `->`. -/
theorem reading_start {text : Text} (hgt : text.head? ≠ some greaterThan)
    (hdash : text.take 2 ≠ [dash, greaterThan]) :
    reading truncated (.plain .start) data text = reading truncated (.plain .comment) data text := by
  rcases text with _ | ⟨c, rest⟩
  · rw [reading_nil (by simp), reading_nil (by simp)]
  by_cases hc : c = dash
  · subst hc
    rw [reading_go (by decide) (o := []) (u := .plain .startDash) rfl,
      reading_go (by decide) (o := []) (u := .plain .endDash) rfl]
    rcases rest with _ | ⟨d, more⟩
    · rw [reading_nil (by simp), reading_nil (by simp)]
    by_cases hd : d = dash
    · subst hd
      rw [reading_go (by decide) (o := []) (u := .plain .commentEnd) rfl,
        reading_go (by decide) (o := []) (u := .plain .commentEnd) rfl]
    · have hd' : d ≠ greaterThan := by simpa using hdash
      refine (reading_reconsume (o := [dash]) ?_).trans
        (reading_reconsume (reconsume_endDash hd (.inl rfl))).symm
      simp [react_plain, react, normal_ne (by decide) (by decide) hd, normal_ne (by decide) (by decide) hd',
        reconsume]
  · have hreact : (unrolled truncated).react (.plain .start) (normal c) =
        ([] ++ (inComment (normal c)).1, (inComment (normal c)).2.map .plain) := by
      simp [react_plain, react, normal_ne (by decide) (by decide) hc,
        normal_ne (c := c) (d := greaterThan) (by decide) (by decide) (by simpa using hgt)]
    rw [reading_reconsume hreact, List.append_nil]

/-- The function reads a text as the unrolled machine does. -/
theorem conclude_commentState (truncated : Bool) (text : Text) :
    (commentState truncated text).token = conclude ((unrolled truncated).run (.plain .start) (characters text)) := by
  have hrun : (unrolled truncated).run (.plain .start) (characters text) =
      reading truncated (.plain .start) [] text := by
    simp [reading]
  rw [hrun, commentState]
  split_ifs with hgt honly hdash
  · obtain ⟨rest, rfl⟩ := List.head?_eq_some_iff.mp hgt
    rw [reading_stop (by decide) (o := []) rfl]
    rfl
  · subst honly
    cases truncated <;> rfl
  · obtain ⟨rest, rfl⟩ : ∃ rest, text = dash :: greaterThan :: rest :=
      ⟨text.drop 2, by rw [← List.take_append_drop 2 text, hdash]; rfl⟩
    rw [reading_go (by decide) (o := []) (u := .plain .startDash) rfl, reading_stop (by decide) (o := []) rfl]
    rfl
  · rw [token_loop le_rfl, reading_start hgt hdash]

/-! ## Where it parts from the specification -/

/-- The comment is still open after a part of its characters. -/
def Open (pre : Text) : Prop := ((specification true).feed .start pre).isSome

/-- An opening inside a comment with `n + 3` dashes, and a bang after them. -/
def nestedBang (n : ℕ) : Text := lessThan :: bang :: (List.replicate (n + 3) dash ++ [bang])

/-- Inside the comment comes an opening with a dash or more after it and then a bang, which ends the
comment: with a `>`, or with the end of the input. -/
def UnseenBang (truncated : Bool) (input : Text) : Prop :=
  ∃ pre n tail, input = pre ++ nestedBang n ++ tail ∧ Open pre ∧
    (tail.head? = some greaterThan ∨ tail = [] ∧ truncated = false)

/-- The situation in which the machines differ. -/
def Parting (truncated : Bool) (t : Tracked) (c : Option UInt8) : Prop :=
  t = .nestedBang ∧ (c = some greaterThan ∨ c = none ∧ truncated = false)

theorem state_next (t : Tracked) (c : UInt8) :
    (react t.state c).2.map (fun s => (t.next c s).state) = (react t.state c).2 := by
  by_cases hc : c = dash
  · subst hc
    rcases t with s | _ | _
    · cases s <;> rfl
    · rfl
    · rfl
  by_cases hb : c = bang
  · subst hb
    rcases t with s | _ | _
    · cases s <;> rfl
    · rfl
    · rfl
  · simp [Tracked.next, hc, hb, Tracked.state]

theorem react_state (truncated : Bool) (t : Tracked) (c : UInt8) :
    (specification truncated).react t.state c =
      (((tracked truncated).react t c).1, ((tracked truncated).react t c).2.map Tracked.state) := by
  simp only [specification, tracked, Option.map_map]
  exact Prod.ext rfl (state_next t c).symm

theorem react_eq_of_not_parting (t : Tracked) (c : UInt8) (h : ¬ Parting truncated t (some c)) :
    (tracked truncated).react t c = (unrolled truncated).react t c := by
  unfold unrolled
  dsimp only
  split_ifs with ht
  · subst ht
    have hc : c ≠ greaterThan := by simpa [Parting] using h
    have hnext : Tracked.nestedBang.next c = .plain := by
      funext s
      simp [Tracked.next]
    simp only [tracked, Tracked.state, react, inEndBang, if_neg hc, hnext]
    split_ifs with hdash
    · subst hdash
      rfl
    · rfl
  · rfl

theorem atEnd_eq_of_not_parting (t : Tracked) (h : ¬ Parting truncated t none) :
    (tracked truncated).atEnd t = (unrolled truncated).atEnd t := by
  cases truncated with
  | true => rfl
  | false =>
    have ht : t ≠ .nestedBang := by simpa [Parting] using h
    simp [tracked, unrolled, ht]

/-- What the characters before a state end with. -/
def LedBy : Tracked → Text → Prop
  | .plain .lessThanSign, input => ∃ pre, input = pre ++ [lessThan] ∧ Open pre
  | .plain .lessThanSignBang, input => ∃ pre, input = pre ++ [lessThan, bang] ∧ Open pre
  | .plain .lessThanSignBangDash, input => ∃ pre, input = pre ++ [lessThan, bang, dash] ∧ Open pre
  | .plain .lessThanSignBangDashDash, input => ∃ pre, input = pre ++ [lessThan, bang, dash, dash] ∧ Open pre
  | .nestedDashes, input => ∃ pre n, input = pre ++ lessThan :: bang :: List.replicate (n + 3) dash ∧ Open pre
  | .nestedBang, input => ∃ pre n, input = pre ++ nestedBang n ∧ Open pre
  | _, _ => True

/-- The character and the state before that lead to a state. -/
def Enters (t : Tracked) (c : UInt8) : Tracked → Prop
  | .plain .lessThanSign => c = lessThan
  | .plain .lessThanSignBang => t = .plain .lessThanSign ∧ c = bang
  | .plain .lessThanSignBangDash => t = .plain .lessThanSignBang ∧ c = dash
  | .plain .lessThanSignBangDashDash => t = .plain .lessThanSignBangDash ∧ c = dash
  | .nestedDashes => (t = .plain .lessThanSignBangDashDash ∨ t = .nestedDashes) ∧ c = dash
  | .nestedBang => t = .nestedDashes ∧ c = bang
  | _ => True

theorem enters_inComment {s : CommentState} {t : Tracked} (h : (inComment c).2 = some s) :
    Enters t c (.plain s) := by
  simp only [inComment] at h
  split_ifs at h with hlt
  · cases h
    exact hlt
  all_goals
    cases h
    trivial

theorem enters_of_react {t u : Tracked} {c : UInt8} (h : ((tracked truncated).react t c).2 = some u) :
    Enters t c u := by
  simp only [tracked, Option.map_eq_some_iff] at h
  obtain ⟨s, hs, rfl⟩ := h
  rw [Tracked.next]
  split_ifs with hdashes hbang
  · exact hdashes
  · exact hbang
  -- the rest is what the specification's machine does
  have hplain (s₀ : CommentState) (h : t.state = s₀) (h₀ : s₀ ≠ .commentEnd) (h₁ : s₀ ≠ .endBang) :
      t = .plain s₀ := by
    subst h
    cases t with
    | plain s₀ => rfl
    | nestedDashes => exact absurd rfl h₀
    | nestedBang => exact absurd rfl h₁
  cases hstate : t.state <;> rw [hstate, react] at hs
  case comment => exact enters_inComment hs
  all_goals try simp only [inEndDash, inCommentEnd, inEndBang, reconsume] at hs
  all_goals split_ifs at hs
  all_goals first
    | exact enters_inComment hs
    | cases hs
      try trivial
  all_goals exact ⟨hplain _ hstate (by simp) (by simp), by assumption⟩

theorem open_iff (truncated : Bool) (pre : Text) :
    Open pre ↔ ∃ t, (tracked truncated).feed (.plain .start) pre = some t := by
  have hproject : (specification true).feed .start pre = ((tracked true).feed (.plain .start) pre).map Tracked.state :=
    feed_project Tracked.state (react_state true) (.plain .start) pre
  rw [Open, hproject, Option.isSome_map, Option.isSome_iff_exists]
  rfl

theorem ledBy_of_feed {input : Text} (h : (tracked truncated).feed (.plain .start) input = some t) :
    LedBy t input := by
  induction input using List.reverseRecOn generalizing t with
  | nil =>
    cases h
    trivial
  | append_singleton input c ih =>
    rw [feed_concat, Option.bind_eq_some_iff] at h
    obtain ⟨s, hs, hreact⟩ := h
    have hled := ih hs
    have henters := enters_of_react hreact
    have hopen : Open input := (open_iff truncated input).mpr ⟨s, hs⟩
    rcases t with s' | _ | _
    · cases s' with
      | lessThanSign =>
        cases henters
        exact ⟨input, rfl, hopen⟩
      | lessThanSignBang =>
        obtain ⟨rfl, rfl⟩ := henters
        obtain ⟨pre, rfl, hpre⟩ := hled
        exact ⟨pre, by simp, hpre⟩
      | lessThanSignBangDash =>
        obtain ⟨rfl, rfl⟩ := henters
        obtain ⟨pre, rfl, hpre⟩ := hled
        exact ⟨pre, by simp, hpre⟩
      | lessThanSignBangDashDash =>
        obtain ⟨rfl, rfl⟩ := henters
        obtain ⟨pre, rfl, hpre⟩ := hled
        exact ⟨pre, by simp, hpre⟩
      | _ => trivial
    · obtain ⟨rfl | rfl, rfl⟩ := henters
      · obtain ⟨pre, rfl, hpre⟩ := hled
        exact ⟨pre, 0, by simp, hpre⟩
      · obtain ⟨pre, n, rfl, hpre⟩ := hled
        exact ⟨pre, n + 1, by simp [List.replicate_succ' (n := n + 3)], hpre⟩
    · obtain ⟨rfl, rfl⟩ := henters
      obtain ⟨pre, n, rfl, hpre⟩ := hled
      exact ⟨pre, n, by simp [nestedBang], hpre⟩

theorem react_lessThan (t : Tracked) :
    ((tracked truncated).react t lessThan).2 = some (.plain .lessThanSign) := by
  rcases t with s | _ | _
  · cases s <;> rfl
  · rfl
  · rfl

theorem feed_dashes (n : ℕ) :
    (tracked truncated).feed .nestedDashes (List.replicate n dash) = some .nestedDashes := by
  induction n with
  | zero => rfl
  | succ n ih =>
    rw [List.replicate_succ, feed_cons]
    exact ih

theorem feed_nestedBang {pre : Text} (h : (tracked truncated).feed (.plain .start) pre = some t) (n : ℕ) :
    (tracked truncated).feed (.plain .start) (pre ++ nestedBang n) = some .nestedBang := by
  have hdashes : (tracked truncated).feed (.plain .lessThanSignBang) (List.replicate (n + 3) dash) =
      some .nestedDashes := by
    rw [Nat.add_comm, List.replicate_add, feed_append]
    exact feed_dashes n
  have hopening : (tracked truncated).feed (.plain .lessThanSign) (bang :: (List.replicate (n + 3) dash ++ [bang])) =
      some .nestedBang := by
    rw [feed_cons]
    exact (feed_append _ _ _ _).trans (congrArg (Option.bind · _) hdashes)
  rw [feed_append, h, nestedBang, Option.bind_some, feed_cons, react_lessThan]
  exact hopening

theorem meets_parting_iff (truncated : Bool) (input : Text) :
    (tracked truncated).Meets (Parting truncated) (.plain .start) input ↔ UnseenBang truncated input := by
  constructor
  · rintro ⟨pre, post, t, rfl, hfeed, rfl, hpost⟩
    obtain ⟨before, n, rfl, hopen⟩ := ledBy_of_feed hfeed
    exact ⟨before, n, post, rfl, hopen, by simpa using hpost⟩
  · rintro ⟨pre, n, tail, rfl, hopen, htail⟩
    obtain ⟨t, ht⟩ := (open_iff truncated pre).mp hopen
    exact ⟨pre ++ nestedBang n, tail, .nestedBang, rfl, feed_nestedBang ht n, rfl, by simpa using htail⟩

theorem parting_ne {t : Tracked} {out : Text} {rest : List (UInt8 × Text)}
    (h : Parting truncated t (rest.map Prod.fst).head?) :
    conclude (((tracked truncated).run t rest).map (Reading.after out)) ≠
      conclude (((unrolled truncated).run t rest).map (Reading.after out)) := by
  obtain ⟨rfl, h⟩ := h
  rcases rest with _ | ⟨⟨c, left⟩, more⟩
  · have htruncated : truncated = false := by simpa using h
    subst htruncated
    simp [run, tracked, unrolled, conclude, Reading.after, ascii]
  · have hc : c = greaterThan := by simpa using h
    subst hc
    have hstop : (tracked truncated).react .nestedBang greaterThan = ([], none) := rfl
    have hgo : (unrolled truncated).react .nestedBang greaterThan = (ascii "--!>", some (.plain .comment)) := rfl
    rw [run_stop hstop, run_go hgo]
    cases (unrolled truncated).run (.plain .comment) more with
    | none => simp [conclude]
    | some r => simp [conclude, Reading.after, ascii]

/-- The function reads a comment as the specification's machine does, the same data from the same
bytes, exactly when no bang goes unseen. -/
theorem commentState_eq_specification_iff (truncated : Bool) (text : Text) :
    (commentState truncated text).token = conclude ((specification truncated).run .start (characters text)) ↔
      ¬ UnseenBang truncated ((characters text).map Prod.fst) := by
  have hproject : (specification truncated).run .start (characters text) =
      (tracked truncated).run (.plain .start) (characters text) :=
    run_project Tracked.state (react_state truncated) (fun _ => rfl) (.plain .start) _
  rw [conclude_commentState, hproject, ← meets_parting_iff]
  constructor
  · intro heq hmeets
    obtain ⟨out, t, rest, hbad, hm, hm'⟩ := exists_parting react_eq_of_not_parting hmeets
    rw [hm, hm'] at heq
    exact parting_ne hbad heq.symm
  · intro h
    rw [run_eq_of_not_meets react_eq_of_not_parting atEnd_eq_of_not_parting h]

/-- An opening with a dash more in a comment, and a bang with which the comment should end: it goes on
to the end of the input. -/
theorem commentState_unseenBang :
    (commentState false (ascii "<!---!>a")).token = some (ascii "<!---!>a", []) ∧
      conclude ((specification false).run .start (characters (ascii "<!---!>a"))) =
        some (ascii "<!-", ascii "a") := by
  decide

end CtBrowser.Dom.Comment
