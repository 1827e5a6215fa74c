import CtBrowser.Script.Temporal.Durations
import CtBrowser.Script.Temporal.TimeReading

/-!
# Reading Durations

The grammar of durations, and that the reader of their fields reads it. Every part is a number
and a letter, so that a part that is not there leaves another letter after the number.

## Main definitions

- `Productions.durationDate`, `Productions.durationTime`, `Productions.durationFields`.

## Main results

- `durationFields_eq_some` — the fields of a whole text.
-/

namespace CtBrowser.Script.Temporal

open Foundations.Reading Foundations.Reading.Grammar

namespace Productions

def wholeNumber : Grammar UInt8 Text :=
  matching fun u => u ≠ [] ∧ ∀ b ∈ u, isAsciiDigit b = true

/-- A number without a fraction and its designator. -/
def component (designator : UInt8) : Grammar UInt8 (Text × Text) := do
  let n ← wholeNumber
  letter designator
  pure (n, [])

/-- A number with a fraction and its designator. -/
def fractional (designator : UInt8) : Grammar UInt8 (Text × Text) := do
  let n ← wholeNumber
  let f ← temporalDecimalFraction
  letter designator
  pure (n, f)

/-- A number of the smallest unit of a duration, which may have a fraction. -/
def smallest (designator : UInt8) : Grammar UInt8 (Text × Text) :=
  alt (component designator) (fractional designator)

/-- Years, months, weeks and days, each of which may be missing, and whether one is there. -/
def durationDate : Grammar UInt8 (DurationText × Bool) := do
  let y ← opt (component (ch 'Y'))
  let m ← opt (component (ch 'M'))
  let w ← opt (component (ch 'W'))
  let d ← opt (component (ch 'D'))
  pure ({ years := digitsOf y, months := digitsOf m, weeks := digitsOf w, days := digitsOf d },
    y.isSome || m.isSome || w.isSome || d.isSome)

/-- Hours, minutes and seconds after a date: one at least, and a fraction on the last one only. -/
def durationTime (date : DurationText) : Grammar UInt8 DurationText :=
  alt
    (do
      let h ← fractional (ch 'H')
      pure { date with hours := h.1, fHours := h.2 })
    (do
      let h ← opt (component (ch 'H'))
      alt
        (do
          let m ← fractional (ch 'M')
          pure { date with hours := digitsOf h, minutes := m.1, fMinutes := m.2 })
        (do
          let m ← opt (component (ch 'M'))
          let s ← opt (smallest (ch 'S'))
          require (h ≠ none ∨ m ≠ none ∨ s ≠ none)
          pure { date with hours := digitsOf h, minutes := digitsOf m, seconds := digitsOf s,
                           fSeconds := fractionOf s }))

/-- A sign, a date and a time; the date and the time are not both missing. -/
def durationFields : Grammar UInt8 (ℤ × DurationText) := do
  let s ← opt asciiSign
  letter (ch 'P')
  let d ← durationDate
  alt
    (do
      require (d.2 = true)
      pure (s.getD 1, d.1))
    (do
      letter (ch 'T')
      let t ← durationTime d.1
      pure (s.getD 1, t))

end Productions

/-! ## Parts -/

/-- A letter that neither a number nor a fraction goes on with, in either case. -/
def IsDesignator (d : UInt8) : Prop :=
  ∀ l, l = d ∨ l = d + 0x20 → l ≠ 0 ∧ isAsciiDigit l = false ∧ isFractionPoint l = false

theorem number_digits {n rest : Text} {b : UInt8} (hn : n ≠ [] ∧ ∀ x ∈ n, isAsciiDigit x = true)
    (hb : isAsciiDigit b = false) (fractional : Bool) : number fractional (n ++ b :: rest) =
      some ((if fractional then fraction (b :: rest) else none).elim ((n, []), b :: rest)
        fun x => ((n, x.1), x.2)) := by
  have hstops : Stops isAsciiDigit (b :: rest) := stops_cons.mpr hb
  rw [number, hstops.takeWhile hn.2, hstops.dropWhile hn.2, if_neg hn.1]
  cases if fractional then fraction (b :: rest) else none with
  | none => rfl
  | some x => rfl

theorem number_component {n rest : Text} {b : UInt8} (hn : n ≠ [] ∧ ∀ x ∈ n, isAsciiDigit x = true)
    (hb : isAsciiDigit b = false ∧ isFractionPoint b = false) (fractional : Bool) :
    number fractional (n ++ b :: rest) = some ((n, []), b :: rest) := by
  rw [number_digits hn hb.1, fraction_eq_none (stops_cons.mpr hb.2), ite_self]
  rfl

theorem number_fractional {n uf f rest : Text} {b : UInt8}
    (hn : n ≠ [] ∧ ∀ x ∈ n, isAsciiDigit x = true)
    (hf : Productions.temporalDecimalFraction.derives uf f) (hb : isAsciiDigit b = false) :
    number true (n ++ (uf ++ b :: rest)) = some ((n, f), b :: rest) := by
  have hread := reads_fraction.apply hf (stops_cons.mpr hb : Stops isAsciiDigit (b :: rest))
  obtain ⟨point, v, _, rfl, hpoint, -⟩ := hf
  have hpoint' : ∃ p, point = [p] ∧ isAsciiDigit p = false := by
    rcases hpoint with rfl | rfl
    · exact ⟨_, rfl, by decide⟩
    · exact ⟨_, rfl, by decide⟩
  obtain ⟨p, rfl, hp⟩ := hpoint'
  rw [List.append_assoc, List.singleton_append] at hread ⊢
  rw [number_digits hn hp, if_pos rfl, hread]
  rfl

theorem designated_apply (d : UInt8) (fractional : Bool) (t : Text) :
    designated d fractional t = (number fractional t).bind fun x => (eatLetter d x.2).bind fun y =>
      if y.1 = true then some (x.1, y.2) else none := by
  rw [designated, Reader.bind_apply]
  congr
  funext x
  rw [Reader.bind_apply]
  congr
  funext y
  rw [Reader.bind_apply, Reader.guard_apply]
  split_ifs <;> rfl

theorem designated_of_number {d b : UInt8} {fractional : Bool} {t rest : Text} {n : Text × Text}
    (hn : number fractional t = some (n, b :: rest)) : designated d fractional t =
      if b = d ∨ b = d + 0x20 then some (n, rest) else none := by
  rw [designated_apply, hn, Option.bind_some, eatLetter, List.headD_cons]
  split_ifs <;> rfl

theorem designated_of_stops (d : UInt8) (fractional : Bool) {t : Text} (h : Stops isAsciiDigit t) :
    designated d fractional t = none := by
  have hdigits : t.takeWhile isAsciiDigit = [] := by
    have := @Stops.takeWhile _ [] t h (by simp)
    rwa [List.nil_append] at this
  rw [designated_apply, number, if_pos hdigits, Option.bind_none]

theorem exists_letter {d : UInt8} {fractional : Bool} {t rest : Text} {x : Text × Text}
    (hd : IsDesignator d) (h : designated d fractional t = some (x, rest)) :
    ∃ l, (l = d ∨ l = d + 0x20) ∧ number fractional t = some (x, l :: rest) := by
  rw [designated_apply] at h
  obtain ⟨⟨n, r⟩, hn, hrest⟩ := Option.bind_eq_some_iff.mp h
  obtain ⟨⟨eaten, r'⟩, heat, hpure⟩ := Option.bind_eq_some_iff.mp hrest
  dsimp only at heat hpure
  split_ifs at hpure with heaten
  cases hpure
  subst heaten
  rw [eatLetter] at heat
  by_cases hletter : r.headD 0 = d ∨ r.headD 0 = d + 0x20
  · rw [if_pos hletter] at heat
    cases heat
    obtain _ | ⟨l, r⟩ := r
    · exact absurd rfl (hd 0 hletter).1
    · exact ⟨l, hletter, hn⟩
  · rw [if_neg hletter] at heat
    cases heat

theorem exists_of_letter {d : UInt8} {u : Text} (hu : (Productions.letter d).derives u ()) :
    ∃ l, u = [l] ∧ (l = d ∨ l = d + 0x20) := by
  rcases hu with rfl | rfl
  · exact ⟨d, rfl, .inl rfl⟩
  · exact ⟨d + 0x20, rfl, .inr rfl⟩

theorem exists_number {d : UInt8} (hd : IsDesignator d) {fractional : Bool} {u : Text} {x : Text × Text}
    (hu : (if fractional then Productions.smallest d else Productions.component d).derives u x) :
    ∃ l, (l = d ∨ l = d + 0x20) ∧ ∀ rest, number fractional (u ++ rest) = some (x, l :: rest) := by
  obtain ⟨n, f⟩ := x
  have hparts : (Productions.component d).derives u (n, f) ∨
      fractional = true ∧ (Productions.fractional d).derives u (n, f) := by
    cases fractional with
    | true => exact hu.imp id fun h => ⟨rfl, h⟩
    | false => exact .inl hu
  rcases hparts with ⟨_, _, n', rfl, ⟨rfl, hn⟩, ul, _, _, rfl, hul, rfl, hx⟩ |
    ⟨rfl, _, _, n', rfl, ⟨rfl, hn⟩, uf, _, f', rfl, hf, ul, _, _, rfl, hul, rfl, hx⟩
  · obtain ⟨rfl, rfl⟩ := Prod.mk.inj hx
    obtain ⟨l, rfl, hl⟩ := exists_of_letter hul
    refine ⟨l, hl, fun rest => ?_⟩
    rw [List.append_nil, List.append_assoc, List.singleton_append,
      number_component hn (hd l hl).2 fractional]
  · obtain ⟨rfl, rfl⟩ := Prod.mk.inj hx
    obtain ⟨l, rfl, hl⟩ := exists_of_letter hul
    refine ⟨l, hl, fun rest => ?_⟩
    rw [List.append_nil, List.append_assoc, List.append_assoc, List.singleton_append,
      number_fractional hn hf (hd l hl).2.1]

theorem reads_designated {d : UInt8} (hd : IsDesignator d) (fractional : Bool) :
    Reads (designated d fractional)
      (if fractional then Productions.smallest d else Productions.component d) fun _ _ => True := by
  rintro ⟨n, f⟩ t rest -
  have hletter : ∀ l, (Productions.letter d).derives [l] () ↔ l = d ∨ l = d + 0x20 := fun l => by
    rw [Productions.letter, derives_alt, derives_literal, derives_literal, List.singleton_inj,
      List.singleton_inj]
  constructor
  · intro h
    obtain ⟨l, hl, hn⟩ := exists_letter hd h
    have hwhole : t = t.takeWhile isAsciiDigit ++ t.dropWhile isAsciiDigit :=
      List.takeWhile_append_dropWhile.symm
    have hdigits : ∀ b ∈ t.takeWhile isAsciiDigit, isAsciiDigit b = true :=
      fun b hb => List.all_eq_true.mp List.all_takeWhile b hb
    rw [number] at hn
    have hempty : t.takeWhile isAsciiDigit ≠ [] := fun hnil => by
      rw [if_pos hnil] at hn
      cases hn
    rw [if_neg hempty] at hn
    split at hn
    · next f' rest' hfraction =>
      cases hn
      split_ifs at hfraction with hfr
      obtain ⟨uf, huf, hf⟩ := (reads_fraction f _ (l :: rest) (stops_cons.mpr (hd l hl).2.1)).mp hfraction
      rw [if_pos hfr]
      refine ⟨t.takeWhile isAsciiDigit ++ (uf ++ [l]), ?_, .inr ⟨_, _, _, rfl, ⟨rfl, hempty, hdigits⟩,
        uf, [l], f, rfl, hf, [l], [], (), rfl, (hletter l).mpr hl, rfl, rfl⟩⟩
      rw [List.append_assoc, List.append_assoc, List.singleton_append, ← huf]
      exact hwhole
    · injection hn with hn
      obtain ⟨hpair, hrest⟩ := Prod.mk.inj hn
      obtain ⟨rfl, rfl⟩ := Prod.mk.inj hpair
      have hword : (Productions.component d).derives (t.takeWhile isAsciiDigit ++ [l])
          (t.takeWhile isAsciiDigit, []) :=
        ⟨_, [l], _, rfl, ⟨rfl, hempty, hdigits⟩, [l], [], (), rfl, (hletter l).mpr hl, rfl, rfl⟩
      refine ⟨t.takeWhile isAsciiDigit ++ [l], ?_, ?_⟩
      · rw [List.append_assoc, List.singleton_append, ← hrest]
        exact hwhole
      · cases fractional with
        | true => exact .inl hword
        | false => exact hword
  · rintro ⟨u, rfl, hu⟩
    obtain ⟨l, hl, hn⟩ := exists_number hd hu
    rw [designated_of_number (hn rest), if_pos hl]

/-- Two designators that are not the same letter. -/
def Differ (d e : UInt8) : Prop := ∀ l, l = e ∨ l = e + 0x20 → ¬ (l = d ∨ l = d + 0x20)

theorem designated_of_opt {d e : UInt8} (he : IsDesignator e) (hde : Differ d e) {fractional : Bool}
    {u rest : Text} {x : Option (Text × Text)}
    (hu : (if fractional then Productions.smallest e else Productions.component e).opt.derives u x)
    (hrest : designated d fractional rest = none) : designated d fractional (u ++ rest) = none := by
  rcases hu with ⟨rfl, -⟩ | ⟨x, -, hu⟩
  · exact hrest
  · obtain ⟨l, hl, hn⟩ := exists_number he hu
    rw [designated_of_number (hn rest), if_neg (hde l hl)]

theorem reads_attempt_designated {d : UInt8} (hd : IsDesignator d) (fractional : Bool) :
    Reads (attempt (designated d fractional))
      (if fractional then Productions.smallest d else Productions.component d).opt
      fun x rest => x = none → designated d fractional rest = none :=
  (reads_designated hd fractional).attempt (fun _ h => h rfl) fun _ _ _ => trivial

/-! ## Dates and times -/

theorem isDesignator_letters : IsDesignator (ch 'Y') ∧ IsDesignator (ch 'M') ∧ IsDesignator (ch 'W') ∧
    IsDesignator (ch 'D') ∧ IsDesignator (ch 'H') ∧ IsDesignator (ch 'S') := by
  refine ⟨?_, ?_, ?_, ?_, ?_, ?_⟩ <;>
  · rintro l (rfl | rfl) <;> decide

theorem differ_letters : Differ (ch 'Y') (ch 'M') ∧ Differ (ch 'Y') (ch 'W') ∧ Differ (ch 'Y') (ch 'D') ∧
    Differ (ch 'M') (ch 'W') ∧ Differ (ch 'M') (ch 'D') ∧ Differ (ch 'W') (ch 'D') ∧
    Differ (ch 'H') (ch 'M') ∧ Differ (ch 'H') (ch 'S') ∧ Differ (ch 'M') (ch 'S') := by
  refine ⟨?_, ?_, ?_, ?_, ?_, ?_, ?_, ?_, ?_⟩ <;>
  · rintro l (rfl | rfl) <;> decide

theorem reads_durationDate :
    Reads durationDate Productions.durationDate fun _ rest => Stops isAsciiDigit rest := by
  obtain ⟨hY, hM, hW, hD, -, -⟩ := isDesignator_letters
  obtain ⟨hYM, hYW, hYD, hMW, hMD, hWD, -⟩ := differ_letters
  refine (reads_attempt_designated hY false).bind (fun y => (reads_attempt_designated hM false).bind
    (fun m => (reads_attempt_designated hW false).bind (fun w =>
      (reads_attempt_designated hD false).bind (fun d => (Reads.pure _).weaken fun _ _ _ => trivial)
      ?_) ?_) ?_) ?_
  · rintro x _ _ rest ⟨rfl, -⟩ hrest -
    exact designated_of_stops _ _ hrest
  · rintro x _ _ rest ⟨ud, _, d, rfl, hd, rfl, -⟩ hrest -
    rw [List.append_nil]
    exact designated_of_opt hD hWD hd (designated_of_stops _ _ hrest)
  · rintro x _ _ rest ⟨uw, _, w, rfl, hw, ud, _, d, rfl, hd, rfl, -⟩ hrest -
    rw [List.append_nil, List.append_assoc]
    exact designated_of_opt hW hMW hw (designated_of_opt hD hMD hd (designated_of_stops _ _ hrest))
  · rintro x _ _ rest ⟨um, _, m, rfl, hm, uw, _, w, rfl, hw, ud, _, d, rfl, hd, rfl, -⟩ hrest -
    rw [List.append_nil, List.append_assoc, List.append_assoc]
    exact designated_of_opt hM hYM hm (designated_of_opt hW hYW hw
      (designated_of_opt hD hYD hd (designated_of_stops _ _ hrest)))

theorem derives_smallest_bind {d : UInt8} {A B : Option (Text × Text) → Grammar UInt8 DurationText}
    {u : Text} {c : DurationText} :
    ((Productions.smallest d).opt >>= fun h => if fractionOf h ≠ [] then A h else B h).derives u c ↔
      (alt (Productions.fractional d >>= fun h => A (some h))
        ((Productions.component d).opt >>= B)).derives u c := by
  have hcomponent : ∀ v x, (Productions.component d).derives v x → fractionOf (some x) = [] := by
    rintro v x ⟨_, _, n, rfl, -, _, _, _, rfl, -, rfl, rfl⟩
    rfl
  have hfractional : ∀ v x, (Productions.fractional d).derives v x → fractionOf (some x) ≠ [] := by
    rintro v x ⟨_, _, n, rfl, -, _, _, f, rfl, ⟨_, _, _, rfl, -, rfl, ⟨hlength, -⟩, -⟩, _, _, _, rfl, -,
      rfl, rfl⟩ hnil
    rw [show f = [] from hnil] at hlength
    cases hlength
  have hnext : ∀ h w, fractionOf h ≠ [] →
      ((if fractionOf h ≠ [] then A h else B h).derives w c ↔ (A h).derives w c) :=
    fun h w hf => by rw [if_pos hf]
  have hlast : ∀ h w, fractionOf h = [] →
      ((if fractionOf h ≠ [] then A h else B h).derives w c ↔ (B h).derives w c) :=
    fun h w hf => by rw [if_neg (not_not.mpr hf)]
  constructor
  · rintro ⟨v, w, h, rfl, hv, hw⟩
    rcases hv with ⟨rfl, rfl⟩ | ⟨x, rfl, hx | hx⟩
    · exact .inr ⟨[], w, none, rfl, .inl ⟨rfl, rfl⟩, (hlast none w rfl).mp hw⟩
    · exact .inr ⟨v, w, some x, rfl, .inr ⟨x, rfl, hx⟩, (hlast _ w (hcomponent v x hx)).mp hw⟩
    · exact .inl ⟨v, w, x, rfl, hx, (hnext _ w (hfractional v x hx)).mp hw⟩
  · rintro (⟨v, w, x, rfl, hx, hw⟩ | ⟨v, w, h, rfl, ⟨rfl, rfl⟩ | ⟨x, rfl, hx⟩, hw⟩)
    · exact ⟨v, w, some x, rfl, .inr ⟨x, rfl, .inr hx⟩, (hnext _ w (hfractional v x hx)).mpr hw⟩
    · exact ⟨[], w, none, rfl, .inl ⟨rfl, rfl⟩, (hlast none w rfl).mpr hw⟩
    · exact ⟨v, w, some x, rfl, .inr ⟨x, rfl, .inl hx⟩, (hlast _ w (hcomponent v x hx)).mpr hw⟩

/-- What is read of a time after its minutes. -/
def secondsPart (date : DurationText) (h m : Option (Text × Text)) : Reader UInt8 DurationText := do
  let s ← attempt (designated (ch 'S') true)
  guard (h ≠ none ∨ m ≠ none ∨ s ≠ none)
  pure { date with hours := digitsOf h, minutes := digitsOf m, seconds := digitsOf s,
                   fSeconds := fractionOf s }

/-- What is read of a time after its hours. -/
def minutesPart (date : DurationText) (h : Option (Text × Text)) : Reader UInt8 DurationText := do
  let m ← attempt (designated (ch 'M') true)
  if fractionOf m ≠ [] then
    pure { date with hours := digitsOf h, minutes := digitsOf m, fMinutes := fractionOf m }
  else secondsPart date h m

/-- The grammar of the seconds. -/
def readSeconds (date : DurationText) (h m : Option (Text × Text)) : Grammar UInt8 DurationText := do
  let s ← opt (Productions.smallest (ch 'S'))
  require (h ≠ none ∨ m ≠ none ∨ s ≠ none)
  pure { date with hours := digitsOf h, minutes := digitsOf m, seconds := digitsOf s,
                   fSeconds := fractionOf s }

/-- The grammar of the minutes and seconds, as the reader goes through it. -/
def readMinutes (date : DurationText) (h : Option (Text × Text)) : Grammar UInt8 DurationText :=
  opt (Productions.smallest (ch 'M')) >>= fun m =>
    if fractionOf m ≠ [] then
      pure { date with hours := digitsOf h, minutes := digitsOf m, fMinutes := fractionOf m }
    else readSeconds date h m

theorem reads_secondsPart (date : DurationText) (h m : Option (Text × Text)) :
    Reads (secondsPart date h m) (readSeconds date h m) fun _ rest => rest = [] := by
  obtain ⟨-, -, -, -, -, hS⟩ := isDesignator_letters
  refine (reads_attempt_designated hS true).bind (fun s => (Reads.guarded _).bind_of_true fun _ =>
    (Reads.pure _).weaken fun _ _ _ => trivial) ?_
  rintro s _ _ _ hu rfl -
  obtain ⟨-, rfl, -⟩ := derives_require_bind.mp hu
  exact designated_of_stops _ _ (stops_nil _)

theorem designated_of_readSeconds {d : UInt8} (hd : Differ d (ch 'S')) {date : DurationText}
    {h m : Option (Text × Text)} {u : Text} {c : DurationText}
    (hu : (readSeconds date h m).derives u c) : designated d true u = none := by
  obtain ⟨-, -, -, -, -, hS⟩ := isDesignator_letters
  obtain ⟨us, _, s, rfl, hs, hu⟩ := hu
  obtain ⟨-, rfl, -⟩ := derives_require_bind.mp hu
  exact designated_of_opt hS hd hs (designated_of_stops _ _ (stops_nil _))

theorem reads_minutesPart (date : DurationText) (h : Option (Text × Text)) :
    Reads (minutesPart date h) (readMinutes date h) fun _ rest => rest = [] := by
  obtain ⟨-, hM, -⟩ := isDesignator_letters
  obtain ⟨-, -, -, -, -, -, -, -, hMS⟩ := differ_letters
  refine (reads_attempt_designated hM true).bind (fun m => ?_) ?_
  · by_cases hm : fractionOf m ≠ []
    · rw [if_pos hm, if_pos hm]
      exact (Reads.pure _).weaken fun _ _ _ => trivial
    · rw [if_neg hm, if_neg hm]
      exact reads_secondsPart date h m
  · rintro _ u c _ hu rfl rfl
    have hseconds : (readSeconds date h none).derives u c := hu
    rw [List.append_nil]
    exact designated_of_readSeconds hMS hseconds

theorem designated_of_readMinutes {d : UInt8} (hM : Differ d (ch 'M')) (hS : Differ d (ch 'S'))
    {date : DurationText} {h : Option (Text × Text)} {u : Text} {c : DurationText}
    (hu : (readMinutes date h).derives u c) : designated d true u = none := by
  obtain ⟨-, hMinutes, -⟩ := isDesignator_letters
  obtain ⟨um, w, m, rfl, hm, hw⟩ := hu
  refine designated_of_opt hMinutes hM hm ?_
  by_cases hf : fractionOf m ≠ []
  · dsimp only at hw
    rw [if_pos hf] at hw
    rw [hw.1]
    exact designated_of_stops _ _ (stops_nil _)
  · dsimp only at hw
    rw [if_neg hf] at hw
    exact designated_of_readSeconds hS hw

theorem derives_readMinutes {date : DurationText} {h : Option (Text × Text)} {u : Text}
    {c : DurationText} : (readMinutes date h).derives u c ↔
      (alt
        (do
          let m ← Productions.fractional (ch 'M')
          pure { date with hours := digitsOf h, minutes := m.1, fMinutes := m.2 })
        (do
          let m ← opt (Productions.component (ch 'M'))
          readSeconds date h m)).derives u c :=
  derives_smallest_bind

theorem reads_durationTime (date : DurationText) :
    Reads (durationTime date) (Productions.durationTime date) fun _ rest => rest = [] := by
  obtain ⟨-, -, -, -, hH, -⟩ := isDesignator_letters
  obtain ⟨-, -, -, -, -, -, hHM, hHS, -⟩ := differ_letters
  have hread : Reads (durationTime date)
      (opt (Productions.smallest (ch 'H')) >>= fun h => if fractionOf h ≠ [] then
        pure { date with hours := digitsOf h, fHours := fractionOf h } else readMinutes date h)
      fun _ rest => rest = [] := by
    refine (reads_attempt_designated hH true).bind (fun h => ?_) ?_
    · by_cases hh : fractionOf h ≠ []
      · rw [if_pos hh, if_pos hh]
        exact (Reads.pure _).weaken fun _ _ _ => trivial
      · rw [if_neg hh, if_neg hh]
        exact reads_minutesPart date h
    · rintro _ u c _ hu rfl rfl
      have hminutes : (readMinutes date none).derives u c := hu
      rw [List.append_nil]
      exact designated_of_readMinutes hHM hHS hminutes
  refine hread.congr fun u c => derives_smallest_bind.trans (or_congr Iff.rfl ?_)
  exact Grammar.bind_congr fun _ h _ _ => derives_readMinutes

/-! ## Whole durations -/

/-- A duration after its sign. -/
def durationBody (factor : ℤ) : Reader UInt8 (ℤ × DurationText) := do
  let designator ← eatLetter (ch 'P')
  guard designator
  let (date, anyDate) ← durationDate
  let timed ← eatLetter (ch 'T')
  if timed then
    let d ← durationTime date
    pure (factor, d)
  else
    guard anyDate
    pure (factor, date)

theorem durationFields_eq :
    durationFields = attempt signByte >>= fun s => durationBody (s.getD 1) := by
  funext c
  obtain _ | ⟨b, c⟩ := c
  · rfl
  · by_cases hsign : isSign b = true
    · rcases (isSign_iff b).mp hsign with rfl | rfl
      · rfl
      · rfl
    · have hnone : signByte (b :: c) = none := by
        rw [isSign_iff, not_or] at hsign
        rw [signByte, List.headD_cons, if_neg hsign.1, if_neg hsign.2]
      have hminus : b ≠ ch '-' := fun h => hsign (h ▸ rfl)
      have hattempt : attempt signByte (b :: c) = some (none, b :: c) := by rw [attempt, hnone]
      rw [durationFields, Reader.bind_apply, Reader.bind_apply, hattempt]
      simp only [peek, Option.bind_some, List.headD_cons, if_neg hsign, if_neg hminus]
      rfl

/-- A letter that has to be there. -/
def expectLetter (d : UInt8) : Reader UInt8 Unit := fun c =>
  if c.headD 0 = d ∨ c.headD 0 = d + 0x20 then some ((), c.tail) else none

theorem reads_expectLetter {d : UInt8} (hd : IsDesignator d) :
    Reads (expectLetter d) (Productions.letter d) fun _ _ => True := by
  rintro ⟨⟩ t rest -
  rw [expectLetter]
  constructor
  · intro h
    split_ifs at h with hletter
    cases h
    obtain _ | ⟨l, t⟩ := t
    · exact absurd rfl (hd 0 hletter).1
    · exact ⟨[l], rfl, hletter.imp (congrArg (fun b => [b])) (congrArg (fun b => [b]))⟩
  · rintro ⟨u, rfl, hu⟩
    obtain ⟨l, rfl, hl⟩ := exists_of_letter hu
    exact if_pos hl

theorem eatLetter_bind {β : Type} (d : UInt8) (p : Bool → Reader UInt8 β) (t : Text) :
    (eatLetter d >>= p) t =
      if t.headD 0 = d ∨ t.headD 0 = d + 0x20 then p true t.tail else p false t := by
  rw [Reader.bind_apply, eatLetter]
  split_ifs <;> rfl

theorem eatLetter_guard_bind {β : Type} (d : UInt8) (p : Reader UInt8 β) :
    (eatLetter d >>= fun eaten => guard (eaten = true) >>= fun _ => p) =
      expectLetter d >>= fun _ => p := by
  funext t
  have hexpect : expectLetter d t =
      if t.headD 0 = d ∨ t.headD 0 = d + 0x20 then some ((), t.tail) else none := rfl
  rw [eatLetter_bind, @Reader.bind_apply _ _ _ (expectLetter d), hexpect]
  split_ifs <;> rfl

theorem reads_durationBody (factor : ℤ) : Reads (durationBody factor)
    (Productions.letter (ch 'P') >>= fun _ => Productions.durationDate >>= fun d =>
      alt (require (d.2 = true) >>= fun _ => pure (factor, d.1))
        (Productions.letter (ch 'T') >>= fun _ => Productions.durationTime d.1 >>= fun t =>
          pure (factor, t))) fun _ rest => rest = [] := by
  have hP : IsDesignator (ch 'P') := by rintro l (rfl | rfl) <;> decide
  have hT : IsDesignator (ch 'T') := by rintro l (rfl | rfl) <;> decide
  have htail : ∀ d : DurationText × Bool,
      (eatLetter (ch 'T') >>= fun timed => if timed = true then
          durationTime d.1 >>= fun x => pure (factor, x)
        else guard (d.2 = true) >>= fun _ => pure (factor, d.1) : Reader UInt8 (ℤ × DurationText)) =
      fun t => if (decide (t.headD 0 = ch 'T' ∨ t.headD 0 = ch 'T' + 0x20)) = true then
        (expectLetter (ch 'T') >>= fun _ => durationTime d.1 >>= fun x => pure (factor, x)) t
        else (guard (d.2 = true) >>= fun _ => pure (factor, d.1) : Reader UInt8 _) t := by
    intro d
    funext t
    rw [eatLetter_bind]
    by_cases hletter : t.headD 0 = ch 'T' ∨ t.headD 0 = ch 'T' + 0x20
    · have hexpect : expectLetter (ch 'T') t = some ((), t.tail) := if_pos hletter
      rw [if_pos hletter, if_pos (decide_eq_true hletter), @Reader.bind_apply _ _ _ (expectLetter _),
        hexpect]
      rfl
    · rw [if_neg hletter, if_neg fun h => hletter (of_decide_eq_true h)]
      rfl
  have hbody : durationBody factor = expectLetter (ch 'P') >>= fun _ => durationDate >>= fun d =>
      eatLetter (ch 'T') >>= fun timed => if timed = true then
        durationTime d.1 >>= fun x => pure (factor, x)
        else guard (d.2 = true) >>= fun _ => pure (factor, d.1) := by
    rw [← eatLetter_guard_bind]
    rfl
  simp only [htail] at hbody
  rw [hbody]
  refine (reads_expectLetter hP).bind_of_true fun _ => reads_durationDate.bind (fun d => ?_) ?_
  · have htime : Reads (expectLetter (ch 'T') >>= fun _ => durationTime d.1 >>= fun x => pure (factor, x))
        _ fun _ rest => rest = [] :=
      (reads_expectLetter hT).bind_of_true fun _ => (reads_durationTime d.1).map fun _ _ h => h
    have hdate : Reads (guard (d.2 = true) >>= fun _ => pure (factor, d.1) : Reader UInt8 _) _
        fun _ rest => rest = [] :=
      (Reads.guarded _).bind_of_true fun _ => (Reads.pure _).weaken fun _ _ _ => trivial
    refine (htime.choice hdate ?_ ?_).congr fun u b => or_comm
    · rintro u b rest ⟨v, w, _, rfl, hv, -⟩
      obtain ⟨l, rfl, hl⟩ := exists_of_letter hv
      exact decide_eq_true hl
    · rintro u b _ hu rfl
      obtain ⟨-, rfl, -⟩ := derives_require_bind.mp hu
      decide
  · rintro d u c _ hu rfl
    rw [List.append_nil]
    rcases hu with hu | ⟨v, w, _, rfl, hv, -⟩
    · obtain ⟨-, rfl, -⟩ := derives_require_bind.mp hu
      exact stops_nil _
    · obtain ⟨l, rfl, hl⟩ := exists_of_letter hv
      exact stops_cons.mpr (hT l hl).2.1

/-- The fields of a whole text are what the grammar derives. -/
theorem durationFields_eq_some {t : Text} {x : ℤ × DurationText} :
    durationFields t = some (x, []) ↔ Productions.durationFields.derives t x := by
  have hsign : Reads (attempt signByte) Productions.asciiSign.opt
      fun s rest => s = none → signByte rest = none :=
    reads_signByte.attempt (fun _ h => h rfl) fun _ _ _ => trivial
  have hread : Reads durationFields Productions.durationFields fun _ rest => rest = [] := by
    rw [durationFields_eq]
    refine hsign.bind (fun s => reads_durationBody (s.getD 1)) ?_
    rintro s u c _ ⟨v, w, _, rfl, hv, -⟩ - -
    obtain ⟨l, rfl, hl⟩ := exists_of_letter hv
    have hplus : ∀ l, l = ch 'P' ∨ l = ch 'P' + 0x20 → l ≠ ch '+' ∧ l ≠ ch '-' := by
      rintro l (rfl | rfl) <;> decide
    rw [List.append_assoc, List.singleton_append, signByte, List.headD_cons, if_neg (hplus l hl).1,
      if_neg (hplus l hl).2]
  constructor
  · intro h
    obtain ⟨u, rfl, hu⟩ := (hread x t [] rfl).mp h
    rwa [List.append_nil]
  · intro h
    exact (hread x t [] rfl).mpr ⟨t, (List.append_nil t).symm, h⟩

end CtBrowser.Script.Temporal
