import CtBrowser.Script.Temporal.AnnotationReading

/-!
# Recognising Temporal Strings

A whole text is parsed as a goal of the grammar if and only if the goal derives it, with the same
value.

## Main definitions

- `isNoBracket` — what does not follow a date or a time.

## Main results

- `parseGoal_eq_some` — the parser of a goal recognises the goal.
- `parseUtcOffset_eq_some` — the parser of offsets recognises them.
-/

namespace CtBrowser.Script.Temporal

open Foundations.Reading Foundations.Reading.Grammar

variable {β : Type}

/-- Only annotations may follow. -/
def isNoBracket (b : UInt8) : Bool := b != ch '['

theorem Stops.of_noBracket {p : UInt8 → Bool} {rest : Text} (h : Stops isNoBracket rest)
    (hp : p (ch '[') = false) : Stops p rest := by
  refine h.weaken fun b hb => bne_iff_ne.mpr ?_
  rintro rfl
  exact Bool.false_ne_true (hp.symm.trans hb)

theorem stops_annotated {zoned : Bool} {u : Text} {notes : Annotated}
    (hu : (Productions.annotated zoned).derives u notes) : Stops isNoBracket u := by
  obtain ⟨uz, _, zone, rfl, hzone, hmore⟩ := hu
  obtain ⟨-, um, _, items, rfl, hitems, rfl, -⟩ := derives_require_bind.mp hmore
  rw [List.append_nil]
  rcases hzone with ⟨rfl, -⟩ | ⟨id, -, hid⟩
  · cases items with
    | nil =>
      rw [derives_many_nil.mp hitems]
      exact stops_nil _
    | cons item items =>
      obtain ⟨u₁, u₂, rfl, hitem, -⟩ := derives_many_cons.mp hitems
      obtain ⟨v, rfl⟩ := annotation_bracket hitem
      exact stops_cons.mpr (by decide)
  · obtain ⟨v, rfl, -⟩ := derives_literal_bind.mp hid
    exact stops_cons.mpr (by decide)

/-! ## Offsets -/

/-- The designator of UTC, where it is allowed. -/
def zulu (allowZ : Bool) : Reader UInt8 OffsetPart := fun c =>
  if allowZ = true ∧ (c.headD 0 = ch 'Z' ∨ c.headD 0 = ch 'z') then some ({ z := true }, c.tail)
  else none

theorem reads_zulu (allowZ : Bool) : Reads (zulu allowZ)
    (require (allowZ = true) >>= fun _ => Productions.letter (ch 'Z') >>= fun _ => pure { z := true })
    fun _ _ => True := by
  rintro b t rest -
  rw [zulu]
  constructor
  · intro h
    split_ifs at h with hz
    cases h
    obtain ⟨hallow, hz⟩ := hz
    obtain _ | ⟨c, t⟩ := t
    · exact absurd hz (by decide)
    · refine ⟨[c], rfl, derives_require_bind.mpr ⟨hallow, [c], [], (), rfl, ?_, rfl, rfl⟩⟩
      exact hz.imp (congrArg (fun b => [b])) (congrArg (fun b => [b]))
  · rintro ⟨u, rfl, hu⟩
    obtain ⟨hallow, _, _, _, rfl, rfl | rfl, rfl, rfl⟩ := derives_require_bind.mp hu
    · rw [if_pos ⟨hallow, .inl rfl⟩]
      rfl
    · rw [if_pos ⟨hallow, .inr rfl⟩]
      rfl

theorem utcOffset_sign {subMinute : Bool} {u : Text} {ns : ℤ}
    (hu : (Productions.utcOffset subMinute).derives u ns) :
    ∃ b v, u = b :: v ∧ isSign b = true := by
  obtain ⟨_, v, s, rfl, ⟨rfl, -⟩ | ⟨rfl, -⟩, -⟩ := hu
  · exact ⟨ch '+', v, rfl, rfl⟩
  · exact ⟨ch '-', v, rfl, rfl⟩

theorem reads_dateTimeUtcOffset (allowZ : Bool) : Reads (dateTimeUtcOffset allowZ)
    (Productions.dateTimeUtcOffset allowZ) fun _ rest => Stops isClockByte rest := by
  have hoffset : Reads (withText (utcOffset true) >>= fun x => pure { text := x.1 })
      (captured (Productions.utcOffset true) >>= fun x => pure ({ text := x.1 } : OffsetPart))
      fun _ rest => Stops isClockByte rest :=
    (reads_withText (reads_utcOffset true)).map fun _ _ h => h
  have hreader : dateTimeUtcOffset allowZ = fun c => (zulu allowZ c).or
      ((withText (utcOffset true) >>= fun x => pure { text := x.1 } : Reader UInt8 OffsetPart) c) := by
    funext c
    rw [dateTimeUtcOffset, zulu]
    split_ifs
    · rfl
    · rfl
  rw [hreader]
  refine ((reads_zulu allowZ).weaken fun _ _ _ => trivial).orElse hoffset ?_
  rintro _ _ rest ⟨u, _, ⟨_, ns⟩, rfl, ⟨rfl, hu⟩, rfl, -⟩ -
  obtain ⟨b, v, rfl, hb⟩ := utcOffset_sign hu
  rw [zulu, if_neg]
  rintro ⟨-, hz⟩
  rcases hz with rfl | rfl <;> exact absurd hb (by decide)

theorem dateTimeUtcOffset_eq_none (allowZ : Bool) {rest : Text} (h : Stops isNoBracket rest) :
    dateTimeUtcOffset allowZ rest = none := by
  obtain _ | ⟨b, rest⟩ := rest
  · cases allowZ <;> rfl
  · have hb : b = ch '[' := by
      have := stops_cons.mp h
      rwa [isNoBracket, bne_eq_false_iff_eq] at this
    subst hb
    cases allowZ <;> rfl

/-! ## Times -/

theorem reads_timeAndOffset (allowZ : Bool) : Reads (timeAndOffset allowZ)
    (Productions.timeAndOffset allowZ) fun _ rest => Stops isNoBracket rest := by
  have hoffset : Reads (attempt (dateTimeUtcOffset allowZ)) (Productions.dateTimeUtcOffset allowZ).opt
      fun _ rest => Stops isNoBracket rest :=
    (reads_dateTimeUtcOffset allowZ).attempt (fun _ h => dateTimeUtcOffset_eq_none allowZ h)
      fun _ _ h => h.of_noBracket (by decide)
  refine reads_timeSpec.bind (fun t => hoffset.map fun _ _ h => h) ?_
  rintro t _ _ rest ⟨u, _, o, rfl, ho, rfl, -⟩ hrest
  rw [List.append_nil]
  rcases ho with ⟨rfl, -⟩ | ⟨o, -, ho⟩
  · exact hrest.of_noBracket (by decide)
  · rcases ho with ho | ⟨v, _, ⟨_, ns⟩, rfl, ⟨rfl, hns⟩, rfl, -⟩
    · obtain ⟨-, _, _, _, rfl, rfl | rfl, rfl, -⟩ := derives_require_bind.mp ho
      · exact stops_cons.mpr (by decide)
      · exact stops_cons.mpr (by decide)
    · obtain ⟨b, v, rfl, hb⟩ := utcOffset_sign hns
      refine stops_cons.mpr ?_
      rcases (isSign_iff b).mp hb with rfl | rfl <;> decide

/-- The separator before a time. -/
def separatorByte : Reader UInt8 Unit := fun c =>
  if c.headD 0 = ch 'T' ∨ c.headD 0 = ch 't' ∨ c.headD 0 = ch ' ' then some ((), c.tail) else none

theorem reads_separatorByte :
    Reads separatorByte Productions.dateTimeSeparator fun _ _ => True := by
  rintro ⟨⟩ t rest -
  rw [separatorByte]
  constructor
  · intro h
    split_ifs at h with hseparator
    cases h
    obtain _ | ⟨c, t⟩ := t
    · exact absurd hseparator (by decide)
    · refine ⟨[c], rfl, ?_⟩
      rcases hseparator with h | h | h
      · exact .inr (.inl (congrArg (fun b => [b]) h))
      · exact .inr (.inr (congrArg (fun b => [b]) h))
      · exact .inl (congrArg (fun b => [b]) h)
  · rintro ⟨u, rfl, rfl | rfl | rfl⟩ <;> rfl

theorem separatedTime_eq (allowZ : Bool) :
    separatedTime allowZ = separatorByte >>= fun _ => timeAndOffset allowZ := by
  funext c
  rw [separatedTime, Reader.bind_apply, Reader.bind_apply, separatorByte]
  simp only [peek, Option.bind_some, Reader.bind_apply, Reader.guard_apply]
  split_ifs
  · rfl
  · rfl

theorem reads_separatedTime (allowZ : Bool) : Reads (attempt (separatedTime allowZ))
    (Productions.dateTimeSeparator >>= fun _ => Productions.timeAndOffset allowZ).opt
    fun _ rest => Stops isNoBracket rest := by
  rw [separatedTime_eq]
  refine (reads_separatorByte.bind_of_true fun _ => reads_timeAndOffset allowZ).attempt ?_
    fun _ _ h => h
  intro rest hrest
  have hnone : separatorByte rest = none := by
    rw [separatorByte, if_neg]
    rintro (h | h | h)
    · exact hrest.headD_ne (by decide) (by decide) h
    · exact hrest.headD_ne (by decide) (by decide) h
    · exact hrest.headD_ne (by decide) (by decide) h
  rw [Reader.bind_apply, hnone]
  rfl

/-! ## Date-times -/

/-- What a date, a time and their annotations say. -/
def dateTimeFields (d : DateFields) (timed : Option (TimeRecord × OffsetPart)) (notes : Annotated) :
    Parsed :=
  { date := d, time := timed.map Prod.fst, offset := (timed.map Prod.snd).getD {}, notes }

/-- The grammar of a date-time as the reader goes through it. -/
def readDateTime (zoned timeRequired instant : Bool) : Grammar UInt8 Parsed :=
  Productions.date >>= fun d =>
    (Productions.dateTimeSeparator >>= fun _ => Productions.timeAndOffset (zoned || instant)).opt >>=
      fun timed =>
    require (¬ (timeRequired = true ∧ timed = none)) >>= fun _ =>
    require (¬ (instant = true ∧ ((timed.map Prod.snd).getD {}).z = false ∧
      ((timed.map Prod.snd).getD {}).text = [])) >>= fun _ =>
    Productions.annotated zoned >>= fun notes => pure (dateTimeFields d timed notes)

theorem reads_readDateTime (zoned timeRequired instant : Bool) :
    Reads (annotatedDateTime zoned timeRequired instant) (readDateTime zoned timeRequired instant)
      fun _ rest => rest = [] := by
  refine reads_date.bind_of_true fun d => (reads_separatedTime (zoned || instant)).bind
    (fun timed => (Reads.guarded _).bind_of_true fun _ => (Reads.guarded _).bind_of_true fun _ =>
      (reads_annotations zoned).map fun _ _ h => h) ?_
  rintro timed u c _ hu rfl
  obtain ⟨-, hu⟩ := derives_require_bind.mp hu
  obtain ⟨-, v, _, notes, rfl, hnotes, rfl, -⟩ := derives_require_bind.mp hu
  rw [List.append_nil, List.append_nil]
  exact stops_annotated hnotes

theorem derives_readDateTime {zoned timeRequired instant : Bool} {u : Text} {c : Parsed} :
    (readDateTime zoned timeRequired instant).derives u c ↔
      ∃ ud ut un d timed notes, u = ud ++ (ut ++ un) ∧ Productions.date.derives ud d ∧
        (Productions.dateTimeSeparator >>= fun _ =>
          Productions.timeAndOffset (zoned || instant)).opt.derives ut timed ∧
        ¬ (timeRequired = true ∧ timed = none) ∧
        ¬ (instant = true ∧ ((timed.map Prod.snd).getD {}).z = false ∧
          ((timed.map Prod.snd).getD {}).text = []) ∧
        (Productions.annotated zoned).derives un notes ∧ c = dateTimeFields d timed notes := by
  constructor
  · rintro ⟨ud, _, d, rfl, hd, ut, w, timed, rfl, ht, hw⟩
    obtain ⟨hrequired, hw⟩ := derives_require_bind.mp hw
    obtain ⟨hinstant, un, _, notes, rfl, hnotes, rfl, rfl⟩ := derives_require_bind.mp hw
    exact ⟨ud, ut, un, d, timed, notes, by rw [List.append_nil], hd, ht, hrequired, hinstant, hnotes, rfl⟩
  · rintro ⟨ud, ut, un, d, timed, notes, rfl, hd, ht, hrequired, hinstant, hnotes, rfl⟩
    exact ⟨ud, _, d, rfl, hd, ut, un, timed, rfl, ht, derives_require_bind.mpr ⟨hrequired,
      derives_require_bind.mpr ⟨hinstant, un, [], notes, (List.append_nil un).symm, hnotes, rfl, rfl⟩⟩⟩

theorem reads_annotatedDateTime (zoned timeRequired : Bool) :
    Reads (annotatedDateTime zoned timeRequired false)
      (Productions.annotatedDateTime zoned timeRequired) fun _ rest => rest = [] := by
  refine (reads_readDateTime zoned timeRequired false).congr fun u c => ?_
  rw [derives_readDateTime, Bool.or_false]
  constructor
  · rintro ⟨ud, ut, un, d, timed, notes, rfl, hd, ht, hrequired, -, hnotes, rfl⟩
    refine ⟨ud ++ ut, un, dateTimeFields d timed {}, (List.append_assoc ..).symm, ?_,
      un, [], notes, (List.append_nil un).symm, hnotes, rfl, rfl⟩
    rcases ht with ⟨rfl, rfl⟩ | ⟨t, rfl, w, v, _, rfl, hw, hv⟩
    · refine .inl (derives_require_bind.mpr ⟨?_, ud, [], d, rfl, hd, rfl, rfl⟩)
      by_contra h
      exact hrequired ⟨Bool.not_eq_false _ ▸ h, rfl⟩
    · exact .inr ⟨ud, _, d, rfl, hd, w, v, (), rfl, hw, v, [], t, (List.append_nil v).symm, hv, rfl, rfl⟩
  · rintro ⟨_, _, p, rfl, hp, un, _, notes, rfl, hnotes, rfl, rfl⟩
    rw [List.append_nil]
    rcases hp with hp | ⟨ud, _, d, rfl, hd, w, _, _, rfl, hw, v, _, t, rfl, hv, rfl, rfl⟩
    · obtain ⟨rfl, ud, _, d, rfl, hd, rfl, rfl⟩ := derives_require_bind.mp hp
      rw [List.append_nil]
      exact ⟨ud, [], un, d, none, notes, rfl, hd, .inl ⟨rfl, rfl⟩, by simp, by simp, hnotes, rfl⟩
    · rw [List.append_nil]
      exact ⟨ud, w ++ v, un, d, some t, notes, List.append_assoc .., hd,
        .inr ⟨t, rfl, w, v, (), rfl, hw, hv⟩, by simp, by simp, hnotes, rfl⟩

theorem timeAndOffset_iff {allowZ : Bool} {u : Text} {t : TimeRecord × OffsetPart} :
    ((Productions.timeAndOffset allowZ).derives u t ∧ ¬ (t.2.z = false ∧ t.2.text = [])) ↔
      ∃ v w, u = v ++ w ∧ Productions.time.derives v t.1 ∧
        (Productions.dateTimeUtcOffset allowZ).derives w t.2 := by
  constructor
  · rintro ⟨⟨v, _, t, rfl, ht, w, _, o, rfl, ho, rfl, rfl⟩, hsome⟩
    rw [List.append_nil]
    rcases ho with ⟨-, rfl⟩ | ⟨o, rfl, ho⟩
    · exact absurd ⟨rfl, rfl⟩ hsome
    · exact ⟨v, w, rfl, ht, ho⟩
  · rintro ⟨v, w, rfl, ht, ho⟩
    refine ⟨⟨v, w, t.1, rfl, ht, w, [], some t.2, (List.append_nil w).symm, .inr ⟨_, rfl, ho⟩, rfl, rfl⟩, ?_⟩
    rintro ⟨hz, htext⟩
    rcases ho with ho | ⟨v, _, ⟨_, ns⟩, rfl, ⟨rfl, hns⟩, rfl, heq⟩
    · obtain ⟨-, _, _, _, rfl, -, rfl, heq⟩ := derives_require_bind.mp ho
      rw [heq] at hz
      cases hz
    · obtain ⟨b, w, rfl, -⟩ := utcOffset_sign hns
      rw [heq] at htext
      cases htext

theorem reads_temporalInstantString :
    Reads (annotatedDateTime false true true) Productions.temporalInstantString
      fun _ rest => rest = [] := by
  refine (reads_readDateTime false true true).congr fun u c => ?_
  rw [derives_readDateTime, Bool.false_or]
  constructor
  · rintro ⟨ud, ut, un, d, timed, notes, rfl, hd, ht, hrequired, hinstant, hnotes, rfl⟩
    rcases ht with ⟨-, rfl⟩ | ⟨t, rfl, w, v, _, rfl, hw, hv⟩
    · exact absurd ⟨rfl, rfl⟩ hrequired
    · obtain ⟨vt, vo, rfl, htime, hoffset⟩ := timeAndOffset_iff.mp ⟨hv, fun h => hinstant ⟨rfl, h⟩⟩
      exact ⟨_, un, _, (List.append_assoc ..).symm, ⟨ud, _, d, rfl, hd, w, _, (), rfl, hw, vt, _, t.1,
        rfl, htime, vo, [], t.2, (List.append_nil vo).symm, hoffset, rfl, rfl⟩,
        un, [], notes, (List.append_nil un).symm, hnotes, rfl, rfl⟩
  · rintro ⟨_, _, p, rfl, ⟨ud, _, d, rfl, hd, w, _, _, rfl, hw, vt, _, t, rfl, htime, vo, _, o, rfl,
      hoffset, rfl, rfl⟩, un, _, notes, rfl, hnotes, rfl, rfl⟩
    obtain ⟨hv, hsome⟩ := (@timeAndOffset_iff true (vt ++ vo) (t, o)).mpr ⟨vt, vo, rfl, htime, hoffset⟩
    rw [List.append_nil, List.append_nil]
    exact ⟨ud, w ++ (vt ++ vo), un, d, some (t, o), notes, List.append_assoc .., hd,
      .inr ⟨(t, o), rfl, w, _, (), rfl, hw, hv⟩, by simp, fun h => hsome h.2, hnotes, rfl⟩

/-! ## Times on their own -/

theorem reads_whole {p : Reader UInt8 β} {N : Grammar UInt8 β} {F : β → Text → Prop}
    (h : Reads p N F) {b : β} (hF : F b []) {t : Text} : p t = some (b, []) ↔ N.derives t b := by
  rw [h b t [] hF]
  constructor
  · rintro ⟨u, rfl, hu⟩
    rwa [List.append_nil]
  · intro ht
    exact ⟨t, (List.append_nil t).symm, ht⟩

theorem any_isEmpty_iff {p : Reader UInt8 β} {N : Grammar UInt8 β} (h : Reads p N fun _ _ => True)
    {t : Text} : ((p t).any fun r => r.2.isEmpty) = true ↔ Productions.Derivable N t := by
  constructor
  · intro hany
    obtain ⟨⟨b, rest⟩, hp, hrest⟩ := (Option.any_eq_true _ _).mp hany
    obtain rfl : rest = [] := List.isEmpty_iff.mp hrest
    exact ⟨b, (reads_whole h trivial).mp hp⟩
  · rintro ⟨b, hb⟩
    rw [(reads_whole h trivial).mpr hb]
    rfl

theorem isMonthDayOrYearMonth_iff (t : Text) : isMonthDayOrYearMonth t = true ↔
    Productions.Derivable Productions.dateSpecMonthDay t ∨
      Productions.Derivable Productions.dateSpecYearMonth t := by
  rw [isMonthDayOrYearMonth, Bool.or_eq_true, any_isEmpty_iff reads_dateSpecMonthDay,
    any_isEmpty_iff reads_dateSpecYearMonth]

/-- A designator that may be missing. -/
def designator : Grammar UInt8 Bool :=
  ⟨fun u v => (v = true ∧ (Productions.letter (ch 'T')).derives u ()) ∨ (v = false ∧ u = [])⟩

theorem reads_designator : Reads (eatLetter (ch 'T')) designator
    fun eaten rest => eaten = false → Stops (fun b => b == ch 'T' || b == ch 't') rest := by
  intro eaten t rest hrest
  rw [eatLetter]
  constructor
  · intro h
    split_ifs at h with ht
    · cases h
      obtain _ | ⟨c, t⟩ := t
      · exact absurd ht (by decide)
      · exact ⟨[c], rfl, .inl ⟨rfl, ht.imp (congrArg (fun b => [b])) (congrArg (fun b => [b]))⟩⟩
    · cases h
      exact ⟨[], rfl, .inr ⟨rfl, rfl⟩⟩
  · rintro ⟨u, rfl, ⟨rfl, rfl | rfl⟩ | ⟨rfl, rfl⟩⟩
    · rfl
    · rfl
    · have hlower : ch 'T' + 0x20 = ch 't' := by decide
      rw [List.nil_append, if_neg]
      rintro (h | h)
      · exact (hrest rfl).headD_ne (by decide) (by decide) h
      · exact (hrest rfl).headD_ne (b := ch 't') (by decide) (by decide) (h.trans hlower)

theorem stops_time {u rest : Text} {t : TimeRecord} (hu : Productions.time.derives u t)
    {p : UInt8 → Bool} (hp : ∀ b, isAsciiDigit b = true → p b = false) : Stops p (u ++ rest) := by
  obtain ⟨v, _, c, rfl, hc, rfl, -⟩ := hu
  obtain ⟨e, hc⟩ : ∃ e, (Productions.clockSpec true 60 e).derives v c :=
    hc.elim (⟨true, ·⟩) (⟨false, ·⟩)
  rw [List.append_nil]
  rcases derives_clockSpec.mp hc with ⟨h, hh, -⟩ | ⟨uh, um, h, m, rfl, hh, -⟩ |
    ⟨-, uh, um, us, uf, h, m, s, f, rfl, hh, -⟩
  · exact stops_of_digits (derives_hour hh).2 hp
  · rw [List.append_assoc]
    exact stops_of_digits (derives_hour hh).2 hp
  · rw [List.append_assoc]
    exact stops_of_digits (derives_hour hh).2 hp

theorem reads_annotatedTime :
    Reads annotatedTime Productions.annotatedTime fun _ rest => rest = [] := by
  have hread : Reads annotatedTime
      (designator >>= fun designated => captured (Productions.timeAndOffset false) >>= fun x =>
        require (¬ (designated = false ∧ isMonthDayOrYearMonth x.1 = true)) >>= fun _ =>
        Productions.annotated false >>= fun notes =>
        pure { time := some x.2.1, offset := x.2.2, notes }) fun _ rest => rest = [] := by
    refine reads_designator.bind (fun designated => (reads_withText (reads_timeAndOffset false)).bind
      (fun x => (Reads.guarded _).bind_of_true fun _ => (reads_annotations false).map fun _ _ h => h)
      ?_) ?_
    · rintro x u c _ hu rfl
      obtain ⟨-, v, _, notes, rfl, hnotes, rfl, -⟩ := derives_require_bind.mp hu
      rw [List.append_nil, List.append_nil]
      exact stops_annotated hnotes
    · rintro designated u c rest ⟨_, w, ⟨_, _⟩, rfl, ⟨rfl, v, _, t, hsplit, ht, -⟩, -⟩ - -
      rw [hsplit, List.append_assoc, List.append_assoc]
      refine stops_time ht fun b hb => ?_
      rw [Bool.or_eq_false_iff]
      exact ⟨eq_false_of_digit (by decide) hb, eq_false_of_digit (by decide) hb⟩
  refine hread.congr fun u c => ?_
  constructor
  · rintro ⟨ud, _, designated, rfl, hd, v, w, ⟨_, t⟩, rfl, ⟨rfl, ht⟩, hw⟩
    obtain ⟨hearly, un, _, notes, rfl, hnotes, rfl, rfl⟩ := derives_require_bind.mp hw
    dsimp only at ht hearly ⊢
    rw [List.append_nil]
    rcases hd with ⟨rfl, hd⟩ | ⟨rfl, rfl⟩
    · exact ⟨ud ++ v, un, { time := some t.1, offset := t.2 }, (List.append_assoc ..).symm,
        .inl ⟨ud, v, (), rfl, hd, v, [], t, (List.append_nil v).symm, ht, rfl, rfl⟩,
        un, [], notes, (List.append_nil un).symm, hnotes, rfl, rfl⟩
    · rw [isMonthDayOrYearMonth_iff] at hearly
      refine ⟨v, un, { time := some t.1, offset := t.2 }, rfl, .inr ⟨v, [], (v, t),
        (List.append_nil v).symm, ⟨rfl, ht⟩, derives_require_bind.mpr ⟨?_, rfl, rfl⟩⟩,
        un, [], notes, (List.append_nil un).symm, hnotes, rfl, rfl⟩
      exact not_or.mp fun h => hearly ⟨rfl, h⟩
  · rintro ⟨_, _, p, rfl, hp, un, _, notes, rfl, hnotes, rfl, rfl⟩
    rw [List.append_nil]
    rcases hp with ⟨ud, _, _, rfl, hd, v, _, t, rfl, ht, rfl, rfl⟩ |
      ⟨_, w, ⟨_, t⟩, rfl, ⟨rfl, ht⟩, hw⟩
    · rw [List.append_nil, List.append_assoc]
      exact ⟨ud, _, true, rfl, .inl ⟨rfl, hd⟩, v, un, (v, t), rfl, ⟨rfl, ht⟩,
        derives_require_bind.mpr ⟨by simp, un, [], notes, (List.append_nil un).symm, hnotes, rfl, rfl⟩⟩
    · obtain ⟨hearly, rfl, rfl⟩ := derives_require_bind.mp hw
      rw [List.append_nil]
      refine ⟨[], _, false, rfl, .inr ⟨rfl, rfl⟩, _, un, (_, t), rfl, ⟨rfl, ht⟩,
        derives_require_bind.mpr ⟨?_, un, [], notes, (List.append_nil un).symm, hnotes, rfl, rfl⟩⟩
      rintro ⟨-, h⟩
      exact not_or.mpr hearly ((isMonthDayOrYearMonth_iff _).mp h)

theorem reads_annotatedDate {bare : Reader UInt8 DateFields} {N : Grammar UInt8 DateFields}
    (h : Reads bare N fun _ _ => True) :
    Reads (annotatedDate bare) (Productions.annotatedDate N) fun _ rest => rest = [] := by
  have hread : Reads (annotatedDate bare) (N >>= fun d => Productions.annotated false >>= fun notes =>
      pure { date := d, notes }) fun _ rest => rest = [] :=
    h.bind_of_true fun d => (reads_annotations false).map fun _ _ h => h
  refine hread.congr fun u c => ?_
  constructor
  · rintro ⟨v, w, d, rfl, hd, hw⟩
    exact ⟨v, w, { date := d }, rfl, ⟨v, [], d, (List.append_nil v).symm, hd, rfl, rfl⟩, hw⟩
  · rintro ⟨_, w, _, rfl, ⟨v, _, d, rfl, hd, rfl, rfl⟩, hw⟩
    rw [List.append_nil]
    exact ⟨v, w, d, rfl, hd, hw⟩

/-! ## Which production a text is of -/

/-- The bytes of a date. -/
def isDateByte (b : UInt8) : Bool := isAsciiDigit b || isSign b

/-- The bytes of a time and its offset. -/
def isTimeByte (b : UInt8) : Bool := isClockByte b || isSign b

theorem length_le_of_append {u v r s : Text} {p : UInt8 → Bool} (h : u ++ r = v ++ s)
    (hr : Stops isNoBracket r) (hv : ∀ b ∈ v, p b = true) (hp : p (ch '[') = false) :
    v.length ≤ u.length := by
  rcases List.append_eq_append_iff.mp h with ⟨w, rfl, rfl⟩ | ⟨w, rfl, rfl⟩
  · obtain _ | ⟨b, w⟩ := w
    · rw [List.append_nil]
    · have hb := hv b (List.mem_append_right u List.mem_cons_self)
      exact absurd (hb.symm.trans (stops_cons.mp (hr.of_noBracket hp))) Bool.false_ne_true.symm
  · rw [List.length_append]
    exact Nat.le_add_right _ _

theorem digits_word {count v : ℕ} {u : Text} (hu : (Productions.decimalDigits count).derives u v)
    {p : UInt8 → Bool} (hp : ∀ b, isAsciiDigit b = true → p b = true) :
    u.length = count ∧ ∀ b ∈ u, p b = true :=
  ⟨hu.1.1, fun b hb => hp b (hu.1.2 b hb)⟩

theorem dateYear_word {u : Text} {y : ℤ} (hu : Productions.dateYear.derives u y) :
    4 ≤ u.length ∧ ∀ b ∈ u, isDateByte b = true := by
  rcases hu with ⟨v, _, n, rfl, hn, rfl, -⟩ | ⟨us, w, s, rfl, hs, v, _, n, rfl, hn, hw⟩
  · obtain ⟨hlength, hbytes⟩ := digits_word hn fun b hb => show isDateByte b = true by
      simp [isDateByte, hb]
    rw [List.append_nil]
    exact ⟨hlength.ge, hbytes⟩
  · obtain ⟨-, rfl, -⟩ := derives_require_bind.mp hw
    obtain ⟨hlength, hbytes⟩ := digits_word hn fun b hb => show isDateByte b = true by
      simp [isDateByte, hb]
    rw [List.append_nil]
    refine ⟨by rw [List.length_append]; omega, ?_⟩
    rintro b hb
    rcases List.mem_append.mp hb with hb | hb
    · rcases hs with ⟨rfl, -⟩ | ⟨rfl, -⟩
      · rw [List.mem_singleton.mp hb]
        decide
      · rw [List.mem_singleton.mp hb]
        decide
    · exact hbytes b hb

/-- The separator of a date. -/
def dash (extended : Bool) : Text := if extended then [ch '-'] else []

theorem exists_date_parts {u : Text} {d : DateFields} (hu : Productions.date.derives u d) :
    ∃ e uy um ud y m dd, u = uy ++ (dash e ++ (um ++ (dash e ++ ud))) ∧
      Productions.dateYear.derives uy y ∧ Productions.dateMonth.derives um m ∧
      Productions.dateDay.derives ud dd := by
  obtain ⟨e, hu⟩ : ∃ e, (Productions.dateSpec e).derives u d := hu.elim (⟨true, ·⟩) (⟨false, ·⟩)
  obtain ⟨uy, _, y, rfl, hy, _, _, _, rfl, rfl, um, _, m, rfl, hm, _, _, _, rfl, rfl,
    ud, _, dd, rfl, hd, hw⟩ := hu
  obtain ⟨-, rfl, -⟩ := derives_require_bind.mp hw
  exact ⟨e, uy, um, ud, y, m, dd, by rw [List.append_nil]; rfl, hy, hm, hd⟩

theorem isDateByte_of_digit {b : UInt8} (hb : isAsciiDigit b = true) : isDateByte b = true := by
  simp [isDateByte, hb]

theorem dash_word (e : Bool) : ∀ b ∈ dash e, isDateByte b = true := by
  cases e with
  | true => simp [dash, show isDateByte (ch '-') = true by decide]
  | false => simp [dash]

theorem date_word {u : Text} {d : DateFields} (hu : Productions.date.derives u d) :
    8 ≤ u.length ∧ ∀ b ∈ u, isDateByte b = true := by
  obtain ⟨e, uy, um, ud, y, m, dd, rfl, hy, hm, hd⟩ := exists_date_parts hu
  obtain ⟨hylength, hybytes⟩ := dateYear_word hy
  obtain ⟨-, -, n, hn⟩ := derives_dateMonth hm
  obtain ⟨-, -, n', hn'⟩ := derives_dateDay hd
  obtain ⟨hmlength, hmbytes⟩ := digits_word hn fun _ => isDateByte_of_digit
  obtain ⟨hdlength, hdbytes⟩ := digits_word hn' fun _ => isDateByte_of_digit
  refine ⟨by simp only [List.length_append]; omega, fun b hb => ?_⟩
  simp only [List.mem_append] at hb
  rcases hb with hb | hb | hb | hb | hb
  · exact hybytes b hb
  · exact dash_word e b hb
  · exact hmbytes b hb
  · exact dash_word e b hb
  · exact hdbytes b hb

/-- A month-day has seven bytes at most, each a digit or a sign. -/
theorem dateSpecMonthDay_word {u : Text} {d : DateFields}
    (hu : Productions.dateSpecMonthDay.derives u d) :
    u.length ≤ 7 ∧ ∀ b ∈ u, isDateByte b = true := by
  obtain ⟨e, uh, _, _, rfl, hh, um, _, m, rfl, hm, _, _, _, rfl, rfl, ud, _, dd, rfl, hd, hw⟩ :
      ∃ e : Bool, (alt (literal (ascii "--")) (literal []) >>= fun _ => Productions.dateMonth >>= fun m =>
        Productions.separator e (ch '-') >>= fun _ => Productions.dateDay >>= fun d =>
        require (d ≤ isoDaysInMonth 1972 m) >>= fun _ =>
        (pure { year := none, month := m, day := d, hasDay := true } : Grammar UInt8 DateFields)).derives
          u d := hu.elim (⟨true, ·⟩) (⟨false, ·⟩)
  obtain ⟨-, rfl, -⟩ := derives_require_bind.mp hw
  obtain ⟨-, -, n, hn⟩ := derives_dateMonth hm
  obtain ⟨-, -, n', hn'⟩ := derives_dateDay hd
  obtain ⟨hmonth, hmbytes⟩ := digits_word hn fun _ => isDateByte_of_digit
  obtain ⟨hday, hdbytes⟩ := digits_word hn' fun _ => isDateByte_of_digit
  have hdash : (dash e).length ≤ 1 := by cases e <;> simp [dash]
  have hdashes : uh.length ≤ 2 ∧ ∀ b ∈ uh, isDateByte b = true := by
    have hbytes : (ascii "--").all isDateByte = true := by decide
    rcases hh with rfl | rfl
    · exact ⟨by decide, List.all_eq_true.mp hbytes⟩
    · exact ⟨Nat.zero_le 2, fun _ h => absurd h List.not_mem_nil⟩
  constructor
  · have hsplit : (if e = true then [ch '-'] else []).length = (dash e).length := rfl
    simp only [List.length_append, List.length_nil, hsplit]
    omega
  · intro b hb
    rw [List.append_nil] at hb
    simp only [List.mem_append] at hb
    rcases hb with hb | hb | hb | hb
    · exact hdashes.2 b hb
    · exact hmbytes b hb
    · exact dash_word e b hb
    · exact hdbytes b hb

theorem dateSpecYearMonth_word {u : Text} {d : DateFields}
    (hu : Productions.dateSpecYearMonth.derives u d) : ∀ b ∈ u, isDateByte b = true := by
  obtain ⟨e, uy, _, y, rfl, hy, _, _, _, rfl, rfl, um, _, m, rfl, hm, rfl, -⟩ :
      ∃ e : Bool, (Productions.dateYear >>= fun y => Productions.separator e (ch '-') >>= fun _ =>
        Productions.dateMonth >>= fun m =>
        (pure { year := some y, month := m, day := 1, hasDay := false } : Grammar UInt8 DateFields)).derives
          u d := hu.elim (⟨true, ·⟩) (⟨false, ·⟩)
  obtain ⟨-, -, n, hn⟩ := derives_dateMonth hm
  intro b hb
  rw [List.append_nil] at hb
  simp only [List.mem_append] at hb
  rcases hb with hb | hb | hb
  · exact (dateYear_word hy).2 b hb
  · exact dash_word e b hb
  · exact (digits_word hn fun _ => isDateByte_of_digit).2 b hb

theorem exists_annotatedDateTime {zoned timeRequired : Bool} {t : Text} {p : Parsed}
    (ht : (Productions.annotatedDateTime zoned timeRequired).derives t p) :
    ∃ u w d, t = u ++ w ∧ Productions.date.derives u d ∧
      (timeRequired = true → ∃ s v, w = s :: v ∧ isTimeByte s = false ∧ s ≠ ch '[') := by
  rw [← (reads_whole (reads_annotatedDateTime zoned timeRequired) rfl),
    reads_whole (reads_readDateTime zoned timeRequired false) rfl] at ht
  obtain ⟨ud, ut, un, d, timed, notes, rfl, hd, ht, hrequired, -⟩ := derives_readDateTime.mp ht
  refine ⟨ud, ut ++ un, d, rfl, hd, fun hreq => ?_⟩
  rcases ht with ⟨-, rfl⟩ | ⟨t, rfl, w, v, _, rfl, hw, -⟩
  · exact absurd ⟨hreq, rfl⟩ hrequired
  · rcases hw with rfl | rfl | rfl
    · exact ⟨ch ' ', v ++ un, rfl, by decide, by decide⟩
    · exact ⟨ch 'T', v ++ un, rfl, by decide, by decide⟩
    · exact ⟨ch 'T' + 0x20, v ++ un, rfl, by decide, by decide⟩

theorem exists_annotatedDate {N : Grammar UInt8 DateFields} {t : Text} {p : Parsed}
    (ht : (Productions.annotatedDate N).derives t p) :
    ∃ u w d, t = u ++ w ∧ N.derives u d ∧ Stops isNoBracket w := by
  obtain ⟨_, w, _, rfl, ⟨u, _, d, rfl, hd, rfl, -⟩, v, _, notes, rfl, hnotes, rfl, -⟩ := ht
  rw [List.append_nil, List.append_nil]
  exact ⟨u, v, d, rfl, hd, stops_annotated hnotes⟩

theorem monthDay_exclusive {t : Text} {p q : Parsed} {zoned timeRequired : Bool}
    (hp : (Productions.annotatedDate Productions.dateSpecMonthDay).derives t p) :
    ¬ (Productions.annotatedDateTime zoned timeRequired).derives t q := by
  intro hq
  obtain ⟨u, w, d, rfl, hd, hw⟩ := exists_annotatedDate hp
  obtain ⟨v, x, d', heq, hd', -⟩ := exists_annotatedDateTime hq
  have hle := length_le_of_append heq hw (date_word hd').2 (by decide)
  have hshort := (dateSpecMonthDay_word hd).1
  have hlong := (date_word hd').1
  omega

/-- No text is both a year-month and a date-time: after the year and the month of a date there is
still its day. -/
theorem yearMonth_exclusive {t : Text} {p q : Parsed} {zoned timeRequired : Bool}
    (hp : (Productions.annotatedDate Productions.dateSpecYearMonth).derives t p) :
    ¬ (Productions.annotatedDateTime zoned timeRequired).derives t q := by
  intro hq
  obtain ⟨u, w, d, rfl, hd, hw⟩ := exists_annotatedDate hp
  obtain ⟨_, x, d', heq, hd', -⟩ := exists_annotatedDateTime hq
  obtain ⟨e, uy, um, ud, y, m, dd, rfl, hy, hm, hday⟩ := exists_date_parts hd'
  have hread : dateSpecYearMonth (u ++ w) = some (d, w) := reads_dateSpecYearMonth.apply hd trivial
  have hword : Productions.dateSpecYearMonth.derives (uy ++ (dash e ++ um))
      { year := some y, month := m, day := 1, hasDay := false } := by
    cases e with
    | true => exact .inl ⟨uy, _, y, rfl, hy, _, _, (), rfl, rfl, um, [], m, (List.append_nil um).symm, hm, rfl, rfl⟩
    | false => exact .inr ⟨uy, _, y, rfl, hy, _, _, (), rfl, rfl, um, [], m, (List.append_nil um).symm, hm, rfl, rfl⟩
  have hassoc : uy ++ (dash e ++ (um ++ (dash e ++ ud))) ++ x =
      uy ++ (dash e ++ um) ++ (dash e ++ (ud ++ x)) := by simp
  rw [heq, hassoc, reads_dateSpecYearMonth.apply hword trivial] at hread
  obtain ⟨-, rfl⟩ := Prod.mk.inj (Option.some.inj hread)
  cases e with
  | true => exact absurd (stops_cons.mp hw) (by decide)
  | false =>
    obtain ⟨-, -, n, ⟨hlength, hdigits⟩, -⟩ := derives_dateDay hday
    obtain _ | ⟨b, ud⟩ := ud
    · cases hlength
    · have hnext : Stops isNoBracket (b :: (ud ++ x)) := hw
      have hb : b = ch '[' := by
        have hnot := stops_cons.mp hnext
        rwa [isNoBracket, bne_eq_false_iff_eq] at hnot
      rw [hb] at hdigits
      exact absurd (hdigits _ List.mem_cons_self) (by decide)

/-- The bytes of a clock. -/
theorem clock_word {subMinute : Bool} {highest : ℕ} {u : Text} {c : Clock}
    (hu : (Productions.either (Productions.clockSpec subMinute highest)).derives u c) :
    ∀ b ∈ u, isTimeByte b = true := by
  have hdigit : ∀ b, isAsciiDigit b = true → isTimeByte b = true := fun b hb => by
    simp [isTimeByte, isClockByte, hb]
  have hcolon : ∀ e, ∀ b ∈ colon e, isTimeByte b = true := fun e => by
    cases e <;> simp [colon, show isTimeByte (ch ':') = true by decide]
  obtain ⟨e, hu⟩ : ∃ e, (Productions.clockSpec subMinute highest e).derives u c :=
    hu.elim (⟨true, ·⟩) (⟨false, ·⟩)
  intro b hb
  rcases derives_clockSpec.mp hu with ⟨h, hh, -⟩ | ⟨uh, um, h, m, rfl, hh, hm, -⟩ |
    ⟨-, uh, um, us, uf, h, m, s, f, rfl, hh, hm, hs, hf, -⟩
  · exact (digits_word (derives_hour hh).2 hdigit).2 b hb
  · simp only [List.mem_append] at hb
    rcases hb with hb | hb | hb
    · exact (digits_word (derives_hour hh).2 hdigit).2 b hb
    · exact hcolon e b hb
    · exact (digits_word (derives_minuteSecond hm).2 hdigit).2 b hb
  · simp only [List.mem_append] at hb
    rcases hb with hb | hb | hb | hb | hb | hb
    · exact (digits_word (derives_hour hh).2 hdigit).2 b hb
    · exact hcolon e b hb
    · exact (digits_word (derives_minuteSecond hm).2 hdigit).2 b hb
    · exact hcolon e b hb
    · exact (digits_word (derives_minuteSecond hs).2 hdigit).2 b hb
    · rcases hf with ⟨rfl, -⟩ | ⟨f, -, point, _, _, rfl, hpoint, rfl, -, hdigits⟩
      · cases hb
      · rcases List.mem_append.mp hb with hb | hb
        · rcases hpoint with rfl | rfl
          · rw [List.mem_singleton.mp hb]
            decide
          · rw [List.mem_singleton.mp hb]
            decide
        · exact hdigit b (hdigits b hb)

theorem timeAndOffset_word {u : Text} {t : TimeRecord × OffsetPart}
    (hu : (Productions.timeAndOffset false).derives u t) : ∀ b ∈ u, isTimeByte b = true := by
  obtain ⟨_, _, t, rfl, ⟨v, _, c, rfl, hc, rfl, -⟩, w, _, o, rfl, ho, rfl, -⟩ := hu
  rw [List.append_nil, List.append_nil]
  intro b hb
  rcases List.mem_append.mp hb with hb | hb
  · exact clock_word hc b hb
  · rcases ho with ⟨rfl, -⟩ | ⟨o, -, ho | ⟨v, _, ⟨_, ns⟩, rfl, ⟨rfl, hns⟩, rfl, -⟩⟩
    · cases hb
    · exact absurd (derives_require_bind.mp ho).1 Bool.false_ne_true
    · obtain ⟨us, _, s, hsplit, hs, uc, _, c, rfl, hc, rfl, -⟩ := hns
      rw [List.append_nil] at hb hsplit
      rw [hsplit] at hb
      rcases List.mem_append.mp hb with hb | hb
      · rcases hs with ⟨rfl, -⟩ | ⟨rfl, -⟩
        · rw [List.mem_singleton.mp hb]
          decide
        · rw [List.mem_singleton.mp hb]
          decide
      · exact clock_word hc b hb

/-- No text is both a time on its own and a date-time. -/
theorem time_exclusive {t : Text} {p q : Parsed} {zoned : Bool}
    (hp : Productions.annotatedTime.derives t p) :
    ¬ (Productions.annotatedDateTime zoned true).derives t q := by
  intro hq
  obtain ⟨u, _, d, rfl, hd, hseparator⟩ := exists_annotatedDateTime hq
  obtain ⟨s, v, rfl, hs, hbracket⟩ := hseparator rfl
  obtain ⟨hlength, hdate⟩ := date_word hd
  obtain ⟨ut, _, p, heq, hp, w, _, notes, rfl, hnotes, rfl, -⟩ := hp
  rw [List.append_nil] at heq
  have hw := stops_annotated hnotes
  rcases hp with ⟨uT, _, _, rfl, hT, -⟩ | ⟨_, _, ⟨_, t⟩, rfl, ⟨rfl, ht⟩, hx⟩
  · -- a date does not begin with the designator
    obtain _ | ⟨b, u⟩ := u
    · cases hlength
    · have hb := hdate b List.mem_cons_self
      rcases hT with rfl | rfl
      · rw [(List.cons.inj heq).1] at hb
        exact absurd hb (by decide)
      · rw [(List.cons.inj heq).1] at hb
        exact absurd hb (by decide)
  · -- the separator of the date-time is neither in the time nor in what follows it
    obtain ⟨-, rfl, -⟩ := derives_require_bind.mp hx
    have htime := timeAndOffset_word ht
    rw [List.append_nil] at heq
    have hle := length_le_of_append heq.symm hw hdate (by decide)
    have hnext : ∀ z, w ≠ s :: z := by
      rintro z rfl
      have hnot := stops_cons.mp hw
      rw [isNoBracket, bne_eq_false_iff_eq] at hnot
      exact hbracket hnot
    rcases List.append_eq_append_iff.mp heq with ⟨x, rfl, hsplit⟩ | ⟨x, rfl, hsplit⟩
    · obtain _ | ⟨b, x⟩ := x
      · exact hnext v hsplit.symm
      · obtain ⟨rfl, -⟩ := List.cons.inj hsplit
        have hb := htime s (List.mem_append_right u List.mem_cons_self)
        exact Bool.false_ne_true (hs.symm.trans hb)
    · obtain _ | ⟨b, x⟩ := x
      · exact hnext v hsplit
      · rw [List.length_append, List.length_cons] at hle
        omega

/-! ## Goals -/

theorem whole_eq_some {production : Reader UInt8 Parsed} {t : Text} {p : Parsed} :
    whole production t = some p ↔ production t = some (p, []) := by
  rw [whole]
  constructor
  · intro h
    split at h
    · next hread =>
      cases h
      exact hread
    · cases h
  · intro h
    rw [h]

theorem or_whole_eq_some {first second : Reader UInt8 Parsed} {N M : Grammar UInt8 Parsed}
    (hN : Reads first N fun _ rest => rest = []) (hM : Reads second M fun _ rest => rest = [])
    (hexclusive : ∀ t p q, N.derives t p → ¬ M.derives t q) {t : Text} {p : Parsed} :
    (whole first t).or (whole second t) = some p ↔ (alt N M).derives t p := by
  have hfirst : ∀ p, whole first t = some p ↔ N.derives t p := fun p =>
    whole_eq_some.trans (reads_whole hN rfl)
  have hsecond : ∀ p, whole second t = some p ↔ M.derives t p := fun p =>
    whole_eq_some.trans (reads_whole hM rfl)
  rw [Option.or_eq_some_iff, hfirst, hsecond]
  refine or_congr Iff.rfl ⟨And.right, fun h => ⟨?_, h⟩⟩
  cases hcase : whole first t with
  | none => rfl
  | some q => exact absurd h (hexclusive t q p ((hfirst q).mp hcase))

/-- The parser of a goal recognises the goal. -/
theorem parseGoal_eq_some {t : Text} {g : Goal} {p : Parsed} :
    parseGoal t g = some p ↔ (Productions.goal g).derives t p := by
  cases g with
  | dateTimeZoned => exact whole_eq_some.trans (reads_whole (reads_annotatedDateTime true false) rfl)
  | dateTime => exact whole_eq_some.trans (reads_whole (reads_annotatedDateTime false false) rfl)
  | instant => exact whole_eq_some.trans (reads_whole reads_temporalInstantString rfl)
  | time =>
    exact or_whole_eq_some reads_annotatedTime (reads_annotatedDateTime false true)
      fun _ _ _ => time_exclusive
  | monthDay =>
    exact or_whole_eq_some (reads_annotatedDate reads_dateSpecMonthDay)
      (reads_annotatedDateTime false false) fun _ _ _ => monthDay_exclusive
  | yearMonth =>
    exact or_whole_eq_some (reads_annotatedDate reads_dateSpecYearMonth)
      (reads_annotatedDateTime false false) fun _ _ _ => yearMonth_exclusive

/-- The parser of offsets recognises them. -/
theorem parseUtcOffset_eq_some {t : Text} {subMinute : Bool} {ns : ℤ} :
    parseUtcOffset t subMinute = some ns ↔ (Productions.utcOffset subMinute).derives t ns := by
  rw [← reads_whole (reads_utcOffset subMinute) (stops_nil _), parseUtcOffset]
  constructor
  · intro h
    split at h
    · next hread =>
      cases h
      exact hread
    · cases h
  · intro h
    rw [h]

end CtBrowser.Script.Temporal
