import CtBrowser.Script.Temporal.TimeReading

/-!
# Reading Annotations

What stands in brackets after a date or a time. A time zone and an annotation both begin with a
bracket, and only the equals sign tells them apart: the reader of a time zone has to fail on an
annotation.

## Main results

- `reads_timeZoneIdentifier` — offsets and names of time zones.
- `reads_annotationItem` — one annotation.
- `reads_annotations` — all that is at the end of a text.
-/

namespace CtBrowser.Script.Temporal

open Foundations.Reading Foundations.Reading.Grammar

variable {β : Type}

theorem reads_withText {p : Reader UInt8 β} {N : Grammar UInt8 β} {F : β → Text → Prop}
    (h : Reads p N F) : Reads (withText p) (captured N) fun b rest => F b.2 rest := by
  rintro ⟨v, b⟩ t rest hrest
  rw [withText]
  constructor
  · intro hread
    obtain ⟨⟨b', rest'⟩, hp, heq⟩ := Option.map_eq_some_iff.mp hread
    cases heq
    obtain ⟨u, rfl, hu⟩ := (h b t rest hrest).mp hp
    have htake : (u ++ rest).take ((u ++ rest).length - rest.length) = u := by
      rw [List.length_append, Nat.add_sub_cancel, List.take_left']
      rfl
    exact ⟨u, rfl, htake.symm, hu⟩
  · rintro ⟨u, rfl, rfl, hu⟩
    rw [h.apply hu hrest, Option.map_some]
    dsimp only
    rw [List.length_append, Nat.add_sub_cancel, List.take_left' rfl]

/-! ## Time zones -/

/-- The bytes that a time zone could go on with. -/
def isZoneByte (b : UInt8) : Bool := isClockByte b || isTzChar b || b == ch '/'

/-- What may come after the first letter of a component of a name. -/
def NameTail (u : Text) : Prop :=
  ∃ (c : Text) (parts : List Text), (∀ x ∈ c, isTzChar x = true) ∧
    (∀ d ∈ parts, Productions.LeadThen isTzLeadingChar isTzChar d) ∧
    u = c ++ parts.flatMap (ch '/' :: ·)

theorem NameTail.nil : NameTail [] := ⟨[], [], by simp, by simp, rfl⟩

theorem NameTail.cons {b : UInt8} {u : Text} (hb : isTzChar b = true) (hu : NameTail u) :
    NameTail (b :: u) := by
  obtain ⟨c, parts, hc, hparts, rfl⟩ := hu
  exact ⟨b :: c, parts, List.forall_mem_cons.mpr ⟨hb, hc⟩, hparts, rfl⟩

theorem NameTail.slash {b : UInt8} {u : Text} (hb : isTzLeadingChar b = true) (hu : NameTail u) :
    NameTail (ch '/' :: b :: u) := by
  obtain ⟨c, parts, hc, hparts, rfl⟩ := hu
  exact ⟨[], (b :: c) :: parts, by simp, List.forall_mem_cons.mpr ⟨⟨b, c, rfl, hb, hc⟩, hparts⟩, rfl⟩

/-- The bytes read are the rest of a name. -/
theorem exists_nameTail {t rest : Text} {x : Unit} (h : ianaNameFrom t = some (x, rest)) :
    ∃ u, t = u ++ rest ∧ NameTail u := by
  induction t using ianaNameFrom.induct with
  | case1 =>
    cases h
    exact ⟨[], rfl, .nil⟩
  | case2 b hb =>
    rw [ianaNameFrom, if_pos hb] at h
    cases h
    exact ⟨[b], rfl, NameTail.nil.cons hb⟩
  | case3 hb =>
    rw [ianaNameFrom, if_neg hb, if_pos rfl] at h
    cases h
  | case4 b hb hslash =>
    rw [ianaNameFrom, if_neg hb, if_neg hslash] at h
    cases h
    exact ⟨[], rfl, .nil⟩
  | case5 b lead c hb ih =>
    rw [ianaNameFrom, if_pos hb] at h
    obtain ⟨u, hu, htail⟩ := ih h
    exact ⟨b :: u, congrArg (b :: ·) hu, htail.cons hb⟩
  | case6 lead c hlead hb ih =>
    rw [ianaNameFrom, if_neg hb, if_pos rfl, if_pos hlead] at h
    obtain ⟨u, rfl, htail⟩ := ih h
    exact ⟨ch '/' :: lead :: u, rfl, htail.slash hlead⟩
  | case7 lead c hlead hb =>
    rw [ianaNameFrom, if_neg hb, if_pos rfl, if_neg hlead] at h
    cases h
  | case8 b lead c hb hslash =>
    rw [ianaNameFrom, if_neg hb, if_neg hslash] at h
    cases h
    exact ⟨[], rfl, .nil⟩

theorem ianaNameFrom_cons {b : UInt8} {t : Text} (hb : isTzChar b = true) :
    ianaNameFrom (b :: t) = ianaNameFrom t := by
  cases t with
  | nil =>
    rw [ianaNameFrom]
    exact if_pos hb
  | cons lead c => rw [ianaNameFrom, if_pos hb]

theorem ianaNameFrom_slash {lead : UInt8} {t : Text} (hlead : isTzLeadingChar lead = true) :
    ianaNameFrom (ch '/' :: lead :: t) = ianaNameFrom t := by
  rw [ianaNameFrom, if_neg (by decide), if_pos rfl, if_pos hlead]

theorem ianaNameFrom_of_stops {rest : Text}
    (h : Stops (fun b => isTzChar b || b == ch '/') rest) :
    ianaNameFrom rest = some ((), rest) := by
  obtain _ | ⟨b, _ | ⟨lead, c⟩⟩ := rest
  · rfl
  · have hb := Bool.or_eq_false_iff.mp (stops_cons.mp h)
    rw [ianaNameFrom, if_neg (by simp [hb.1]), if_neg (beq_eq_false_iff_ne.mp hb.2)]
  · have hb := Bool.or_eq_false_iff.mp (stops_cons.mp h)
    rw [ianaNameFrom, if_neg (by simp [hb.1]), if_neg (beq_eq_false_iff_ne.mp hb.2)]

theorem ianaNameFrom_append {c rest : Text} (hc : ∀ x ∈ c, isTzChar x = true) :
    ianaNameFrom (c ++ rest) = ianaNameFrom rest := by
  induction c with
  | nil => rfl
  | cons b c ih =>
    rw [List.forall_mem_cons] at hc
    rw [List.cons_append, ianaNameFrom_cons hc.1, ih hc.2]

theorem ianaNameFrom_parts {parts : List Text} {rest : Text}
    (hparts : ∀ d ∈ parts, Productions.LeadThen isTzLeadingChar isTzChar d) :
    ianaNameFrom (parts.flatMap (ch '/' :: ·) ++ rest) = ianaNameFrom rest := by
  induction parts with
  | nil => rfl
  | cons d parts ih =>
    rw [List.forall_mem_cons] at hparts
    obtain ⟨b, c, rfl, hb, hc⟩ := hparts.1
    rw [List.flatMap_cons, List.append_assoc, List.cons_append, List.cons_append,
      ianaNameFrom_slash hb, ianaNameFrom_append hc, ih hparts.2]

theorem reads_ianaName : Reads ianaName (Productions.timeZoneIanaName >>= fun _ => pure ())
    fun _ rest => Stops (fun b => isTzChar b || b == ch '/') rest := by
  rintro ⟨⟩ t rest hrest
  constructor
  · intro h
    cases t with
    | nil => cases h
    | cons b t =>
      rw [ianaName] at h
      split_ifs at h with hb
      obtain ⟨u, rfl, c, parts, hc, hparts, rfl⟩ := exists_nameTail h
      refine ⟨b :: (c ++ parts.flatMap (ch '/' :: ·)), rfl, _, [], _, (List.append_nil _).symm,
        ⟨rfl, b :: c, parts, ⟨b, c, rfl, hb, hc⟩, hparts, rfl⟩, rfl, rfl⟩
  · rintro ⟨_, rfl, u, _, _, rfl, ⟨rfl, _, parts, ⟨b, c, rfl, hb, hc⟩, hparts, rfl⟩, rfl, -⟩
    rw [List.append_nil, List.cons_append, List.cons_append, ianaName, if_pos hb,
      List.append_assoc, ianaNameFrom_append hc, ianaNameFrom_parts hparts,
      ianaNameFrom_of_stops hrest]

theorem isTzLeadingChar_isSign {b : UInt8} (hb : isTzLeadingChar b = true) : isSign b = false := by
  rw [← Bool.not_eq_true, isSign_iff]
  rintro (rfl | rfl)
  · exact absurd hb (by decide)
  · exact absurd hb (by decide)

theorem reads_timeZoneIdentifier : Reads timeZoneIdentifier Productions.timeZoneIdentifier
    fun _ rest => Stops isZoneByte rest := by
  have hoffset : Reads (utcOffset false >>= fun _ => pure ()) _ fun _ rest => Stops isZoneByte rest :=
    (reads_utcOffset false).map fun _ rest h => h.weaken fun b hb => by simp [isZoneByte, hb]
  have hname := reads_ianaName.weaken fun (_ : Unit) (rest : Text) (h : Stops isZoneByte rest) =>
    h.weaken fun b hb => by
      rw [Bool.or_eq_true] at hb
      rcases hb with hb | hb <;> simp [isZoneByte, hb]
  have hreader : timeZoneIdentifier = fun c =>
      ((utcOffset false >>= fun _ => pure () : Reader UInt8 Unit) c).or (ianaName c) := by
    funext c
    rw [timeZoneIdentifier, Reader.bind_apply]
    cases utcOffset false c <;> rfl
  rw [hreader]
  refine hoffset.orElse hname ?_
  -- a name does not begin with a sign
  rintro _ _ rest ⟨_, _, _, rfl, ⟨rfl, _, parts, ⟨b, c, rfl, hb, hc⟩, hparts, rfl⟩, rfl, -⟩ -
  have hsign := isTzLeadingChar_isSign hb
  rw [← Bool.not_eq_true, isSign_iff, not_or] at hsign
  have hnone : ∀ t, signByte (b :: t) = none := fun t => by
    rw [signByte, List.headD_cons, if_neg hsign.1, if_neg hsign.2]
  rw [utcOffset_eq, Reader.bind_apply, Reader.bind_apply, List.append_nil, List.cons_append,
    List.cons_append, hnone]
  rfl

/-! ## Keys and values -/

theorem reads_annotationKey : Reads annotationKey Productions.annotationKey
    fun _ rest => Stops isKeyChar rest := by
  intro key t rest hrest
  rw [annotationKey]
  constructor
  · intro h
    split_ifs at h with hlead
    cases h
    cases t with
    | nil => exact absurd hlead (by decide)
    | cons b t =>
      have hb : isKeyChar b = true := by
        rw [List.headD_cons] at hlead
        simp [isKeyChar, hlead]
      refine ⟨_, List.takeWhile_append_dropWhile.symm, rfl, b, t.takeWhile isKeyChar, ?_, hlead,
        fun x hx => List.all_eq_true.mp List.all_takeWhile x hx⟩
      rw [List.takeWhile_cons_of_pos hb]
  · rintro ⟨u, rfl, rfl, b, c, rfl, hb, hc⟩
    have hall : ∀ x ∈ b :: c, isKeyChar x = true :=
      List.forall_mem_cons.mpr ⟨by simp [isKeyChar, hb], hc⟩
    rw [List.cons_append, List.headD_cons, if_pos hb, ← List.cons_append, hrest.takeWhile hall,
      hrest.dropWhile hall]

/-- A letter or a digit. -/
def isAlnum (b : UInt8) : Bool := isAsciiAlpha b || isAsciiDigit b

/-- A component of a value. -/
def IsComponent (u : Text) : Prop := u ≠ [] ∧ ∀ b ∈ u, isAlnum b = true

/-- What may come after the first byte of a component of a value. -/
def ValueTail (u : Text) : Prop :=
  ∃ (c : Text) (parts : List Text), (∀ x ∈ c, isAlnum x = true) ∧
    (∀ d ∈ parts, IsComponent d) ∧ u = c ++ parts.flatMap (ch '-' :: ·)

theorem joined_iff {u : Text} : Productions.Joined (ch '-') IsComponent u ↔
    ∃ b v, u = b :: v ∧ isAlnum b = true ∧ ValueTail v := by
  constructor
  · rintro ⟨first, parts, ⟨hne, hfirst⟩, hparts, rfl⟩
    obtain _ | ⟨b, c⟩ := first
    · exact absurd rfl hne
    · rw [List.forall_mem_cons] at hfirst
      exact ⟨b, _, rfl, hfirst.1, c, parts, hfirst.2, hparts, rfl⟩
  · rintro ⟨b, _, rfl, hb, c, parts, hc, hparts, rfl⟩
    exact ⟨b :: c, parts, ⟨List.cons_ne_nil _ _, List.forall_mem_cons.mpr ⟨hb, hc⟩⟩, hparts, rfl⟩

theorem ValueTail.nil : ValueTail [] := ⟨[], [], by simp, by simp, rfl⟩

theorem ValueTail.cons {b : UInt8} {u : Text} (hb : isAlnum b = true) (hu : ValueTail u) :
    ValueTail (b :: u) := by
  obtain ⟨c, parts, hc, hparts, rfl⟩ := hu
  exact ⟨b :: c, parts, List.forall_mem_cons.mpr ⟨hb, hc⟩, hparts, rfl⟩

theorem ValueTail.dash {u : Text} (hu : Productions.Joined (ch '-') IsComponent u) :
    ValueTail (ch '-' :: u) := by
  obtain ⟨first, parts, hfirst, hparts, rfl⟩ := hu
  exact ⟨[], first :: parts, by simp, List.forall_mem_cons.mpr ⟨hfirst, hparts⟩, rfl⟩

theorem exists_value {fresh : Bool} {t rest : Text} {x : Unit}
    (h : annotationValueFrom fresh t = some (x, rest)) : ∃ u, t = u ++ rest ∧
      if fresh = true then Productions.Joined (ch '-') IsComponent u else ValueTail u := by
  induction t generalizing fresh with
  | nil =>
    rw [annotationValueFrom] at h
    split_ifs at h with hfresh
    cases h
    exact ⟨[], rfl, by rw [if_neg hfresh]; exact .nil⟩
  | cons b t ih =>
    rw [annotationValueFrom] at h
    split_ifs at h with hb hfresh hdash
    · obtain ⟨u, rfl, hu⟩ := ih h
      refine ⟨b :: u, rfl, ?_⟩
      split_ifs
      · exact joined_iff.mpr ⟨b, u, rfl, hb, hu⟩
      · exact ValueTail.cons hb hu
    · obtain ⟨u, rfl, hu⟩ := ih h
      refine ⟨b :: u, rfl, ?_⟩
      rw [if_neg hfresh, hdash]
      exact ValueTail.dash hu
    · cases h
      exact ⟨[], rfl, by rw [if_neg hfresh]; exact .nil⟩

/-- A value is read to where neither a letter, a digit nor a dash follows. -/
theorem annotationValueFrom_tail {u rest : Text} (hu : ValueTail u)
    (hrest : Stops (fun b => isAlnum b || b == ch '-') rest) :
    annotationValueFrom false (u ++ rest) = some ((), rest) := by
  have hstep : ∀ (fresh : Bool) (b : UInt8) (t : Text), isAlnum b = true →
      annotationValueFrom fresh (b :: t) = annotationValueFrom false t := fun fresh b t hb => by
    rw [annotationValueFrom]
    exact if_pos hb
  have hrun : ∀ c t : Text, (∀ x ∈ c, isAlnum x = true) →
      annotationValueFrom false (c ++ t) = annotationValueFrom false t := by
    intro c t hc
    induction c with
    | nil => rfl
    | cons b c ih =>
      rw [List.forall_mem_cons] at hc
      rw [List.cons_append, hstep false b _ hc.1, ih hc.2]
  obtain ⟨c, parts, hc, hparts, rfl⟩ := hu
  rw [List.append_assoc, hrun c _ hc]
  induction parts with
  | nil =>
    cases rest with
    | nil => rfl
    | cons b rest =>
      obtain ⟨halnum, hdash⟩ := Bool.or_eq_false_iff.mp (stops_cons.mp hrest)
      rw [isAlnum] at halnum
      rw [List.flatMap_nil, List.nil_append, annotationValueFrom, halnum, if_neg Bool.false_ne_true,
        if_neg Bool.false_ne_true, if_neg (beq_eq_false_iff_ne.mp hdash)]
  | cons d parts ih =>
    rw [List.forall_mem_cons] at hparts
    obtain ⟨⟨hne, hd⟩, hparts⟩ := hparts
    obtain _ | ⟨b, d⟩ := d
    · exact absurd rfl hne
    · rw [List.forall_mem_cons] at hd
      have hdash : ∀ t, annotationValueFrom false (ch '-' :: t) = annotationValueFrom true t :=
        fun t => rfl
      rw [List.flatMap_cons, List.append_assoc, List.cons_append, hdash, List.cons_append,
        hstep true b _ hd.1, hrun d _ hd.2, ih hparts]

theorem reads_annotationValue :
    Reads (annotationValueFrom true)
      (matching (Productions.Joined (ch '-') IsComponent) >>= fun _ => pure ())
      fun _ rest => Stops (fun b => isAlnum b || b == ch '-') rest := by
  rintro ⟨⟩ t rest hrest
  constructor
  · intro h
    obtain ⟨u, rfl, hu⟩ := exists_value h
    rw [if_pos rfl] at hu
    exact ⟨u, rfl, u, [], u, (List.append_nil u).symm, ⟨rfl, hu⟩, rfl, rfl⟩
  · rintro ⟨_, rfl, u, _, _, rfl, ⟨rfl, hu⟩, rfl, -⟩
    obtain ⟨b, v, rfl, hb, hv⟩ := joined_iff.mp hu
    rw [List.append_nil, List.cons_append, annotationValueFrom]
    exact (if_pos hb).trans (annotationValueFrom_tail hv hrest)

/-! ## Annotations -/

theorem derives_captured_matching {P : Text → Prop} {M : Text → Grammar UInt8 β} {u : Text} {c : β} :
    (captured (matching P >>= fun _ => pure ()) >>= fun x => M x.1).derives u c ↔
      (matching P >>= M).derives u c := by
  constructor
  · rintro ⟨_, w, ⟨_, _⟩, rfl, ⟨rfl, v, _, _, hsplit, ⟨rfl, hP⟩, rfl, -⟩, hM⟩
    rw [List.append_nil] at hsplit
    dsimp only at hsplit hM
    subst hsplit
    exact ⟨_, w, _, rfl, ⟨rfl, hP⟩, hM⟩
  · rintro ⟨_, w, v, rfl, ⟨rfl, hP⟩, hM⟩
    exact ⟨v, w, (v, ()), rfl, ⟨rfl, v, [], v, (List.append_nil v).symm, ⟨rfl, hP⟩, rfl, rfl⟩, hM⟩

theorem reads_annotationItem : Reads annotationItem Productions.annotation fun _ _ => True := by
  have hread : Reads annotationItem
      (literal [ch '['] >>= fun _ => Productions.flag (ch '!') >>= fun critical =>
        Productions.annotationKey >>= fun key => literal [ch '='] >>= fun _ =>
        captured (matching (Productions.Joined (ch '-') IsComponent) >>= fun _ => pure ()) >>= fun x =>
        literal [ch ']'] >>= fun _ => pure { critical, key, value := x.1 }) fun _ _ => True := by
    refine (reads_literal (ch '[') (by decide)).bind_of_true fun _ =>
      (reads_eat (ch '!') (by decide)).bind (fun critical => reads_annotationKey.bind
        (fun key => (reads_literal (ch '=') (by decide)).bind_of_true fun _ =>
          (reads_withText reads_annotationValue).bind (fun x =>
            (reads_literal (ch ']') (by decide)).bind_of_true fun _ => Reads.pure _) ?_) ?_) ?_
    · rintro x u c rest hu -
      obtain ⟨v, rfl, -⟩ := derives_literal_bind.mp hu
      exact stops_cons.mpr (by decide)
    · rintro key u c rest hu -
      obtain ⟨v, rfl, -⟩ := derives_literal_bind.mp hu
      exact stops_cons.mpr (by decide)
    · rintro critical u c rest ⟨_, w, key, rfl, ⟨rfl, b, k, rfl, hb, -⟩, -⟩ - -
      refine stops_cons.mpr (beq_eq_false_iff_ne.mpr ?_)
      rintro rfl
      exact absurd hb (by decide)
  refine hread.congr fun u c => ?_
  exact Grammar.bind_congr fun _ _ _ _ => Grammar.bind_congr fun _ critical _ _ =>
    Grammar.bind_congr fun _ key _ _ => Grammar.bind_congr fun _ _ _ _ =>
      derives_captured_matching (M := fun value => literal [ch ']'] >>= fun _ =>
        (pure ⟨critical, key, value⟩ : Grammar UInt8 Annotation))

theorem reads_timeZoneAnnotation :
    Reads timeZoneAnnotation Productions.timeZoneAnnotation fun _ _ => True := by
  refine (reads_literal (ch '[') (by decide)).bind_of_true fun _ =>
    (reads_eat (ch '!') (by decide)).bind (fun _ => (reads_withText reads_timeZoneIdentifier).bind
      (fun x => (reads_literal (ch ']') (by decide)).bind_of_true fun _ => Reads.pure x.1) ?_) ?_
  · rintro x u c rest hu -
    obtain ⟨v, rfl, -⟩ := derives_literal_bind.mp hu
    exact stops_cons.mpr (by decide)
  · rintro critical u c rest ⟨_, w, ⟨_, _⟩, rfl, ⟨rfl, hid⟩, -⟩ - -
    rcases hid with ⟨v, _, _, rfl, ⟨_, _, _, rfl, ⟨rfl, -⟩ | ⟨rfl, -⟩, -⟩, rfl, -⟩ |
      ⟨v, _, _, rfl, ⟨rfl, _, parts, ⟨b, c, rfl, hb, -⟩, -, rfl⟩, rfl, -⟩
    · exact stops_cons.mpr (by decide)
    · exact stops_cons.mpr (by decide)
    · refine stops_cons.mpr (beq_eq_false_iff_ne.mpr ?_)
      rintro rfl
      exact absurd hb (by decide)

theorem annotation_bracket {u : Text} {item : Annotation}
    (hu : Productions.annotation.derives u item) : ∃ v, u = ch '[' :: v := by
  obtain ⟨v, rfl, -⟩ := derives_literal_bind.mp hu
  exact ⟨v, rfl⟩

/-- Annotations are read as long as a bracket opens; the fuel is enough if it is the length. -/
theorem annotationItems_eq_some {n : ℕ} {items : List Annotation} {c rest : Text}
    (hn : c.length ≤ n) (hrest : Stops (· == ch '[') rest) :
    annotationItems n c = some (items, rest) ↔
      ∃ u, c = u ++ rest ∧ Productions.annotation.many.derives u items := by
  have hstop : rest.headD 0 ≠ ch '[' := hrest.headD_ne (beq_self_eq_true _) (by decide)
  induction n generalizing c items with
  | zero =>
    have hc : c = [] := List.length_eq_zero_iff.mp (Nat.le_zero.mp hn)
    subst hc
    constructor
    · intro h
      cases h
      exact ⟨[], rfl, derives_many_nil.mpr rfl⟩
    · rintro ⟨u, hu, hitems⟩
      obtain ⟨rfl, rfl⟩ := List.append_eq_nil_iff.mp hu.symm
      cases items with
      | nil => rfl
      | cons item items =>
        obtain ⟨u₁, u₂, hsplit, hitem, -⟩ := derives_many_cons.mp hitems
        obtain ⟨v, rfl⟩ := annotation_bracket hitem
        cases hsplit
  | succ n ih =>
    rw [annotationItems]
    by_cases hopen : c.headD 0 = ch '['
    · rw [if_neg (not_not.mpr hopen)]
      constructor
      · intro h
        obtain ⟨⟨item, c'⟩, hitem, h⟩ := Option.bind_eq_some_iff.mp h
        obtain ⟨⟨items', rest'⟩, hitems, h⟩ := Option.bind_eq_some_iff.mp h
        cases h
        obtain ⟨u₁, rfl, hu₁⟩ := (reads_annotationItem item c c' trivial).mp hitem
        obtain ⟨v, rfl⟩ := annotation_bracket hu₁
        have hlength : c'.length ≤ n := by
          rw [List.length_append, List.length_cons] at hn
          omega
        obtain ⟨u₂, rfl, hu₂⟩ := (ih hlength).mp hitems
        exact ⟨_, (List.append_assoc ..).symm, derives_many_cons.mpr ⟨_, _, rfl, hu₁, hu₂⟩⟩
      · rintro ⟨u, rfl, hitems⟩
        cases items with
        | nil =>
          rw [derives_many_nil.mp hitems, List.nil_append] at hopen
          exact absurd hopen hstop
        | cons item items =>
          obtain ⟨u₁, u₂, rfl, hitem, hmore⟩ := derives_many_cons.mp hitems
          obtain ⟨v, rfl⟩ := annotation_bracket hitem
          have hlength : (u₂ ++ rest).length ≤ n := by
            rw [List.append_assoc, List.length_append, List.length_cons] at hn
            omega
          rw [List.append_assoc, reads_annotationItem.apply hitem trivial]
          have hrun := (ih hlength).mpr ⟨u₂, rfl, hmore⟩
          exact Option.bind_eq_some_iff.mpr ⟨(item, u₂ ++ rest), rfl,
            Option.bind_eq_some_iff.mpr ⟨(items, rest), hrun, rfl⟩⟩
    · rw [if_pos hopen]
      constructor
      · intro h
        cases h
        exact ⟨[], rfl, derives_many_nil.mpr rfl⟩
      · rintro ⟨u, rfl, hitems⟩
        cases items with
        | nil => rw [derives_many_nil.mp hitems, List.nil_append]
        | cons item items =>
          obtain ⟨u₁, u₂, rfl, hitem, -⟩ := derives_many_cons.mp hitems
          obtain ⟨v, rfl⟩ := annotation_bracket hitem
          exact absurd rfl hopen

theorem isTzChar_of_isKeyChar {b : UInt8} (hb : isKeyChar b = true) : isTzChar b = true := by
  simp only [isKeyChar, isKeyLead, isTzChar, isAsciiAlpha, Bool.or_eq_true, decide_eq_true_eq] at hb ⊢
  tauto

/-- An annotation is no time zone: its key is followed by an equals sign. -/
theorem timeZoneAnnotation_eq_none {u : Text} {items : List Annotation}
    (hu : Productions.annotation.many.derives u items) : timeZoneAnnotation u = none := by
  cases items with
  | nil =>
    rw [derives_many_nil.mp hu]
    rfl
  | cons item items =>
    obtain ⟨u₁, u₂, rfl, hitem, -⟩ := derives_many_cons.mp hu
    obtain ⟨_, rfl, w, _, critical, rfl, hflag, k, _, key, rfl, ⟨rfl, b, c, rfl, hb, hc⟩, hmore⟩ :=
      derives_literal_bind.mp hitem
    obtain ⟨v, rfl, -⟩ := derives_literal_bind.mp hmore
    have hlead : isTzLeadingChar b = true := by
      simp only [isKeyLead, isTzLeadingChar, isAsciiAlpha, Bool.or_eq_true, decide_eq_true_eq] at hb ⊢
      tauto
    have hexclamation : b ≠ ch '!' := by
      rintro rfl
      exact absurd hb (by decide)
    have hname : Productions.timeZoneIdentifier.derives (b :: c) () :=
      .inr ⟨b :: c, [], b :: c, (List.append_nil _).symm, ⟨rfl, b :: c, [],
        ⟨b, c, rfl, hlead, fun x hx => isTzChar_of_isKeyChar (hc x hx)⟩, by simp, by simp⟩, rfl, rfl⟩
    have hbracket : ∀ r, expect (ch '[') ([ch '['] ++ r) = some ((), r) :=
      fun _ => (reads_literal (ch '[') (by decide)).apply rfl trivial
    have heat : ∀ r, eat (ch '!') (w ++ (b :: c ++ r)) = some (critical, b :: c ++ r) :=
      fun _ => (reads_eat (ch '!') (by decide)).apply hflag
        fun _ => stops_cons.mpr (beq_eq_false_iff_ne.mpr hexclamation)
    have hid : ∀ r, withText timeZoneIdentifier (b :: c ++ ch '=' :: r) =
        some ((b :: c, ()), ch '=' :: r) :=
      fun _ => (reads_withText reads_timeZoneIdentifier).apply ⟨rfl, hname⟩ (stops_cons.mpr (by decide))
    have htext : ascii "[" ++ (w ++ (b :: c ++ (ascii "=" ++ v))) ++ u₂ =
        [ch '['] ++ (w ++ (b :: c ++ (ch '=' :: (v ++ u₂)))) := by
      simp only [List.append_assoc]
      rfl
    rw [htext, timeZoneAnnotation, Reader.bind_apply, hbracket, Option.bind_some, Reader.bind_apply,
      heat, Option.bind_some, Reader.bind_apply, hid, Option.bind_some]
    rfl

theorem reads_annotations (zoned : Bool) :
    Reads (annotations zoned) (Productions.annotated zoned) fun _ rest => rest = [] := by
  have hitems : Reads (fun c => annotationItems c.length c) Productions.annotation.many
      fun _ rest => rest = [] := by
    rintro items t _ rfl
    exact annotationItems_eq_some le_rfl (stops_nil _)
  have hzone : Reads (attempt timeZoneAnnotation) Productions.timeZoneAnnotation.opt
      fun zone rest => zone = none → timeZoneAnnotation rest = none :=
    reads_timeZoneAnnotation.attempt (fun rest h => h rfl) fun _ _ _ => trivial
  refine Reads.congr (hzone.bind (fun zone => (Reads.guarded _).bind_of_true fun _ =>
    hitems.map fun _ _ h => h) ?_) fun u b => ?_
  · rintro zone u c _ hu rfl -
    obtain ⟨-, _, _, items, rfl, hmany, rfl, -⟩ := derives_require_bind.mp hu
    rw [List.append_nil, List.append_nil]
    exact timeZoneAnnotation_eq_none hmany
  · refine Grammar.bind_congr fun _ zone _ _ => ?_
    rw [derives_require_bind, derives_require_bind, not_and]

end CtBrowser.Script.Temporal
