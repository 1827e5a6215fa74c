import CtBrowser.Script.Temporal.Grammar

/-!
# Reading Numbers and Dates

The readers of numbers, years and dates read the productions of the same names. Their words have
no choice of where to end, so that anything may follow them.

## Main definitions

- `Stops` — the next byte is none of a kind.

## Main results

- `reads_date`, `reads_dateSpecYearMonth`, `reads_dateSpecMonthDay` — the dates.
-/

namespace CtBrowser.Script.Temporal

open Foundations.Reading Foundations.Reading.Grammar

variable {β : Type}

/-- The next byte is none of a kind, or there is none. -/
def Stops (p : UInt8 → Bool) (rest : Text) : Prop := ∀ b, rest.head? = some b → p b = false

@[simp]
theorem stops_nil (p : UInt8 → Bool) : Stops p [] := by
  intro b hb
  cases hb

@[simp]
theorem stops_cons {p : UInt8 → Bool} {b : UInt8} {rest : Text} :
    Stops p (b :: rest) ↔ p b = false :=
  ⟨fun h => h b rfl, fun h _ hc => Option.some.inj hc ▸ h⟩

theorem Stops.weaken {p q : UInt8 → Bool} {rest : Text} (h : Stops p rest)
    (hpq : ∀ b, q b = true → p b = true) : Stops q rest := by
  intro b hb
  by_contra hq
  rw [Bool.not_eq_false] at hq
  exact Bool.false_ne_true ((h b hb).symm.trans (hpq b hq))

theorem Stops.headD {p : UInt8 → Bool} {rest : Text} (h : Stops p rest) (hzero : p 0 = false) :
    p (rest.headD 0) = false := by
  cases rest with
  | nil => exact hzero
  | cons b rest => exact stops_cons.mp h

theorem Stops.headD_ne {p : UInt8 → Bool} {rest : Text} (h : Stops p rest) {b : UInt8}
    (hb : p b = true) (hzero : b ≠ 0) : rest.headD 0 ≠ b := by
  cases rest with
  | nil => exact hzero.symm
  | cons c rest =>
    rintro rfl
    exact Bool.false_ne_true ((stops_cons.mp h).symm.trans hb)

/-! ## Digits -/

theorem digitsFrom_eq_some {count value v : ℕ} {t rest : Text} :
    digitsFrom count value t = some (v, rest) ↔
      ∃ u, t = u ++ rest ∧ (u.length = count ∧ ∀ b ∈ u, isAsciiDigit b = true) ∧
        v = u.foldl (fun value b => value * 10 + (b.toNat - '0'.toNat)) value := by
  induction count generalizing value t with
  | zero =>
    constructor
    · intro h
      cases h
      exact ⟨[], rfl, ⟨rfl, fun _ h => absurd h List.not_mem_nil⟩, rfl⟩
    · rintro ⟨u, rfl, ⟨hlength, -⟩, rfl⟩
      rw [List.eq_nil_of_length_eq_zero hlength]
      rfl
  | succ count ih =>
    cases t with
    | nil =>
      refine iff_of_false (by simp [digitsFrom]) ?_
      rintro ⟨u, hu, ⟨hlength, -⟩, -⟩
      rw [(List.append_eq_nil_iff.mp hu.symm).1] at hlength
      cases hlength
    | cons b c =>
      rw [digitsFrom]
      constructor
      · intro h
        split_ifs at h with hb
        obtain ⟨u, rfl, ⟨hlength, hdigits⟩, rfl⟩ := ih.mp h
        refine ⟨b :: u, rfl, ⟨congrArg (· + 1) hlength, ?_⟩, rfl⟩
        rintro x (_ | ⟨_, hx⟩)
        · exact hb
        · exact hdigits x hx
      · rintro ⟨u, hu, ⟨hlength, hdigits⟩, rfl⟩
        cases u with
        | nil => cases hlength
        | cons x u =>
          obtain ⟨rfl, rfl⟩ := List.cons.inj hu
          rw [if_pos (hdigits b List.mem_cons_self)]
          exact ih.mpr ⟨u, rfl, ⟨Nat.succ.inj hlength, fun y hy =>
            hdigits y (List.mem_cons_of_mem b hy)⟩, rfl⟩

theorem reads_digits (count : ℕ) :
    Reads (digits count) (Productions.decimalDigits count) fun _ _ => True :=
  fun _ _ _ _ => digitsFrom_eq_some

theorem reads_checked (count : ℕ) (P : ℕ → Prop) [DecidablePred P] (f : ℕ → β) :
    Reads (digits count >>= fun n => guard (P n) >>= fun _ => pure (f n))
      (Productions.decimalDigits count >>= fun n => require (P n) >>= fun _ => pure (f n))
      fun _ _ => True :=
  (reads_digits count).bind_of_true fun n =>
    (Reads.guarded (P n)).bind_of_true fun _ => Reads.pure (f n)

theorem reads_hour : Reads hour Productions.hour fun _ _ => True :=
  reads_checked 2 (· ≤ 23) id

theorem reads_dateMonth : Reads dateMonth Productions.dateMonth fun _ _ => True :=
  reads_checked 2 (fun m => 1 ≤ m ∧ m ≤ 12) fun m => (m : ℤ)

theorem reads_dateDay : Reads dateDay Productions.dateDay fun _ _ => True :=
  reads_checked 2 (fun d => 1 ≤ d ∧ d ≤ 31) fun d => (d : ℤ)

theorem stops_of_digits {count v : ℕ} {u rest : Text}
    (hu : (Productions.decimalDigits (count + 1)).derives u v) {p : UInt8 → Bool}
    (hp : ∀ b, isAsciiDigit b = true → p b = false) : Stops p (u ++ rest) := by
  obtain ⟨⟨hlength, hdigits⟩, -⟩ := hu
  cases u with
  | nil => cases hlength
  | cons b u => exact stops_cons.mpr (hp b (hdigits b List.mem_cons_self))

theorem eq_false_of_digit {c : UInt8} (hc : isAsciiDigit c = false) {b : UInt8}
    (hb : isAsciiDigit b = true) : (b == c) = false := by
  rw [beq_eq_false_iff_ne]
  rintro rfl
  exact Bool.false_ne_true (hc.symm.trans hb)

/-! ## Bytes that may be there -/

theorem reads_literal (b : UInt8) (hb : b ≠ 0) :
    Reads (expect b) (literal [b]) fun _ _ => True := by
  rintro ⟨⟩ t rest -
  rw [expect, Reader.bind_apply, eat]
  cases t with
  | nil => simp [Reader.guard_apply, hb.symm]
  | cons c t =>
    by_cases hc : c = b
    · simp [Reader.guard_apply, hc]
    · simp [Reader.guard_apply, hc]

theorem reads_eat (b : UInt8) (hb : b ≠ 0) :
    Reads (eat b) (Productions.flag b) fun eaten rest => eaten = false → Stops (· == b) rest := by
  intro eaten t rest hrest
  rw [eat]
  constructor
  · intro h
    split_ifs at h with ht
    · cases h
      cases t with
      | nil => exact absurd ht.symm hb
      | cons c t => exact ⟨[b], congrArg (· :: t) ht, .inl ⟨rfl, rfl⟩⟩
    · cases h
      exact ⟨[], rfl, .inr ⟨rfl, rfl⟩⟩
  · rintro ⟨u, rfl, ⟨rfl, rfl⟩ | ⟨rfl, rfl⟩⟩
    · rw [List.singleton_append, if_pos List.headD_cons]
      rfl
    · rw [List.nil_append, if_neg ((hrest rfl).headD_ne (beq_self_eq_true b) hb)]

/-! ## Years and dates -/

/-- A sign. -/
def signByte : Reader UInt8 ℤ := fun c =>
  if c.headD 0 = ch '+' then some (1, c.tail)
  else if c.headD 0 = ch '-' then some (-1, c.tail)
  else none

theorem reads_signByte : Reads signByte Productions.asciiSign fun _ _ => True := by
  rintro s t rest -
  rw [signByte]
  constructor
  · intro h
    cases t with
    | nil => cases h
    | cons c t =>
      rw [List.headD_cons, List.tail_cons] at h
      by_cases hplus : c = ch '+'
      · rw [if_pos hplus] at h
        cases h
        exact ⟨[c], rfl, .inl ⟨congrArg (fun b => [b]) hplus, rfl⟩⟩
      · rw [if_neg hplus] at h
        by_cases hminus : c = ch '-'
        · rw [if_pos hminus] at h
          cases h
          exact ⟨[c], rfl, .inr ⟨congrArg (fun b => [b]) hminus, rfl⟩⟩
        · rw [if_neg hminus] at h
          cases h
  · rintro ⟨u, rfl, ⟨rfl, rfl⟩ | ⟨rfl, rfl⟩⟩
    · rfl
    · rfl

/-- Six digits after a sign. -/
def signedYear : Reader UInt8 ℤ := do
  let s ← signByte
  let value ← digits 6
  guard ¬ (s = -1 ∧ value = 0)
  pure (s * value)

theorem isSign_iff (b : UInt8) : isSign b = true ↔ b = ch '+' ∨ b = ch '-' := by
  rw [isSign, decide_eq_true_eq]

theorem dateYear_eq : dateYear = fun t => if isSign (t.headD 0) = true then signedYear t
    else (digits 4 >>= fun value => pure (value : ℤ)) t := by
  funext t
  cases t with
  | nil => rfl
  | cons c t =>
    rw [List.headD_cons]
    by_cases hsign : isSign c = true
    · rw [if_pos hsign]
      rcases (isSign_iff c).mp hsign with rfl | rfl
      · refine congrArg (Option.bind (digits 6 t)) (funext fun x => ?_)
        have hplus : ch '+' ≠ ch '-' := by decide
        simp [Reader.bind_apply, Reader.pure_apply, hplus]
      · refine congrArg (Option.bind (digits 6 t)) (funext fun x => ?_)
        simp [Reader.bind_apply, Reader.guard_apply, Reader.pure_apply]
    · rw [if_neg hsign, dateYear, Reader.bind_apply]
      simp only [peek, Option.bind_some, List.headD_cons, if_neg hsign]

theorem reads_dateYear : Reads dateYear Productions.dateYear fun _ _ => True := by
  have hsigned : Reads signedYear _ fun _ _ => True :=
    reads_signByte.bind_of_true fun s => reads_checked 6 (fun v => ¬ (s = -1 ∧ v = 0)) fun v => s * v
  have hplain := (reads_digits 4).bind_of_true fun v => Reads.pure (v : ℤ)
  rw [dateYear_eq]
  refine (hsigned.choice hplain ?_ ?_).congr fun u b => or_comm
  · rintro u y rest ⟨u₁, u₂, s, rfl, ⟨rfl, rfl⟩ | ⟨rfl, rfl⟩, -⟩
    · rfl
    · rfl
  · rintro u y rest ⟨u₁, u₂, v, rfl, hv, rfl, rfl⟩ -
    have hstops := @stops_of_digits 3 v u₁ ([] ++ rest) hv isSign fun b hb => by
      rw [isAsciiDigit_iff] at hb
      rw [← Bool.not_eq_true, isSign_iff]
      rintro (rfl | rfl)
      · exact absurd hb (by decide)
      · exact absurd hb (by decide)
    rw [List.append_assoc]
    exact hstops.headD rfl

/-! ## Dates -/

theorem derives_flag_bind {γ : Type} {b : UInt8} {N : Grammar UInt8 β} {M : β → Bool → Grammar UInt8 γ}
    {u : Text} {c : γ} : (N >>= fun y => Productions.flag b >>= M y).derives u c ↔
      (Productions.either fun e => N >>= fun y => Productions.separator e b >>= fun _ =>
        M y e).derives u c := by
  constructor
  · rintro ⟨v, _, y, rfl, hN, w, w', _, rfl, ⟨rfl, rfl⟩ | ⟨rfl, rfl⟩, hM⟩
    · exact .inl ⟨v, _, y, rfl, hN, [b], w', (), rfl, rfl, hM⟩
    · exact .inr ⟨v, _, y, rfl, hN, [], w', (), rfl, rfl, hM⟩
  · rintro (⟨v, _, y, rfl, hN, _, w', _, rfl, rfl, hM⟩ | ⟨v, _, y, rfl, hN, _, w', _, rfl, rfl, hM⟩)
    · exact ⟨v, _, y, rfl, hN, [b], w', true, rfl, .inl ⟨rfl, rfl⟩, hM⟩
    · exact ⟨v, _, y, rfl, hN, [], w', false, rfl, .inr ⟨rfl, rfl⟩, hM⟩

theorem derives_bind_either {γ : Type} {N : Grammar UInt8 β} {M : β → Bool → Grammar UInt8 γ}
    {u : Text} {c : γ} : (N >>= fun y => Productions.either (M y)).derives u c ↔
      (Productions.either fun e => N >>= fun y => M y e).derives u c := by
  constructor
  · rintro ⟨v, w, y, rfl, hN, hM | hM⟩
    · exact .inl ⟨v, w, y, rfl, hN, hM⟩
    · exact .inr ⟨v, w, y, rfl, hN, hM⟩
  · rintro (⟨v, w, y, rfl, hN, hM⟩ | ⟨v, w, y, rfl, hN, hM⟩)
    · exact ⟨v, w, y, rfl, hN, .inl hM⟩
    · exact ⟨v, w, y, rfl, hN, .inr hM⟩

theorem stops_dash {count v : ℕ} {u rest : Text}
    (hu : (Productions.decimalDigits (count + 1)).derives u v) :
    Stops (· == ch '-') (u ++ rest) :=
  stops_of_digits hu fun _ => eq_false_of_digit rfl

theorem derives_dateMonth {u : Text} {m : ℤ} (h : Productions.dateMonth.derives u m) :
    1 ≤ m ∧ m ≤ 12 ∧ ∃ n, (Productions.decimalDigits 2).derives u n := by
  obtain ⟨u₁, _, n, rfl, hn, hu⟩ := h
  obtain ⟨⟨hlow, hhigh⟩, rfl, rfl⟩ := derives_require_bind.mp hu
  rw [List.append_nil]
  exact ⟨by omega, by omega, n, hn⟩

theorem derives_dateDay {u : Text} {d : ℤ} (h : Productions.dateDay.derives u d) :
    1 ≤ d ∧ d ≤ 31 ∧ ∃ n, (Productions.decimalDigits 2).derives u n := by
  obtain ⟨u₁, _, n, rfl, hn, hu⟩ := h
  obtain ⟨⟨hlow, hhigh⟩, rfl, rfl⟩ := derives_require_bind.mp hu
  rw [List.append_nil]
  exact ⟨by omega, by omega, n, hn⟩

theorem reads_separated (e : Bool) {p : Unit → Reader UInt8 β} {M : Unit → Grammar UInt8 β}
    {F : β → Text → Prop} (h : ∀ x, Reads (p x) (M x) F) :
    Reads (if e = true then expect (ch '-') >>= p else p ())
      (Productions.separator e (ch '-') >>= M) F := by
  cases e with
  | true => exact (reads_literal (ch '-') (by decide)).bind_of_true h
  | false =>
    refine (h ()).congr fun u b => ?_
    rw [Productions.separator, derives_literal_bind]
    exact ⟨fun hu => ⟨u, rfl, hu⟩, fun ⟨_, hv, hu⟩ => hv ▸ hu⟩

theorem validMonthDay_iff {y m d : ℤ} (hlow : 1 ≤ m) (hhigh : m ≤ 12) (hday : d ≤ 31) :
    (validMonthDay m d = true ∧ ¬ (m = 2 ∧ d = 29 ∧ isLeapYear y = false)) ↔
      d ≤ isoDaysInMonth y m := by
  rw [validMonthDay, isoDaysInMonth]
  by_cases hleap : isLeapYear y = true
  · interval_cases m <;> simp [hleap] <;> omega
  · interval_cases m <;> simp [hleap] <;> omega

theorem reads_date : Reads date Productions.date fun _ _ => True := by
  have hread : Reads date
      (Productions.dateYear >>= fun y => Productions.flag (ch '-') >>= fun e =>
        Productions.dateMonth >>= fun m => Productions.separator e (ch '-') >>= fun _ =>
        Productions.dateDay >>= fun d => require (validMonthDay m d = true) >>= fun _ =>
        require (¬ (m = 2 ∧ d = 29 ∧ isLeapYear y = false)) >>= fun _ =>
        pure { year := some y, month := m, day := d, hasDay := true }) fun _ _ => True := by
    refine reads_dateYear.bind_of_true fun y => (reads_eat (ch '-') (by decide)).bind
      (fun e => reads_dateMonth.bind_of_true fun m => reads_separated e fun _ =>
        reads_dateDay.bind_of_true fun d => (Reads.guarded _).bind_of_true fun _ =>
        (Reads.guarded _).bind_of_true fun _ => Reads.pure _) ?_
    rintro e u c rest ⟨v, w, m, rfl, hm, -⟩ - -
    obtain ⟨-, -, n, hn⟩ := derives_dateMonth hm
    rw [List.append_assoc]
    exact stops_dash hn
  refine hread.congr fun u b => ?_
  rw [derives_flag_bind]
  -- under either parameter the checks are the early error
  refine or_congr ?_ ?_ <;>
  · refine Grammar.bind_congr fun _ y _ _ => Grammar.bind_congr fun _ _ _ _ =>
      Grammar.bind_congr fun _ m hm _ => Grammar.bind_congr fun _ _ _ _ =>
      Grammar.bind_congr fun _ d hd _ => ?_
    obtain ⟨hlow, hhigh, -⟩ := derives_dateMonth hm
    rw [derives_require_bind, derives_require_bind, derives_require_bind, ← and_assoc,
      validMonthDay_iff hlow hhigh (derives_dateDay hd).2.1]

theorem reads_dateSpecYearMonth :
    Reads dateSpecYearMonth Productions.dateSpecYearMonth fun _ _ => True := by
  have hread : Reads dateSpecYearMonth
      (Productions.dateYear >>= fun y => Productions.flag (ch '-') >>= fun _ =>
        Productions.dateMonth >>= fun m =>
        pure { year := some y, month := m, day := 1, hasDay := false }) fun _ _ => True := by
    refine reads_dateYear.bind_of_true fun y => (reads_eat (ch '-') (by decide)).bind
      (fun e => reads_dateMonth.bind_of_true fun m => Reads.pure _) ?_
    rintro e u c rest ⟨v, w, m, rfl, hm, -⟩ - -
    obtain ⟨-, -, n, hn⟩ := derives_dateMonth hm
    rw [List.append_assoc]
    exact stops_dash hn
  exact hread.congr fun u b => derives_flag_bind

theorem reads_skipDashes : Reads skipDashes (alt (literal (ascii "--")) (literal []))
    fun _ rest => Stops (· == ch '-') rest := by
  rintro ⟨⟩ t rest hrest
  rw [skipDashes]
  constructor
  · intro h
    split_ifs at h with ht
    · cases h
      obtain _ | ⟨b, _ | ⟨b', t⟩⟩ := t
      · exact absurd ht.1 (by decide)
      · exact absurd ht.2 (show (0 : UInt8) ≠ ch '-' by decide)
      · obtain ⟨rfl, rfl⟩ : b = ch '-' ∧ b' = ch '-' := ht
        exact ⟨ascii "--", rfl, .inl rfl⟩
    · cases h
      exact ⟨[], rfl, .inr rfl⟩
  · rintro ⟨u, rfl, rfl | rfl⟩
    · rfl
    · rw [List.nil_append, if_neg]
      rintro ⟨h, -⟩
      exact hrest.headD_ne (beq_self_eq_true _) (by decide) h

theorem reads_dateSpecMonthDay :
    Reads dateSpecMonthDay Productions.dateSpecMonthDay fun _ _ => True := by
  have hread : Reads dateSpecMonthDay
      (alt (literal (ascii "--")) (literal []) >>= fun _ => Productions.dateMonth >>= fun m =>
        Productions.flag (ch '-') >>= fun _ => Productions.dateDay >>= fun d =>
        require (validMonthDay m d = true) >>= fun _ =>
        pure { year := none, month := m, day := d, hasDay := true }) fun _ _ => True := by
    refine reads_skipDashes.bind (fun _ => reads_dateMonth.bind_of_true fun m =>
      (reads_eat (ch '-') (by decide)).bind (fun e => reads_dateDay.bind_of_true fun d =>
        (Reads.guarded _).bind_of_true fun _ => Reads.pure _) ?_) ?_
    · rintro e u c rest ⟨v, w, d, rfl, hd, -⟩ - -
      obtain ⟨-, -, n, hn⟩ := derives_dateDay hd
      rw [List.append_assoc]
      exact stops_dash hn
    · rintro - u c rest ⟨v, w, m, rfl, hm, -⟩ -
      obtain ⟨-, -, n, hn⟩ := derives_dateMonth hm
      rw [List.append_assoc]
      exact stops_dash hn
  have hleap : isLeapYear 1972 = true := by decide
  refine hread.congr fun u b => ?_
  rw [Grammar.bind_congr fun _ _ _ _ => derives_flag_bind, derives_bind_either]
  refine or_congr ?_ ?_ <;>
  · refine Grammar.bind_congr fun _ _ _ _ => Grammar.bind_congr fun _ m hm _ =>
      Grammar.bind_congr fun _ _ _ _ => Grammar.bind_congr fun _ d hd _ => ?_
    obtain ⟨hlow, hhigh, -⟩ := derives_dateMonth hm
    rw [derives_require_bind, derives_require_bind,
      ← @validMonthDay_iff 1972 m d hlow hhigh (derives_dateDay hd).2.1, hleap]
    simp

end CtBrowser.Script.Temporal
