import CtBrowser.Foundations.Scan

/-!
# Scanning What Was Written

A scanner whose state has a list that is left to be read. It reads a written text if it takes exactly
that text where all of it is left, and fails where only a beginning of it is. What reads the parts
reads the whole, so a reader that mirrors a writer refuses every text that was cut short, whatever
it does with the values.

## Main definitions

- `Remaining` — what a state has left to read.
- `Scan.Keeps` — a scanner keeps an invariant; `Scan.Sticky` if that is a recorded failure.
- `Scan.Runs`, `Scan.Takes` — a scanner reads a text with a value, and takes no others.
- `Scan.Reads` — a scanner reads what was written or fails, under a condition.

## Main results

- `Scan.Reads.bind`, `Scan.Reads.forEach` — the rules for sequencing and iteration.
-/

namespace CtBrowser.Foundations

/-- A state with a list that is left to be read. -/
class Remaining (σ : Type) (β : outParam Type) where
  /-- What is left. -/
  rest : σ → List β

namespace Scan

variable {σ α β γ δ : Type}

/-! ## What a scanner keeps -/

/-- An invariant of the state is kept. -/
def Keeps (I : σ → Prop) (p : Scan σ α) : Prop := ∀ s, I s → I (p.run s).2

namespace Keeps

variable {I : σ → Prop}

theorem pure {a : α} : Keeps I (Pure.pure a : Scan σ α) := fun _ h => h

theorem bind {p : Scan σ α} {f : α → Scan σ γ} (hp : Keeps I p) (hf : ∀ a, Keeps I (f a)) : Keeps I (p >>= f) := by
  intro s hs
  have ht := hp s hs
  rw [run_bind]
  rcases hstep : p.run s with ⟨_ | a, t⟩ <;> rw [hstep] at ht
  · exact ht
  · exact hf a t ht

theorem map {p : Scan σ α} (f : α → γ) (hp : Keeps I p) : Keeps I (f <$> p) := hp.bind fun _ => pure

theorem ite {c : Prop} [Decidable c] {p q : Scan σ α} (hp : Keeps I p) (hq : Keeps I q) :
    Keeps I (if c then p else q) := by
  split_ifs
  · exact hp
  · exact hq

theorem stopIfBad [Failing σ] : Keeps I (stopIfBad : Scan σ Unit) := fun _ h => h

theorem forEach [Failing σ] {item : ℕ → Scan σ α} (hitem : ∀ i, Keeps I (item i)) (i n : ℕ) :
    Keeps I (forEach item i n) := by
  induction n generalizing i with
  | zero => exact pure
  | succ n ih =>
    intro s hs
    rw [Scan.forEach]
    dsimp only
    split_ifs
    · exact hs
    · exact (hitem i).bind (fun x => (ih (i + 1)).bind fun xs => pure) s hs

end Keeps

variable [Failing σ]

/-- A recorded failure stays. -/
abbrev Sticky (p : Scan σ α) : Prop := Keeps (fun s => Failing.bad s = true) p

theorem Ensures.sticky {p : Scan σ α} {Q : α → Prop} (h : Ensures p Q) : Sticky p := by
  intro s hs
  by_contra hbad
  rw [Bool.not_eq_true] at hbad
  rw [(h s hbad).1] at hs
  cases hs

/-- A loop goes through no round after a failure. -/
theorem sticky_forEach (item : ℕ → Scan σ α) (i n : ℕ) : Sticky (forEach item i n) := by
  intro s hs
  cases n with
  | zero => exact hs
  | succ n => simp [forEach, hs]

variable [Remaining σ β]

/-! ## What a scanner takes -/

/-- A scanner reads a text with a value and goes on behind it. -/
def Runs (p : Scan σ α) (w : List β) (a : α) : Prop :=
  ∀ s more, Failing.bad s = false → Remaining.rest s = w ++ more →
    ∃ t, p.run s = (some a, t) ∧ Failing.bad t = false ∧ Remaining.rest t = more

namespace Runs

variable {w v : List β} {a : α}

theorem pure : Runs (Pure.pure a : Scan σ α) ([] : List β) a := fun s _ hs hrest => ⟨s, rfl, hs, hrest⟩

theorem bind {p : Scan σ α} {f : α → Scan σ γ} {b : γ} (hp : Runs p w a) (hf : Runs (f a) v b) :
    Runs (p >>= f) (w ++ v) b := by
  intro s more hs hrest
  obtain ⟨t, hrun, ht, hmore⟩ := hp s (v ++ more) hs (by rw [hrest, List.append_assoc])
  obtain ⟨u, hrun', hu, hmore'⟩ := hf t more ht hmore
  exact ⟨u, by rw [run_bind, hrun]; exact hrun', hu, hmore'⟩

theorem map {p : Scan σ α} (f : α → γ) (hp : Runs p w a) : Runs (f <$> p) w (f a) :=
  List.append_nil w ▸ hp.bind pure

end Runs

/-- If the flag is clear after `p`, it was clear before, and `p` took a text that is related to its value. -/
def Takes (p : Scan σ α) (R : α → List β → Prop) : Prop :=
  ∀ s, Failing.bad (p.run s).2 = false →
    Failing.bad s = false ∧ ∃ a w, (p.run s).1 = some a ∧ R a w ∧ Remaining.rest s = w ++ Remaining.rest (p.run s).2

namespace Takes

theorem pure {R : α → List β → Prop} {a : α} (h : R a []) : Takes (Pure.pure a : Scan σ α) R :=
  fun _ hs => ⟨hs, a, [], rfl, h, rfl⟩

theorem bind {p : Scan σ α} {f : α → Scan σ γ} {R : α → List β → Prop} {S : γ → List β → Prop} (hp : Takes p R)
    (hf : ∀ a, Takes (f a) fun b v => ∀ w, R a w → S b (w ++ v)) : Takes (p >>= f) S := by
  intro s hs
  rw [run_bind] at hs ⊢
  rcases hstep : p.run s with ⟨_ | a, t⟩
  · rw [hstep] at hs
    obtain ⟨-, a, w, ha, -⟩ := hp s (by simpa [hstep] using hs)
    simp [hstep] at ha
  · rw [hstep] at hs
    obtain ⟨ht, b, v, hb, hS, hrest⟩ := hf a t hs
    obtain ⟨hbad, a', w, ha, hR, hrest'⟩ := hp s (by simpa [hstep] using ht)
    obtain rfl : a = a' := by simpa [hstep] using ha
    refine ⟨hbad, b, w ++ v, hb, hS w hR, ?_⟩
    rw [hrest', hstep, List.append_assoc, ← hrest]

theorem map {p : Scan σ α} {R : α → List β → Prop} {S : γ → List β → Prop} (f : α → γ) (hp : Takes p R)
    (h : ∀ a w, R a w → S (f a) w) : Takes (f <$> p) S :=
  hp.bind fun a => .pure fun w hw => (List.append_nil w).symm ▸ h a w hw

theorem ite {b : Prop} [Decidable b] {p q : Scan σ α} {R : α → List β → Prop} (hp : b → Takes p R)
    (hq : ¬ b → Takes q R) : Takes (if b then p else q) R := by
  split_ifs with h
  · exact hp h
  · exact hq h

end Takes

/-! ## What a scanner reads -/

/-- A scanner reads a written text, if a condition holds: it takes exactly that where all of it is left, with
a value such as `Q` says, unless it fails, and it fails where only a beginning of it is left. -/
structure Reads (c : Prop) (p : Scan σ α) (w : List β) (Q : α → Prop) : Prop where
  sticky : Sticky p
  whole : c → ∀ s more, Failing.bad s = false → Remaining.rest s = w ++ more →
    Failing.bad (p.run s).2 = true ∨ ∃ a, (p.run s).1 = some a ∧ Q a ∧ Remaining.rest (p.run s).2 = more
  cut : c → ∀ s left, Failing.bad s = false → w = Remaining.rest s ++ left → left ≠ [] →
    Failing.bad (p.run s).2 = true

namespace Reads

variable {c : Prop} {w v : List β}

theorem pure {Q : α → Prop} {a : α} (h : c → Q a) : Reads c (Pure.pure a : Scan σ α) ([] : List β) Q where
  sticky := .pure
  whole hc _ _ _ hrest := .inr ⟨a, rfl, h hc, hrest⟩
  cut _ _ _ _ hrest hleft := absurd (List.append_eq_nil_iff.mp hrest.symm).2 hleft

/-- Under a condition that does not hold, everything reads everything. -/
theorem of_not {p : Scan σ α} {Q : α → Prop} (hp : Sticky p) (h : ¬ c) : Reads c p w Q where
  sticky := hp
  whole hc := absurd hc h
  cut hc := absurd hc h

/-- What always fails reads anything. -/
theorem of_bad {p : Scan σ α} {Q : α → Prop} (h : ∀ s, Failing.bad (p.run s).2 = true) : Reads c p w Q where
  sticky s _ := h s
  whole _ s _ _ _ := .inl (h s)
  cut _ s _ _ _ _ := h s

theorem mono {c' : Prop} {p : Scan σ α} {P Q : α → Prop} (hp : Reads c p w P) (hc : c' → c) (h : ∀ a, P a → Q a) :
    Reads c' p w Q where
  sticky := hp.sticky
  whole hc' s more hs hrest :=
    (hp.whole (hc hc') s more hs hrest).imp_right fun ⟨a, ha, hP, hmore⟩ => ⟨a, ha, h a hP, hmore⟩
  cut hc' := hp.cut (hc hc')

/-- What reads two texts one after the other reads both. -/
theorem bind {p : Scan σ α} {f : α → Scan σ γ} {P : α → Prop} {Q : γ → Prop} (hp : Reads c p w P)
    (hf : ∀ a, Reads (c ∧ P a) (f a) v Q) : Reads c (p >>= f) (w ++ v) Q := by
  -- a failure of the first part stays
  have hbad : ∀ s, Failing.bad (p.run s).2 = true → Failing.bad ((p >>= f).run s).2 = true := by
    intro s hs
    rw [run_bind]
    rcases hstep : p.run s with ⟨_ | a, t⟩ <;> rw [hstep] at hs
    · exact hs
    · exact (hf a).sticky t hs
  -- where the first part is left whole, the second one goes on
  have hnext : c → ∀ s more, Failing.bad s = false → Remaining.rest s = w ++ more →
      Failing.bad ((p >>= f).run s).2 = true ∨ ∃ a t, P a ∧ (p >>= f).run s = (f a).run t ∧
        Failing.bad t = false ∧ Remaining.rest t = more := by
    intro hc s more hs hrest
    rcases hp.whole hc s more hs hrest with h | ⟨a, ha, hP, hmore⟩
    · exact .inl (hbad s h)
    · by_cases hfail : Failing.bad (p.run s).2 = true
      · exact .inl (hbad s hfail)
      · refine .inr ⟨a, (p.run s).2, hP, ?_, by simpa using hfail, hmore⟩
        rw [run_bind]
        rcases hstep : p.run s with ⟨o, t⟩
        rw [hstep] at ha
        obtain rfl : o = some a := ha
        rfl
  have hcut : c → ∀ s front left, Failing.bad s = false → Remaining.rest s = w ++ front → v = front ++ left →
      left ≠ [] → Failing.bad ((p >>= f).run s).2 = true := by
    intro hc s front left hs hrest hv hleft
    rcases hnext hc s front hs hrest with h | ⟨a, t, hP, hrun, ht, hmore⟩
    · exact h
    · rw [hrun]
      exact (hf a).cut ⟨hc, hP⟩ t left ht (hmore.symm ▸ hv) hleft
  refine ⟨hp.sticky.bind fun a => (hf a).sticky, fun hc s more hs hrest => ?_, fun hc s left hs hrest hleft => ?_⟩
  · rw [List.append_assoc] at hrest
    rcases hnext hc s _ hs hrest with h | ⟨a, t, hP, hrun, ht, hmore⟩
    · exact .inl h
    · rw [hrun]
      exact (hf a).whole ⟨hc, hP⟩ t more ht hmore
  · rcases List.append_eq_append_iff.mp hrest with ⟨front, hfront, hback⟩ | ⟨front, hfront, hback⟩
    · exact hcut hc s front left hs hfront hback hleft
    · cases front with
      | nil => exact hcut hc s [] left hs (by simpa using hfront.symm) (by simpa using hback.symm) hleft
      | cons b front => exact hbad s (hp.cut hc s _ hs hfront (List.cons_ne_nil b front))

/-- Of a text that was cut short, what is left of it is cut short, too. -/
theorem advance {p : Scan σ α} {Q : α → Prop} (hp : Reads True p w Q) {s : σ} {left : List β}
    (hs : Failing.bad s = false) (hrest : w ++ v = Remaining.rest s ++ left) :
    Failing.bad (p.run s).2 = true ∨
      ∃ a, (p.run s).1 = some a ∧ Q a ∧ v = Remaining.rest (p.run s).2 ++ left := by
  rcases List.append_eq_append_iff.mp hrest with ⟨front, hfront, hback⟩ | ⟨front, hfront, hback⟩
  · rcases hp.whole trivial s front hs hfront with h | ⟨a, ha, hQ, hmore⟩
    · exact .inl h
    · exact .inr ⟨a, ha, hQ, hmore.symm ▸ hback⟩
  · cases front with
    | nil =>
      rcases hp.whole trivial s [] hs (by simpa using hfront.symm) with h | ⟨a, ha, hQ, hmore⟩
      · exact .inl h
      · exact .inr ⟨a, ha, hQ, by rw [hmore]; simpa using hback.symm⟩
    | cons b front => exact .inl (hp.cut trivial s _ hs hfront (List.cons_ne_nil b front))

/-- What reads a text reads it before what takes nothing. -/
theorem bind_nil {p : Scan σ α} {f : α → Scan σ γ} {P : α → Prop} {Q : γ → Prop} (hp : Reads c p w P)
    (hf : ∀ a, Reads (c ∧ P a) (f a) ([] : List β) Q) : Reads c (p >>= f) w Q :=
  List.append_nil w ▸ hp.bind hf

/-- What takes nothing may come before what reads a text. -/
theorem nil_bind {p : Scan σ α} {f : α → Scan σ γ} {P : α → Prop} {Q : γ → Prop} (hp : Reads c p ([] : List β) P)
    (hf : ∀ a, Reads (c ∧ P a) (f a) v Q) : Reads c (p >>= f) v Q :=
  List.nil_append v ▸ hp.bind hf

theorem map {p : Scan σ α} {P : α → Prop} {Q : γ → Prop} (f : α → γ) (hp : Reads c p w P) (h : ∀ a, P a → Q (f a)) :
    Reads c (f <$> p) w Q :=
  hp.bind_nil fun a => .pure fun ha => h a ha.2

/-- A branch reads what the arm reads that is taken. -/
theorem ite {b : Prop} [Decidable b] {p q : Scan σ α} {Q : α → Prop} (hp : Reads (c ∧ b) p w Q)
    (hq : Reads (c ∧ ¬ b) q w Q) : Reads c (if b then p else q) w Q := by
  split_ifs with h
  · exact hp.mono (fun hc => ⟨hc, h⟩) fun _ ha => ha
  · exact hq.mono (fun hc => ⟨hc, h⟩) fun _ ha => ha

/-- Leaving on a failure takes nothing. -/
theorem stopIfBad : Reads c (stopIfBad : Scan σ Unit) ([] : List β) fun _ => True where
  sticky := .stopIfBad
  whole _ s more hs hrest := .inr ⟨(), by simp [Scan.stopIfBad, hs], trivial, hrest⟩
  cut _ _ _ _ hrest hleft := absurd (List.append_eq_nil_iff.mp hrest.symm).2 hleft

/-- A loop reads the texts of as many items as it has rounds. -/
theorem forEach {item : ℕ → Scan σ α} {write : δ → List β} {items : List δ} {n : ℕ} (hn : c → n = items.length)
    (hitem : ∀ i, ∀ x ∈ items, Reads c (item i) (write x) fun _ => True) (i : ℕ) :
    Reads c (forEach item i n) (items.flatMap write) fun _ => True := by
  induction items generalizing i n with
  | nil =>
    refine ⟨sticky_forEach item i n, fun hc => ?_, fun _ s left _ hrest hleft => ?_⟩
    · rw [hn hc]
      exact (Reads.pure fun _ => trivial).whole hc
    · exact absurd (List.append_eq_nil_iff.mp hrest.symm).2 hleft
  | cons x items ih =>
    have hbody : c → Reads c (do
        let y ← item i
        let ys ← Scan.forEach item (i + 1) items.length
        Pure.pure (y :: ys) : Scan σ (List α)) (write x ++ items.flatMap write) fun _ => True := by
      intro hc
      have hrest := ih (fun _ => rfl) (fun j z hz => hitem j z (List.mem_cons_of_mem _ hz)) (i + 1)
      refine (hitem i x List.mem_cons_self).bind fun y => Reads.map _ (hrest.mono And.left fun _ h => h) ?_
      exact fun _ _ => trivial
    refine ⟨sticky_forEach item i n, fun hc s more hs hrest => ?_, fun hc s left hs hrest hleft => ?_⟩
    · rw [hn hc, List.length_cons, run_forEach_succ item i items.length hs]
      exact (hbody hc).whole hc s more hs hrest
    · rw [hn hc, List.length_cons, run_forEach_succ item i items.length hs]
      exact (hbody hc).cut hc s left hs hrest hleft

end Reads

end Scan

end CtBrowser.Foundations
