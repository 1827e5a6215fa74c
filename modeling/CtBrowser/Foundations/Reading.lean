import Mathlib.Tactic

/-!
# Reading a Grammar

A grammar relates words to the values they have, with the choices left open. A reader takes a
value off the front of a list and never goes back. A reader reads a grammar before what may
follow when the two agree wherever the rest may follow the value.

## Main definitions

- `Grammar` — words and their values.
- `Reader` — a deterministic reader.
- `Reads` — a reader reads a grammar.

## Main results

- `Reads.bind` — one reader after the other reads one grammar after the other.
- `Reads.attempt` — a reader that may fail reads what may be missing.
-/

namespace CtBrowser.Foundations.Reading

variable {α β γ : Type}

/-! ## Grammars -/

/-- Words and the values they have. -/
structure Grammar (α β : Type) where
  /-- A word has a value. -/
  derives : List α → β → Prop

namespace Grammar

instance : Monad (Grammar α) where
  pure b := ⟨fun u c => u = [] ∧ c = b⟩
  bind N M := ⟨fun u c => ∃ u₁ u₂ b, u = u₁ ++ u₂ ∧ N.derives u₁ b ∧ (M b).derives u₂ c⟩

/-- One word. -/
def literal (w : List α) : Grammar α Unit := ⟨fun u _ => u = w⟩

/-- A condition on what was derived before. -/
def require (P : Prop) : Grammar α Unit := ⟨fun u _ => u = [] ∧ P⟩

/-- The words of a set, with themselves as values. -/
def matching (P : List α → Prop) : Grammar α (List α) := ⟨fun u v => v = u ∧ P u⟩

/-- Either of two grammars. -/
def alt (N M : Grammar α β) : Grammar α β := ⟨fun u b => N.derives u b ∨ M.derives u b⟩

/-- A grammar whose word may be missing. -/
def opt (N : Grammar α β) : Grammar α (Option β) :=
  ⟨fun u b => (u = [] ∧ b = none) ∨ ∃ c, b = some c ∧ N.derives u c⟩

/-- A grammar with the word beside the value. -/
def captured (N : Grammar α β) : Grammar α (List α × β) := ⟨fun u b => u = b.1 ∧ N.derives u b.2⟩

/-- A word for each value. -/
def many (N : Grammar α β) : Grammar α (List β) :=
  ⟨fun u bs => ∃ us : List (List α), u = us.flatten ∧ List.Forall₂ N.derives us bs⟩

variable {N : Grammar α β} {M : β → Grammar α γ} {u : List α}

@[simp]
theorem derives_pure {b c : β} : (pure b : Grammar α β).derives u c ↔ u = [] ∧ c = b := Iff.rfl

@[simp]
theorem derives_literal {w : List α} {b : Unit} : (literal w).derives u b ↔ u = w := Iff.rfl

@[simp]
theorem derives_alt {N M : Grammar α β} {b : β} :
    (alt N M).derives u b ↔ N.derives u b ∨ M.derives u b := Iff.rfl

theorem derives_require_bind {P : Prop} {M : Unit → Grammar α γ} {c : γ} :
    (require P >>= M).derives u c ↔ P ∧ (M ()).derives u c := by
  constructor
  · rintro ⟨_, _, _, rfl, ⟨rfl, hP⟩, hM⟩
    exact ⟨hP, hM⟩
  · rintro ⟨hP, hM⟩
    exact ⟨[], u, (), rfl, ⟨rfl, hP⟩, hM⟩

theorem derives_literal_bind {w : List α} {M : Unit → Grammar α γ} {c : γ} :
    (literal w >>= M).derives u c ↔ ∃ v, u = w ++ v ∧ (M ()).derives v c := by
  constructor
  · rintro ⟨_, v, _, rfl, rfl, hM⟩
    exact ⟨v, rfl, hM⟩
  · rintro ⟨v, rfl, hM⟩
    exact ⟨w, v, (), rfl, rfl, hM⟩

/-- What comes second may be changed as long as it derives the same after what comes first. -/
theorem bind_congr {M' : β → Grammar α γ} {c : γ}
    (h : ∀ v b, N.derives v b → ∀ w, (M b).derives w c ↔ (M' b).derives w c) :
    (N >>= M).derives u c ↔ (N >>= M').derives u c := by
  constructor
  · rintro ⟨v, w, b, rfl, hN, hM⟩
    exact ⟨v, w, b, rfl, hN, (h v b hN w).mp hM⟩
  · rintro ⟨v, w, b, rfl, hN, hM⟩
    exact ⟨v, w, b, rfl, hN, (h v b hN w).mpr hM⟩

theorem derives_many_nil : N.many.derives u [] ↔ u = [] := by
  constructor
  · rintro ⟨us, rfl, h⟩
    cases h
    rfl
  · rintro rfl
    exact ⟨[], rfl, .nil⟩

theorem derives_many_cons {b : β} {bs : List β} : N.many.derives u (b :: bs) ↔
    ∃ u₁ u₂, u = u₁ ++ u₂ ∧ N.derives u₁ b ∧ N.many.derives u₂ bs := by
  constructor
  · rintro ⟨us, rfl, h⟩
    cases h with
    | cons hb hbs => exact ⟨_, _, rfl, hb, _, rfl, hbs⟩
  · rintro ⟨u₁, _, rfl, hb, us, rfl, hbs⟩
    exact ⟨u₁ :: us, rfl, .cons hb hbs⟩

end Grammar

/-! ## Readers -/

/-- Takes a value off the front of a list, or fails. -/
abbrev Reader (α β : Type) := StateT (List α) Option β

/-- Reads a value if there is one. -/
def attempt (p : Reader α β) : Reader α (Option β) := fun t =>
  match p t with
  | some (b, rest) => some (some b, rest)
  | none => some (none, t)

theorem Reader.bind_apply (p : Reader α β) (q : β → Reader α γ) (t : List α) :
    (p >>= q) t = (p t).bind fun x => q x.1 x.2 := rfl

theorem Reader.pure_apply (b : β) (t : List α) : (pure b : Reader α β) t = some (b, t) := rfl

theorem Reader.guard_apply (P : Prop) [Decidable P] (t : List α) :
    (guard P : Reader α Unit) t = if P then some ((), t) else none := by
  by_cases hP : P
  · rw [if_pos hP, guard, if_pos hP]
    rfl
  · rw [if_neg hP, guard, if_neg hP]
    rfl

/-- A reader reads a grammar: wherever the rest may follow the value, the reader stops there
with the value if and only if what is before it is a word with the value. -/
def Reads (p : Reader α β) (N : Grammar α β) (F : β → List α → Prop) : Prop :=
  ∀ b t rest, F b rest → (p t = some (b, rest) ↔ ∃ u, t = u ++ rest ∧ N.derives u b)

namespace Reads

variable {p : Reader α β} {N : Grammar α β} {F F' : β → List α → Prop}

theorem apply (h : Reads p N F) {u rest : List α} {b : β} (hu : N.derives u b) (hF : F b rest) :
    p (u ++ rest) = some (b, rest) :=
  (h b _ rest hF).mpr ⟨u, rfl, hu⟩

theorem weaken (h : Reads p N F) (hF : ∀ b rest, F' b rest → F b rest) : Reads p N F' :=
  fun b t rest hrest => h b t rest (hF b rest hrest)

theorem congr {N' : Grammar α β} (h : Reads p N F) (hN : ∀ u b, N.derives u b ↔ N'.derives u b) :
    Reads p N' F := by
  intro b t rest hrest
  rw [h b t rest hrest]
  exact exists_congr fun u => and_congr_right fun _ => hN u b

theorem pure (b : β) : Reads (Pure.pure b : Reader α β) (Pure.pure b) fun _ _ => True := by
  intro c t rest _
  rw [Reader.pure_apply]
  constructor
  · intro h
    cases h
    exact ⟨[], rfl, rfl, rfl⟩
  · rintro ⟨u, rfl, rfl, rfl⟩
    rfl

theorem guarded (P : Prop) [Decidable P] :
    Reads (guard P : Reader α Unit) (Grammar.require P) fun _ _ => True := by
  intro c t rest _
  rw [Reader.guard_apply]
  constructor
  · intro h
    split_ifs at h with hP
    cases h
    exact ⟨[], rfl, rfl, hP⟩
  · rintro ⟨u, rfl, rfl, hP⟩
    rw [if_pos hP]
    rfl

/-- One reader after the other reads one grammar after the other, when what the second one
reads may follow the value of the first. -/
theorem bind {q : β → Reader α γ} {M : β → Grammar α γ} {G : γ → List α → Prop}
    (hp : Reads p N F) (hq : ∀ b, Reads (q b) (M b) G)
    (hF : ∀ b u c rest, (M b).derives u c → G c rest → F b (u ++ rest)) :
    Reads (p >>= q) (N >>= M) G := by
  intro c t rest hrest
  rw [Reader.bind_apply]
  constructor
  · intro h
    obtain ⟨⟨b, t'⟩, hpt, hqt⟩ := Option.bind_eq_some_iff.mp h
    obtain ⟨u₂, rfl, hu₂⟩ := (hq b c t' rest hrest).mp hqt
    obtain ⟨u₁, rfl, hu₁⟩ := (hp b t _ (hF b u₂ c rest hu₂ hrest)).mp hpt
    exact ⟨u₁ ++ u₂, (List.append_assoc ..).symm, u₁, u₂, b, rfl, hu₁, hu₂⟩
  · rintro ⟨-, rfl, u₁, u₂, b, rfl, hu₁, hu₂⟩
    rw [List.append_assoc, hp.apply hu₁ (hF b u₂ c rest hu₂ hrest)]
    exact (hq b).apply hu₂ hrest

/-- A reader that needs nothing of what follows goes before any other. -/
theorem bind_of_true {q : β → Reader α γ} {M : β → Grammar α γ} {G : γ → List α → Prop}
    (hp : Reads p N fun _ _ => True) (hq : ∀ b, Reads (q b) (M b) G) :
    Reads (p >>= q) (N >>= M) G :=
  hp.bind hq fun _ _ _ _ _ _ => trivial

/-- A reader that may fail reads what may be missing, if it fails before what follows a missing
word. -/
theorem attempt {G : Option β → List α → Prop} (h : Reads p N F)
    (hfail : ∀ rest, G none rest → p rest = none)
    (hsome : ∀ b rest, G (some b) rest → F b rest) : Reads (Reading.attempt p) N.opt G := by
  intro b t rest hrest
  rw [Reading.attempt]
  cases b with
  | none =>
    constructor
    · intro ht
      split at ht
      · cases ht
      · cases ht
        exact ⟨[], rfl, .inl ⟨rfl, rfl⟩⟩
    · rintro ⟨u, rfl, ⟨rfl, -⟩ | ⟨c, hc, -⟩⟩
      · rw [List.nil_append, hfail rest hrest]
      · cases hc
  | some b =>
    constructor
    · intro ht
      split at ht
      · next hpt =>
        cases ht
        obtain ⟨u, rfl, hu⟩ := (h b t rest (hsome b rest hrest)).mp hpt
        exact ⟨u, rfl, .inr ⟨b, rfl, hu⟩⟩
      · cases ht
    · rintro ⟨u, rfl, ⟨-, hb⟩ | ⟨c, hc, hu⟩⟩
      · cases hb
      · cases hc
        rw [h.apply hu (hsome b rest hrest)]

/-- A reader chosen by what is next reads either of two grammars. -/
theorem choice {test : List α → Bool} {q : Reader α β} {M : Grammar α β} (hp : Reads p N F)
    (hq : Reads q M F) (hN : ∀ u b rest, N.derives u b → test (u ++ rest) = true)
    (hM : ∀ u b rest, M.derives u b → F b rest → test (u ++ rest) = false) :
    Reads (fun t => if test t = true then p t else q t) (N.alt M) F := by
  intro b t rest hrest
  dsimp only
  by_cases ht : test t = true
  · rw [if_pos ht, hp b t rest hrest]
    refine exists_congr fun u => and_congr_right fun hu => ⟨.inl, fun h => h.resolve_right fun hm => ?_⟩
    rw [hu, hM u b rest hm hrest] at ht
    cases ht
  · rw [if_neg ht, hq b t rest hrest]
    refine exists_congr fun u => and_congr_right fun hu => ⟨.inr, fun h => h.resolve_left fun hn => ht ?_⟩
    rw [hu]
    exact hN u b rest hn

/-- A reader tried before another one reads either of two grammars, if it fails on the words of
the second. -/
theorem orElse {q : Reader α β} {M : Grammar α β} (hp : Reads p N F) (hq : Reads q M F)
    (hM : ∀ u b rest, M.derives u b → F b rest → p (u ++ rest) = none) :
    Reads (fun t => (p t).or (q t)) (N.alt M) F := by
  intro b t rest hrest
  dsimp only
  constructor
  · intro h
    rcases Option.or_eq_some_iff.mp h with h | ⟨-, h⟩
    · obtain ⟨u, rfl, hu⟩ := (hp b t rest hrest).mp h
      exact ⟨u, rfl, .inl hu⟩
    · obtain ⟨u, rfl, hu⟩ := (hq b t rest hrest).mp h
      exact ⟨u, rfl, .inr hu⟩
  · rintro ⟨u, rfl, hu | hu⟩
    · rw [hp.apply hu hrest, Option.some_or]
    · rw [hM u b rest hu hrest, Option.none_or, hq.apply hu hrest]

/-- What is read, changed by a function. -/
theorem map {f : β → γ} {G : γ → List α → Prop} (hp : Reads p N F)
    (hF : ∀ b rest, G (f b) rest → F b rest) :
    Reads (p >>= fun b => Pure.pure (f b)) (N >>= fun b => Pure.pure (f b)) G :=
  hp.bind (fun b => (Reads.pure (f b)).weaken fun _ _ _ => trivial)
    fun b u c rest hu hrest => by
      obtain ⟨rfl, rfl⟩ := hu
      exact hF b rest hrest

end Reads

end CtBrowser.Foundations.Reading
