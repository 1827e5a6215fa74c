import Mathlib.Tactic

/-!
# Reserved Slots

Code that files entries in growing tables. It appends, or it reserves slots at the end of a
table and fills them later, while what it files in between goes behind them. What such code
says about its entries is said about the tables as they are at the end, whatever was filed
after it ran.

## Main definitions

- `Filing` — a state with tables, an invariant, and what is asked of an entry.
- `Filing.Writes` — what a computation files, and what holds of any later tables.
- `Filing.Leaves` — a table that a computation leaves as it is.

## Main results

- `Writes.bind` — one computation after another.
- `Writes.reserve`, `Writes.fillNext` — slots reserved and then filled are one run of the table.
- `Writes.pushEach` — entries pushed one by one are one run of the table.
-/

namespace CtBrowser.Foundations.ReservedSlots

variable {σ ι α β : Type} {E : ι → Type}

/-- A table's entries from a place on. -/
def RunAt {ε : Type} (l : List ε) (first : ℕ) (run : List ε) : Prop :=
  first + run.length ≤ l.length ∧ ∀ i x, run[i]? = some x → l[first + i]? = some x

theorem runAt_cons {ε : Type} {l run : List ε} {first : ℕ} {x : ε} :
    RunAt l first (x :: run) ↔ l[first]? = some x ∧ RunAt l (first + 1) run := by
  constructor
  · rintro ⟨hlength, h⟩
    refine ⟨by simpa using h 0 x rfl, ?_, fun i y hy => ?_⟩
    · rw [List.length_cons] at hlength
      omega
    · have hat := h (i + 1) y (by simpa using hy)
      rwa [← Nat.add_assoc, Nat.add_right_comm] at hat
  · rintro ⟨hx, hlength, h⟩
    refine ⟨by rw [List.length_cons]; omega, fun i y hy => ?_⟩
    cases i with
    | zero => simpa using hx.trans hy
    | succ i =>
      have hat := h i y (by simpa using hy)
      rwa [Nat.add_right_comm] at hat

theorem RunAt.append {ε : Type} {l run : List ε} {first : ℕ} (h : RunAt l first run)
    (more : List ε) : RunAt (l ++ more) first run := by
  obtain ⟨hlength, hat⟩ := h
  refine ⟨by rw [List.length_append]; omega, fun i x hx => ?_⟩
  have hold := hat i x hx
  obtain ⟨hlt, -⟩ := List.getElem?_eq_some_iff.mp hold
  rw [List.getElem?_append_left hlt, hold]

theorem runAt_append_self {ε : Type} (l run : List ε) : RunAt (l ++ run) l.length run := by
  refine ⟨by rw [List.length_append], fun i x hx => ?_⟩
  rw [List.getElem?_append_right (Nat.le_add_right ..), Nat.add_sub_cancel_left, hx]

/-- The slots of one table from a place on. -/
def slots (t : ι) (first count : ℕ) (u : ι) : Set ℕ :=
  {i | u = t ∧ first ≤ i ∧ i < first + count}

/-- No slots. -/
def noSlots (_ : ι) : Set ℕ := ∅

theorem slots_zero (t : ι) (first : ℕ) : slots t first 0 = noSlots := by
  funext u
  apply Set.eq_empty_of_forall_notMem
  rintro i ⟨-, hle, hlt⟩
  omega

theorem runAt_nil {ε : Type} {l : List ε} {first : ℕ} (h : first ≤ l.length) : RunAt l first [] :=
  ⟨h, fun i x hx => by simp at hx⟩

/-- Code that files entries in tables. -/
structure Filing (σ : Type) (E : ι → Type) where
  tables : σ → (t : ι) → List (E t)
  -- tables whose old entries are referred to again
  shared : ι → Prop
  -- what every computation keeps
  Inv : σ → Prop
  -- what is asked of an entry, in view of the final tables
  Good : ((t : ι) → List (E t)) → (t : ι) → E t → Prop

namespace Filing

variable (F : Filing σ E)

/-- The slots are there, in tables that are not shared. -/
def Below (W : ι → Set ℕ) (s : σ) : Prop :=
  ∀ t, ∀ i ∈ W t, ¬ F.shared t ∧ i < (F.tables s t).length

/-- Nothing that was filed before is changed, but for some slots. -/
def Keeps (W : ι → Set ℕ) (s s' : σ) : Prop :=
  ∀ t, (F.tables s t).length ≤ (F.tables s' t).length ∧
    ∀ i < (F.tables s t).length, i ∉ W t → (F.tables s' t)[i]? = (F.tables s t)[i]?

/-- The tables still hold what was filed on the way from one state to another. -/
def Agrees (W : ι → Set ℕ) (s s' : σ) (d : (t : ι) → List (E t)) : Prop :=
  ∀ t, (F.tables s' t).length ≤ (d t).length ∧
    ∀ i x, F.shared t ∨ (F.tables s t).length ≤ i ∨ i ∈ W t →
      (F.tables s' t)[i]? = some x → (d t)[i]? = some x

/-- The entries filed on the way from one state to another are as they should be. -/
def FiledGood (W : ι → Set ℕ) (s s' : σ) (d : (t : ι) → List (E t)) : Prop :=
  ∀ t i x, (F.tables s t).length ≤ i ∨ i ∈ W t → (F.tables s' t)[i]? = some x → F.Good d t x

/-- From a state, a computation fills the slots `W` and files entries behind all others; under
the condition `P`, any later tables have `Q`. -/
def Writes (s : σ) (W : ι → Set ℕ) (P : ((t : ι) → List (E t)) → Prop) (m : StateM σ α)
    (Q : α → ((t : ι) → List (E t)) → Prop) : Prop :=
  F.Inv s → F.Below W s →
    F.Inv (m s).2 ∧ F.Keeps W s (m s).2 ∧
      ∀ d, F.Agrees W s (m s).2 d → P d → Q (m s).1 d ∧ F.FiledGood W s (m s).2 d

variable {F} {s : σ} {W W' : ι → Set ℕ} {P P' : ((t : ι) → List (E t)) → Prop}
  {m : StateM σ α} {f : α → StateM σ β} {Q Q' : α → ((t : ι) → List (E t)) → Prop}
  {R : β → ((t : ι) → List (E t)) → Prop} {t : ι}

theorem Keeps.trans {s₁ s₂ s₃ : σ} (h : F.Keeps W s₁ s₂) (h' : F.Keeps W' s₂ s₃) :
    F.Keeps (fun t => W t ∪ W' t) s₁ s₃ := by
  intro t
  obtain ⟨hlength, hkeep⟩ := h t
  obtain ⟨hlength', hkeep'⟩ := h' t
  refine ⟨hlength.trans hlength', fun i hi hmem => ?_⟩
  rw [Set.mem_union, not_or] at hmem
  rw [hkeep' i (hi.trans_le hlength) hmem.2, hkeep i hi hmem.1]

theorem Below.mono {s' : σ} (h : F.Below W s)
    (hlength : ∀ t, (F.tables s t).length ≤ (F.tables s' t).length) : F.Below W s' :=
  fun t i hi => ⟨(h t i hi).1, (h t i hi).2.trans_le (hlength t)⟩

/-- What was filed first is still there when the later slots are others. -/
theorem Agrees.first {s₁ s₂ s₃ : σ} {d : (t : ι) → List (E t)}
    (h : F.Agrees (fun t => W t ∪ W' t) s₁ s₃ d) (hkeep : F.Keeps W' s₂ s₃)
    (hbelow : F.Below W' s₁) (hdisjoint : ∀ t, ∀ i ∈ W t, i ∉ W' t) :
    F.Agrees W s₁ s₂ d := by
  intro t
  obtain ⟨hlength', hagree⟩ := h t
  refine ⟨(hkeep t).1.trans hlength', fun i x hi hx => ?_⟩
  obtain ⟨hlt, -⟩ := List.getElem?_eq_some_iff.mp hx
  have hout : i ∉ W' t := by
    intro hmem
    obtain ⟨hshared, hin⟩ := hbelow t i hmem
    rcases hi with hi | hi | hi
    · exact hshared hi
    · omega
    · exact hdisjoint t i hi hmem
  refine hagree i x ?_ ?_
  · rcases hi with hi | hi | hi
    · exact .inl hi
    · exact .inr (.inl hi)
    · exact .inr (.inr (.inl hi))
  · rw [(hkeep t).2 i hlt hout, hx]

theorem Agrees.second {s₁ s₂ s₃ : σ} {d : (t : ι) → List (E t)}
    (h : F.Agrees (fun t => W t ∪ W' t) s₁ s₃ d)
    (hlength : ∀ t, (F.tables s₁ t).length ≤ (F.tables s₂ t).length) : F.Agrees W' s₂ s₃ d := by
  intro t
  refine ⟨(h t).1, fun i x hi hx => (h t).2 i x ?_ hx⟩
  rcases hi with hi | hi | hi
  · exact .inl hi
  · exact .inr (.inl ((hlength t).trans hi))
  · exact .inr (.inr (.inr hi))

/-- What two computations file is what each of them files. -/
theorem FiledGood.trans {s₁ s₂ s₃ : σ} {d : (t : ι) → List (E t)}
    (h : F.FiledGood W s₁ s₂ d) (h' : F.FiledGood W' s₂ s₃ d) (hkeep : F.Keeps W' s₂ s₃) :
    F.FiledGood (fun t => W t ∪ W' t) s₁ s₃ d := by
  intro t i x hi hx
  by_cases hlater : (F.tables s₂ t).length ≤ i ∨ i ∈ W' t
  · exact h' t i x hlater hx
  · rw [not_or, not_le] at hlater
    rw [(hkeep t).2 i hlater.1 hlater.2] at hx
    refine h t i x ?_ hx
    rcases hi with hi | hi | hi
    · exact .inl hi
    · exact .inr hi
    · exact absurd hi hlater.2

theorem Writes.weaken (h : F.Writes s W P m Q) (hP : ∀ d, P' d → P d)
    (hQ : ∀ a d, P' d → Q a d → Q' a d) : F.Writes s W P' m Q' := by
  intro hinv hbelow
  obtain ⟨hinv', hkeep, hlater⟩ := h hinv hbelow
  refine ⟨hinv', hkeep, fun d hagree hd => ?_⟩
  obtain ⟨hq, hgood⟩ := hlater d hagree (hP d hd)
  exact ⟨hQ _ d hd hq, hgood⟩

theorem Writes.pure (a : α)
    (h : ∀ d, (∀ t, (F.tables s t).length ≤ (d t).length) → P d → Q a d) :
    F.Writes s noSlots P (pure a) Q := by
  intro hinv _
  refine ⟨hinv, fun t => ⟨le_rfl, fun _ _ _ => rfl⟩, fun d hagree hd => ?_⟩
  refine ⟨h d (fun t => (hagree t).1) hd, fun t i x hi hx => ?_⟩
  obtain ⟨hlt, -⟩ := List.getElem?_eq_some_iff.mp hx
  rcases hi with hi | hi
  · exact absurd hlt (not_lt.mpr hi)
  · exact absurd hi (Set.notMem_empty i)

/-- One computation after another, which fill different slots. -/
theorem Writes.bind_slots (hm : F.Writes s W P m Q)
    (hf : F.Writes (m s).2 W' (fun d => P d ∧ Q (m s).1 d) (f (m s).1) R)
    (hdisjoint : ∀ t, ∀ i ∈ W t, i ∉ W' t) :
    F.Writes s (fun t => W t ∪ W' t) P (m >>= f) R := by
  intro hinv hbelow
  have hbelow₁ : F.Below W s := fun t i hi => hbelow t i (.inl hi)
  have hbelow₂ : F.Below W' s := fun t i hi => hbelow t i (.inr hi)
  obtain ⟨hinv₁, hkeep₁, hlater₁⟩ := hm hinv hbelow₁
  have hlength := fun t => (hkeep₁ t).1
  obtain ⟨hinv₂, hkeep₂, hlater₂⟩ := hf hinv₁ (hbelow₂.mono hlength)
  refine ⟨hinv₂, hkeep₁.trans hkeep₂, fun d hagree hd => ?_⟩
  obtain ⟨hq, hgood₁⟩ := hlater₁ d (hagree.first hkeep₂ hbelow₂ hdisjoint) hd
  obtain ⟨hr, hgood₂⟩ := hlater₂ d (hagree.second hlength) ⟨hd, hq⟩
  exact ⟨hr, hgood₁.trans hgood₂ hkeep₂⟩

/-- One computation after another, from the state that it leaves. -/
theorem Writes.andThen (hm : F.Writes s noSlots P m Q)
    (hf : F.Writes (m s).2 W (fun d => P d ∧ Q (m s).1 d) (f (m s).1) R) :
    F.Writes s W P (m >>= f) R := by
  have h := hm.bind_slots hf fun t i hi => absurd hi (Set.notMem_empty i)
  simpa only [noSlots, Set.empty_union] using h

/-- One computation after another, whatever the first one leaves. -/
theorem Writes.bind (hm : F.Writes s noSlots P m Q)
    (hf : ∀ a s', F.Writes s' W (fun d => P d ∧ Q a d) (f a) R) :
    F.Writes s W P (m >>= f) R :=
  hm.andThen (hf _ _)

/-- A computation that fills slots, and then one that does not. -/
theorem Writes.bind_after (hm : F.Writes s W P m Q)
    (hf : ∀ a s', F.Writes s' noSlots (fun d => P d ∧ Q a d) (f a) R) :
    F.Writes s W P (m >>= f) R := by
  have h := hm.bind_slots (hf _ _) fun t i _ => Set.notMem_empty i
  simpa only [noSlots, Set.union_empty] using h

/-- Reading the state files nothing. -/
theorem Writes.get {f : σ → StateM σ β} (h : F.Writes s W P (f s) R) :
    F.Writes s W P (MonadState.get >>= f) R := h

/-- What a list of computations files, one after another. -/
theorem Writes.mapM {f : α → StateM σ β} {Q : α → β → ((t : ι) → List (E t)) → Prop} {l : List α}
    (h : ∀ a ∈ l, ∀ s, F.Writes s noSlots P (f a) (Q a)) (s : σ) :
    F.Writes s noSlots P (l.mapM f) fun bs d => List.Forall₂ (Q · · d) l bs := by
  induction l generalizing s P with
  | nil => exact Writes.pure [] fun _ _ _ => .nil
  | cons a l ih =>
    rw [List.mapM_cons]
    refine (h a (.head l) s).bind fun b s' => ?_
    have hl : ∀ a' ∈ l, ∀ s, F.Writes s noSlots (fun d => P d ∧ Q a b d) (f a') (Q a') :=
      fun a' ha' s => (h a' (.tail a ha') s).weaken (fun _ hd => hd.1) fun _ _ _ hq => hq
    exact (ih hl s').bind fun bs _ => Writes.pure (b :: bs) fun _ _ hd => .cons hd.1.2 hd.2

/-! ### Changes of one table -/

section Changes

variable [DecidableEq ι]

variable (F) in
/-- A computation only changes one table. -/
def Changes (t : ι) (f : List (E t) → List (E t)) (s s' : σ) : Prop :=
  F.tables s' = Function.update (F.tables s) t (f (F.tables s t)) ∧ (F.Inv s → F.Inv s')

theorem Changes.tables_self {g : List (E t) → List (E t)} {s s' : σ} (h : F.Changes t g s s') :
    F.tables s' t = g (F.tables s t) := by
  rw [h.1, Function.update_self]

theorem Changes.tables_of_ne {g : List (E t) → List (E t)} {s s' : σ} (h : F.Changes t g s s')
    {u : ι} (hu : u ≠ t) : F.tables s' u = F.tables s u := by
  rw [h.1, Function.update_of_ne hu]

/-- Entries go to the end of a table. -/
theorem Changes.keeps_append {l : List (E t)} {s s' : σ} (h : F.Changes t (· ++ l) s s') :
    F.Keeps noSlots s s' := by
  intro u
  by_cases hu : u = t
  · subst hu
    rw [h.tables_self]
    refine ⟨by simp, fun i hi _ => List.getElem?_append_left hi⟩
  · rw [h.tables_of_ne hu]
    exact ⟨le_rfl, fun _ _ _ => rfl⟩

theorem Agrees.runAt {l : List (E t)} {s s' : σ} {d : (t : ι) → List (E t)}
    (hagree : F.Agrees noSlots s s' d) (h : F.Changes t (· ++ l) s s') :
    RunAt (d t) (F.tables s t).length l := by
  obtain ⟨hlength, hmem⟩ := hagree t
  rw [h.tables_self] at hlength hmem
  refine ⟨by simpa using hlength, fun i x hx => ?_⟩
  refine hmem _ x (.inr (.inl (Nat.le_add_right ..))) ?_
  rw [List.getElem?_append_right (Nat.le_add_right ..), Nat.add_sub_cancel_left, hx]

/-- Entries appended to a table are a run of it. -/
theorem Writes.append {l : List (E t)} {m : StateM σ α} (h : F.Changes t (· ++ l) s (m s).2)
    (hgood : ∀ d, P d → ∀ x ∈ l, F.Good d t x)
    (hrun : ∀ d, RunAt (d t) (F.tables s t).length l → Q (m s).1 d) :
    F.Writes s noSlots P m Q := by
  intro hinv _
  refine ⟨h.2 hinv, h.keeps_append, fun d hagree hd => ⟨hrun d (hagree.runAt h), ?_⟩⟩
  intro u i x hi hx
  rcases hi with hi | hi
  · by_cases hu : u = t
    · subst hu
      rw [h.tables_self, List.getElem?_append_right hi] at hx
      exact hgood d hd x (List.mem_of_getElem? hx)
    · rw [h.tables_of_ne hu] at hx
      obtain ⟨hlt, -⟩ := List.getElem?_eq_some_iff.mp hx
      exact absurd hlt (not_lt.mpr hi)
  · exact absurd hi (Set.notMem_empty i)

/-- Filling one slot. -/
theorem Writes.fill {slot : ℕ} {x : E t} {m : StateM σ α}
    (h : F.Changes t (·.set slot x) s (m s).2) (hgood : ∀ d, P d → F.Good d t x) :
    F.Writes s (slots t slot 1) P m fun _ d => (d t)[slot]? = some x := by
  intro hinv hbelow
  have hslot : slot ∈ slots t slot 1 t := ⟨rfl, le_rfl, Nat.lt_succ_self slot⟩
  obtain ⟨-, hlt⟩ := hbelow t slot hslot
  have hset : (F.tables (m s).2 t)[slot]? = some x := by
    rw [h.tables_self, List.getElem?_set_self hlt]
  refine ⟨h.2 hinv, fun u => ?_, fun d hagree hd => ⟨?_, ?_⟩⟩
  · by_cases hu : u = t
    · subst hu
      rw [h.tables_self, List.length_set]
      refine ⟨le_rfl, fun i hi hmem => List.getElem?_set_ne ?_⟩
      rintro rfl
      exact hmem hslot
    · rw [h.tables_of_ne hu]
      exact ⟨le_rfl, fun _ _ _ => rfl⟩
  · exact (hagree t).2 slot x (.inr (.inr hslot)) hset
  · intro u i y hi hy
    have hat : u = t ∧ i = slot := by
      obtain ⟨hlt', -⟩ := List.getElem?_eq_some_iff.mp hy
      rcases hi with hi | ⟨hu, hle, hi⟩
      · by_cases hu : u = t
        · subst hu
          rw [h.tables_self, List.length_set] at hlt'
          omega
        · rw [h.tables_of_ne hu] at hlt'
          omega
      · exact ⟨hu, by omega⟩
    obtain ⟨rfl, rfl⟩ := hat
    rw [hset, Option.some.injEq] at hy
    exact hy ▸ hgood d hd

/-- Slots are reserved at the end of a table, and filled. -/
theorem Writes.reserve {count : ℕ} {pad : E t} {m : StateM σ α} {f : α → StateM σ β}
    (hshared : ¬ F.shared t) (h : F.Changes t (· ++ List.replicate count pad) s (m s).2)
    (hf : F.Writes (m s).2 (slots t (F.tables s t).length count)
      (fun d => P d ∧ (F.tables s t).length + count ≤ (d t).length) (f (m s).1) R) :
    F.Writes s noSlots P (m >>= f) R := by
  intro hinv _
  have hlength : (F.tables (m s).2 t).length = (F.tables s t).length + count := by
    rw [h.tables_self, List.length_append, List.length_replicate]
  have hbelow : F.Below (slots t (F.tables s t).length count) (m s).2 := by
    rintro u i ⟨rfl, -, hi⟩
    exact ⟨hshared, hlength ▸ hi⟩
  obtain ⟨hinv', hkeep, hlater⟩ := hf (h.2 hinv) hbelow
  have happend := h.keeps_append
  refine ⟨hinv', fun u => ?_, fun d hagree hd => ?_⟩
  · refine ⟨(happend u).1.trans (hkeep u).1, fun i hi _ => ?_⟩
    refine ((hkeep u).2 i (hi.trans_le (happend u).1) ?_).trans
      ((happend u).2 i hi (Set.notMem_empty i))
    rintro ⟨rfl, hle, -⟩
    omega
  · -- every slot that was reserved is behind what was there before
    have hat : ∀ {u i}, (F.tables (m s).2 u).length ≤ i ∨
        i ∈ slots t (F.tables s t).length count u → (F.tables s u).length ≤ i := by
      rintro u i (hi | ⟨rfl, hle, -⟩)
      · exact (happend u).1.trans hi
      · exact hle
    have hinside : (F.tables s t).length + count ≤ (d t).length :=
      hlength ▸ (hkeep t).1.trans (hagree t).1
    obtain ⟨hr, hgood⟩ := hlater d (fun u => ⟨(hagree u).1, fun i x hi hx =>
      (hagree u).2 i x (hi.imp id fun hi => .inl (hat hi)) hx⟩) ⟨hd, hinside⟩
    refine ⟨hr, fun u i x hi hx => hgood u i x ?_ hx⟩
    rcases hi with hi | hi
    · by_cases hu : (F.tables (m s).2 u).length ≤ i
      · exact .inl hu
      · right
        by_cases heq : u = t
        · subst heq
          exact ⟨rfl, hi, hlength ▸ not_le.mp hu⟩
        · rw [h.tables_of_ne heq] at hu
          exact absurd hi hu
    · exact absurd hi (Set.notMem_empty i)

/-- Entries made and pushed one by one are a run of the table. -/
theorem Writes.pushEach {f : α → StateM σ (E t)} {push : E t → StateM σ PUnit}
    {Q : α → E t → ((t : ι) → List (E t)) → Prop} {l : List α}
    (hf : ∀ a ∈ l, ∀ s, F.Writes s noSlots P (f a) (Q a))
    (hkeep : ∀ a s, F.tables (f a s).2 t = F.tables s t)
    (hpush : ∀ x s, F.Changes t (· ++ [x]) s (push x s).2)
    (hgood : ∀ a x d, P d → Q a x d → F.Good d t x) (s : σ) :
    F.Writes s noSlots P (l.forM fun a => f a >>= push) fun _ d =>
      ∃ run, RunAt (d t) (F.tables s t).length run ∧ List.Forall₂ (Q · · d) l run := by
  induction l generalizing s P with
  | nil =>
    exact Writes.pure _ fun d hlength _ => ⟨[], runAt_nil (hlength t), .nil⟩
  | cons a l ih =>
    show F.Writes s noSlots P ((f a >>= push) >>= fun _ => l.forM fun a => f a >>= push) _
    rw [bind_assoc]
    refine (hf a (.head l) s).andThen
      ((Writes.append (Q := fun _ d => RunAt (d t) _ [(f a s).1]) (hpush _ _) ?_
        fun _ hrun => hrun).andThen ?_)
    · rintro d ⟨hd, hq⟩ x hx
      exact List.mem_singleton.mp hx ▸ hgood a _ d hd hq
    · refine (ih (fun a' ha' s' => (hf a' (.tail a ha') s').weaken (fun _ hd => hd.1.1)
        fun _ _ _ hq => hq) (fun a' x d hd => hgood a' x d hd.1.1) _).weaken (fun _ hd => hd) ?_
      rintro - d ⟨⟨-, hq⟩, hhere⟩ ⟨run, hrun, hall⟩
      rw [(hpush _ _).tables_self, hkeep, List.length_append, List.length_singleton] at hrun
      rw [hkeep, runAt_cons] at hhere
      exact ⟨_ :: run, runAt_cons.mpr ⟨hhere.1, hrun⟩, .cons hq hall⟩

/-- A slot is filled with what a computation makes, and then the slots behind it. -/
theorem Writes.fillNext {slot count : ℕ} {m : StateM σ (E t)} {fill : E t → StateM σ PUnit}
    {rest : StateM σ PUnit} {Q : E t → ((t : ι) → List (E t)) → Prop}
    {R : List (E t) → ((t : ι) → List (E t)) → Prop} (hm : F.Writes s noSlots P m Q)
    (hgood : ∀ x d, P d → Q x d → F.Good d t x)
    (hfill : ∀ x s, F.Changes t (·.set slot x) s (fill x s).2)
    (hrest : ∀ s, F.Writes s (slots t (slot + 1) count) P rest fun _ d =>
      ∃ run, RunAt (d t) (slot + 1) run ∧ R run d) :
    F.Writes s (slots t slot (count + 1)) P (m >>= fun x => fill x >>= fun _ => rest) fun _ d =>
      ∃ x run, RunAt (d t) slot (x :: run) ∧ Q x d ∧ R run d := by
  have hslots : slots t slot (count + 1) =
      fun u => slots t slot 1 u ∪ slots t (slot + 1) count u := by
    funext u
    ext i
    show u = t ∧ _ ↔ (u = t ∧ _) ∨ (u = t ∧ _)
    by_cases hu : u = t
    · simp only [hu, true_and]
      omega
    · simp only [hu, false_and, or_self]
  rw [hslots]
  refine hm.andThen (Writes.bind_slots (Writes.fill (hfill _ _) ?_) ((hrest _).weaken ?_ ?_) ?_)
  · exact fun d hd => hgood _ d hd.1 hd.2
  · exact fun d hd => hd.1.1
  · rintro - d ⟨⟨-, hq⟩, hslot⟩ ⟨run, hrun, hr⟩
    exact ⟨_, run, runAt_cons.mpr ⟨hslot, hrun⟩, hq, hr⟩
  · rintro u i ⟨-, -, hi⟩ ⟨-, hle, -⟩
    omega

end Changes

/-! ### Tables that are left alone -/

variable (F) in
/-- A computation leaves a table as it is. -/
def Leaves (t : ι) (m : StateM σ α) : Prop := ∀ s, F.tables (m s).2 t = F.tables s t

theorem Leaves.bind (hm : F.Leaves t m) (hf : ∀ a, F.Leaves t (f a)) : F.Leaves t (m >>= f) :=
  fun s => (hf (m s).1 (m s).2).trans (hm s)

theorem Leaves.mapM {f : α → StateM σ β} (h : ∀ a, F.Leaves t (f a)) (l : List α) :
    F.Leaves t (l.mapM f) := by
  induction l with
  | nil => exact fun _ => rfl
  | cons a l ih =>
    rw [List.mapM_cons]
    exact (h a).bind fun b => ih.bind fun bs s => rfl

/-- What the tables held at a state holds later on, in a shared table. -/
theorem Agrees.runAt_shared {s' : σ} {d : (t : ι) → List (E t)} (h : F.Agrees noSlots s s' d)
    (hkeep : F.Keeps noSlots s s') (hshared : F.shared t) {first : ℕ} {run : List (E t)}
    (hrun : RunAt (F.tables s t) first run) : RunAt (d t) first run := by
  obtain ⟨hlength, hat⟩ := hrun
  refine ⟨hlength.trans ((hkeep t).1.trans (h t).1), fun i x hx => ?_⟩
  have hold := hat i x hx
  obtain ⟨hlt, -⟩ := List.getElem?_eq_some_iff.mp hold
  exact (h t).2 _ x (.inl hshared) (((hkeep t).2 _ hlt (Set.notMem_empty _)).trans hold)

end Filing

end CtBrowser.Foundations.ReservedSlots
