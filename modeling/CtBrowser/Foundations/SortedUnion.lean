import Mathlib.Tactic
import Mathlib.Data.List.Lex
import Mathlib.Data.List.Sort

/-!
# Sorted Unions

A finite set as the one list that is sorted by a key and repeats nothing. Its elements belong
to families, and two of one family can be merged into one: merging pairs until none is left
that merges makes the union of two lists hold, for every family, the merge of what they hold.

## Main definitions

- `sortUnique` — a list sorted by a key, without repeats.
- `mergeAll` — pairs merged until nothing changes.
- `inFamily`, `joinAt` — the element of a family, and that of a union.

## Main results

- `Ascending.eq_of_mem_iff` — a set is one list.
- `inFamily_mergeAll` — the union of two lists, family by family.
-/

namespace CtBrowser.Foundations.SortedUnion

variable {α κ φ : Type*}

/-! ## Sorting -/

section Sorting

variable [LinearOrder κ] (f : α → κ)

/-- Drops each element that equals the one before it. -/
def unique [DecidableEq α] : List α → List α
  | [] => []
  | [a] => [a]
  | a :: b :: rest => if a = b then unique (b :: rest) else a :: unique (b :: rest)

/-- Sorts by a key and drops repeats. -/
def sortUnique [DecidableEq α] (l : List α) : List α := unique (l.insertionSort fun a b => f a ≤ f b)

/-- Sorted by a key, without repeats. -/
def Ascending (l : List α) : Prop := l.Pairwise fun a b => f a < f b

instance (l : List α) : Decidable (Ascending f l) :=
  inferInstanceAs (Decidable (l.Pairwise fun a b => f a < f b))

variable {f} in
/-- A set is one list. -/
theorem Ascending.eq_of_mem_iff {l l' : List α} (hl : Ascending f l) (hl' : Ascending f l')
    (h : ∀ x, x ∈ l ↔ x ∈ l') : l = l' := by
  have : Std.Irrefl fun a b => f a < f b := ⟨fun a => lt_irrefl (f a)⟩
  have : Std.Antisymm fun a b => f a < f b := ⟨fun a b hab hba => absurd hba hab.asymm⟩
  exact List.Pairwise.eq_of_mem_iff hl hl' h

variable {f} in
theorem Ascending.nodup {l : List α} (h : Ascending f l) : l.Nodup :=
  h.imp fun hlt heq => absurd (congrArg f heq) hlt.ne

variable [DecidableEq α]

@[simp]
theorem mem_unique {l : List α} {x : α} : x ∈ unique l ↔ x ∈ l := by
  induction l with
  | nil => rfl
  | cons a l ih =>
    cases l with
    | nil => rfl
    | cons b rest =>
      rw [unique]
      split_ifs with hab
      · simp [ih, hab]
      · rw [List.mem_cons, ih, List.mem_cons (a := x) (b := a)]

theorem unique_sublist (l : List α) : (unique l).Sublist l := by
  induction l with
  | nil => exact .slnil
  | cons a l ih =>
    cases l with
    | nil => exact List.Sublist.refl _
    | cons b rest =>
      rw [unique]
      split_ifs
      · exact ih.cons a
      · exact ih.cons_cons a

@[simp]
theorem mem_sortUnique {l : List α} {x : α} : x ∈ sortUnique f l ↔ x ∈ l := by
  rw [sortUnique, mem_unique, List.mem_insertionSort]

variable {f}

theorem ascending_unique (hf : Function.Injective f) {l : List α}
    (hl : l.Pairwise fun a b => f a ≤ f b) : Ascending f (unique l) := by
  induction l with
  | nil => exact .nil
  | cons a l ih =>
    obtain ⟨ha, hrest⟩ := List.pairwise_cons.mp hl
    cases l with
    | nil => exact List.pairwise_singleton ..
    | cons b rest =>
      rw [unique]
      split_ifs with hab
      · exact ih hrest
      · refine List.pairwise_cons.mpr ⟨fun x hx => ?_, ih hrest⟩
        have hlt : f a < f b := (ha b List.mem_cons_self).lt_of_ne fun h => hab (hf h)
        rcases List.mem_cons.mp (mem_unique.mp hx) with rfl | hx
        · exact hlt
        · exact hlt.trans_le ((List.pairwise_cons.mp hrest).1 x hx)

theorem ascending_sortUnique (hf : Function.Injective f) (l : List α) :
    Ascending f (sortUnique f l) := by
  refine ascending_unique hf ?_
  have : Std.Total fun a b => f a ≤ f b := ⟨fun a b => le_total (f a) (f b)⟩
  have : IsTrans α fun a b => f a ≤ f b := ⟨fun a b c => le_trans⟩
  exact List.pairwise_insertionSort ..

end Sorting

/-! ## Merging -/

section Merging

variable (merge : α → α → Option α)

/-- Merges an element with the first one of a list that it merges with. -/
def mergeInto (x : α) : List α → Option (α × List α)
  | [] => none
  | y :: ys =>
    match merge x y with
    | some m => some (m, ys)
    | none => (mergeInto x ys).map fun (m, ys) => (m, y :: ys)

/-- Merges the first pair that merges. The merge takes the place of the first of the two. -/
def mergeOnce : List α → Option (List α)
  | [] => none
  | x :: rest =>
    match mergeInto merge x rest with
    | some (m, rest) => some (m :: rest)
    | none => (mergeOnce rest).map (x :: ·)

/-- Merges pairs until nothing changes, at most so many times. -/
def mergeAll : ℕ → List α → List α
  | 0, l => l
  | n + 1, l =>
    match mergeOnce merge l with
    | some l => mergeAll n l
    | none => l

variable {merge}

theorem perm_of_mergeInto {x m : α} {l l' : List α} (h : mergeInto merge x l = some (m, l')) :
    ∃ y, merge x y = some m ∧ l.Perm (y :: l') := by
  induction l generalizing l' with
  | nil => cases h
  | cons y ys ih =>
    rw [mergeInto] at h
    split at h
    · next hm =>
      cases h
      exact ⟨y, hm, .refl _⟩
    · obtain ⟨⟨m', rest⟩, hrest, heq⟩ := Option.map_eq_some_iff.mp h
      cases heq
      obtain ⟨z, hz, hperm⟩ := ih hrest
      exact ⟨z, hz, (hperm.cons y).trans (.swap z y rest)⟩

theorem perm_of_mergeOnce {l l' : List α} (h : mergeOnce merge l = some l') :
    ∃ x y m r, merge x y = some m ∧ l.Perm (x :: y :: r) ∧ l'.Perm (m :: r) := by
  induction l generalizing l' with
  | nil => cases h
  | cons x rest ih =>
    rw [mergeOnce] at h
    split at h
    · next hinto =>
      cases h
      obtain ⟨y, hm, hperm⟩ := perm_of_mergeInto hinto
      exact ⟨x, y, _, _, hm, hperm.cons x, .refl _⟩
    · obtain ⟨rest', hrest, rfl⟩ := Option.map_eq_some_iff.mp h
      obtain ⟨y, z, m, r, hm, hperm, hperm'⟩ := ih hrest
      refine ⟨y, z, m, x :: r, hm, (hperm.cons x).trans ?_, (hperm'.cons x).trans (.swap m x r)⟩
      exact (List.Perm.swap y x _).trans ((List.Perm.swap z x r).cons y)

theorem mergeInto_eq_none {x : α} {l : List α} (h : mergeInto merge x l = none) :
    ∀ y ∈ l, merge x y = none := by
  induction l with
  | nil => simp
  | cons y ys ih =>
    rw [mergeInto] at h
    split at h
    · cases h
    · next hm => exact List.forall_mem_cons.mpr ⟨hm, ih (Option.map_eq_none_iff.mp h)⟩

theorem mergeOnce_eq_none {l : List α} (h : mergeOnce merge l = none) :
    l.Pairwise fun x y => merge x y = none := by
  induction l with
  | nil => exact .nil
  | cons x rest ih =>
    rw [mergeOnce] at h
    split at h
    · cases h
    · next hinto =>
      exact List.pairwise_cons.mpr ⟨mergeInto_eq_none hinto, ih (Option.map_eq_none_iff.mp h)⟩

end Merging

/-! ## Families -/

section Families

variable [DecidableEq φ] (fam : α → φ) (merge : α → α → Option α)

/-- How merging stands to families, for elements of two kinds: proper ones, and those that a
merge may also give. -/
structure Families (P Q : α → Prop) : Prop where
  weaken : ∀ {x}, P x → Q x
  apart : ∀ {x y}, Q x → Q y → fam x ≠ fam y → merge x y = none
  merges : ∀ {x y}, P x → P y → fam x = fam y → ∃ m, merge x y = some m ∧ Q m ∧ fam m = fam x
  comm : ∀ {x y}, P x → P y → fam x = fam y → merge x y = merge y x
  self : ∀ {x}, P x → merge x x = some x

/-- The elements of a family. -/
def members (k : φ) (l : List α) : List α := l.filter fun x => fam x = k

/-- The first element of a family. -/
def inFamily (k : φ) (l : List α) : Option α := l.find? fun x => fam x = k

/-- No two elements of one family. -/
def Distinct (l : List α) : Prop := l.Pairwise fun x y => fam x ≠ fam y

instance (l : List α) : Decidable (Distinct fam l) :=
  inferInstanceAs (Decidable (l.Pairwise fun x y => fam x ≠ fam y))

/-- What two lists hold of a family, merged. -/
def joinAt : Option α → Option α → Option α
  | none, y => y
  | some x, none => some x
  | some x, some y => merge x y

/-- What a list holds of a family, once its pairs are merged. -/
def merged (k : φ) (l : List α) : Option α :=
  match members fam k l with
  | [] => none
  | [x] => some x
  | x :: y :: _ => merge x y

/-- At most two elements of each family, and proper ones where there are two. -/
structure AtMostTwo (P Q : α → Prop) (l : List α) : Prop where
  all : ∀ x ∈ l, Q x
  few : ∀ k, (members fam k l).length ≤ 2
  proper : ∀ k, (members fam k l).length = 2 → ∀ x ∈ members fam k l, P x

variable {fam merge} {P Q : α → Prop} {l l' : List α}

theorem AtMostTwo.perm (h : AtMostTwo fam P Q l) (hperm : l.Perm l') :
    AtMostTwo fam P Q l' where
  all x hx := h.all x (hperm.mem_iff.mpr hx)
  few k := ((hperm.filter _).length_eq ▸ h.few k :)
  proper k hk x hx := by
    have hmembers : (members fam k l).Perm (members fam k l') := hperm.filter _
    exact h.proper k (hmembers.length_eq.trans hk) x (hmembers.mem_iff.mpr hx)

omit [DecidableEq φ] in
/-- The two orders of a pair. -/
theorem perm_pair {x y : α} {ys : List α} (h : [x, y].Perm ys) : ys = [x, y] ∨ ys = [y, x] := by
  obtain ⟨a, b, rfl⟩ := List.length_eq_two.mp h.length_eq.symm
  have ha : a ∈ [x, y] := h.mem_iff.mpr List.mem_cons_self
  rcases List.mem_cons.mp ha with rfl | ha
  · rw [List.singleton_perm_singleton.mp h.cons_inv]
    exact .inl rfl
  · obtain rfl := List.mem_singleton.mp ha
    have hswap := (List.Perm.swap x a []).trans h
    rw [List.singleton_perm_singleton.mp hswap.cons_inv]
    exact .inr rfl

/-- The order of a list does not matter. -/
theorem AtMostTwo.merged_perm (hfam : Families fam merge P Q) (h : AtMostTwo fam P Q l)
    (hperm : l.Perm l') (k : φ) : merged fam merge k l = merged fam merge k l' := by
  have hmembers : (members fam k l).Perm (members fam k l') := hperm.filter _
  have hfew := h.few k
  have hproper := h.proper k
  have hmem : ∀ x ∈ members fam k l, fam x = k := fun x hx => by
    simpa using (List.mem_filter.mp hx).2
  rw [merged, merged]
  generalize members fam k l = xs at *
  generalize members fam k l' = ys at *
  match xs, hfew with
  | [], _ => rw [hmembers.symm.eq_nil]
  | [x], _ => rw [List.perm_singleton.mp hmembers.symm]
  | [x, y], _ =>
    obtain ⟨hx, hy⟩ : P x ∧ P y := by simpa using hproper rfl
    have hxy : fam x = fam y := (hmem x (by simp)).trans (hmem y (by simp)).symm
    rcases perm_pair hmembers with rfl | rfl
    · rfl
    · exact hfam.comm hx hy hxy

/-- Merging a pair keeps a list fine, and changes nothing about any family. -/
theorem AtMostTwo.merge_pair (hfam : Families fam merge P Q) {x y m : α} {r : List α}
    (h : AtMostTwo fam P Q (x :: y :: r)) (hm : merge x y = some m) :
    AtMostTwo fam P Q (m :: r) ∧
      ∀ k, merged fam merge k (m :: r) = merged fam merge k (x :: y :: r) := by
  have hx := h.all x (by simp)
  have hy := h.all y (by simp)
  have hxy : fam x = fam y := by
    by_contra hne
    simp [hfam.apart hx hy hne] at hm
  -- no third one is in the family of the pair
  have hlength : (members fam (fam x) (x :: y :: r)).length =
      (members fam (fam x) r).length + 2 := by simp [members, hxy]
  have hfew := h.few (fam x)
  have hnone : members fam (fam x) r = [] := List.length_eq_zero_iff.mp (by omega)
  have hpair : members fam (fam x) (x :: y :: r) = [x, y] := by
    simpa [members, hxy] using hnone
  have hproper := h.proper (fam x) (by rw [hpair]; rfl)
  rw [hpair] at hproper
  obtain ⟨m', hm', hQ, hfamm⟩ := hfam.merges (hproper x (by simp)) (hproper y (by simp)) hxy
  obtain rfl : m = m' := Option.some.inj (hm.symm.trans hm')
  have hother : ∀ k ≠ fam x, members fam k (m :: r) = members fam k (x :: y :: r) := by
    intro k hk
    simp [members, hfamm, ← hxy, hk.symm]
  have hself : members fam (fam x) (m :: r) = [m] := by
    simpa [members, hfamm] using hnone
  refine ⟨⟨?_, ?_, ?_⟩, ?_⟩
  · refine List.forall_mem_cons.mpr ⟨hQ, fun z hz => h.all z (by simp [hz])⟩
  · intro k
    by_cases hk : k = fam x
    · rw [hk, hself]
      simp
    · rw [hother k hk]
      exact h.few k
  · intro k
    by_cases hk : k = fam x
    · rw [hk, hself]
      simp
    · rw [hother k hk]
      exact h.proper k
  · intro k
    rw [merged, merged]
    by_cases hk : k = fam x
    · rw [hk, hself, hpair]
      exact hm.symm
    · rw [hother k hk]

theorem AtMostTwo.tail {x : α} (h : AtMostTwo fam P Q (x :: l)) : AtMostTwo fam P Q l := by
  have hsub : ∀ k, (members fam k l).Sublist (members fam k (x :: l)) :=
    fun k => (List.sublist_cons_self x l).filter _
  refine ⟨fun y hy => h.all y (List.mem_cons_of_mem x hy),
    fun k => (hsub k).length_le.trans (h.few k), fun k hk y hy => ?_⟩
  have hlength : (members fam k (x :: l)).length = 2 :=
    le_antisymm (h.few k) (hk ▸ (hsub k).length_le)
  exact h.proper k hlength y ((hsub k).subset hy)

/-- When no pair merges, the families are apart. -/
theorem AtMostTwo.distinct (hfam : Families fam merge P Q) (h : AtMostTwo fam P Q l)
    (hdone : l.Pairwise fun x y => merge x y = none) : Distinct fam l := by
  induction l with
  | nil => exact .nil
  | cons x l ih =>
    obtain ⟨hx, hrest⟩ := List.pairwise_cons.mp hdone
    refine List.pairwise_cons.mpr ⟨fun y hy hxy => ?_, ih h.tail hrest⟩
    have hmem : y ∈ members fam (fam x) l := List.mem_filter.mpr ⟨hy, by simp [hxy]⟩
    have hmembers : members fam (fam x) (x :: l) = x :: members fam (fam x) l := by
      simp [members]
    have hfew := h.few (fam x)
    have hpos := List.length_pos_of_mem hmem
    rw [hmembers, List.length_cons] at hfew
    have hproper := h.proper (fam x) (by rw [hmembers, List.length_cons]; omega)
    rw [hmembers] at hproper
    obtain ⟨m, hm, -⟩ := hfam.merges (hproper x List.mem_cons_self)
      (hproper y (List.mem_cons_of_mem x hmem)) hxy
    rw [hx y hy] at hm
    cases hm

/-- Merging all pairs leaves one element in each family, the merge of what was there. -/
theorem AtMostTwo.mergeAll (hfam : Families fam merge P Q) {n : ℕ} (h : AtMostTwo fam P Q l)
    (hn : l.length ≤ n) :
    AtMostTwo fam P Q (mergeAll merge n l) ∧ Distinct fam (mergeAll merge n l) ∧
      ∀ k, merged fam merge k (SortedUnion.mergeAll merge n l) = merged fam merge k l := by
  induction n generalizing l with
  | zero =>
    obtain rfl := List.length_eq_zero_iff.mp (Nat.le_zero.mp hn)
    exact ⟨h, .nil, fun k => rfl⟩
  | succ n ih =>
    rw [SortedUnion.mergeAll]
    cases honce : mergeOnce merge l with
    | none => exact ⟨h, h.distinct hfam (mergeOnce_eq_none honce), fun k => rfl⟩
    | some l' =>
      obtain ⟨x, y, m, r, hm, hperm, hperm'⟩ := perm_of_mergeOnce honce
      obtain ⟨hmerged, hsame⟩ := (h.perm hperm).merge_pair hfam hm
      have hnext := hmerged.perm hperm'.symm
      have hlength : l'.length ≤ n := by
        have := hperm.length_eq
        have := hperm'.length_eq
        simp only [List.length_cons] at *
        omega
      obtain ⟨hall, hdistinct, hlater⟩ := ih hnext hlength
      refine ⟨hall, hdistinct, fun k => (hlater k).trans ?_⟩
      rw [hnext.merged_perm hfam hperm', hsame, h.merged_perm hfam hperm]

/-! ## The union of two lists -/

theorem inFamily_eq_some {k : φ} {x : α} (h : Distinct fam l) :
    inFamily fam k l = some x ↔ x ∈ l ∧ fam x = k := by
  constructor
  · intro hx
    exact ⟨List.mem_of_find?_eq_some hx, by simpa using List.find?_some hx⟩
  · rintro ⟨hx, rfl⟩
    cases hfound : inFamily fam (fam x) l with
    | none => simpa using List.find?_eq_none.mp hfound x hx
    | some y =>
      have hy := List.mem_of_find?_eq_some hfound
      have hfam : fam y = fam x := by simpa using List.find?_some hfound
      by_contra hne
      have hxy : y ≠ x := fun heq => hne (congrArg some heq)
      have : Std.Symm fun x y : α => fam x ≠ fam y := ⟨fun _ _ => Ne.symm⟩
      exact h.forall hy hx hxy hfam

omit [DecidableEq φ] in
theorem Distinct.of_subset (h : Distinct fam l) (hnodup : l'.Nodup) (hsub : ∀ x ∈ l', x ∈ l) :
    Distinct fam l' := by
  have : Std.Symm fun x y : α => fam x ≠ fam y := ⟨fun _ _ => Ne.symm⟩
  refine hnodup.imp_of_mem fun {x y} hx hy hxy => ?_
  exact h.forall (hsub x hx) (hsub y hy) hxy

/-- Lists of the same elements hold the same of each family. -/
theorem inFamily_congr (h : Distinct fam l) (h' : Distinct fam l')
    (hmem : ∀ x, x ∈ l ↔ x ∈ l') (k : φ) : inFamily fam k l = inFamily fam k l' := by
  ext x
  rw [inFamily_eq_some h, inFamily_eq_some h', hmem]

theorem merged_of_distinct (h : Distinct fam l) (k : φ) :
    merged fam merge k l = inFamily fam k l := by
  have hfirst : inFamily fam k l = (members fam k l).head? := (List.head?_filter ..).symm
  have hfam : ∀ x ∈ members fam k l, fam x = k := fun x hx => by
    simpa using (List.mem_filter.mp hx).2
  have hdistinct : Distinct fam (members fam k l) := List.Pairwise.filter _ h
  rw [merged, hfirst]
  generalize members fam k l = xs at *
  match xs with
  | [] => rfl
  | [x] => rfl
  | x :: y :: _ =>
    have hne := (List.pairwise_cons.mp hdistinct).1 y List.mem_cons_self
    exact absurd ((hfam x (by simp)).trans (hfam y (by simp)).symm) hne

variable {A B L : List α}

/-- Two lists may be taken in either order. -/
theorem joinAt_comm (hfam : Families fam merge P Q) (hPA : ∀ x ∈ A, P x) (hPB : ∀ x ∈ B, P x)
    (hA : Distinct fam A) (hB : Distinct fam B) (k : φ) :
    joinAt merge (inFamily fam k A) (inFamily fam k B) =
      joinAt merge (inFamily fam k B) (inFamily fam k A) := by
  cases hx : inFamily fam k A with
  | none => cases inFamily fam k B <;> rfl
  | some x =>
    cases hy : inFamily fam k B with
    | none => rfl
    | some y =>
      obtain ⟨hxA, hxk⟩ := (inFamily_eq_some hA).mp hx
      obtain ⟨hyB, hyk⟩ := (inFamily_eq_some hB).mp hy
      exact hfam.comm (hPA x hxA) (hPB y hyB) (hxk.trans hyk.symm)

/-- What the union of two lists holds of a family. -/
theorem mem_members_union (hA : Distinct fam A) (hB : Distinct fam B)
    (hmem : ∀ x, x ∈ L ↔ x ∈ A ∨ x ∈ B) {k : φ} {x : α} :
    x ∈ members fam k L ↔ inFamily fam k A = some x ∨ inFamily fam k B = some x := by
  rw [inFamily_eq_some hA, inFamily_eq_some hB, members, List.mem_filter, hmem x,
    decide_eq_true_eq]
  tauto

/-- A union of two lists holds no more than two elements of a family, and they merge to what
the lists hold. -/
theorem members_union (hfam : Families fam merge P Q) (hPA : ∀ x ∈ A, P x) (hPB : ∀ x ∈ B, P x)
    (hA : Distinct fam A) (hB : Distinct fam B) (hL : L.Nodup)
    (hmem : ∀ x, x ∈ L ↔ x ∈ A ∨ x ∈ B) (k : φ) :
    (members fam k L).length ≤ 2 ∧
      merged fam merge k L = joinAt merge (inFamily fam k A) (inFamily fam k B) := by
  have hmembers := fun x => mem_members_union hA hB hmem (k := k) (x := x)
  have hnodup : (members fam k L).Nodup := hL.filter _
  rw [merged]
  generalize members fam k L = xs at *
  cases hx : inFamily fam k A with
  | none =>
    cases hy : inFamily fam k B with
    | none =>
      obtain rfl : xs = [] := List.eq_nil_iff_forall_not_mem.mpr fun x => by
        simp [hmembers, hx, hy]
      exact ⟨by simp, rfl⟩
    | some y =>
      have hperm : xs.Perm [y] := (List.perm_ext_iff_of_nodup hnodup (List.nodup_singleton y)).mpr
        fun x => by simp [hmembers, hx, hy, eq_comm]
      rw [List.perm_singleton.mp hperm]
      exact ⟨by simp, rfl⟩
  | some x =>
    obtain ⟨hxA, hxk⟩ := (inFamily_eq_some hA).mp hx
    cases hy : inFamily fam k B with
    | none =>
      have hperm : xs.Perm [x] := (List.perm_ext_iff_of_nodup hnodup (List.nodup_singleton x)).mpr
        fun z => by simp [hmembers, hx, hy, eq_comm]
      rw [List.perm_singleton.mp hperm]
      exact ⟨by simp, rfl⟩
    | some y =>
      obtain ⟨hyB, hyk⟩ := (inFamily_eq_some hB).mp hy
      by_cases hxy : x = y
      · subst hxy
        have hperm : xs.Perm [x] := (List.perm_ext_iff_of_nodup hnodup (List.nodup_singleton x)).mpr
          fun z => by simp [hmembers, hx, hy, eq_comm]
        rw [List.perm_singleton.mp hperm]
        exact ⟨by simp, (hfam.self (hPA x hxA)).symm⟩
      · have hperm : [x, y].Perm xs := (List.perm_ext_iff_of_nodup (by simp [hxy]) hnodup).mpr
          fun z => by simp [hmembers, hx, hy, eq_comm]
        rcases perm_pair hperm with rfl | rfl
        · exact ⟨by simp, rfl⟩
        · exact ⟨by simp, hfam.comm (hPB y hyB) (hPA x hxA) (hyk.trans hxk.symm)⟩

/-- The union of two lists, with its pairs merged, holds of every family the merge of what the
two lists hold. -/
theorem inFamily_mergeAll (hfam : Families fam merge P Q) (hPA : ∀ x ∈ A, P x)
    (hPB : ∀ x ∈ B, P x) (hA : Distinct fam A) (hB : Distinct fam B) (hL : L.Nodup)
    (hmem : ∀ x, x ∈ L ↔ x ∈ A ∨ x ∈ B) :
    Distinct fam (mergeAll merge L.length L) ∧ (∀ x ∈ mergeAll merge L.length L, Q x) ∧
      ∀ k, inFamily fam k (mergeAll merge L.length L) =
        joinAt merge (inFamily fam k A) (inFamily fam k B) := by
  have hP : ∀ x ∈ L, P x := fun x hx => ((hmem x).mp hx).elim (hPA x) (hPB x)
  have hunion := members_union hfam hPA hPB hA hB hL hmem
  have hfine : AtMostTwo fam P Q L :=
    ⟨fun x hx => hfam.weaken (hP x hx), fun k => (hunion k).1,
      fun k _ x hx => hP x (List.mem_of_mem_filter hx)⟩
  obtain ⟨hall, hdistinct, hsame⟩ := hfine.mergeAll hfam le_rfl
  exact ⟨hdistinct, hall.all, fun k => by
    exact (merged_of_distinct hdistinct k).symm.trans ((hsame k).trans (hunion k).2)⟩

end Families

end CtBrowser.Foundations.SortedUnion
