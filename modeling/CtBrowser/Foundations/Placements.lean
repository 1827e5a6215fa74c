import Mathlib.Tactic

/-!
# Lists built up by placing

Any list of numbers can be built up from its small ones by placing the others one after the other:
the smallest first, and equal ones from the left. Each placement is a number and the index it gets
among what is there. The placements in that order belong to one list only.

## Main definitions

- `placeAll` — a list after some placements.
- `placesOf`, `placements` — the placements of one number, and of a range of numbers.
- `InOrder` — placements that come in that order.

## Main results

- `placeAll_placements`, `inOrder_placements` — a list is what its placements build, in order.
- `placements_placeAll` — placements in order are those of the list they build.
-/

namespace CtBrowser.Foundations

/-- A list with numbers put at their indices, one after the other. -/
def placeAll (l : List ℕ) (steps : List (ℕ × ℕ)) : List ℕ :=
  steps.foldl (fun l step => l.insertIdx step.2 step.1) l

/-- Where `m` stands among the numbers up to `m`, counted from `i`. -/
def placesOf (m : ℕ) : ℕ → List ℕ → List (ℕ × ℕ)
  | _, [] => []
  | i, c :: cs =>
    if c < m then placesOf m (i + 1) cs
    else if c = m then (m, i) :: placesOf m (i + 1) cs
    else placesOf m i cs

/-- The placements of the numbers from `low` up to `high`. -/
def placements (low high : ℕ) (l : List ℕ) : List (ℕ × ℕ) :=
  (List.range' low (high - low)).flatMap fun m => placesOf m 0 l

/-- Placements that come after index `i` of the number `n`, in a list of length `length`. -/
def InOrder : ℕ → ℕ → ℕ → List (ℕ × ℕ) → Prop
  | _, _, _, [] => True
  | n, i, length, step :: steps =>
    (n < step.1 ∨ n = step.1 ∧ i ≤ step.2) ∧ step.2 ≤ length ∧ InOrder step.1 (step.2 + 1) (length + 1) steps

@[simp]
theorem placeAll_nil (l : List ℕ) : placeAll l [] = l := rfl

@[simp]
theorem placeAll_cons (l : List ℕ) (step : ℕ × ℕ) (steps : List (ℕ × ℕ)) :
    placeAll l (step :: steps) = placeAll (l.insertIdx step.2 step.1) steps := rfl

theorem placeAll_append (l : List ℕ) (a b : List (ℕ × ℕ)) : placeAll l (a ++ b) = placeAll (placeAll l a) b :=
  List.foldl_append

theorem mem_placeAll {c : ℕ} {l : List ℕ} {steps : List (ℕ × ℕ)} (h : c ∈ placeAll l steps) :
    c ∈ l ∨ ∃ step ∈ steps, step.1 = c := by
  induction steps generalizing l with
  | nil => exact Or.inl h
  | cons step steps ih =>
    rcases ih h with h | ⟨later, hlater, rfl⟩
    · rcases List.eq_or_mem_of_mem_insertIdx h with rfl | h
      · exact Or.inr ⟨step, List.mem_cons_self .., rfl⟩
      · exact Or.inl h
    · exact Or.inr ⟨later, List.mem_cons_of_mem step hlater, rfl⟩

/-- Placements in order are of numbers from the first one on. -/
theorem InOrder.le {n i length : ℕ} {steps : List (ℕ × ℕ)} (h : InOrder n i length steps) :
    ∀ step ∈ steps, n ≤ step.1 := by
  induction steps generalizing n i length with
  | nil => exact fun step hstep => absurd hstep List.not_mem_nil
  | cons first steps ih =>
    have hn : n ≤ first.1 := h.1.elim le_of_lt fun h => h.1.le
    exact List.forall_mem_cons.mpr ⟨hn, fun step hstep => hn.trans (ih h.2.2 step hstep)⟩

theorem InOrder.length_placeAll {n i : ℕ} {l : List ℕ} {steps : List (ℕ × ℕ)} (h : InOrder n i l.length steps) :
    (placeAll l steps).length = l.length + steps.length := by
  induction steps generalizing n i l with
  | nil => rfl
  | cons step steps ih =>
    have hgrown : (l.insertIdx step.2 step.1).length = l.length + 1 := List.length_insertIdx_of_le_length h.2.1 _
    rw [placeAll_cons, ih (hgrown ▸ h.2.2), hgrown, List.length_cons, Nat.add_right_comm, Nat.add_assoc]

/-- What a placement parts is what came before it and what comes after it. -/
theorem insertIdx_append (front l : List ℕ) (n : ℕ) :
    (front ++ l).insertIdx front.length n = front ++ n :: l := by
  induction front with
  | nil => rfl
  | cons c cs ih => rw [List.cons_append, List.length_cons, List.insertIdx_succ_cons, ih, List.cons_append]

theorem insertIdx_eq_append {k : ℕ} {l : List ℕ} (hk : k ≤ l.length) (n : ℕ) :
    l.insertIdx k n = l.take k ++ n :: l.drop k := by
  calc l.insertIdx k n = (l.take k ++ l.drop k).insertIdx (l.take k).length n := by
        rw [List.take_append_drop, List.length_take_of_le hk]
    _ = l.take k ++ n :: l.drop k := insertIdx_append _ _ n

/-! ## The placements of one number -/

theorem placesOf_eq_nil {m : ℕ} {l : List ℕ} (h : m ∉ l) (i : ℕ) : placesOf m i l = [] := by
  induction l generalizing i with
  | nil => rfl
  | cons c cs ih =>
    obtain ⟨hc, hcs⟩ := not_or.mp (mt List.mem_cons.mpr h)
    rw [placesOf, if_neg (Ne.symm hc), ih hcs, ih hcs, ite_self]

theorem placesOf_ne_nil {m : ℕ} {l : List ℕ} (h : m ∈ l) (i : ℕ) : placesOf m i l ≠ [] := by
  induction l generalizing i with
  | nil => exact absurd h List.not_mem_nil
  | cons c cs ih =>
    rw [placesOf]
    split_ifs with hlt heq
    · exact ih ((List.mem_cons.mp h).resolve_left hlt.ne') (i + 1)
    · exact List.cons_ne_nil _ _
    · exact ih ((List.mem_cons.mp h).resolve_left (Ne.symm heq)) i

/-- A larger number makes no difference. -/
theorem placesOf_insertIdx_of_lt {m n : ℕ} (h : m < n) (i k : ℕ) (l : List ℕ) :
    placesOf m i (l.insertIdx k n) = placesOf m i l := by
  induction l generalizing i k with
  | nil =>
    cases k with
    | zero => simp [placesOf, h.not_gt, h.ne']
    | succ k => rfl
  | cons c cs ih =>
    cases k with
    | zero => rw [List.insertIdx_zero, placesOf, if_neg h.not_gt, if_neg h.ne']
    | succ k => rw [List.insertIdx_succ_cons, placesOf, placesOf, ih, ih]

/-- A number placed to the right of its equals, among none that are larger, comes last. -/
theorem placesOf_insertIdx {n k : ℕ} {l : List ℕ} (hk : k ≤ l.length) (hle : ∀ c ∈ l, c ≤ n)
    (hlt : ∀ c ∈ l.drop k, c < n) (i : ℕ) :
    placesOf n i (l.insertIdx k n) = placesOf n i l ++ [(n, i + k)] := by
  induction l generalizing i k with
  | nil =>
    obtain rfl : k = 0 := Nat.le_zero.mp hk
    simp [placesOf]
  | cons c cs ih =>
    cases k with
    | zero =>
      have hn : n ∉ c :: cs := fun h => lt_irrefl n (hlt n h)
      rw [List.insertIdx_zero, placesOf, if_neg (lt_irrefl n), if_pos rfl, placesOf_eq_nil hn,
        placesOf_eq_nil hn, List.nil_append, Nat.add_zero]
    | succ k =>
      obtain ⟨hc, hcs⟩ := List.forall_mem_cons.mp hle
      have hrest := ih (Nat.le_of_succ_le_succ hk) hcs hlt (i + 1)
      rw [Nat.add_right_comm, Nat.add_assoc] at hrest
      rw [List.insertIdx_succ_cons, placesOf, placesOf]
      rcases hc.lt_or_eq with h | h
      · rw [if_pos h, if_pos h, hrest]
      · rw [if_neg h.not_lt, if_neg h.not_lt, if_pos h, if_pos h, hrest, List.cons_append]

/-- The placements of one number bring it in. -/
theorem placeAll_placesOf (n : ℕ) (front l : List ℕ) :
    placeAll (front ++ l.filter (· < n)) (placesOf n front.length l) = front ++ l.filter (· ≤ n) := by
  induction l generalizing front with
  | nil => rfl
  | cons c cs ih =>
    have hnext := ih (front ++ [c])
    rw [List.length_append, List.length_singleton, List.append_assoc, List.append_assoc] at hnext
    rw [placesOf]
    rcases lt_trichotomy c n with h | h | h
    · rw [if_pos h, List.filter_cons_of_pos (by simpa using h), List.filter_cons_of_pos (by simpa using h.le)]
      exact hnext
    · subst h
      rw [if_neg (lt_irrefl c), if_pos rfl, placeAll_cons, List.filter_cons_of_neg (by simp),
        List.filter_cons_of_pos (by simp)]
      dsimp only
      rw [insertIdx_append]
      exact hnext
    · rw [if_neg h.not_gt, if_neg h.ne', List.filter_cons_of_neg (by simpa using h.le),
        List.filter_cons_of_neg (by simpa using h)]
      exact ih front

theorem mem_placesOf {m i : ℕ} {l : List ℕ} {step : ℕ × ℕ} (h : step ∈ placesOf m i l) :
    step.1 = m ∧ i ≤ step.2 ∧ m ∈ l := by
  induction l generalizing i with
  | nil => exact absurd h List.not_mem_nil
  | cons c cs ih =>
    rw [placesOf] at h
    split_ifs at h with hlt heq
    · obtain ⟨hm, hi, hmem⟩ := ih h
      exact ⟨hm, Nat.le_of_succ_le hi, List.mem_cons_of_mem c hmem⟩
    · rcases List.mem_cons.mp h with rfl | h
      · exact ⟨rfl, le_rfl, heq ▸ List.mem_cons_self ..⟩
      · obtain ⟨hm, hi, hmem⟩ := ih h
        exact ⟨hm, Nat.le_of_succ_le hi, List.mem_cons_of_mem c hmem⟩
    · obtain ⟨hm, hi, hmem⟩ := ih h
      exact ⟨hm, hi, List.mem_cons_of_mem c hmem⟩

/-- The placements of a number are in order, and then those of larger ones. -/
theorem inOrder_placesOf {m n i k length : ℕ} {l : List ℕ} {steps : List (ℕ × ℕ)}
    (hstart : n < m ∨ n = m ∧ k ≤ i) (hi : i + (l.filter (· < m)).length ≤ length)
    (hsteps : ∀ n k, n ≤ m → InOrder n k (length + (placesOf m i l).length) steps) :
    InOrder n k length (placesOf m i l ++ steps) := by
  induction l generalizing n i k length with
  | nil => exact hsteps n k (hstart.elim le_of_lt fun h => h.1.le)
  | cons c cs ih =>
    rw [placesOf] at hsteps ⊢
    rcases lt_trichotomy c m with h | h | h
    · rw [if_pos h] at hsteps ⊢
      rw [List.filter_cons_of_pos (by simpa using h), List.length_cons] at hi
      exact ih (hstart.imp_right fun h => ⟨h.1, h.2.trans (Nat.le_succ i)⟩) (by omega) hsteps
    · subst h
      rw [if_neg (lt_irrefl c), if_pos rfl] at hsteps ⊢
      rw [List.filter_cons_of_neg (by simp)] at hi
      refine ⟨hstart, by dsimp only; omega, ih (Or.inr ⟨rfl, le_rfl⟩) (by omega) fun n k hn => ?_⟩
      have hmore := hsteps n k hn
      rwa [List.length_cons, ← Nat.add_assoc, Nat.add_right_comm] at hmore
    · rw [if_neg h.not_gt, if_neg h.ne'] at hsteps ⊢
      rw [List.filter_cons_of_neg (by simpa using h.le)] at hi
      exact ih hstart hi hsteps

theorem length_placesOf (m i : ℕ) (l : List ℕ) :
    (l.filter (· < m)).length + (placesOf m i l).length = (l.filter (· ≤ m)).length := by
  induction l generalizing i with
  | nil => rfl
  | cons c cs ih =>
    rw [placesOf]
    rcases lt_trichotomy c m with h | h | h
    · rw [if_pos h, List.filter_cons_of_pos (by simpa using h), List.filter_cons_of_pos (by simpa using h.le)]
      have := ih (i + 1)
      rw [List.length_cons, List.length_cons]
      omega
    · rw [if_neg h.not_lt, if_pos h, List.filter_cons_of_neg (by simpa using h.ge),
        List.filter_cons_of_pos (by simpa using h.le)]
      have := ih (i + 1)
      rw [List.length_cons, List.length_cons]
      omega
    · rw [if_neg h.not_gt, if_neg h.ne', List.filter_cons_of_neg (by simpa using h.le),
        List.filter_cons_of_neg (by simpa using h)]
      exact ih i

/-! ## The placements of a range of numbers -/

theorem placements_self (n : ℕ) (l : List ℕ) : placements n n l = [] := by
  rw [placements, Nat.sub_self, List.range'_zero, List.flatMap_nil]

theorem placements_split {low mid high : ℕ} (h₁ : low ≤ mid) (h₂ : mid ≤ high) (l : List ℕ) :
    placements low high l = placements low mid l ++ placements mid high l := by
  have hlength : high - low = (mid - low) + (high - mid) := by omega
  rw [placements, placements, placements, hlength, ← List.range'_append_1, List.flatMap_append,
    Nat.add_sub_cancel' h₁]

theorem placements_succ {low high : ℕ} (h : low < high) (l : List ℕ) :
    placements low high l = placesOf low 0 l ++ placements (low + 1) high l := by
  rw [placements_split (Nat.le_add_right low 1) h, placements, Nat.add_sub_cancel_left, List.range'_one,
    List.flatMap_singleton]

theorem mem_placements {low high : ℕ} {l : List ℕ} {step : ℕ × ℕ} (h : step ∈ placements low high l) :
    low ≤ step.1 ∧ step.1 < high ∧ step.1 ∈ l := by
  obtain ⟨m, hm, h⟩ := List.mem_flatMap.mp h
  obtain ⟨rfl, -, hmem⟩ := mem_placesOf h
  rw [List.mem_range'_1] at hm
  exact ⟨hm.1, by omega, hmem⟩

theorem placements_eq_nil {low high : ℕ} {l : List ℕ} (h : ∀ c ∈ l, low ≤ c → high ≤ c) :
    placements low high l = [] := by
  refine List.eq_nil_iff_forall_not_mem.mpr fun step hstep => ?_
  obtain ⟨hlow, hhigh, hmem⟩ := mem_placements hstep
  exact absurd (h _ hmem hlow) hhigh.not_ge

/-- A placement on top of a list is the last of its placements. -/
theorem placements_insertIdx {low high n k : ℕ} {l : List ℕ} (hlow : low ≤ n) (hhigh : n < high)
    (hk : k ≤ l.length) (hle : ∀ c ∈ l, c ≤ n) (hlt : ∀ c ∈ l.drop k, c < n) :
    placements low high (l.insertIdx k n) = placements low high l ++ [(n, k)] := by
  have hbelow : placements low n (l.insertIdx k n) = placements low n l :=
    List.flatMap_congr fun m hm => placesOf_insertIdx_of_lt (by rw [List.mem_range'_1] at hm; omega) 0 k l
  have habove : ∀ l' : List ℕ, (∀ c ∈ l', c ≤ n) → placements (n + 1) high l' = [] := fun l' hl' =>
    placements_eq_nil fun c hc hn => absurd (hl' c hc) (by omega)
  have hle' : ∀ c ∈ l.insertIdx k n, c ≤ n := fun c hc => by
    rcases List.eq_or_mem_of_mem_insertIdx hc with rfl | hc
    · exact le_rfl
    · exact hle c hc
  rw [placements_split hlow hhigh.le, placements_split hlow hhigh.le l, placements_succ hhigh,
    placements_succ hhigh l, habove _ hle, habove _ hle', placesOf_insertIdx hk hle hlt, hbelow, Nat.zero_add]
  simp only [List.append_nil, List.append_assoc]

/-! ## Both ways -/

theorem inOrder_placements {n k low high : ℕ} {l : List ℕ} (hlow : low ≤ high)
    (hn : n < low ∨ n = low ∧ k = 0) :
    InOrder n k (l.filter (· < low)).length (placements low high l) := by
  obtain ⟨gap, rfl⟩ := Nat.exists_eq_add_of_le hlow
  induction gap generalizing n k low with
  | zero =>
    rw [Nat.add_zero, placements_self]
    trivial
  | succ gap ih =>
    rw [placements_succ (by omega)]
    refine inOrder_placesOf (hn.imp_right fun h => ⟨h.1, h.2.le⟩) (by omega) fun n k hn => ?_
    have hlength : (l.filter (· < low)).length + (placesOf low 0 l).length = (l.filter (· < low + 1)).length := by
      rw [length_placesOf]
      simp only [Nat.lt_succ_iff]
    rw [hlength, ← Nat.add_assoc, Nat.add_right_comm]
    exact ih (Or.inl (by omega)) (Nat.le_add_right _ gap)

/-- A list is what its placements build. -/
theorem placeAll_placements {low high : ℕ} {l : List ℕ} (hlow : low ≤ high) :
    placeAll (l.filter (· < low)) (placements low high l) = l.filter (· < high) := by
  obtain ⟨gap, rfl⟩ := Nat.exists_eq_add_of_le hlow
  induction gap generalizing low with
  | zero => rw [Nat.add_zero, placements_self, placeAll_nil]
  | succ gap ih =>
    have hround : placeAll (l.filter (· < low)) (placesOf low 0 l) = l.filter (· < low + 1) := by
      calc placeAll (l.filter (· < low)) (placesOf low 0 l) = l.filter (· ≤ low) := placeAll_placesOf low [] l
        _ = l.filter (· < low + 1) := by simp only [Nat.lt_succ_iff]
    have hrest := ih (Nat.le_add_right (low + 1) gap)
    rw [placements_succ (by omega), placeAll_append, hround, ← Nat.add_assoc, Nat.add_right_comm]
    exact hrest

/-- Placements in order are those of the list they build. -/
theorem placements_placeAll {n k low high : ℕ} {l : List ℕ} {steps : List (ℕ × ℕ)} (hn : low ≤ n)
    (hsteps : InOrder n k l.length steps) (hhigh : ∀ step ∈ steps, step.1 < high) (hle : ∀ c ∈ l, c ≤ n)
    (hlt : ∀ c ∈ l.drop k, c < n) :
    placements low high (placeAll l steps) = placements low high l ++ steps := by
  induction steps generalizing n k l with
  | nil => rw [placeAll_nil, List.append_nil]
  | cons step steps ih =>
    obtain ⟨m, i⟩ := step
    obtain ⟨hstart, hi, hsteps⟩ := hsteps
    obtain ⟨hm, hhigh⟩ := List.forall_mem_cons.mp hhigh
    dsimp only at hstart hi hsteps hm
    have hnm : n ≤ m := hstart.elim le_of_lt fun h => h.1.le
    -- the number that is placed is the largest, and stands to the right of its equals
    have hle' : ∀ c ∈ l, c ≤ m := fun c hc => (hle c hc).trans hnm
    have hlt' : ∀ c ∈ l.drop i, c < m := fun c hc => by
      rcases hstart with h | ⟨rfl, h⟩
      · exact (hle c (List.mem_of_mem_drop hc)).trans_lt h
      · exact hlt c (List.drop_subset_drop_left l h hc)
    have hlength : (l.insertIdx i m).length = l.length + 1 := List.length_insertIdx_of_le_length hi m
    have hnext := ih (hn.trans hnm) (by rw [hlength]; exact hsteps) hhigh (fun c hc => ?_) fun c hc => ?_
    · rw [placeAll_cons, hnext, placements_insertIdx (hn.trans hnm) hm hi hle' hlt', List.append_assoc,
        List.singleton_append]
    · rcases List.eq_or_mem_of_mem_insertIdx hc with rfl | hc
      · exact le_rfl
      · exact hle' c hc
    · have hdrop : (l.insertIdx i m).drop (i + 1) = l.drop i := by
        rw [insertIdx_eq_append hi, List.drop_append, List.length_take_of_le hi,
          List.drop_of_length_le (by rw [List.length_take_of_le hi]; exact Nat.le_succ i),
          Nat.add_sub_cancel_left, List.nil_append, List.drop_one, List.tail_cons]
      exact hlt' c (hdrop ▸ hc)

/-- Placements of large numbers leave the small ones as they are. -/
theorem filter_placeAll {low : ℕ} {steps : List (ℕ × ℕ)} (h : ∀ step ∈ steps, low ≤ step.1) (l : List ℕ) :
    (placeAll l steps).filter (· < low) = l.filter (· < low) := by
  induction steps generalizing l with
  | nil => rfl
  | cons step steps ih =>
    obtain ⟨hstep, hsteps⟩ := List.forall_mem_cons.mp h
    rw [placeAll_cons, ih hsteps]
    rcases le_or_gt step.2 l.length with hk | hk
    · rw [insertIdx_eq_append hk, List.filter_append, List.filter_cons_of_neg (by simpa using hstep),
        ← List.filter_append, List.take_append_drop]
    · rw [List.insertIdx_of_length_lt hk]

end CtBrowser.Foundations
