import CtBrowser.Style.Engine.Sheets

/-!
# The Order of Layers

The ranks the engine gives its layers are the places they have in the order of first
appearance: siblings in the order in which they were first declared, a layer after those that
lie in it, and no layer last of all.

## Main results

- `pathBefore_trans`, `pathBefore_trichotomy` — the order of paths is total.
- `rankOf_lt_rankOf` — ranks compare as the order of layers says.
-/

namespace CtBrowser.Style

open Foundations.StableOrder

/-! ### Paths -/

theorem pathBefore_irrefl (a : List ℕ) : pathBefore a a = false := by
  induction a with
  | nil => rfl
  | cons x a ih => rw [pathBefore, if_pos rfl, ih]

theorem pathBefore_trans {a b c : List ℕ} (hab : pathBefore a b = true)
    (hbc : pathBefore b c = true) : pathBefore a c = true := by
  induction a generalizing b c with
  | nil => simp [pathBefore] at hab
  | cons x a ih =>
    cases c with
    | nil => rfl
    | cons z c =>
      cases b with
      | nil => simp [pathBefore] at hbc
      | cons y b =>
        simp only [pathBefore] at hab hbc ⊢
        by_cases hxy : x = y
        · subst hxy
          by_cases hxz : x = z
          · simp only [hxz, if_true] at hab hbc ⊢
            exact ih hab hbc
          · simp only [hxz, if_false] at hbc ⊢
            exact hbc
        · simp only [hxy, if_false, decide_eq_true_eq] at hab
          by_cases hyz : y = z
          · subst hyz
            simpa [hxy] using hab
          · simp only [hyz, if_false, decide_eq_true_eq] at hbc
            have hxz : x ≠ z := by omega
            simpa [hxz] using hab.trans hbc

theorem pathBefore_trichotomy (a b : List ℕ) :
    a = b ∨ pathBefore a b = true ∨ pathBefore b a = true := by
  induction a generalizing b with
  | nil => cases b <;> simp [pathBefore]
  | cons x a ih =>
    cases b with
    | nil => exact .inr (.inl rfl)
    | cons y b =>
      simp only [pathBefore]
      rcases lt_trichotomy x y with hlt | rfl | hgt
      · simp [hlt.ne, hlt]
      · simpa using ih b
      · simp [hgt.ne', hgt.ne, hgt]

theorem pathBefore_asymm {a b : List ℕ} (h : pathBefore a b = true) : pathBefore b a = false := by
  rw [← Bool.not_eq_true]
  intro hba
  have hloop := pathBefore_trans h hba
  rw [pathBefore_irrefl] at hloop
  exact Bool.false_ne_true hloop

/-! ### Tables of layers -/

theorem head?_layersOf (of : Origin → Bool) (sheets : Sheets) :
    (layersOf of sheets).head? = some [] := by
  induction sheets using List.reverseRecOn with
  | nil => rfl
  | append_singleton sheets s ih =>
    rw [layersOf_concat]
    split
    · obtain ⟨new, hnew⟩ := prefix_mergeLayers (sheets.length + 1) (layersOf of sheets) s.2.layers
      rw [← hnew, List.head?_append, ih]
      rfl
    · exact ih

variable {names : List LayerName}

theorem layerPath_concat (name : LayerName) (last : Segment) :
    layerPath names (name ++ [last]) = layerPath names name ++ [names.idxOf (name ++ [last])] := by
  have hne : name.inits ≠ [] := List.ne_nil_of_mem ((List.mem_inits _ _).mpr List.nil_prefix)
  have hinits : (name ++ [last]).inits = name.inits ++ [name ++ [last]] := by
    simp [List.inits_append]
  rw [layerPath, layerPath, hinits, List.tail_append_of_ne_nil hne, List.map_append]
  rfl

theorem layerPath_inj {a b : LayerName} (ha : a ∈ names)
    (hpath : layerPath names a = layerPath names b) : a = b := by
  have hlength : ∀ name : LayerName, (layerPath names name).length = name.length := by
    intro name
    simp [layerPath]
  have hsame : a.length = b.length := by rw [← hlength a, ← hlength b, hpath]
  rcases List.eq_nil_or_concat a with rfl | ⟨a', x, rfl⟩
  · exact (List.length_eq_zero_iff.mp hsame.symm).symm
  · rcases List.eq_nil_or_concat b with rfl | ⟨b', y, rfl⟩
    · simp at hsame
    · simp only [List.concat_eq_append] at *
      rw [layerPath_concat, layerPath_concat] at hpath
      have hidx := (List.append_inj' hpath rfl).2
      exact (List.idxOf_inj ha).mp (by simpa using hidx)

theorem layerBefore_or {a b : LayerName} (ha : a ∈ names) (hne : a ≠ b) :
    layerBefore names a b = true ∨ layerBefore names b a = true := by
  rcases pathBefore_trichotomy (layerPath names a) (layerPath names b) with heq | h
  · exact absurd (layerPath_inj ha heq) hne
  · exact h

theorem layerBefore_nil {a : LayerName} (h : a ≠ []) : layerBefore names a [] = true := by
  cases a with
  | nil => exact absurd rfl h
  | cons x a =>
    rw [layerBefore, layerPath, layerPath, List.inits_cons, List.tail_cons, List.map_map]
    cases a <;> rfl

/-! ### Ranks -/

theorem pairwise_layerOrder (names : List LayerName) :
    (layerOrder names).Pairwise fun a b => layerBefore names b a = false := by
  have htotal : ∀ a b : LayerName, True → True →
      (!layerBefore names b a) = true ∨ (!layerBefore names a b) = true := by
    intro a b _ _
    cases hba : layerBefore names b a with
    | false => exact .inl rfl
    | true => exact .inr (by rw [layerBefore, pathBefore_asymm hba]; rfl)
  have htrans : ∀ a b c : LayerName, True → True → True → (!layerBefore names b a) = true →
      (!layerBefore names c b) = true → (!layerBefore names c a) = true := by
    intro a b c _ _ _ hab hbc
    rw [Bool.not_eq_true'] at hab hbc ⊢
    rw [← Bool.not_eq_true]
    intro hca
    rcases pathBefore_trichotomy (layerPath names a) (layerPath names b) with heq | hlt | hgt
    · have hcb : layerBefore names c b = true := by rwa [layerBefore, ← heq]
      exact Bool.false_ne_true (hbc.symm.trans hcb)
    · exact Bool.false_ne_true (hbc.symm.trans (pathBefore_trans hca hlt))
    · exact Bool.false_ne_true (hab.symm.trans hgt)
  have hsorted := pairwise_insertionSort_stable (R := fun _ _ => True) htotal htrans
    (fun _ _ => trivial) (List.pairwise_of_forall (l := names.tail) fun _ _ => trivial)
  exact hsorted.imp fun h => by simpa using h.1

theorem idxOf_layerOrder_lt {a b : LayerName} (ha : a ∈ names.tail)
    (hb : b ∈ names.tail) :
    (layerOrder names).idxOf a < (layerOrder names).idxOf b ↔ layerBefore names a b = true := by
  have hmem : ∀ {name : LayerName}, name ∈ names.tail →
      (layerOrder names).idxOf name < (layerOrder names).length := fun hname =>
    List.idxOf_lt_length_of_mem ((List.perm_insertionSort _ _).mem_iff.mpr hname)
  have hpairwise := List.pairwise_iff_getElem.mp (pairwise_layerOrder names)
  -- the one at the smaller place does not come after the other
  have hplace : ∀ {x y : LayerName}, x ∈ names.tail → y ∈ names.tail →
      (layerOrder names).idxOf x < (layerOrder names).idxOf y → layerBefore names y x = false := by
    intro x y hx hy hlt
    have hxy := hpairwise _ _ (hmem hx) (hmem hy) hlt
    rwa [List.getElem_idxOf, List.getElem_idxOf] at hxy
  constructor
  · intro hlt
    have hne : a ≠ b := by
      rintro rfl
      exact lt_irrefl _ hlt
    refine (layerBefore_or (List.mem_of_mem_tail ha) hne).resolve_right ?_
    rw [hplace ha hb hlt]
    exact Bool.false_ne_true
  · intro hbefore
    rcases lt_trichotomy ((layerOrder names).idxOf a) ((layerOrder names).idxOf b) with hlt | heq | hgt
    · exact hlt
    · have hsame : a = b :=
        (List.idxOf_inj ((List.perm_insertionSort _ _).mem_iff.mpr ha)).mp heq
      rw [hsame, layerBefore, pathBefore_irrefl] at hbefore
      exact absurd hbefore Bool.false_ne_true
    · rw [hplace hb ha hgt] at hbefore
      exact absurd hbefore Bool.false_ne_true

theorem rankOf_idxOf {sheets : Sheets} {name : LayerName} (hname : name ∈ allLayers sheets) :
    (Engine.addSheets sheets).rankOf ((allLayers sheets).idxOf name) =
      if name = [] then unlayeredRank else ((layerOrder (allLayers sheets)).idxOf name : ℕ) := by
  obtain ⟨rest, hrest⟩ : ∃ rest, allLayers sheets = [] :: rest :=
    List.head?_eq_some_iff.mp (head?_layersOf _ sheets)
  rw [Engine.rankOf, layerRank_addSheets, rerankLayers, hrest]
  split
  · next hnil => simp [hnil]
  · next hne =>
    have hmem : name ∈ rest := by
      rw [hrest] at hname
      exact (List.mem_cons.mp hname).resolve_left hne
    have hlt := List.idxOf_lt_length_of_mem hmem
    rw [List.idxOf_cons_ne _ (Ne.symm hne), List.getElem?_cons_succ, List.tail_cons,
      List.getElem?_map, List.getElem?_eq_getElem hlt, List.getElem_idxOf]
    rfl

/-- The ranks compare as the order of layers. -/
theorem rankOf_lt_rankOf {sheets : Sheets} {a b : LayerName} (ha : a ∈ allLayers sheets)
    (hb : b ∈ allLayers sheets) :
    (Engine.addSheets sheets).rankOf ((allLayers sheets).idxOf a) <
        (Engine.addSheets sheets).rankOf ((allLayers sheets).idxOf b) ↔
      layerBefore (allLayers sheets) a b = true := by
  obtain ⟨rest, hrest⟩ : ∃ rest, allLayers sheets = [] :: rest :=
    List.head?_eq_some_iff.mp (head?_layersOf _ sheets)
  have htail : ∀ {name : LayerName}, name ∈ allLayers sheets → name ≠ [] →
      name ∈ (allLayers sheets).tail := by
    intro name hname hne
    rw [hrest] at hname ⊢
    exact (List.mem_cons.mp hname).resolve_left hne
  rw [rankOf_idxOf ha, rankOf_idxOf hb]
  by_cases hanil : a = []
  · have hlate : layerBefore (allLayers sheets) a b = false := by
      subst hanil
      rw [layerBefore]
      cases layerPath (allLayers sheets) b <;> rfl
    rw [if_pos hanil, hlate, unlayeredRank]
    simp
  · rw [if_neg hanil]
    by_cases hbnil : b = []
    · rw [if_pos hbnil]
      subst hbnil
      exact iff_of_true (WithTop.coe_lt_top _) (layerBefore_nil hanil)
    · rw [if_neg hbnil, Nat.cast_lt]
      exact idxOf_layerOrder_lt (htail ha hanil) (htail hb hbnil)

end CtBrowser.Style
