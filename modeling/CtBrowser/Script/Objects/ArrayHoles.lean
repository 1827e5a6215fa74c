import CtBrowser.Foundations.Transition
import CtBrowser.Script.Objects.ArrayTables

/-!
# Array Holes

The tables of an array are those of the plain one, which keeps one attribute for each index, in every
state its operations reach. The list of attributes stays sorted, ends with the elements and has
nothing in the run of holes.

## Main definitions

- `ArrayObject.Fits` — the list and the run fit each other and the elements.
- `HolesFit` — the array beside the plain one.

## Main results

- `HolesFit.apply` — every operation on the array is the operation on the plain one.
- `holes_of_reachable` — in every run holes and attributes are those of the plain array.
-/

namespace CtBrowser.Script.Objects

open Foundations SortedEntries

variable {ν : Type}

/-! ## The tables fit -/

namespace ArrayObject

variable {a : ArrayObject ν} {i : ℕ}

/-- The attributes of an index before any mask. -/
def attrsOf (a : ArrayObject ν) (i : ℕ) : UInt8 :=
  if a.inHoleRun i then elemHole else (a.findElementAttrs i).getD attrDefault

theorem inHoleRun_iff : a.inHoleRun i ↔ a.holesBegin ≤ i ∧ i < a.holesEnd := by
  simp [inHoleRun]

theorem hasHoleRun_iff : a.hasHoleRun ↔ a.holesBegin < a.holesEnd := by
  simp [hasHoleRun]

/-- The list is sorted, ends with the elements, and has nothing in the run, which does too. -/
structure Fits (a : ArrayObject ν) : Prop where
  sorted : Sorted a.elementAttrs
  outside : ∀ e ∈ a.elementAttrs, ¬ a.inHoleRun e.1
  within : ∀ e ∈ a.elementAttrs, e.1 < a.items.length
  run : a.holesEnd ≤ a.items.length

theorem sorted_made (b n : ℕ) : Sorted ((List.range' b n).map fun k => (k, elemHole)) :=
  List.pairwise_map.mpr (List.pairwise_lt_range' ..)

theorem mem_made {b n : ℕ} {e : ℕ × UInt8} :
    e ∈ (List.range' b n).map (fun k => (k, elemHole)) ↔ (b ≤ e.1 ∧ e.1 < b + n) ∧ e.2 = elemHole := by
  obtain ⟨k, attrs⟩ := e
  simp only [List.mem_map, List.mem_range'_1, Prod.mk.injEq]
  constructor
  · rintro ⟨k, hk, rfl, rfl⟩
    exact ⟨hk, rfl⟩
  · rintro ⟨hk, rfl⟩
    exact ⟨k, hk, rfl, rfl⟩

/-- The fields beside the tables. -/
def beside (a : ArrayObject ν) : List ν × Bool × Bool := (a.items, a.elementsWritable, a.elementsConfigurable)

@[simp]
theorem settleHoleRun_beside (a : ArrayObject ν) : a.settleHoleRun.beside = a.beside := by
  rw [settleHoleRun]
  split <;> rfl

theorem addHoles_beside (a : ArrayObject ν) (start stop : ℕ) : (a.addHoles start stop).beside = a.beside := by
  have hbase : (if a.hasHoleRun ∧ a.holesEnd ≠ start then a.settleHoleRun else a).beside = a.beside := by
    split
    · exact a.settleHoleRun_beside
    · rfl
  rw [addHoles]
  split
  · rfl
  · dsimp only
    generalize (if a.hasHoleRun ∧ a.holesEnd ≠ start then a.settleHoleRun else a) = b at hbase ⊢
    rw [← hbase]
    cases b.hasHoleRun <;> rfl

theorem fillHole_beside (a : ArrayObject ν) (i : ℕ) : (a.fillHole i).beside = a.beside := by
  have htaken : (a.takeOut i).beside = a.beside := by
    rw [takeOut]
    split_ifs
    · rfl
    · rfl
    · exact settleHoleRun_beside _
  rw [fillHole, normaliseRun, ← htaken]
  split <;> rfl

theorem setElementAttrs_beside (a : ArrayObject ν) (i : ℕ) (attrs : UInt8) :
    (a.setElementAttrs i attrs).beside = a.beside := by
  rw [setElementAttrs]
  split_ifs
  · exact a.fillHole_beside i
  · exact a.fillHole_beside i
  · rfl

theorem setJsLength_flags (undefined : ν) (a : ArrayObject ν) (n : Double) :
    (a.setJsLength undefined n).1.elementsWritable = a.elementsWritable ∧
      (a.setJsLength undefined n).1.elementsConfigurable = a.elementsConfigurable := by
  rw [setJsLength]
  cases arrayLength n with
  | none => exact ⟨rfl, rfl⟩
  | some wanted =>
    dsimp only [truncate, normaliseRun]
    split_ifs <;> exact ⟨rfl, rfl⟩

theorem setJsLength_tables (undefined : ν) (a : ArrayObject ν) (n : Double) :
    (a.setJsLength undefined n).1.elementAttrs ⊆ a.elementAttrs ∧ (a.setJsLength undefined n).1.holesEnd ≤ a.holesEnd := by
  rw [setJsLength]
  cases arrayLength n with
  | none => exact ⟨List.Subset.refl _, le_rfl⟩
  | some wanted =>
    dsimp only [truncate, normaliseRun]
    split_ifs
    all_goals exact ⟨List.filter_subset_self _, by simp⟩

@[simp]
theorem settleHoleRun_items (a : ArrayObject ν) : a.settleHoleRun.items = a.items :=
  congrArg Prod.fst a.settleHoleRun_beside

@[simp]
theorem settleHoleRun_hasHoleRun (a : ArrayObject ν) : a.settleHoleRun.hasHoleRun = false := by
  rw [settleHoleRun]
  split
  · rename_i h
    simpa using h
  · simp [hasHoleRun]

theorem mem_settleHoleRun {e : ℕ × UInt8} (he : e ∈ a.settleHoleRun.elementAttrs) :
    a.inHoleRun e.1 ∨ e ∈ a.elementAttrs := by
  rw [settleHoleRun] at he
  split at he
  · exact .inr he
  · rcases mem_splice.mp he with he | he
    · have := (mem_made.mp he).1
      exact .inl (inHoleRun_iff.mpr (by omega))
    · exact .inr he

namespace Fits

theorem made_lt (h : Fits a) : ∀ x ∈ a.elementAttrs, a.holesBegin ≤ x.1 →
    ∀ e ∈ (List.range' a.holesBegin (a.holesEnd - a.holesBegin)).map (fun k => (k, elemHole)), e.1 < x.1 := by
  intro x hx hle e he
  have hout := inHoleRun_iff.not.mp (h.outside x hx)
  have := (mem_made.mp he).1
  omega

theorem settleHoleRun (h : Fits a) : Fits a.settleHoleRun where
  sorted := by
    rw [ArrayObject.settleHoleRun]
    split
    · exact h.sorted
    · exact h.sorted.splice (sorted_made _ _) (fun e he => (mem_made.mp he).1.1) h.made_lt
  outside e _ := by
    have hnone := hasHoleRun_iff.not.mp (Bool.eq_false_iff.mp a.settleHoleRun_hasHoleRun)
    rw [inHoleRun_iff]
    omega
  within e he := by
    rw [settleHoleRun_items]
    rcases mem_settleHoleRun he with hrun | he
    · exact (inHoleRun_iff.mp hrun).2.trans_le h.run
    · exact h.within e he
  run := by
    have hrun := h.run
    rw [settleHoleRun_items, ArrayObject.settleHoleRun]
    split
    · exact hrun
    · exact Nat.zero_le _

theorem attrsOf_settleHoleRun (h : Fits a) (i : ℕ) : a.settleHoleRun.attrsOf i = a.attrsOf i := by
  rw [ArrayObject.settleHoleRun]
  split
  · rfl
  · have hmade := sorted_made a.holesBegin (a.holesEnd - a.holesBegin)
    have hlookup := lookup_splice h.sorted hmade (fun e he => (mem_made.mp he).1.1) h.made_lt i
    have hnone : ({ a with elementAttrs := splice a.holesBegin ((List.range' a.holesBegin (a.holesEnd - a.holesBegin)).map
        fun k => (k, elemHole)) a.elementAttrs, holesBegin := 0, holesEnd := 0 } : ArrayObject ν).inHoleRun i = false := by
      simp [inHoleRun]
    rw [attrsOf, hnone, attrsOf, findElementAttrs, hlookup]
    by_cases hi : a.inHoleRun i
    · have hmem : (i, elemHole) ∈ (List.range' a.holesBegin (a.holesEnd - a.holesBegin)).map fun k => (k, elemHole) := by
        have := inHoleRun_iff.mp hi
        exact mem_made.mpr ⟨by dsimp only; omega, rfl⟩
      rw [(lookup_eq_some_iff hmade).mpr hmem, if_pos hi]
      rfl
    · have hnot : ∀ b, (i, b) ∉ (List.range' a.holesBegin (a.holesEnd - a.holesBegin)).map fun k => (k, elemHole) := by
        intro b hb
        have := (mem_made.mp hb).1
        dsimp only at this
        exact hi (inHoleRun_iff.mpr (by omega))
      rw [(lookup_eq_none_iff hmade).mpr hnot, if_neg hi]
      rfl

theorem startRun (h : Fits a) (start stop : ℕ) (hnone : a.hasHoleRun = false)
    (hentries : ∀ e ∈ a.elementAttrs, ¬ (start ≤ e.1 ∧ e.1 < stop)) (hstop : stop ≤ a.items.length) :
    Fits { a with holesBegin := start, holesEnd := stop } ∧
      ∀ i, ({ a with holesBegin := start, holesEnd := stop } : ArrayObject ν).attrsOf i =
        if start ≤ i ∧ i < stop then elemHole else a.attrsOf i := by
  refine ⟨⟨h.sorted, fun e he => inHoleRun_iff.not.mpr (hentries e he), h.within, hstop⟩, fun i => ?_⟩
  · have hnot : ¬ a.inHoleRun i := by
      have := hasHoleRun_iff.not.mp (Bool.eq_false_iff.mp hnone)
      rw [inHoleRun_iff]
      omega
    rw [attrsOf, attrsOf, if_neg hnot]
    exact if_congr inHoleRun_iff rfl rfl

theorem extendRun (h : Fits a) (start stop : ℕ) (hrun : a.hasHoleRun) (hstart : a.holesEnd = start)
    (hentries : ∀ e ∈ a.elementAttrs, e.1 < start) (hle : start ≤ stop) (hstop : stop ≤ a.items.length) :
    Fits { a with holesEnd := stop } ∧
      ∀ i, ({ a with holesEnd := stop } : ArrayObject ν).attrsOf i =
        if start ≤ i ∧ i < stop then elemHole else a.attrsOf i := by
  have hlt := hasHoleRun_iff.mp hrun
  refine ⟨⟨h.sorted, fun e he => ?_, h.within, hstop⟩, fun i => ?_⟩
  · have := hentries e he
    have hout := inHoleRun_iff.not.mp (h.outside e he)
    rw [inHoleRun_iff]
    dsimp only
    omega
  · rw [attrsOf, attrsOf]
    by_cases hi : start ≤ i ∧ i < stop
    · rw [if_pos hi, if_pos (inHoleRun_iff.mpr (by dsimp only; omega))]
    · rw [if_neg hi]
      refine if_congr ?_ rfl rfl
      rw [inHoleRun_iff, inHoleRun_iff]
      dsimp only
      omega

/-- Added slots become holes. -/
theorem addHoles {start stop : ℕ} (h : Fits a) (hentries : ∀ e ∈ a.elementAttrs, e.1 < start)
    (hend : a.holesEnd ≤ start) (hstop : stop ≤ a.items.length) (hword : start < stop → stop < 2 ^ 32) :
    Fits (a.addHoles start stop) ∧
      ∀ i, (a.addHoles start stop).attrsOf i = if start ≤ i ∧ i < stop then elemHole else a.attrsOf i := by
  rw [ArrayObject.addHoles]
  by_cases hlt : start < stop
  · rw [if_neg (by omega), Nat.mod_eq_of_lt (hword hlt), Nat.mod_eq_of_lt (hlt.trans (hword hlt))]
    by_cases hother : a.hasHoleRun ∧ a.holesEnd ≠ start
    · -- another run is settled first
      rw [if_pos hother]
      dsimp only
      rw [settleHoleRun_hasHoleRun, Bool.not_false, if_pos rfl]
      obtain ⟨hfits, hattrs⟩ := h.settleHoleRun.startRun start stop a.settleHoleRun_hasHoleRun
        (fun e he hin => by
          rcases mem_settleHoleRun he with hrun | he
          · have := inHoleRun_iff.mp hrun
            omega
          · have := hentries e he
            omega) ((settleHoleRun_items a).symm ▸ hstop)
      exact ⟨hfits, fun i => by rw [hattrs i, h.attrsOf_settleHoleRun]⟩
    · rw [if_neg hother]
      dsimp only
      cases hrun : a.hasHoleRun with
      | false =>
        rw [Bool.not_false, if_pos rfl]
        exact h.startRun start stop hrun (fun e he => by have := hentries e he; omega) hstop
      | true =>
        rw [Bool.not_true, if_neg Bool.false_ne_true]
        exact h.extendRun start stop hrun (not_not.mp fun hne => hother ⟨hrun, hne⟩) hentries hlt.le hstop
  · rw [if_pos (by omega)]
    exact ⟨h, fun i => (if_neg (by omega)).symm⟩

theorem narrowRun (h : Fits a) (start stop : ℕ) (hstart : a.holesBegin ≤ start) (hstop : stop ≤ a.holesEnd) :
    Fits { a with holesBegin := start, holesEnd := stop } ∧
      ∀ i, ({ a with holesBegin := start, holesEnd := stop } : ArrayObject ν).attrsOf i =
        if start ≤ i ∧ i < stop then elemHole else if a.inHoleRun i then attrDefault else a.attrsOf i := by
  refine ⟨⟨h.sorted, fun e he => ?_, h.within, hstop.trans h.run⟩, fun i => ?_⟩
  · have hout := inHoleRun_iff.not.mp (h.outside e he)
    rw [inHoleRun_iff]
    dsimp only
    omega
  · rw [attrsOf]
    refine if_congr inHoleRun_iff rfl ?_
    by_cases hi : a.inHoleRun i
    · have hnone : lookup i a.elementAttrs = none :=
        (lookup_eq_none_iff h.sorted).mpr fun b hb => h.outside _ hb hi
      rw [if_pos hi, findElementAttrs, hnone]
      rfl
    · rw [if_neg hi, attrsOf, if_neg hi]
      rfl

theorem normaliseRun (h : Fits a) : Fits a.normaliseRun ∧ ∀ i, a.normaliseRun.attrsOf i = a.attrsOf i := by
  rw [ArrayObject.normaliseRun]
  split_ifs with hempty
  · have hnone : a.hasHoleRun = false := by
      rw [Bool.eq_false_iff, Ne, hasHoleRun_iff]
      omega
    obtain ⟨hfits, hattrs⟩ := h.startRun 0 0 hnone (by simp) (Nat.zero_le _)
    exact ⟨hfits, fun i => by rw [hattrs i, if_neg (by omega)]⟩
  · exact ⟨h, fun _ => rfl⟩

theorem attrs_without (hi : a.inHoleRun i) {p : Prop} [Decidable p] {j : ℕ} (hp : p ↔ a.inHoleRun j ∧ j ≠ i) :
    (if p then elemHole else if a.inHoleRun j then attrDefault else a.attrsOf j) =
      if j = i then attrDefault else a.attrsOf j := by
  by_cases hj : j = i
  · rw [if_neg (by simp [hp, hj]), if_pos (hj ▸ hi), if_pos hj]
  · rw [if_neg hj]
    by_cases hrun : a.inHoleRun j
    · rw [if_pos (hp.mpr ⟨hrun, hj⟩), attrsOf, if_pos hrun]
    · rw [if_neg (fun h => hrun (hp.mp h).1), if_neg hrun]

/-- A hole that is taken out of the run is an ordinary element. -/
theorem takeOut (h : Fits a) (hi : a.inHoleRun i) :
    Fits (a.takeOut i) ∧ ∀ j, (a.takeOut i).attrsOf j = if j = i then attrDefault else a.attrsOf j := by
  obtain ⟨hbegin, hend⟩ := inHoleRun_iff.mp hi
  rw [ArrayObject.takeOut]
  split_ifs with hfirst hlast
  · obtain ⟨hfits, hattrs⟩ := h.narrowRun (a.holesBegin + 1) a.holesEnd (Nat.le_succ _) le_rfl
    refine ⟨hfits, fun j => (hattrs j).trans (attrs_without hi ?_)⟩
    rw [inHoleRun_iff]
    omega
  · obtain ⟨hfits, hattrs⟩ := h.narrowRun a.holesBegin (a.holesEnd - 1) le_rfl (Nat.sub_le _ _)
    refine ⟨hfits, fun j => (hattrs j).trans (attrs_without hi ?_)⟩
    rw [inHoleRun_iff]
    omega
  · obtain ⟨hbelow, hattrs⟩ := h.narrowRun a.holesBegin i le_rfl hend.le
    have habove : ∀ e ∈ (ArrayObject.settleHoleRun { a with holesEnd := i }).elementAttrs,
        ¬ (i + 1 ≤ e.1 ∧ e.1 < a.holesEnd) := by
      intro e he hin
      rcases mem_settleHoleRun he with hrun | he
      · have := (inHoleRun_iff.mp hrun).2
        dsimp only at this
        omega
      · exact h.outside e he (inHoleRun_iff.mpr (by omega))
    obtain ⟨hfits, hrest⟩ := hbelow.settleHoleRun.startRun (i + 1) a.holesEnd (settleHoleRun_hasHoleRun _) habove
      ((settleHoleRun_items _).symm ▸ h.run)
    refine ⟨hfits, fun j => ?_⟩
    rw [hrest j, hbelow.attrsOf_settleHoleRun, hattrs j, ← attrs_without hi (p := a.inHoleRun j ∧ j ≠ i) Iff.rfl]
    have hin := @inHoleRun_iff ν a j
    by_cases hupper : i + 1 ≤ j ∧ j < a.holesEnd
    · rw [if_pos hupper, if_pos ⟨hin.mpr (by omega), by omega⟩]
    · rw [if_neg hupper]
      exact if_congr (by rw [hin]; omega) rfl rfl

theorem fillHole (h : Fits a) (hi : a.inHoleRun i) :
    Fits (a.fillHole i) ∧ ∀ j, (a.fillHole i).attrsOf j = if j = i then attrDefault else a.attrsOf j := by
  obtain ⟨hfits, hattrs⟩ := h.takeOut hi
  exact ⟨hfits.normaliseRun.1, fun j => (hfits.normaliseRun.2 j).trans (hattrs j)⟩

theorem enterAttrs (h : Fits a) (hi : ¬ a.inHoleRun i) (hlength : i < a.items.length) (attrs : UInt8) :
    Fits (a.enterAttrs i attrs) ∧
      ∀ j, (a.enterAttrs i attrs).attrsOf j = if j = i then attrs else a.attrsOf j := by
  have hattrs {l : List (ℕ × UInt8)}
      (hlookup : ∀ j, (lookup j l).getD attrDefault = if j = i then attrs else (lookup j a.elementAttrs).getD attrDefault)
      (j : ℕ) : ({ a with elementAttrs := l } : ArrayObject ν).attrsOf j = if j = i then attrs else a.attrsOf j := by
    simp only [attrsOf, inHoleRun, findElementAttrs, hlookup j]
    by_cases hj : j = i
    · rw [if_neg (by simpa [inHoleRun, hj] using hi)]
      simp [hj]
    · simp [hj]
  rw [ArrayObject.enterAttrs]
  split_ifs with hdefault
  · refine ⟨⟨h.sorted.remove i, fun e he => h.outside e ((mem_remove h.sorted).mp he).1,
      fun e he => h.within e ((mem_remove h.sorted).mp he).1, h.run⟩, hattrs fun j => ?_⟩
    rw [lookup_remove h.sorted]
    split_ifs
    · exact hdefault.symm
    · rfl
  · refine ⟨⟨h.sorted.put i attrs, fun e he => ?_, fun e he => ?_, h.run⟩, hattrs fun j => ?_⟩
    · rcases (mem_put h.sorted).mp he with rfl | ⟨he, -⟩
      · exact hi
      · exact h.outside e he
    · rcases (mem_put h.sorted).mp he with rfl | ⟨he, -⟩
      · exact hlength
      · exact h.within e he
    · rw [lookup_put h.sorted]
      split_ifs
      · rfl
      · rfl

theorem setElementAttrs (h : Fits a) (hlength : i < a.items.length) (attrs : UInt8) :
    Fits (a.setElementAttrs i attrs) ∧
      ∀ j, (a.setElementAttrs i attrs).attrsOf j = if j = i then attrs else a.attrsOf j := by
  rw [ArrayObject.setElementAttrs]
  split_ifs with hi hdefault
  · rw [hdefault]
    exact h.fillHole hi
  · obtain ⟨hfits, hattrs⟩ := h.fillHole hi
    have hitems : a.items = (a.fillHole i).items := (congrArg Prod.fst (a.fillHole_beside i)).symm
    have hout : ¬ (a.fillHole i).inHoleRun i := by
      intro hin
      have hhole : (a.fillHole i).attrsOf i = elemHole := if_pos hin
      rw [hattrs i, if_pos rfl] at hhole
      exact absurd hhole (by decide)
    obtain ⟨hfits, hentered⟩ := hfits.enterAttrs hout (hitems ▸ hlength) attrs
    refine ⟨hfits, fun j => ?_⟩
    rw [hentered j, hattrs j]
    split_ifs <;> rfl
  · exact h.enterAttrs hi hlength attrs

theorem truncate_items (a : ArrayObject ν) (wanted : ℕ) : (a.truncate wanted).items = a.items.take wanted := by
  rw [ArrayObject.truncate, ArrayObject.normaliseRun]
  split_ifs <;> rfl

/-- A cut leaves what is below it. -/
theorem truncate (h : Fits a) (wanted : ℕ) :
    Fits (a.truncate wanted) ∧ ∀ i, (a.truncate wanted).attrsOf i = if i < wanted then a.attrsOf i else attrDefault := by
  have hrun := h.run
  have hcut : Fits { a with
      items := a.items.take wanted
      sparse := a.sparse.filter (·.1 < wanted)
      elementAttrs := a.elementAttrs.filter (·.1 < wanted)
      holesEnd := min a.holesEnd wanted } := by
    refine ⟨h.sorted.filter _, fun e he => ?_, fun e he => ?_, ?_⟩
    · have hout := inHoleRun_iff.not.mp (h.outside e (List.mem_filter.mp he).1)
      rw [inHoleRun_iff]
      dsimp only
      omega
    · obtain ⟨he, hlt⟩ := List.mem_filter.mp he
      have := h.within e he
      simp only [decide_eq_true_eq] at hlt
      rw [List.length_take]
      omega
    · rw [List.length_take]
      dsimp only
      omega
  refine ⟨hcut.normaliseRun.1, fun i => (hcut.normaliseRun.2 i).trans ?_⟩
  have hlookup := lookup_filter h.sorted (fun k => decide (k < wanted)) i
  simp only [attrsOf, findElementAttrs, hlookup]
  have hin := @inHoleRun_iff ν a i
  by_cases hi : i < wanted
  · simp only [hi, decide_true, if_true]
    refine if_congr ?_ rfl rfl
    rw [hin, inHoleRun_iff]
    dsimp only
    omega
  · rw [if_neg (inHoleRun_iff.not.mpr (by dsimp only; omega))]
    simp [hi]

theorem congr {b : ArrayObject ν} (h : Fits a) (hattrs : b.elementAttrs = a.elementAttrs)
    (hbegin : b.holesBegin = a.holesBegin) (hend : b.holesEnd = a.holesEnd) (hlength : a.items.length ≤ b.items.length) :
    Fits b ∧ ∀ i, b.attrsOf i = a.attrsOf i := by
  have hrun : ∀ i, b.inHoleRun i = a.inHoleRun i := fun i => by rw [inHoleRun, inHoleRun, hbegin, hend]
  refine ⟨⟨hattrs ▸ h.sorted, fun e he => ?_, fun e he => ?_, ?_⟩, fun i => ?_⟩
  · rw [hrun]
    exact h.outside e (hattrs ▸ he)
  · exact (h.within e (hattrs ▸ he)).trans_le hlength
  · rw [hend]
    exact h.run.trans hlength
  · rw [attrsOf, attrsOf, hrun, findElementAttrs, findElementAttrs, hattrs]

theorem setJsLength (h : Fits a) (undefined : ν) {n : Double} {wanted : ℕ} (hn : arrayLength n = some wanted) :
    Fits (a.setJsLength undefined n).1 ∧
      (∀ i, (a.setJsLength undefined n).1.attrsOf i = if i < wanted then a.attrsOf i else attrDefault) ∧
      (a.setJsLength undefined n).2 = true ∧
      (a.setJsLength undefined n).1.items.length =
        if wanted ≤ denseLimit then wanted else min a.items.length wanted := by
  obtain ⟨hcut, hattrs⟩ := h.truncate wanted
  have hitems := truncate_items a wanted
  rw [ArrayObject.setJsLength, hn]
  dsimp only
  split_ifs with hdense
  · have hle : (a.truncate wanted).items.length ≤ (resize (a.truncate wanted).items wanted undefined).length := by
      rw [length_resize, hitems, List.length_take]
      exact Nat.min_le_left _ _
    obtain ⟨hfits, hsame⟩ := hcut.congr (b := { a.truncate wanted with
      items := resize (a.truncate wanted).items wanted undefined, sparseLength := 0 }) rfl rfl rfl hle
    exact ⟨hfits, fun i => (hsame i).trans (hattrs i), rfl, length_resize ..⟩
  · obtain ⟨hfits, hsame⟩ := hcut.congr (b := { a.truncate wanted with sparseLength := wanted }) rfl rfl rfl le_rfl
    refine ⟨hfits, fun i => (hsame i).trans (hattrs i), rfl, ?_⟩
    dsimp only
    rw [hitems, List.length_take, Nat.min_comm]

end Fits

/-! ## Holes and attributes -/

theorem isHole_eq (a : ArrayObject ν) (i : ℕ) : a.isHole i = decide (a.attrsOf i &&& elemHole ≠ 0) := by
  rw [isHole, attrsOf]
  cases a.inHoleRun i with
  | true =>
    simp only [if_true, Bool.true_or]
    rfl
  | false =>
    cases a.findElementAttrs i with
    | none => rfl
    | some attrs => rfl

theorem elementAttrsAt_eq {a : ArrayObject ν} {p : PlainArray} {i : ℕ} (hattrs : p.attrs i = a.attrsOf i)
    (hwritable : p.elementsWritable = a.elementsWritable)
    (hconfigurable : p.elementsConfigurable = a.elementsConfigurable) : a.elementAttrsAt i = p.elementAttrsAt i := by
  rw [elementAttrsAt, PlainArray.elementAttrsAt, hattrs, hwritable, hconfigurable, attrsOf]
  cases a.inHoleRun i with
  | true =>
    simp only [if_true]
    cases a.elementsWritable <;> cases a.elementsConfigurable <;> rfl
  | false => rfl

end ArrayObject

/-! ## Runs -/

/-- The tables of an array fit, and are those of a plain one. -/
structure HolesFit (a : ArrayObject ν) (p : PlainArray) : Prop where
  fits : a.Fits
  attrs : ∀ i, p.attrs i = a.attrsOf i
  length : p.length = a.items.length
  writable : p.elementsWritable = a.elementsWritable
  configurable : p.elementsConfigurable = a.elementsConfigurable

namespace HolesFit

variable {a b : ArrayObject ν} {p : PlainArray}

theorem new : HolesFit ({} : ArrayObject ν) {} where
  fits := ⟨.nil, by simp, by simp, le_rfl⟩
  attrs _ := rfl
  length := rfl
  writable := rfl
  configurable := rfl

theorem change (h : HolesFit a p) (hbeside : b.beside = a.beside) (hfits : b.Fits) {attrs : ℕ → UInt8}
    (hattrs : ∀ i, attrs i = b.attrsOf i) : HolesFit b { p with attrs } := by
  obtain ⟨hitems, hflags⟩ := Prod.mk.inj hbeside
  obtain ⟨hwritable, hconfigurable⟩ := Prod.mk.inj hflags
  exact ⟨hfits, hattrs, by rw [hitems, ← h.length], by rw [hwritable, ← h.writable],
    by rw [hconfigurable, ← h.configurable]⟩

theorem addHoles (h : HolesFit a p) {start upTo : ℕ} (hentries : ∀ e ∈ a.elementAttrs, e.1 < start)
    (hend : a.holesEnd ≤ start) (hupTo : upTo ≤ a.items.length) (hword : start < upTo → upTo < 2 ^ 32) :
    HolesFit (a.addHoles start upTo) (p.markHoles start upTo) := by
  obtain ⟨hfits, hattrs⟩ := h.fits.addHoles hentries hend hupTo hword
  refine h.change (a.addHoles_beside start upTo) hfits fun i => ?_
  rw [hattrs i, ← h.attrs i]

theorem setJsLength (undefined : ν) (h : HolesFit a p) {n : Double} {wanted : ℕ} (hn : arrayLength n = some wanted) :
    HolesFit (a.setJsLength undefined n).1 (p.setLength wanted) := by
  obtain ⟨hfits, hattrs, -, hlength⟩ := h.fits.setJsLength undefined hn
  have hflags := ArrayObject.setJsLength_flags undefined a n
  refine ⟨hfits, fun i => ?_, ?_, ?_, ?_⟩
  · rw [hattrs i, ← h.attrs i]
    rfl
  · rw [hlength, ← h.length]
    rfl
  · rw [hflags.1, ← h.writable]
    rfl
  · rw [hflags.2, ← h.configurable]
    rfl

/-- Every operation on the array is the operation on the plain one. -/
theorem apply (undefined : ν) (h : HolesFit a p) {op : ArrayOp} (hop : Promised a op) :
    HolesFit (a.apply undefined op) (p.apply op) := by
  cases op with
  | grow size upTo =>
    obtain ⟨hsize, hupTo, hword⟩ := hop
    have hlength := length_resize a.items size undefined
    obtain ⟨hfits, hsame⟩ := h.fits.congr (b := { a with items := resize a.items size undefined }) rfl rfl rfl
      (hlength.symm ▸ hsize)
    have hgrown : HolesFit { a with items := resize a.items size undefined } { p with length := size } :=
      ⟨hfits, fun i => (h.attrs i).trans (hsame i).symm, hlength.symm, h.writable, h.configurable⟩
    rw [ArrayObject.apply, PlainArray.apply, h.length]
    exact hgrown.addHoles h.fits.within h.fits.run (hlength.symm ▸ hupTo) fun _ => hword
  | settleHoleRun =>
    exact h.change a.settleHoleRun_beside h.fits.settleHoleRun fun i =>
      (h.attrs i).trans (h.fits.attrsOf_settleHoleRun i).symm
  | fillHole i =>
    obtain ⟨hfits, hattrs⟩ := h.fits.fillHole hop
    refine h.change (a.fillHole_beside i) hfits fun j => ?_
    rw [hattrs j, ← h.attrs j]
    exact Function.update_apply ..
  | setElementAttrs i attrs =>
    obtain ⟨hfits, hattrs⟩ := h.fits.setElementAttrs hop attrs
    refine h.change (a.setElementAttrs_beside i attrs) hfits fun j => ?_
    rw [hattrs j, ← h.attrs j]
    exact Function.update_apply ..
  | setJsLength n =>
    rw [ArrayObject.apply, PlainArray.apply]
    cases hn : arrayLength n with
    | none =>
      rw [ArrayObject.setJsLength, hn]
      exact h
    | some wanted => exact h.setJsLength undefined hn
  | setJsLengthWithHoles n =>
    rw [ArrayObject.apply, PlainArray.apply, ArrayObject.setJsLengthWithHoles]
    cases hn : arrayLength n with
    | none =>
      rw [ArrayObject.setJsLength, hn]
      exact h
    | some wanted =>
      have hset := h.setJsLength undefined hn
      obtain ⟨-, -, hdone, hlength⟩ := h.fits.setJsLength undefined hn
      obtain ⟨hentries, hend⟩ := ArrayObject.setJsLength_tables undefined a n
      dsimp only
      rw [hdone, Bool.not_true, if_neg Bool.false_ne_true, hset.length, h.length]
      refine hset.addHoles (fun e he => h.fits.within e (hentries he)) (hend.trans h.fits.run) le_rfl fun hlt => ?_
      have hlimit : denseLimit < 2 ^ 32 := by norm_num [denseLimit]
      rw [hlength] at hlt ⊢
      split_ifs at hlt ⊢ <;> omega
  | restrict writable configurable => exact ⟨⟨h.fits.sorted, h.fits.outside, h.fits.within, h.fits.run⟩, h.attrs, h.length, rfl, rfl⟩

end HolesFit

/-- An array and the plain one, from an empty array on. -/
def arrayRuns (undefined : ν) : TransitionSystem (ArrayObject ν × PlainArray) ArrayOp where
  initial s := s = ({}, {})
  step s op s' := s' = (s.1.apply undefined op, s.2.apply op)

/-- In every run the list of attributes is sorted by index without duplicates and has nothing in the run of
holes, and holes and attributes are those of the plain array. -/
theorem holes_of_reachable (undefined : ν) {s : ArrayObject ν × PlainArray}
    (h : (arrayRuns undefined).Reachable (fun s op => Promised s.1 op) s) :
    Sorted s.1.elementAttrs ∧ (∀ e ∈ s.1.elementAttrs, ¬ s.1.inHoleRun e.1) ∧
      ∀ i, s.1.isHole i = s.2.isHole i ∧ s.1.elementAttrsAt i = s.2.elementAttrsAt i := by
  have hfit : HolesFit s.1 s.2 := by
    refine h.invariant (P := fun s => HolesFit s.1 s.2) ?_ ?_
    · rintro _ rfl
      exact .new
    · rintro s op _ hs hallowed rfl
      exact hs.apply undefined hallowed
  refine ⟨hfit.fits.sorted, hfit.fits.outside, fun i => ⟨?_, ?_⟩⟩
  · rw [ArrayObject.isHole_eq, PlainArray.isHole, hfit.attrs i]
  · exact ArrayObject.elementAttrsAt_eq (hfit.attrs i) hfit.writable hfit.configurable

/-- An array of six slots, four of them holes, one of which is filled and another deleted again. -/
theorem holes_of_reachable_filled :
    let ops : List ArrayOp := [.grow 6 4, .fillHole 2, .setElementAttrs 5 elemHole, .setJsLengthWithHoles (.finite false 9)]
    let s := ops.foldl (fun s op => (s.1.apply () op, s.2.apply op)) (({}, {}) : ArrayObject Unit × PlainArray)
    Sorted s.1.elementAttrs ∧ (∀ e ∈ s.1.elementAttrs, ¬ s.1.inHoleRun e.1) ∧
      ∀ i, s.1.isHole i = s.2.isHole i ∧ s.1.elementAttrsAt i = s.2.elementAttrsAt i := by
  have hstart : (arrayRuns ()).Reachable (fun s op => Promised s.1 op) (({}, {}) : ArrayObject Unit × PlainArray) :=
    .initial rfl
  have hgrown := hstart.step (l := ArrayOp.grow 6 4) ⟨by decide, by decide, by decide⟩ rfl
  have hfilled := hgrown.step (l := ArrayOp.fillHole 2) (by decide : ArrayObject.inHoleRun _ 2 = true) rfl
  have hdeleted := hfilled.step (l := ArrayOp.setElementAttrs 5 elemHole) (by decide : (5 : ℕ) < _) rfl
  have hlonger := hdeleted.step (l := ArrayOp.setJsLengthWithHoles (.finite false 9)) trivial rfl
  exact holes_of_reachable () hlonger

end CtBrowser.Script.Objects
