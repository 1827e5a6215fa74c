import CtBrowser.Foundations.RangeList
import CtBrowser.Foundations.SortedUnion
import CtBrowser.Script.Regex.Pattern

/-!
# The ranges of a character class

A class is read as a list of ranges of code points in any order. Before it is matched against, the
ranges are sorted and merged until they are apart. Complements and intersections of such lists are
such lists again, and a code point is looked up in them by a binary search.

## Main definitions

- `rxClassNormalize`, `rxComplement`, `rxRangesIntersect` — the operations on range lists.
- `rxClassHit` — the lookup of a code point.
- `CodeRange`, `CodePointSet` — ranges of code points, and lists of them that are apart.

## Main results

- `apart_rxClassNormalize` — what every class is brought into.
- `ranges_algebra` — the operations are those on sets of code points.
-/

namespace CtBrowser.Script.Regex

open Foundations

/-- A number in 32 bits. -/
def uint32 (n : ℕ) : ℕ := n % 2 ^ 32

/-- The last code point. -/
def lastPoint : ℕ := 0x10FFFF

/-! ## The operations -/

/-- The order of pairs. -/
def rangeLe (a b : ℕ × ℕ) : Bool := a.1 < b.1 || a.1 == b.1 && a.2 ≤ b.2

/-- A range merged into the last one before it, if it overlaps or touches that. -/
def mergeRange (merged : List (ℕ × ℕ)) (r : ℕ × ℕ) : List (ℕ × ℕ) :=
  match merged.getLast? with
  | some back =>
    if r.1 ≤ back.2 ∨ r.1 = uint32 (back.2 + 1) then merged.dropLast ++ [(back.1, max back.2 r.2)]
    else merged ++ [r]
  | none => merged ++ [r]

/-- Sorts and merges the ranges, and sorts the strings by length, the longest first. -/
def rxClassNormalize (cc : RxClass) : RxClass where
  neg := cc.neg
  ranges := (cc.ranges.mergeSort rangeLe).foldl mergeRange []
  strings := SortedUnion.unique (cc.strings.mergeSort fun a b => b.length ≤ a.length)

/-- The gaps between the ranges that are left, from a code point on. -/
def complementFrom (next : ℕ) : List (ℕ × ℕ) → List (ℕ × ℕ)
  | [] => [(next, lastPoint)]
  | (lo, hi) :: ranges =>
    (if next < lo then [(next, lo - 1)] else []) ++
      if lastPoint ≤ hi then [] else complementFrom (uint32 (hi + 1)) ranges

/-- The complement over the code space. -/
def rxComplement (ranges : List (ℕ × ℕ)) : List (ℕ × ℕ) := complementFrom 0 ranges

/-- What two range lists share: of the first range of each, the one that ends first is done. -/
def rxRangesIntersect : List (ℕ × ℕ) → List (ℕ × ℕ) → List (ℕ × ℕ)
  | [], _ => []
  | _ :: _, [] => []
  | a :: as, b :: bs =>
    (if max a.1 b.1 ≤ min a.2 b.2 then [(max a.1 b.1, min a.2 b.2)] else []) ++
      if a.2 < b.2 then rxRangesIntersect as (b :: bs) else rxRangesIntersect (a :: as) bs
termination_by as bs => as.length + bs.length

/-- Whether the range that the binary search finds holds a code point. -/
def probeHit (ranges : List (ℕ × ℕ)) (probe : ℕ) : Bool :=
  match ranges[lowerBound (fun r => decide (r.2 < probe)) ranges]? with
  | some r => r.1 ≤ probe
  | none => false

/-- Whether a class holds a code point, by binary searches in its ranges. -/
def rxClassHit (folding : CaseFolding) (cc : RxClass) (ch : ℕ) (icase unicode : Bool) : Bool :=
  let holds := probeHit cc.ranges
  let hit :=
    if holds ch then true
    else if icase && unicode then
      let folded := folding.foldSimple ch
      (folded ≠ ch && holds folded) || (folding.unfold folded).any fun other => other ≠ ch && holds other
    else if icase then otherCase ch ≠ ch && holds (otherCase ch)
    else false
  if cc.neg then !hit else hit

/-! ## Sorting and merging -/

theorem uint32_of_le {n : ℕ} (h : n ≤ lastPoint) : uint32 (n + 1) = n + 1 :=
  Nat.mod_eq_of_lt (by rw [lastPoint] at h; omega)

/-- A range that starts after the last one does is merged into it or put behind it. -/
theorem mergeRange_spec {merged : List (ℕ × ℕ)} {r : ℕ × ℕ} (hmerged : Apart merged)
    (hcodes : ∀ s ∈ merged, s.2 ≤ lastPoint) (hr : r.1 ≤ r.2) (hcode : r.2 ≤ lastPoint)
    (hfirst : ∀ s ∈ merged, s.1 ≤ r.1) :
    Apart (mergeRange merged r) ∧ (∀ s ∈ mergeRange merged r, s.1 ≤ r.1 ∧ s.2 ≤ lastPoint) ∧
      ∀ n, Covers (mergeRange merged r) n ↔ Covers merged n ∨ (r.1 ≤ n ∧ n ≤ r.2) := by
  induction merged using List.reverseRecOn with
  | nil =>
    refine ⟨apart_cons.mpr ⟨hr, by simp, apart_nil⟩, ?_, fun n => by simp [mergeRange]⟩
    exact List.forall_mem_singleton.mpr ⟨le_rfl, hcode⟩
  | append_singleton front back _ =>
    have hlast : back ∈ front ++ [back] := by simp
    obtain ⟨hfront, hback, hgap⟩ := apart_snoc.mp hmerged
    have hwrap := uint32_of_le (hcodes back hlast)
    have hstart := hfirst back hlast
    rw [mergeRange, List.getLast?_concat]
    dsimp only
    rw [hwrap]
    split_ifs with htouch
    · rw [List.dropLast_concat]
      refine ⟨apart_snoc.mpr ⟨hfront, hback.trans (le_max_left ..), hgap⟩, ?_, fun n => ?_⟩
      · refine List.forall_mem_append.mpr ⟨fun s hs => ?_, List.forall_mem_singleton.mpr ⟨hstart, ?_⟩⟩
        · exact ⟨hfirst s (by simp [hs]), hcodes s (by simp [hs])⟩
        · exact max_le (hcodes back hlast) hcode
      · simp only [covers_append, covers_cons, covers_nil, or_false, le_max_iff, or_assoc]
        refine or_congr_right ?_
        omega
    · refine ⟨apart_snoc.mpr ⟨hmerged, hr, fun s hs => ?_⟩, ?_, fun n => by simp [or_assoc]⟩
      · rcases List.mem_append.mp hs with hs | hs
        · have := hgap s hs
          omega
        · rw [List.mem_singleton.mp hs]
          omega
      · refine List.forall_mem_append.mpr ⟨fun s hs => ⟨hfirst s hs, hcodes s hs⟩, ?_⟩
        exact List.forall_mem_singleton.mpr ⟨le_rfl, hcode⟩

theorem foldl_mergeRange {merged l : List (ℕ × ℕ)} (hmerged : Apart merged)
    (hcodes : ∀ s ∈ merged, s.2 ≤ lastPoint) (hl : ∀ r ∈ l, r.1 ≤ r.2 ∧ r.2 ≤ lastPoint)
    (hsorted : l.Pairwise fun a b => a.1 ≤ b.1) (hfirst : ∀ s ∈ merged, ∀ r ∈ l, s.1 ≤ r.1) :
    Apart (l.foldl mergeRange merged) ∧ (∀ s ∈ l.foldl mergeRange merged, s.2 ≤ lastPoint) ∧
      ∀ n, Covers (l.foldl mergeRange merged) n ↔ Covers merged n ∨ Covers l n := by
  induction l generalizing merged with
  | nil => exact ⟨hmerged, hcodes, fun n => by simp⟩
  | cons r l ih =>
    obtain ⟨⟨hr, hcode⟩, hl⟩ := List.forall_mem_cons.mp hl
    obtain ⟨hle, hsorted⟩ := List.pairwise_cons.mp hsorted
    obtain ⟨hapart, hmem, hcovers⟩ := mergeRange_spec hmerged hcodes hr hcode fun s hs =>
      hfirst s hs r (List.mem_cons_self ..)
    obtain ⟨hapart', hmem', hcovers'⟩ := ih hapart (fun s hs => (hmem s hs).2) hl hsorted
      fun s hs q hq => (hmem s hs).1.trans (hle q hq)
    refine ⟨hapart', hmem', fun n => ?_⟩
    rw [List.foldl_cons, hcovers', hcovers, covers_cons, or_assoc]

theorem pairwise_sorted (ranges : List (ℕ × ℕ)) :
    (ranges.mergeSort rangeLe).Pairwise fun a b => a.1 ≤ b.1 := by
  refine (List.pairwise_mergeSort (fun a b c hab hbc => ?_) (fun a b => ?_) ranges).imp fun {a b} hab => ?_
  all_goals simp only [rangeLe, Bool.or_eq_true, Bool.and_eq_true, decide_eq_true_eq, beq_iff_eq] at *
  all_goals omega

/-- Every class is brought into ranges that are apart and hold what was read. -/
theorem apart_rxClassNormalize (cc : RxClass) (h : ∀ r ∈ cc.ranges, r.1 ≤ r.2 ∧ r.2 ≤ lastPoint) :
    Apart (rxClassNormalize cc).ranges ∧ (∀ r ∈ (rxClassNormalize cc).ranges, r.2 ≤ lastPoint) ∧
      ∀ n, Covers (rxClassNormalize cc).ranges n ↔ Covers cc.ranges n := by
  have hperm := List.mergeSort_perm cc.ranges rangeLe
  obtain ⟨hapart, hcodes, hcovers⟩ := foldl_mergeRange (l := cc.ranges.mergeSort rangeLe) apart_nil (by simp)
    (fun r hr => h r (hperm.mem_iff.mp hr)) (pairwise_sorted _) (by simp)
  refine ⟨hapart, hcodes, fun n => (hcovers n).trans ?_⟩
  rw [or_iff_right (covers_nil n), covers_of_perm hperm]

/-! ## Complements and intersections -/

/-- The gaps from a code point on, before ranges that start after it. -/
theorem complementFrom_spec {next : ℕ} {ranges : List (ℕ × ℕ)} (h : Apart ranges)
    (hcodes : ∀ r ∈ ranges, r.2 ≤ lastPoint) (hnext : ∀ r ∈ ranges, next ≤ r.1) (hle : next ≤ lastPoint) :
    Apart (complementFrom next ranges) ∧
      (∀ s ∈ complementFrom next ranges, next ≤ s.1 ∧ s.2 ≤ lastPoint) ∧
      ∀ n, Covers (complementFrom next ranges) n ↔ next ≤ n ∧ n ≤ lastPoint ∧ ¬ Covers ranges n := by
  induction ranges generalizing next with
  | nil =>
    refine ⟨apart_cons.mpr ⟨hle, by simp, apart_nil⟩, ?_, fun n => by simp [complementFrom]⟩
    exact List.forall_mem_singleton.mpr ⟨le_rfl, le_rfl⟩
  | cons r ranges ih =>
    obtain ⟨hr, hgap, hranges⟩ := apart_cons.mp h
    obtain ⟨hcode, hcodes⟩ := List.forall_mem_cons.mp hcodes
    obtain ⟨hfirst, -⟩ := List.forall_mem_cons.mp hnext
    have hafter (n : ℕ) (hn : Covers ranges n) : r.2 < n := by
      obtain ⟨s, hs, hlow, -⟩ := hn
      exact (Nat.lt_of_succ_lt (hgap s hs)).trans_le hlow
    -- what comes after the range
    have hrest : ∃ rest, complementFrom next (r :: ranges) =
        (if next < r.1 then [(next, r.1 - 1)] else []) ++ rest ∧ Apart rest ∧
        (∀ s ∈ rest, r.2 + 1 ≤ s.1 ∧ s.2 ≤ lastPoint) ∧
        ∀ n, Covers rest n ↔ r.2 + 1 ≤ n ∧ n ≤ lastPoint ∧ ¬ Covers ranges n := by
      rw [complementFrom, uint32_of_le hcode]
      split_ifs with _ hlast hlast
      all_goals refine ⟨_, rfl, ?_⟩
      · refine ⟨apart_nil, by simp, fun n => iff_of_false (covers_nil n) fun hn => ?_⟩
        omega
      · exact ih hranges hcodes (fun s hs => (hgap s hs).le) (by omega)
      · refine ⟨apart_nil, by simp, fun n => iff_of_false (covers_nil n) fun hn => ?_⟩
        omega
      · exact ih hranges hcodes (fun s hs => (hgap s hs).le) (by omega)
    obtain ⟨rest, heq, hapart, hmem, hcovers⟩ := hrest
    rw [heq]
    split_ifs with hlt
    · refine ⟨apart_cons.mpr ⟨by omega, fun s hs => ?_, hapart⟩, ?_, fun n => ?_⟩
      · have := (hmem s hs).1
        omega
      · refine List.forall_mem_cons.mpr ⟨⟨le_rfl, by omega⟩, fun s hs => ⟨?_, (hmem s hs).2⟩⟩
        have := (hmem s hs).1
        omega
      · rw [List.singleton_append, covers_cons, hcovers, covers_cons]
        dsimp only
        constructor
        · rintro (hn | ⟨hn, hlast, hnot⟩)
          · exact ⟨hn.1, by omega, not_or.mpr ⟨by omega, fun hcov => by have := hafter n hcov; omega⟩⟩
          · exact ⟨by omega, hlast, not_or.mpr ⟨by omega, hnot⟩⟩
        · rintro ⟨hn, hlast, hnot⟩
          obtain ⟨hout, hnot⟩ := not_or.mp hnot
          by_cases hbefore : n < r.1
          · exact Or.inl ⟨hn, by omega⟩
          · exact Or.inr ⟨by omega, hlast, hnot⟩
    · refine ⟨hapart, fun s hs => ⟨?_, (hmem s hs).2⟩, fun n => ?_⟩
      · have := (hmem s hs).1
        omega
      · rw [List.nil_append, hcovers, covers_cons]
        constructor
        · rintro ⟨hn, hlast, hnot⟩
          exact ⟨by omega, hlast, not_or.mpr ⟨by omega, hnot⟩⟩
        · rintro ⟨hn, hlast, hnot⟩
          obtain ⟨hout, hnot⟩ := not_or.mp hnot
          exact ⟨by omega, hlast, hnot⟩

/-- Ranges are what two lists share, each within one of either. -/
structure Shares (a b out : List (ℕ × ℕ)) : Prop where
  apart : Apart out
  left : ∀ r ∈ out, ∃ s ∈ a, s.1 ≤ r.1
  right : ∀ r ∈ out, ∃ s ∈ b, s.1 ≤ r.1
  covers : ∀ n, Covers out n ↔ Covers a n ∧ Covers b n

theorem Shares.symm {a b out : List (ℕ × ℕ)} (h : Shares a b out) : Shares b a out where
  apart := h.apart
  left := h.right
  right := h.left
  covers n := (h.covers n).trans and_comm

/-- A range that ends first, before what the rest of its list shares with the other. -/
theorem Shares.cons {a b : ℕ × ℕ} {as bs out : List (ℕ × ℕ)} (ha : Apart (a :: as)) (hb : Apart (b :: bs))
    (hends : a.2 ≤ b.2) (h : Shares as (b :: bs) out) :
    Shares (a :: as) (b :: bs)
      ((if max a.1 b.1 ≤ min a.2 b.2 then [(max a.1 b.1, min a.2 b.2)] else []) ++ out) := by
  obtain ⟨-, hgap, -⟩ := apart_cons.mp ha
  obtain ⟨-, hgap', -⟩ := apart_cons.mp hb
  -- a number of the first range can only be in the first one of the other list
  have hfirst (n : ℕ) (hn : a.1 ≤ n ∧ n ≤ a.2) : Covers (b :: bs) n ↔ b.1 ≤ n ∧ n ≤ b.2 := by
    rw [covers_cons, or_iff_left]
    rintro ⟨s, hs, hlow, -⟩
    have := hgap' s hs
    omega
  have hcovers (n : ℕ) : Covers (a :: as) n ∧ Covers (b :: bs) n ↔
      (a.1 ≤ n ∧ n ≤ a.2) ∧ (b.1 ≤ n ∧ n ≤ b.2) ∨ Covers out n := by
    rw [covers_cons, or_and_right, h.covers, and_congr_right (hfirst n)]
  have hright (r : ℕ × ℕ) (hr : r ∈ out) : ∃ s ∈ b :: bs, s.1 ≤ r.1 := h.right r hr
  split_ifs with hmeet
  · refine ⟨apart_cons.mpr ⟨hmeet, fun s hs => ?_, h.apart⟩, ?_, ?_, fun n => ?_⟩
    · obtain ⟨r, hr, hle⟩ := h.left s hs
      have := hgap r hr
      dsimp only
      omega
    · refine List.forall_mem_cons.mpr ⟨⟨a, List.mem_cons_self .., le_max_left ..⟩, fun r hr => ?_⟩
      obtain ⟨s, hs, hle⟩ := h.left r hr
      exact ⟨s, List.mem_cons_of_mem _ hs, hle⟩
    · exact List.forall_mem_cons.mpr ⟨⟨b, List.mem_cons_self .., le_max_right ..⟩, hright⟩
    · rw [List.singleton_append, covers_cons, hcovers, max_le_iff, le_min_iff]
      exact or_congr_left and_and_and_comm
  · refine ⟨h.apart, fun r hr => ?_, hright, fun n => ?_⟩
    · obtain ⟨s, hs, hle⟩ := h.left r hr
      exact ⟨s, List.mem_cons_of_mem _ hs, hle⟩
    · rw [List.nil_append, hcovers, or_iff_right]
      omega

theorem shares_rxRangesIntersect {a b : List (ℕ × ℕ)} (ha : Apart a) (hb : Apart b) :
    Shares a b (rxRangesIntersect a b) := by
  induction a, b using rxRangesIntersect.induct with
  | case1 b =>
    rw [rxRangesIntersect]
    exact ⟨apart_nil, by simp, by simp, fun n => by simp⟩
  | case2 a as =>
    rw [rxRangesIntersect]
    exact ⟨apart_nil, by simp, by simp, fun n => by simp⟩
  | case3 a as b bs ihleft ihright =>
    rw [rxRangesIntersect]
    by_cases hends : a.2 < b.2
    · rw [if_pos hends]
      exact Shares.cons ha hb hends.le (ihleft (apart_cons.mp ha).2.2 hb)
    · rw [if_neg hends, max_comm, min_comm]
      exact (Shares.cons hb ha (not_lt.mp hends) (ihright ha (apart_cons.mp hb).2.2).symm).symm

/-! ## Lookups -/

theorem probeHit_iff {ranges : List (ℕ × ℕ)} (h : Apart ranges) (probe : ℕ) :
    probeHit ranges probe = true ↔ Covers ranges probe := by
  rw [probeHit, getElem?_lowerBound (h.below_first probe), h.covers_iff]
  cases ranges.find? fun r => !decide (r.2 < probe) with
  | none => simp
  | some r => simp

/-- The code points that are looked up for one: itself, and those that are its other cases. -/
def probes (folding : CaseFolding) (ch : ℕ) (icase unicode : Bool) : List ℕ :=
  ch :: if icase && unicode then folding.foldSimple ch :: folding.unfold (folding.foldSimple ch)
    else if icase then [otherCase ch] else []

/-- A class holds a code point if one of its cases is in the ranges; a negated one if none is. -/
theorem rxClassHit_iff (folding : CaseFolding) {cc : RxClass} (h : Apart cc.ranges) (ch : ℕ)
    (icase unicode : Bool) : rxClassHit folding cc ch icase unicode = true ↔
      (cc.neg = false ↔ ∃ probe ∈ probes folding ch icase unicode, Covers cc.ranges probe) := by
  have hhit : ∀ probe, probeHit cc.ranges probe = true ↔ Covers cc.ranges probe := probeHit_iff h
  -- a case that is the code point itself has been looked up
  have hother (hch : ¬ Covers cc.ranges ch) (p : ℕ) :
      ¬ p = ch ∧ probeHit cc.ranges p = true ↔ Covers cc.ranges p := by
    rw [hhit, and_iff_right_iff_imp]
    rintro hp rfl
    exact hch hp
  have hfound : (if probeHit cc.ranges ch then true
      else if icase && unicode then
        (decide (folding.foldSimple ch ≠ ch) && probeHit cc.ranges (folding.foldSimple ch)) ||
          (folding.unfold (folding.foldSimple ch)).any fun other => decide (other ≠ ch) && probeHit cc.ranges other
      else if icase then decide (otherCase ch ≠ ch) && probeHit cc.ranges (otherCase ch)
      else false) = true ↔ ∃ probe ∈ probes folding ch icase unicode, Covers cc.ranges probe := by
    by_cases hch : Covers cc.ranges ch
    · rw [if_pos ((hhit ch).mpr hch)]
      exact iff_of_true rfl ⟨ch, List.mem_cons_self .., hch⟩
    · rw [if_neg (mt (hhit ch).mp hch), probes]
      cases icase with
      | false => simp [hch]
      | true => cases unicode <;> simp [hch, hother hch]
  rw [rxClassHit]
  dsimp only
  cases hneg : cc.neg with
  | false => rw [if_neg Bool.false_ne_true, hfound, iff_true_left rfl]
  | true =>
    rw [if_pos rfl, Bool.not_eq_true', ← Bool.not_eq_true, hfound]
    exact (iff_false_left Bool.noConfusion).symm

/-! ## Sets of code points -/

/-- A range of code points. -/
structure CodeRange where
  lo : ℕ
  hi : ℕ
  le : lo ≤ hi
  code : hi ≤ lastPoint

/-- A range as the pair that is stored. -/
def CodeRange.pair (r : CodeRange) : ℕ × ℕ := (r.lo, r.hi)

/-- A list of ranges of code points that are apart. -/
structure CodePointSet where
  ranges : List (ℕ × ℕ)
  apart : Apart ranges
  codes : ∀ r ∈ ranges, r.2 ≤ lastPoint

namespace CodePointSet

instance : Membership ℕ CodePointSet := ⟨fun a n => Covers a.ranges n⟩

/-- The complement over the code space. -/
def compl (a : CodePointSet) : CodePointSet :=
  have h := complementFrom_spec a.apart a.codes (fun _ _ => Nat.zero_le _) (Nat.zero_le _)
  ⟨rxComplement a.ranges, h.1, fun r hr => (h.2.1 r hr).2⟩

theorem mem_compl (a : CodePointSet) (n : ℕ) : n ∈ a.compl ↔ n ≤ lastPoint ∧ n ∉ a :=
  ((complementFrom_spec a.apart a.codes (fun _ _ => Nat.zero_le _) (Nat.zero_le _)).2.2 n).trans
    (and_iff_right (Nat.zero_le n))

theorem codes_shared {a b : CodePointSet} {r : ℕ × ℕ} (hr : r ∈ rxRangesIntersect a.ranges b.ranges) :
    r.2 ≤ lastPoint := by
  have h := shares_rxRangesIntersect a.apart b.apart
  obtain ⟨⟨s, hs, -, hle⟩, -⟩ := (h.covers r.2).mp ⟨r, hr, h.apart.proper r hr, le_rfl⟩
  exact hle.trans (a.codes s hs)

/-- The intersection. -/
def inter (a b : CodePointSet) : CodePointSet :=
  ⟨rxRangesIntersect a.ranges b.ranges, (shares_rxRangesIntersect a.apart b.apart).apart, fun _ => codes_shared⟩

theorem mem_inter (a b : CodePointSet) (n : ℕ) : n ∈ a.inter b ↔ n ∈ a ∧ n ∈ b :=
  (shares_rxRangesIntersect a.apart b.apart).covers n

/-- The set that ranges of code points are brought into. -/
def ofRanges (l : List CodeRange) : CodePointSet :=
  have h := apart_rxClassNormalize ⟨false, l.map CodeRange.pair, []⟩ fun r hr => by
    obtain ⟨s, -, rfl⟩ := List.mem_map.mp hr
    exact ⟨s.le, s.code⟩
  ⟨(rxClassNormalize ⟨false, l.map CodeRange.pair, []⟩).ranges, h.1, h.2.1⟩

theorem mem_ofRanges (l : List CodeRange) (n : ℕ) : n ∈ ofRanges l ↔ ∃ r ∈ l, r.lo ≤ n ∧ n ≤ r.hi := by
  refine ((apart_rxClassNormalize _ fun r hr => ?_).2.2 n).trans ?_
  · obtain ⟨s, -, rfl⟩ := List.mem_map.mp hr
    exact ⟨s.le, s.code⟩
  · simp [Covers, CodeRange.pair]

end CodePointSet

/-- The ranges of a class are apart and hold what was read; complements and intersections of such
ranges are those of sets of code points, and a lookup answers for all cases of a code point. -/
theorem ranges_algebra (folding : CaseFolding) (neg : Bool) (l : List CodeRange) (strings : List Text)
    (a b : CodePointSet) (n : ℕ) (icase unicode : Bool) :
    Apart (rxClassNormalize ⟨neg, l.map CodeRange.pair, strings⟩).ranges ∧
      (Covers (rxClassNormalize ⟨neg, l.map CodeRange.pair, strings⟩).ranges n ↔
        ∃ r ∈ l, r.lo ≤ n ∧ n ≤ r.hi) ∧
      (Apart (rxComplement a.ranges) ∧ (Covers (rxComplement a.ranges) n ↔ n ≤ lastPoint ∧ n ∉ a)) ∧
      (Apart (rxRangesIntersect a.ranges b.ranges) ∧
        (Covers (rxRangesIntersect a.ranges b.ranges) n ↔ n ∈ a ∧ n ∈ b)) ∧
      (rxClassHit folding (rxClassNormalize ⟨neg, l.map CodeRange.pair, strings⟩) n icase unicode = true ↔
        (neg = false ↔ ∃ probe ∈ probes folding n icase unicode, ∃ r ∈ l, r.lo ≤ probe ∧ probe ≤ r.hi)) := by
  have hread : ∀ m, Covers (rxClassNormalize ⟨neg, l.map CodeRange.pair, strings⟩).ranges m ↔
      ∃ r ∈ l, r.lo ≤ m ∧ m ≤ r.hi := CodePointSet.mem_ofRanges l
  have hapart : Apart (rxClassNormalize ⟨neg, l.map CodeRange.pair, strings⟩).ranges :=
    (CodePointSet.ofRanges l).apart
  refine ⟨hapart, hread n, ⟨a.compl.apart, a.mem_compl n⟩, ⟨(a.inter b).apart, a.mem_inter b n⟩, ?_⟩
  simp only [rxClassHit_iff folding hapart, hread]
  rfl

example : rxComplement [(0, 8), (10, lastPoint)] = [(9, 9)] := by decide

end CtBrowser.Script.Regex
