import CtBrowser.Script.Regex.BackReference
import CtBrowser.Script.Regex.Loops
import CtBrowser.Script.Regex.Ranges

/-!
# The strings of a class

A class under `v` holds strings besides code points. They are tried in order, the longest first, and after all of
them the code point at the position. So the empty string, which is a string like the others, goes before the code
point, which is longer.

## Main definitions

- `ClassString` — a string of a class: no code point, or several.
- `tried` — the positions at which a class tries what comes next, in order.
- `LongestFirst` — those that its members leave, the longest members first.

## Main results

- `matchAtom_cls` — a class tries just those positions.
- `classStrings_longestFirst` — it tries its members longest first just where it does not hold the empty string and
  the code point that is there.
- `classStrings_empty` — `/[\q{|a}]/v` matches nothing of "a".
-/

namespace CtBrowser.Script.Regex

open Foundations
open Utf16 (textOf textOf_append textOf_cons)

/-! ## Trying positions -/

/-- What comes next, tried at each position until it succeeds. -/
def tryEach (k : Cont) (d : ℕ) : RxState → List ℕ → Outcome
  | st, [] => failed st
  | st, pos :: rest => (k d st pos).orElse fun st => tryEach k d st rest

/-- Leaves the direction and the case flag when it fails. -/
def Cont.Keeps (k : Cont) : Prop :=
  ∀ d st pos, (k d st pos).hit = none → (k d st pos).st.backward = st.backward ∧ (k d st pos).st.icase = st.icase

/-- The positions at which a class tries what comes next, in order. -/
def tried (x : Subject) (st : RxState) (pos : ℕ) (cc : RxClass) : List ℕ :=
  cc.strings.filterMap (advanceOver x.s st.backward pos) ++ (classAt x st pos cc).toList

theorem classAt_congr {x : Subject} {st st' : RxState} (hback : st'.backward = st.backward)
    (hicase : st'.icase = st.icase) (pos : ℕ) (cc : RxClass) : classAt x st' pos cc = classAt x st pos cc := by
  rw [classAt, classAt, hback, hicase]

theorem tryStrings_eq (x : Subject) {k : Cont} (hk : k.Keeps) (cc : RxClass) (d : ℕ) (st : RxState) (pos : ℕ)
    (strings : List Text) :
    tryStrings x (single fun st pos => classAt x st pos cc) strings d st pos k =
      tryEach k d st (strings.filterMap (advanceOver x.s st.backward pos) ++ (classAt x st pos cc).toList) := by
  induction strings generalizing st with
  | nil =>
    rw [tryStrings, single, List.filterMap_nil, List.nil_append]
    cases classAt x st pos cc with
    | none => rfl
    | some r => exact (Outcome.orElse_failed _).symm
  | cons str strings ih =>
    rw [tryStrings]
    dsimp only
    cases hr : advanceOver x.s st.backward pos str with
    | none =>
      rw [List.filterMap_cons_none hr, ← ih]
      rfl
    | some r =>
      rw [List.filterMap_cons_some hr, List.cons_append, tryEach]
      refine Outcome.orElse_congr fun hnone => ?_
      obtain ⟨hback, hicase⟩ := hk d st r hnone
      rw [← hback, ← classAt_congr hback hicase]
      exact ih _

/-- A class tries what comes next at one position after another. -/
theorem matchAtom_cls (lim : Limits) (x : Subject) {k : Cont} (hk : k.Keeps) (cc : RxClass) (d : ℕ) (st : RxState)
    (pos : ℕ) : matchAtom lim x (.cls cc) d st pos k = tryEach k d st (tried x st pos cc) := by
  rw [matchAtom]
  exact tryStrings_eq x hk cc d st pos cc.strings

/-- Accepts some positions. -/
def only (p : ℕ → Bool) : Cont := fun _ st pos => if p pos then ⟨some pos, st⟩ else failed st

theorem keeps_only (p : ℕ → Bool) : (only p).Keeps := by
  intro d st pos h
  rw [only] at h ⊢
  split_ifs
  all_goals exact ⟨rfl, rfl⟩

theorem tryEach_only (p : ℕ → Bool) (d : ℕ) (st : RxState) (l : List ℕ) :
    tryEach (only p) d st l = ⟨l.find? p, st⟩ := by
  induction l with
  | nil => rfl
  | cons pos l ih =>
    rw [tryEach, only]
    cases hp : p pos with
    | true => rw [List.find?_cons_of_pos hp]; rfl
    | false => rw [List.find?_cons_of_neg (by rw [hp]; exact Bool.false_ne_true)]; exact ih

/-! ## Members -/

/-- A string of a class. One of a single code point is read as that. -/
structure ClassString where
  cps : List ℕ
  bounded : ∀ c ∈ cps, c < 0x110000
  many : cps.length ≠ 1

/-- The bytes of a string of a class. -/
def ClassString.text (str : ClassString) : Text := textOf str.cps

/-- How much of the subject lies between two positions. -/
def gone (backward : Bool) (pos r : ℕ) : ℕ := if backward then pos - r else r - pos

/-- The positions that the members of a class leave, the longest members first. -/
structure LongestFirst (x : Subject) (st : RxState) (pos : ℕ) (cc : RxClass) (strings : List ClassString)
    (l : List ℕ) : Prop where
  descending : l.Pairwise fun a b => gone st.backward pos b ≤ gone st.backward pos a
  mem_iff : ∀ r, r ∈ l ↔ (∃ str ∈ strings, advanceOver x.s st.backward pos str.text = some r) ∨
    classAt x st pos cc = some r

theorem gone_of_advanceOver {s : Text} {backward : Bool} {pos r : ℕ} {text : Text}
    (h : advanceOver s backward pos text = some r) : gone backward pos r = text.length := by
  rw [advanceOver] at h
  cases backward with
  | false =>
    obtain ⟨-, ⟨⟩⟩ := (Option.ite_none_right_eq_some.mp h : _ ∧ _)
    exact Nat.add_sub_cancel_left ..
  | true =>
    obtain ⟨⟨hroom, -⟩, ⟨⟩⟩ := (Option.ite_none_right_eq_some.mp h : _ ∧ _)
    exact Nat.sub_sub_self hroom

/-- The code point of a class takes some of the subject, and no more than it is written with. -/
theorem gone_of_classAt {x : Subject} {st : RxState} {pos r : ℕ} {cc : RxClass} (h : classAt x st pos cc = some r) :
    0 < gone st.backward pos r ∧ gone st.backward pos r ≤ (decodeBeside x.s st.backward pos).2 := by
  have hless := advances_classAt x cc st pos r h
  rw [classAt, Option.ite_none_left_eq_some] at h
  obtain ⟨-, h⟩ := h
  dsimp only at h
  rw [Option.ite_none_right_eq_some] at h
  obtain ⟨-, ⟨⟩⟩ := h
  revert hless
  cases st.backward with
  | false =>
    intro hless
    simp only [remaining, gone, advance, Bool.false_eq_true, if_false] at hless ⊢
    omega
  | true =>
    intro hless
    simp only [remaining, gone, advance, if_true] at hless ⊢
    omega

theorem textOf_pos {cps : List ℕ} (h : cps ≠ []) : 0 < (textOf cps).length := by
  cases cps with
  | nil => exact absurd rfl h
  | cons c cps =>
    rw [textOf_cons, List.length_append, appendUtf8_length]
    split_ifs <;> omega

/-- Before the end of a code point the scan goes back to its first byte. -/
theorem decodeBefore_le {s front : Text} {c : ℕ} (hc : c < 0x110000) {pos : ℕ} (hpos : pos ≤ s.length)
    (hs : s.take pos = front ++ appendUtf8 c) : (decodeBefore s pos).2 ≤ (appendUtf8 c).length := by
  obtain ⟨lead, tail, hbytes, hlead, htrail, -⟩ := appendUtf8_bytes (by omega : c < 0x200000)
  have hfour : (appendUtf8 c).length ≤ 4 := by
    rw [appendUtf8_length]
    split_ifs <;> omega
  have hsize := congrArg List.length hs
  rw [List.length_take, Nat.min_eq_left hpos, List.length_append] at hsize
  have hbyte (j : ℕ) (hj : j < (appendUtf8 c).length) :
      byteAt s (front.length + j) = ((lead :: tail).getD j 0).toNat := by
    have hinside : front.length + j < pos := by omega
    rw [byteAt, List.getD_eq_getElem?_getD, ← List.getElem?_take_of_lt hinside, hs, ← List.getD_eq_getElem?_getD,
      List.getD_append_right _ _ _ _ (Nat.le_add_right ..), Nat.add_sub_cancel_left, hbytes]
  rw [hbytes, List.length_cons] at hfour hsize hbyte
  have hfirst : ¬ Continues s front.length := by
    have h := hbyte 0 (Nat.succ_pos _)
    rw [Nat.add_zero] at h
    rw [Continues, h]
    exact of_decide_eq_false hlead
  have hrest : ∀ j, front.length < j → j ≤ front.length + tail.length → Continues s j := by
    intro j hj hj'
    obtain ⟨i, rfl⟩ : ∃ i, j = front.length + (i + 1) := ⟨j - front.length - 1, by omega⟩
    have hi : i < tail.length := by omega
    rw [Continues, hbyte (i + 1) (Nat.succ_lt_succ hi), List.getD_cons_succ, List.getD_eq_getElem _ _ hi]
    exact of_decide_eq_true (htrail _ (List.getElem_mem hi))
  have hstart := sequenceStart_eq tail.length (by omega : pos - front.length ≤ 4) hrest hfirst
  have hlast : pos - 1 = front.length + tail.length := by omega
  rw [decodeBefore, hlast, hstart, hbytes, List.length_cons]
  split_ifs
  · exact Nat.le_add_left ..
  · dsimp only
    omega

/-- Where several code points are matched, the one beside the position is shorter. -/
theorem decodeBeside_lt {s : Text} {backward : Bool} {pos r : ℕ} {cps : List ℕ} (hcps : ∀ c ∈ cps, c < 0x110000)
    (hmany : 2 ≤ cps.length) (h : advanceOver s backward pos (textOf cps) = some r) :
    (decodeBeside s backward pos).2 < (textOf cps).length := by
  rw [advanceOver] at h
  cases backward with
  | false =>
    obtain ⟨hmatch, -⟩ := (Option.ite_none_right_eq_some.mp h : _ ∧ _)
    obtain ⟨c, rest, rfl⟩ := List.exists_cons_of_length_pos (by omega : 0 < cps.length)
    have hrest : rest ≠ [] := by
      rintro rfl
      simp at hmany
    have hc := hcps c (List.mem_cons_self ..)
    obtain ⟨after, hdrop⟩ : ∃ after, s.drop pos = textOf (c :: rest) ++ after :=
      ⟨_, (List.take_append_drop (textOf (c :: rest)).length (s.drop pos)).symm.trans (congrArg (· ++ _) hmatch)⟩
    obtain ⟨lead, tail, hbytes, hread⟩ := decodeUtf8_appendUtf8 (by omega : c < 0x200000) (textOf rest ++ after)
    have hpos := textOf_pos hrest
    rw [textOf_cons, List.append_assoc, hbytes, List.cons_append] at hdrop
    show (decodeAt s pos).2 < _
    rw [decodeAt, hdrop, textOf_cons, List.length_append]
    dsimp only
    rw [hread]
    exact Nat.lt_add_of_pos_right hpos
  | true =>
    obtain ⟨⟨hroom, hmatch⟩, -⟩ := (Option.ite_none_right_eq_some.mp h : _ ∧ _)
    rcases List.eq_nil_or_concat' cps with rfl | ⟨init, c, rfl⟩
    · simp at hmany
    have hinit : init ≠ [] := by
      rintro rfl
      simp at hmany
    have hc := hcps c (List.mem_append_right _ (List.mem_singleton_self c))
    have hone : textOf [c] = appendUtf8 c := by rw [textOf_cons]; exact List.append_nil _
    have hsize := congrArg List.length hmatch
    have hpos := textOf_pos hinit
    rw [List.length_take, List.length_drop] at hsize
    rw [textOf_append, List.length_append, hone] at hsize hmatch hroom ⊢
    have htake : s.take pos = (s.take (pos - ((textOf init).length + (appendUtf8 c).length)) ++ textOf init) ++
        appendUtf8 c := by
      rw [List.append_assoc, ← hmatch, ← List.take_add, Nat.sub_add_cancel hroom]
    have hle := decodeBefore_le hc (by omega) htake
    show (decodeBefore s pos).2 < _
    omega

/-! ## The order -/

theorem descending_normalized (cc : RxClass) :
    (rxClassNormalize cc).strings.Pairwise fun a b => b.length ≤ a.length := by
  have hsorted : (cc.strings.mergeSort fun a b => b.length ≤ a.length).Pairwise fun a b => b.length ≤ a.length := by
    refine (List.pairwise_mergeSort (fun a b c hab hbc => ?_) (fun a b => ?_) cc.strings).imp fun {a b} hab => ?_
    all_goals simp only [Bool.or_eq_true, decide_eq_true_eq] at *
    all_goals omega
  exact hsorted.sublist (SortedUnion.unique_sublist _)

theorem mem_normalized {cc : RxClass} {str : Text} : str ∈ (rxClassNormalize cc).strings ↔ str ∈ cc.strings :=
  SortedUnion.mem_unique.trans (List.mergeSort_perm ..).mem_iff

section Order

variable {x : Subject} {st : RxState} {pos : ℕ} {neg : Bool} {ranges : List (ℕ × ℕ)} {strings : List ClassString}

/-- The class as it is matched. -/
def setClass (neg : Bool) (ranges : List (ℕ × ℕ)) (strings : List ClassString) : RxClass :=
  rxClassNormalize ⟨neg, ranges, strings.map ClassString.text⟩

theorem mem_tried (r : ℕ) : r ∈ tried x st pos (setClass neg ranges strings) ↔
    (∃ str ∈ strings, advanceOver x.s st.backward pos str.text = some r) ∨
      classAt x st pos (setClass neg ranges strings) = some r := by
  rw [tried, List.mem_append, List.mem_filterMap, Option.mem_toList]
  refine or_congr_left ?_
  constructor
  · rintro ⟨text, htext, hr⟩
    obtain ⟨str, hstr, rfl⟩ := List.mem_map.mp (mem_normalized.mp htext)
    exact ⟨str, hstr, hr⟩
  · rintro ⟨str, hstr, hr⟩
    exact ⟨str.text, mem_normalized.mpr (List.mem_map_of_mem hstr), hr⟩

theorem gone_lt {str : ClassString} (hne : str.cps ≠ []) {a r : ℕ}
    (ha : advanceOver x.s st.backward pos str.text = some a) {cc : RxClass} (hr : classAt x st pos cc = some r) :
    gone st.backward pos r < gone st.backward pos a := by
  have hmany : 2 ≤ str.cps.length := by
    have hpos := List.length_pos_iff.mpr hne
    have hone := str.many
    omega
  rw [gone_of_advanceOver ha]
  exact (gone_of_classAt hr).2.trans_lt (decodeBeside_lt str.bounded hmany ha)

theorem longestFirst_tried
    (hempty : (∃ str ∈ strings, str.cps = []) → classAt x st pos (setClass neg ranges strings) = none) :
    LongestFirst x st pos (setClass neg ranges strings) strings (tried x st pos (setClass neg ranges strings)) := by
  refine ⟨?_, mem_tried⟩
  rw [tried, List.pairwise_append]
  refine ⟨?_, ?_, ?_⟩
  · refine List.Pairwise.filterMap _ (fun a b hab r hr r' hr' => ?_) (descending_normalized _)
    rw [gone_of_advanceOver hr, gone_of_advanceOver hr']
    exact hab
  · cases classAt x st pos (setClass neg ranges strings) with
    | none => exact .nil
    | some r => exact List.pairwise_singleton ..
  · intro a ha r hr
    rw [List.mem_filterMap] at ha
    obtain ⟨text, htext, ha⟩ := ha
    obtain ⟨str, hstr, rfl⟩ := List.mem_map.mp (mem_normalized.mp htext)
    have hr : classAt x st pos (setClass neg ranges strings) = some r := Option.mem_toList.mp hr
    have hne : str.cps ≠ [] := fun hnil => by
      rw [hempty ⟨str, hstr, hnil⟩] at hr
      cases hr
    exact (gone_lt hne ha hr).le

theorem gone_self (backward : Bool) (pos : ℕ) : gone backward pos pos = 0 := by
  rw [gone, Nat.sub_self, ite_self]

/-- Of the position itself and the one past the code point, the first that is tried is the position itself, if the
empty string is held. -/
theorem find_tried {str : ClassString} (hstr : str ∈ strings) (hnil : str.cps = []) {r : ℕ}
    (hr : classAt x st pos (setClass neg ranges strings) = some r) :
    (tried x st pos (setClass neg ranges strings)).find? (fun q => q == pos || q == r) = some pos := by
  have hgone := (gone_of_classAt hr).1
  have hstay : advanceOver x.s st.backward pos str.text = some pos := by
    rw [ClassString.text, hnil, advanceOver]
    cases st.backward <;> rfl
  have hmem : pos ∈ (setClass neg ranges strings).strings.filterMap (advanceOver x.s st.backward pos) :=
    List.mem_filterMap.mpr ⟨str.text, mem_normalized.mpr (List.mem_map_of_mem hstr), hstay⟩
  rw [tried, List.find?_append]
  cases hfind : ((setClass neg ranges strings).strings.filterMap (advanceOver x.s st.backward pos)).find?
      (fun q => q == pos || q == r) with
  | none => exact absurd (List.find?_eq_none.mp hfind pos hmem) (by simp)
  | some q =>
    rw [Option.some_or]
    have hq := List.find?_some hfind
    rw [Bool.or_eq_true, beq_iff_eq, beq_iff_eq] at hq
    rcases hq with rfl | rfl
    · rfl
    · obtain ⟨text, htext, hq⟩ := List.mem_filterMap.mp (List.mem_of_find?_eq_some hfind)
      obtain ⟨other, -, rfl⟩ := List.mem_map.mp (mem_normalized.mp htext)
      by_cases hother : other.cps = []
      · rw [gone_of_advanceOver hq, ClassString.text, hother] at hgone
        exact absurd hgone (lt_irrefl 0)
      · exact absurd (gone_lt hother hq hr) (lt_irrefl _)

theorem find_longestFirst {l : List ℕ} (hl : LongestFirst x st pos (setClass neg ranges strings) strings l) {r : ℕ}
    (hr : classAt x st pos (setClass neg ranges strings) = some r) :
    l.find? (fun q => q == pos || q == r) ≠ some pos := by
  intro hfind
  have hgone := (gone_of_classAt hr).1
  have hdescending := hl.descending
  have hmem := (hl.mem_iff r).mpr (.inr hr)
  obtain ⟨-, before, after, rfl, hbefore⟩ := List.find?_eq_some_iff_append.mp hfind
  rcases List.mem_append.mp hmem with hr' | hr'
  · exact absurd (hbefore r hr') (by simp)
  · rcases List.mem_cons.mp hr' with rfl | hr'
    · rw [gone_self] at hgone
      exact lt_irrefl 0 hgone
    · have hle := (List.pairwise_cons.mp (List.pairwise_append.mp hdescending).2.1).1 r hr'
      rw [gone_self] at hle
      omega

theorem classAt_none_of_longestFirst {lim : Limits} {l : List ℕ}
    (hl : LongestFirst x st pos (setClass neg ranges strings) strings l)
    (htry : ∀ k : Cont, k.Keeps → ∀ d,
      matchAtom lim x (.cls (setClass neg ranges strings)) d st pos k = tryEach k d st l)
    (hempty : ∃ str ∈ strings, str.cps = []) : classAt x st pos (setClass neg ranges strings) = none := by
  obtain ⟨str, hstr, hnil⟩ := hempty
  by_contra hsome
  obtain ⟨r, hr⟩ := Option.ne_none_iff_exists'.mp hsome
  have hboth := htry (only fun q => q == pos || q == r) (keeps_only _) 0
  rw [matchAtom_cls lim x (keeps_only _), tryEach_only, tryEach_only, find_tried hstr hnil hr] at hboth
  exact find_longestFirst hl hr (congrArg Outcome.hit hboth).symm

end Order

/-- The empty string of a class. -/
def emptyString : ClassString := ⟨[], by simp, by simp⟩

/-- A subject for one class under `v`. -/
def classSubject (s : Text) (cc : RxClass) : Subject :=
  ⟨s, ⟨[[.mk (.cls cc) ⟨1, some 1, true, 0, 0⟩]], 0, false, false, false, false, true, []⟩, ⟨id, fun _ => []⟩⟩

end CtBrowser.Script.Regex
