import CtBrowser.Core.NumberFormat

/-!
# White space around a text

The engine looks for white space by bytes, forward from the start and backward from the end. No
encoding of white space is the start or the end of another one, so that a text is divided in one way
into white space, a part that neither starts nor ends with any, and white space.

## Main results

- `trimJsSpace_eq` — what is left of a text with white space around it.
- `exists_trimJsSpace` — what is cut off is white space.
-/

namespace CtBrowser.NumberFormat

variable {s x y text body before after : Text} {parts : List Text}

/-- The bytes of a literal, none of which is in white space. -/
def isGraphic (c : UInt8) : Bool := 0x21 ≤ c && c ≤ 0x7E

theorem encodedSpaces_eq : encodedSpaces =
    [[0x09], [0x0A], [0x0B], [0x0C], [0x0D], [0x20], [0xC2, 0xA0], [0xE1, 0x9A, 0x80], [0xE2, 0x80, 0x80],
      [0xE2, 0x80, 0x81], [0xE2, 0x80, 0x82], [0xE2, 0x80, 0x83], [0xE2, 0x80, 0x84], [0xE2, 0x80, 0x85],
      [0xE2, 0x80, 0x86], [0xE2, 0x80, 0x87], [0xE2, 0x80, 0x88], [0xE2, 0x80, 0x89], [0xE2, 0x80, 0x8A],
      [0xE2, 0x80, 0xA8], [0xE2, 0x80, 0xA9], [0xE2, 0x80, 0xAF], [0xE2, 0x81, 0x9F], [0xE3, 0x80, 0x80],
      [0xEF, 0xBB, 0xBF]] := by
  rfl

theorem jsSpaceWidth_append (h : x ∈ encodedSpaces) (rest : Text) : jsSpaceWidth (x ++ rest) = x.length := by
  rw [encodedSpaces_eq] at h
  simp only [List.mem_cons, List.not_mem_nil, or_false] at h
  rcases h with rfl | rfl | rfl | rfl | rfl | rfl | rfl | rfl | rfl | rfl | rfl | rfl | rfl | rfl | rfl | rfl | rfl |
    rfl | rfl | rfl | rfl | rfl | rfl | rfl | rfl <;> rfl

theorem cons_of_getD {c : UInt8} (h : s.getD 0 0 = c) (hc : c ≠ 0) : ∃ rest, s = c :: rest := by
  rcases s with _ | ⟨d, rest⟩
  · exact absurd h.symm hc
  · exact ⟨rest, by rw [← h]; rfl⟩

theorem cons_of_getD_three {a b c : UInt8} (h : s.getD 0 0 = a ∧ s.getD 1 0 = b ∧ s.getD 2 0 = c) (ha : a ≠ 0)
    (hb : b ≠ 0) (hc : c ≠ 0) : ∃ rest, s = [a, b, c] ++ rest := by
  obtain ⟨rest, rfl⟩ := cons_of_getD h.1 ha
  obtain ⟨rest, rfl⟩ := cons_of_getD (s := rest) h.2.1 hb
  obtain ⟨rest, rfl⟩ := cons_of_getD (s := rest) h.2.2 hc
  exact ⟨rest, rfl⟩

theorem mem_encodedSpaces_general {c : UInt8} (h : 0x80 ≤ c ∧ c ≤ 0x8A ∨ c = 0xA8 ∨ c = 0xA9 ∨ c = 0xAF) :
    [0xE2, 0x80, c] ∈ encodedSpaces := by
  simp only [UInt8.le_iff_toNat_le, ← UInt8.toNat_inj] at h
  simp [encodedSpaces_eq, ← UInt8.toNat_inj] at h ⊢
  omega

theorem exists_of_jsSpaceWidth (h : jsSpaceWidth s ≠ 0) : ∃ x ∈ encodedSpaces, ∃ rest, s = x ++ rest := by
  rw [jsSpaceWidth] at h
  beta_reduce at h
  split_ifs at h with h1 h2 h3 h4 h5 h6 h7
  · have hall : ∀ c ∈ jsWhitespace, c ≠ 0 ∧ [c] ∈ encodedSpaces := by
      simp [jsWhitespace, ascii, encodedSpaces_eq]
    obtain ⟨hne, hmem⟩ := hall _ (by simpa using h1)
    obtain ⟨rest, hrest⟩ := cons_of_getD (s := s) rfl hne
    exact ⟨_, hmem, rest, hrest⟩
  · obtain ⟨rest, rfl⟩ := cons_of_getD h2.1 (by decide)
    obtain ⟨rest, rfl⟩ := cons_of_getD (s := rest) h2.2 (by decide)
    exact ⟨[0xC2, 0xA0], by rw [encodedSpaces_eq]; decide, rest, rfl⟩
  · exact ⟨_, by rw [encodedSpaces_eq]; decide,
      cons_of_getD_three h3 (by decide) (by decide) (by decide)⟩
  · have hne : s.getD 2 0 ≠ 0 := by
      intro hzero
      have hlast := h4.2.2
      rw [hzero] at hlast
      exact absurd hlast (by decide)
    exact ⟨_, mem_encodedSpaces_general h4.2.2,
      cons_of_getD_three ⟨h4.1, h4.2.1, rfl⟩ (by decide) (by decide) hne⟩
  · exact ⟨_, by rw [encodedSpaces_eq]; decide,
      cons_of_getD_three h5 (by decide) (by decide) (by decide)⟩
  · exact ⟨_, by rw [encodedSpaces_eq]; decide,
      cons_of_getD_three h6 (by decide) (by decide) (by decide)⟩
  · exact ⟨_, by rw [encodedSpaces_eq]; decide,
      cons_of_getD_three h7 (by decide) (by decide) (by decide)⟩
  · exact absurd rfl h

theorem jsSpaceWidth_eq_zero_iff : jsSpaceWidth s = 0 ↔ ∀ x ∈ encodedSpaces, ¬ x <+: s := by
  constructor
  · rintro hzero x hx ⟨rest, rfl⟩
    rw [jsSpaceWidth_append hx, List.length_eq_zero_iff] at hzero
    subst hzero
    rw [encodedSpaces_eq] at hx
    exact absurd hx (by decide)
  · intro h
    by_contra hne
    obtain ⟨x, hx, rest, rfl⟩ := exists_of_jsSpaceWidth hne
    exact h x hx (List.prefix_append x rest)

theorem length_pos_of_mem (h : x ∈ encodedSpaces) : 0 < x.length ∧ x.length ≤ 3 := by
  rw [encodedSpaces_eq] at h
  have hall : ∀ x ∈ encodedSpaces, 0 < x.length ∧ x.length ≤ 3 := by
    rw [encodedSpaces_eq]
    decide
  exact hall x (encodedSpaces_eq ▸ h)

theorem IsSpace.nil : IsSpace [] := ⟨[], by simp, rfl⟩

theorem IsSpace.append (hx : IsSpace x) (hy : IsSpace y) : IsSpace (x ++ y) := by
  obtain ⟨as, has, rfl⟩ := hx
  obtain ⟨bs, hbs, rfl⟩ := hy
  refine ⟨as ++ bs, fun z hz => ?_, by simp⟩
  exact (List.mem_append.mp hz).elim (has z) (hbs z)

theorem IsSpace.of_mem (h : x ∈ encodedSpaces) : IsSpace x := ⟨[x], by simpa using h, by simp⟩

/-! ## Forward -/

theorem exists_skipSpace {fuel : ℕ} (h : s.length ≤ fuel) :
    ∃ before, s = before ++ skipSpace fuel s ∧ IsSpace before ∧ jsSpaceWidth (skipSpace fuel s) = 0 := by
  induction fuel generalizing s with
  | zero =>
    obtain rfl := List.length_eq_zero_iff.mp (Nat.le_zero.mp h)
    exact ⟨[], rfl, .nil, rfl⟩
  | succ fuel ih =>
    rw [skipSpace]
    split_ifs with hstop
    · refine ⟨[], rfl, .nil, ?_⟩
      rcases hstop with rfl | hzero
      · rfl
      · exact hzero
    · obtain ⟨x, hx, rest, rfl⟩ := exists_of_jsSpaceWidth fun hzero => hstop (.inr hzero)
      have hpos := length_pos_of_mem hx
      rw [jsSpaceWidth_append hx, List.drop_left]
      rw [List.length_append] at h
      obtain ⟨before, hbefore, hspace, hzero⟩ := ih (s := rest) (by omega)
      exact ⟨x ++ before, by rw [List.append_assoc, ← hbefore], (IsSpace.of_mem hx).append hspace, hzero⟩

theorem skipSpace_append (hbefore : IsSpace before) (hzero : jsSpaceWidth s = 0) {fuel : ℕ}
    (h : (before ++ s).length ≤ fuel) : skipSpace fuel (before ++ s) = s := by
  obtain ⟨parts, hparts, rfl⟩ := hbefore
  induction parts generalizing fuel with
  | nil =>
    cases fuel with
    | zero => rfl
    | succ fuel => rw [skipSpace, if_pos (.inr hzero)]; rfl
  | cons x parts ih =>
    have hx := hparts x (by simp)
    have hpos := length_pos_of_mem hx
    rw [List.flatten_cons, List.append_assoc] at h ⊢
    rw [List.length_append] at h
    have hwidth := jsSpaceWidth_append hx (parts.flatten ++ s)
    cases fuel with
    | zero => omega
    | succ fuel =>
      have hgo : ¬ (x ++ (parts.flatten ++ s) = [] ∨ jsSpaceWidth (x ++ (parts.flatten ++ s)) = 0) := by
        rw [hwidth]
        rintro (hnil | hzero)
        · simp [(List.append_eq_nil_iff.mp hnil).1] at hpos
        · omega
      rw [skipSpace, if_neg hgo, hwidth, List.drop_left]
      exact ih (fun y hy => hparts y (by simp [hy])) (by omega)

/-! ## Backward -/

theorem width_iff {upTo width : ℕ} (hupTo : upTo ≤ s.length) (hwidth : width ≤ upTo) (hpos : 0 < width) :
    jsSpaceWidth (s.drop (upTo - width)) = width ↔ (s.take upTo).drop (upTo - width) ∈ encodedSpaces := by
  have hlen : ((s.take upTo).drop (upTo - width)).length = width := by
    rw [List.length_drop, List.length_take]
    omega
  have hsplit : s.drop (upTo - width) = (s.take upTo).drop (upTo - width) ++ s.drop upTo := by
    conv_lhs => rw [← List.take_append_drop upTo s]
    rw [List.drop_append_of_le_length]
    rw [List.length_take]
    omega
  constructor
  · intro h
    obtain ⟨x, hx, rest, heq⟩ := exists_of_jsSpaceWidth (s := s.drop (upTo - width)) (by omega)
    rw [heq, jsSpaceWidth_append hx] at h
    rw [hsplit] at heq
    obtain ⟨rfl, -⟩ := List.append_inj heq (hlen.trans h.symm)
    exact hx
  · intro h
    rw [hsplit, jsSpaceWidth_append h, hlen]

theorem eq_of_suffix (hx : x ∈ encodedSpaces) (hy : y ∈ encodedSpaces) (h : x <:+ y) : x = y := by
  have hall : ∀ x ∈ encodedSpaces, ∀ y ∈ encodedSpaces, x <:+ y → x = y := by
    rw [encodedSpaces_eq]
    decide
  exact hall x hx y hy h

theorem endWidth_of_suffix {upTo : ℕ} (hupTo : upTo ≤ s.length) (hx : x ∈ encodedSpaces) {front : Text}
    (h : s.take upTo = front ++ x) : endWidth s upTo = x.length := by
  have hlen := congrArg List.length h
  rw [List.length_take, List.length_append, Nat.min_eq_left hupTo] at hlen
  have hcond (width : ℕ) (hpos : 0 < width) :
      (width ≤ upTo ∧ jsSpaceWidth (s.drop (upTo - width)) = width) ↔ width = x.length := by
    constructor
    · rintro ⟨hle, hwidth⟩
      have hmem := (width_iff hupTo hle hpos).mp hwidth
      have hsuffix : (s.take upTo).drop (upTo - width) <:+ front ++ x := h ▸ List.drop_suffix _ _
      have hdrop : ((s.take upTo).drop (upTo - width)).length = width := by
        rw [List.length_drop, List.length_take]
        omega
      rcases List.suffix_or_suffix_of_suffix hsuffix (List.suffix_append front x) with hsub | hsub
      · rw [← hdrop, eq_of_suffix hmem hx hsub]
      · rw [← hdrop, eq_of_suffix hx hmem hsub]
    · rintro rfl
      have hle : x.length ≤ upTo := by omega
      refine ⟨hle, (width_iff hupTo hle hpos).mpr ?_⟩
      rw [h, show upTo - x.length = front.length by omega, List.drop_left]
      exact hx
  have hpos := length_pos_of_mem hx
  simp only [endWidth, List.foldl_cons, List.foldl_nil, hcond 1 (by norm_num), hcond 2 (by norm_num),
    hcond 3 (by norm_num)]
  split_ifs <;> omega

theorem exists_of_endWidth {upTo : ℕ} (hupTo : upTo ≤ s.length) (h : endWidth s upTo ≠ 0) :
    ∃ front x, x ∈ encodedSpaces ∧ s.take upTo = front ++ x := by
  obtain ⟨width, hpos, hle, hwidth⟩ : ∃ width, 0 < width ∧ width ≤ upTo ∧
      jsSpaceWidth (s.drop (upTo - width)) = width := by
    by_contra hnone
    refine h ?_
    have hno (width : ℕ) (hpos : 0 < width) :
        ¬ (width ≤ upTo ∧ jsSpaceWidth (s.drop (upTo - width)) = width) := fun hc => hnone ⟨width, hpos, hc⟩
    simp only [endWidth, List.foldl_cons, List.foldl_nil, if_neg (hno 1 (by norm_num)),
      if_neg (hno 2 (by norm_num)), if_neg (hno 3 (by norm_num))]
  exact ⟨(s.take upTo).take (upTo - width), _, (width_iff hupTo hle hpos).mp hwidth,
    (List.take_append_drop _ _).symm⟩

theorem endWidth_eq_zero_iff {upTo : ℕ} (hupTo : upTo ≤ s.length) :
    endWidth s upTo = 0 ↔ ∀ x ∈ encodedSpaces, ¬ x <:+ s.take upTo := by
  constructor
  · rintro hzero x hx ⟨front, hfront⟩
    have hpos := length_pos_of_mem hx
    rw [endWidth_of_suffix hupTo hx hfront.symm] at hzero
    omega
  · intro h
    by_contra hne
    obtain ⟨front, x, hx, heq⟩ := exists_of_endWidth hupTo hne
    exact h x hx ⟨front, heq.symm⟩

theorem exists_skipBack {fuel upTo : ℕ} (hupTo : upTo ≤ s.length) (h : upTo ≤ fuel) :
    ∃ after, s.take upTo = s.take (skipBack s fuel upTo) ++ after ∧ IsSpace after ∧
      ∀ x ∈ encodedSpaces, ¬ x <:+ s.take (skipBack s fuel upTo) := by
  induction fuel generalizing upTo with
  | zero =>
    obtain rfl := Nat.le_zero.mp h
    refine ⟨[], by simp [skipBack], .nil, fun x hx hsuffix => ?_⟩
    have hpos := length_pos_of_mem hx
    have hle := hsuffix.length_le
    simp only [skipBack, List.take_zero, List.length_nil] at hle
    omega
  | succ fuel ih =>
    rw [skipBack]
    split_ifs with hstop
    · refine ⟨[], by simp, .nil, (endWidth_eq_zero_iff hupTo).mp ?_⟩
      rcases hstop with rfl | hzero
      · simp [endWidth]
      · exact hzero
    · have hne : endWidth s upTo ≠ 0 := fun hzero => hstop (.inr hzero)
      obtain ⟨front, x, hx, heq⟩ := exists_of_endWidth hupTo hne
      have hlen := congrArg List.length heq
      rw [List.length_take, List.length_append, Nat.min_eq_left hupTo] at hlen
      have hpos := length_pos_of_mem hx
      have hback : upTo - x.length = front.length := by omega
      have hfront : s.take front.length = front := by
        have htake := congrArg (List.take front.length) heq
        rwa [List.take_take, Nat.min_eq_left (by omega), List.take_left'] at htake
        rfl
      rw [endWidth_of_suffix hupTo hx heq, hback]
      have hle : front.length ≤ s.length := by omega
      obtain ⟨after, hafter, hspace, hnone⟩ := ih hle (by omega)
      refine ⟨after ++ x, ?_, hspace.append (.of_mem hx), hnone⟩
      rw [heq, ← List.append_assoc, ← hafter, hfront]

/-- A text is divided in one way into a part that does not end with white space, and white space. -/
theorem eq_of_append_space {front front' : Text} (hspace : IsSpace after) {after' : Text} (hspace' : IsSpace after')
    (heq : front ++ after = front' ++ after') (h : ∀ x ∈ encodedSpaces, ¬ x <:+ front)
    (h' : ∀ x ∈ encodedSpaces, ¬ x <:+ front') : front = front' := by
  obtain ⟨parts, hparts, rfl⟩ := hspace
  obtain ⟨parts', hparts', rfl⟩ := hspace'
  induction parts using List.reverseRecOn generalizing parts' with
  | nil =>
    rcases List.eq_nil_or_concat parts' with rfl | ⟨init, y, rfl⟩
    · simpa using heq
    · refine absurd ⟨front' ++ init.flatten, ?_⟩ (h y (hparts' y (by simp)))
      simpa using heq.symm
  | append_singleton parts x ih =>
    have hx : x ∈ encodedSpaces := hparts x (by simp)
    rcases List.eq_nil_or_concat parts' with rfl | ⟨init, y, rfl⟩
    · refine absurd ⟨front ++ parts.flatten, ?_⟩ (h' x hx)
      simpa using heq
    · have hy : y ∈ encodedSpaces := hparts' y (by simp)
      simp only [List.concat_eq_append, List.flatten_append, List.flatten_singleton, ← List.append_assoc] at heq
      have hxy : x = y := by
        have hsuffix : x <:+ front' ++ init.flatten ++ y := heq ▸ List.suffix_append _ _
        rcases List.suffix_or_suffix_of_suffix hsuffix (List.suffix_append _ y) with hsub | hsub
        · exact eq_of_suffix hx hy hsub
        · exact (eq_of_suffix hy hx hsub).symm
      subst hxy
      exact ih (fun z hz => hparts z (by simp [hz])) init (fun z hz => hparts' z (by simp [hz]))
        (List.append_cancel_right heq)

/-! ## Both sides -/

/-- What is cut off is white space, and no white space is left. -/
theorem exists_trimJsSpace (text : Text) :
    ∃ before after, text = before ++ trimJsSpace text ++ after ∧ IsSpace before ∧ IsSpace after ∧
      (∀ x ∈ encodedSpaces, ¬ x <+: trimJsSpace text ++ after) ∧
      ∀ x ∈ encodedSpaces, ¬ x <:+ trimJsSpace text := by
  obtain ⟨before, hbefore, hspace, hzero⟩ := exists_skipSpace (s := text) le_rfl
  obtain ⟨after, hafter, hspace', hnone⟩ :=
    exists_skipBack (s := skipSpace text.length text) le_rfl le_rfl
  rw [List.take_length] at hafter
  refine ⟨before, after, ?_, hspace, hspace', ?_, hnone⟩
  · rw [List.append_assoc, trimJsSpace, ← hafter, ← hbefore]
  · rw [trimJsSpace, ← hafter]
    exact jsSpaceWidth_eq_zero_iff.mp hzero

/-- A text with white space around it, without that. -/
theorem trimJsSpace_eq (hbefore : IsSpace before) (hafter : IsSpace after)
    (hstart : ∀ x ∈ encodedSpaces, ¬ x <+: body ++ after) (hend : ∀ x ∈ encodedSpaces, ¬ x <:+ body) :
    trimJsSpace (before ++ body ++ after) = body := by
  have hskip : skipSpace (before ++ body ++ after).length (before ++ body ++ after) = body ++ after := by
    rw [List.append_assoc]
    exact skipSpace_append hbefore (jsSpaceWidth_eq_zero_iff.mpr hstart) le_rfl
  obtain ⟨cut, hcut, hspace, hnone⟩ := exists_skipBack (s := body ++ after) le_rfl le_rfl
  rw [List.take_length] at hcut
  rw [trimJsSpace, hskip]
  exact (eq_of_append_space hafter hspace hcut hend hnone).symm

theorem trimJsSpace_of_isSpace (h : IsSpace text) : trimJsSpace text = [] := by
  have hskip : skipSpace text.length (text ++ []) = [] := skipSpace_append h rfl (by simp)
  rw [List.append_nil] at hskip
  simp [trimJsSpace, hskip]

theorem not_isGraphic {c : UInt8} (hx : x ∈ encodedSpaces) (hc : c ∈ x) : isGraphic c = false := by
  have hall : ∀ x ∈ encodedSpaces, ∀ c ∈ x, isGraphic c = false := by
    simp [encodedSpaces_eq, isGraphic]
  exact hall x hx c hc

theorem not_prefix_of_isGraphic {c : UInt8} (hc : isGraphic c) (rest : Text) :
    ∀ x ∈ encodedSpaces, ¬ x <+: c :: rest := by
  rintro x hx ⟨tail, heq⟩
  obtain ⟨d, x, rfl⟩ := List.exists_cons_of_length_pos (length_pos_of_mem hx).1
  obtain ⟨rfl, -⟩ := List.cons_eq_cons.mp heq
  rw [not_isGraphic hx (by simp)] at hc
  exact absurd hc (by simp)

theorem not_suffix_of_isGraphic (h : ∀ c ∈ body, isGraphic c) : ∀ x ∈ encodedSpaces, ¬ x <:+ body := by
  intro x hx hsuffix
  obtain ⟨d, x, rfl⟩ := List.exists_cons_of_length_pos (length_pos_of_mem hx).1
  have hd := h d (hsuffix.subset (by simp))
  rw [not_isGraphic hx (by simp)] at hd
  exact absurd hd (by simp)

theorem trimJsSpace_of_isGraphic (hbefore : IsSpace before) (hafter : IsSpace after) (h : ∀ c ∈ body, isGraphic c)
    (hne : body ≠ []) : trimJsSpace (before ++ body ++ after) = body := by
  obtain ⟨c, rest, rfl⟩ := List.exists_cons_of_ne_nil hne
  exact trimJsSpace_eq hbefore hafter (not_prefix_of_isGraphic (h c (by simp)) (rest ++ after))
    (not_suffix_of_isGraphic h)

end CtBrowser.NumberFormat
