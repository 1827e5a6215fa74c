import CtBrowser.Dom.Attributes

/-!
# Pseudo-attributes read back

The data that attributes are written as is read back as the attributes, if their names are distinct
XML names. What is read has such names.

## Main definitions

- `Nameable` — attributes that can be written and read back.

## Main results

- `quotedValue_escaped`, `pseudoAttribute_written` — a value, and a whole pseudo-attribute, are read
  back.
- `parse_serializePseudoAttributes` — attributes are read back from their data.
-/

namespace CtBrowser.Dom

namespace PseudoAttributes

/-- An XML name. -/
def IsName (name : Text) : Prop := name.head?.any nameStart = true ∧ ∀ c ∈ name, nameChar c = true

instance (name : Text) : Decidable (IsName name) := inferInstanceAs (Decidable (_ ∧ _))

/-- Distinct XML names, in no namespace. -/
structure Nameable (attributes : List Attribute) : Prop where
  name : ∀ a ∈ attributes, IsName a.name
  ns : ∀ a ∈ attributes, a.ns = []
  nodup : (attributes.map Attribute.name).Nodup

/-! ## Values -/

/-- An escaped byte is read back, whatever follows it. -/
theorem quotedValue_escapedByte (value rest : Text) (c : UInt8) :
    quotedValue quotationMark value (escapedByte c ++ rest) = quotedValue quotationMark (value ++ [c]) rest := by
  have hreference : ∀ (body : Text) (x : UInt8), byte ';'.toNat ∉ body → referenceText body = some [x] →
      quotedValue quotationMark value (byte '&'.toNat :: body ++ byte ';'.toNat :: rest) =
        quotedValue quotationMark (value ++ [x]) rest := by
    intro body x hbody htext
    have hall : ∀ b ∈ body, decide (b ≠ byte ';'.toNat) = true := fun b hb =>
      decide_eq_true fun heq => hbody (heq ▸ hb)
    have hstop : ¬ decide (byte ';'.toNat ≠ byte ';'.toNat) = true := by simp
    have href : reference (body ++ byte ';'.toNat :: rest) = some ([x], rest) := by
      rw [reference, if_pos (List.mem_append_right _ (List.mem_cons_self ..)), List.takeWhile_append_of_pos hall,
        List.dropWhile_append_of_pos hall,
        List.takeWhile_cons_of_neg (p := fun b => decide (b ≠ byte ';'.toNat)) hstop,
        List.dropWhile_cons_of_neg (p := fun b => decide (b ≠ byte ';'.toNat)) hstop, List.append_nil, htext]
      rfl
    rw [List.cons_append, quotedValue, if_neg (by decide), if_neg (by decide), if_pos rfl]
    split
    · next into next hfound =>
      rw [href] at hfound
      cases hfound
      rfl
    · next hnone =>
      rw [href] at hnone
      cases hnone
  rw [escapedByte]
  split_ifs with hamp hless hgreater hquote
  · subst hamp
    exact hreference (ascii "amp") _ (by decide) (by decide)
  · subst hless
    exact hreference (ascii "lt") _ (by decide) (by decide)
  · subst hgreater
    exact hreference (ascii "gt") _ (by decide) (by decide)
  · subst hquote
    exact hreference (ascii "quot") _ (by decide) (by decide)
  · rw [List.singleton_append, quotedValue, if_neg hquote, if_neg hless, if_neg hamp]

/-- An escaped value is read back up to the quote after it. -/
theorem quotedValue_escaped (read value rest : Text) :
    quotedValue quotationMark read (value.flatMap escapedByte ++ quotationMark :: rest) = some (read ++ value, rest) := by
  induction value generalizing read with
  | nil =>
    rw [List.flatMap_nil, List.nil_append, quotedValue, if_pos rfl, List.append_nil]
  | cons c value ih =>
    rw [List.flatMap_cons, List.append_assoc, quotedValue_escapedByte, ih, List.append_assoc, List.singleton_append]

/-! ## Pseudo-attributes -/

theorem skipSpace_cons {c : UInt8} (h : xmlWhitespace c = false) (rest : Text) : skipSpace (c :: rest) = c :: rest :=
  List.dropWhile_cons_of_neg (by simp [h])

/-- A pseudo-attribute is read back. -/
theorem pseudoAttribute_written {a : Attribute} (hname : IsName a.name) (hns : a.ns = []) (rest : Text) :
    pseudoAttribute (written a ++ rest) = some (a, rest) := by
  have hnonempty : a.name ≠ [] := fun h => by
    have := hname.1
    rw [h] at this
    cases this
  have htext : written a ++ rest =
      a.name ++ byte '='.toNat :: quotationMark :: (a.value.flatMap escapedByte ++ quotationMark :: rest) := by
    simp [written]
  have hstop : ¬ nameChar (byte '='.toNat) = true := by decide
  have hhead : (written a ++ rest).head?.any nameStart = true := by
    rw [htext, List.head?_append_of_ne_nil _ hnonempty]
    exact hname.1
  have hdrop : (written a ++ rest).dropWhile nameChar =
      byte '='.toNat :: quotationMark :: (a.value.flatMap escapedByte ++ quotationMark :: rest) := by
    rw [htext, List.dropWhile_append_of_pos hname.2, List.dropWhile_cons_of_neg hstop]
  have htake : (written a ++ rest).takeWhile nameChar = a.name := by
    rw [htext, List.takeWhile_append_of_pos hname.2, List.takeWhile_cons_of_neg hstop, List.append_nil]
  rw [pseudoAttribute, if_pos hhead, hdrop, skipSpace_cons (by decide)]
  dsimp only
  rw [if_pos rfl, skipSpace_cons (by decide)]
  dsimp only
  rw [if_pos (Or.inl rfl), quotedValue_escaped, htake, Option.map_some, List.nil_append]
  obtain ⟨name, ns, value⟩ := a
  dsimp only at hns
  rw [hns]

/-! ## All attributes -/

theorem IsName.head_written {a : Attribute} (h : IsName a.name) :
    ∃ c rest, written a = c :: rest ∧ xmlWhitespace c = false := by
  cases hname : a.name with
  | nil =>
    have := h.1
    rw [hname] at this
    cases this
  | cons c name =>
    have hstart : nameStart c = true := by simpa [hname] using h.1
    refine ⟨c, _, by rw [written, hname]; rfl, ?_⟩
    by_contra hspace
    have hmem : c ∈ ascii " \t\r\n" := by simpa [xmlWhitespace] using hspace
    have hnone : ∀ c ∈ ascii " \t\r\n", nameStart c = false := by decide +kernel
    rw [hnone c hmem] at hstart
    cases hstart

theorem readAttributes_written {out : List Attribute} {a : Attribute} {data rest : Text} (hname : IsName a.name)
    (hns : a.ns = []) (hother : ∀ other ∈ out, other.name ≠ a.name) (hdata : skipSpace data = written a ++ rest)
    (hspaced : out = [] ∨ (skipSpace data).length ≠ data.length) :
    readAttributes out data = readAttributes (out ++ [a]) rest := by
  have hnonempty : skipSpace data ≠ [] := by
    obtain ⟨c, more, hwritten, -⟩ := hname.head_written
    rw [hdata, hwritten]
    exact List.cons_ne_nil _ _
  have hparted : ¬ (out ≠ [] ∧ (skipSpace data).length = data.length) := fun h =>
    hspaced.elim (fun hout => h.1 hout) fun hlength => hlength h.2
  have hfound : pseudoAttribute (skipSpace data) = some (a, rest) := by
    rw [hdata]
    exact pseudoAttribute_written hname hns rest
  have hnew : out.any (fun other => decide (other.name = a.name)) = false := by
    rw [List.any_eq_false]
    exact fun other h => by simpa using hother other h
  rw [readAttributes]
  dsimp only
  rw [if_neg hnonempty, if_neg hparted]
  split
  · next b next hb =>
    rw [hfound] at hb
    cases hb
    rw [hnew]
    rfl
  · next hnone =>
    rw [hfound] at hnone
    cases hnone

/-- Attributes after the first one as they are written. -/
def later (attributes : List Attribute) : Text := attributes.flatMap fun a => byte ' '.toNat :: written a

theorem readAttributes_later {out attributes : List Attribute} (h : Nameable (out ++ attributes)) :
    readAttributes out (later attributes) = some (out ++ attributes) := by
  induction attributes generalizing out with
  | nil =>
    rw [later, List.flatMap_nil, readAttributes, List.append_nil]
    exact if_pos rfl
  | cons a attributes ih =>
    have hmem : a ∈ out ++ a :: attributes := List.mem_append_right _ (List.mem_cons_self ..)
    have hname := h.name a hmem
    have hsplit : out ++ a :: attributes = out ++ [a] ++ attributes := by simp
    have hskip : skipSpace (later (a :: attributes)) = written a ++ later attributes := by
      obtain ⟨c, more, hwritten, hspace⟩ := hname.head_written
      rw [later, List.flatMap_cons, List.cons_append, skipSpace, List.dropWhile_cons_of_pos (by decide), hwritten,
        List.cons_append, ← skipSpace, skipSpace_cons hspace]
      rfl
    have hother : ∀ other ∈ out, other.name ≠ a.name := fun other hout => by
      have hnodup := h.nodup
      rw [List.map_append, List.nodup_append] at hnodup
      exact hnodup.2.2 _ (List.mem_map_of_mem hout) _ (List.mem_map_of_mem (List.mem_cons_self ..))
    have hlength : (skipSpace (later (a :: attributes))).length ≠ (later (a :: attributes)).length := by
      rw [hskip]
      simp [later]
    rw [readAttributes_written hname (h.ns a hmem) hother hskip (Or.inr hlength), ih (hsplit ▸ h), ← hsplit]

theorem serialize_cons (a : Attribute) (attributes : List Attribute) :
    serializePseudoAttributes (a :: attributes) = written a ++ later attributes := by
  have hwritten : ∀ a, written a ≠ [] := fun a => by simp [written]
  have hfold : ∀ (attributes : List Attribute) (data : Text), data ≠ [] →
      attributes.foldl (fun data a => (if data ≠ [] then data ++ [byte ' '.toNat] else data) ++ written a) data =
        data ++ later attributes := by
    intro attributes
    induction attributes with
    | nil => exact fun data _ => (List.append_nil data).symm
    | cons a attributes ih =>
      intro data hdata
      rw [List.foldl_cons, if_pos hdata, ih _ (List.append_ne_nil_of_right_ne_nil _ (hwritten a))]
      simp [later]
  exact hfold attributes (written a) (hwritten a)

theorem length_serialize (attributes : List Attribute) : (serializePseudoAttributes attributes).length =
    (attributes.map fun a => (written a).length + 1).sum - 1 := by
  have hlater : ∀ attributes : List Attribute,
      (later attributes).length = (attributes.map fun a => (written a).length + 1).sum := fun attributes => by
    rw [later, List.length_flatMap]
    rfl
  cases attributes with
  | nil => rfl
  | cons a attributes =>
    rw [serialize_cons, List.length_append, hlater, List.map_cons, List.sum_cons]
    omega

theorem serialize_eraseP_ne {attributes : List Attribute} {p : Attribute → Bool} (h : attributes.any p = true) :
    serializePseudoAttributes (attributes.eraseP p) ≠ serializePseudoAttributes attributes := by
  obtain ⟨a, ha, hp⟩ := List.any_eq_true.mp h
  obtain ⟨b, front, back, -, -, hsplit, herased⟩ := List.exists_of_eraseP ha hp
  intro heq
  have hlength := congrArg List.length heq
  have hwritten : 0 < (written b).length := by simp [written]
  rw [length_serialize, length_serialize, herased, hsplit] at hlength
  simp only [List.map_append, List.map_cons, List.sum_append, List.sum_cons] at hlength
  omega

/-! ## What is read -/

theorem isName_of_pseudoAttribute {data : Text} {r : Attribute × Text} (h : pseudoAttribute data = some r) :
    IsName r.1.name ∧ r.1.ns = [] := by
  rw [pseudoAttribute] at h
  split_ifs at h with hstart
  split at h
  · split_ifs at h
    split at h
    · split_ifs at h
      obtain ⟨found, -, rfl⟩ := Option.map_eq_some_iff.mp h
      refine ⟨⟨?_, List.all_eq_true.mp List.all_takeWhile⟩, rfl⟩
      cases data with
      | nil => cases hstart
      | cons c data =>
        have hc : nameStart c = true := by simpa using hstart
        rw [List.takeWhile_cons_of_pos (by rw [nameChar, hc]; rfl)]
        exact hstart
    · cases h
  · cases h

theorem nameable_readAttributes {out attributes : List Attribute} {data : Text} (hout : Nameable out)
    (h : readAttributes out data = some attributes) : Nameable attributes := by
  fun_induction readAttributes out data with
  | case1 =>
    cases h
    exact hout
  | case2 => cases h
  | case3 => cases h
  | case4 out data rest hrest hspaced a next ha hlength hnew ih =>
    obtain ⟨hname, hns⟩ := isName_of_pseudoAttribute ha
    have hother : ∀ other ∈ out, other.name ≠ a.name := by simpa using hnew
    refine ih ⟨?_, ?_, ?_⟩ h
    · rw [List.forall_mem_append]
      exact ⟨hout.name, by simpa using hname⟩
    · rw [List.forall_mem_append]
      exact ⟨hout.ns, by simpa using hns⟩
    · rw [List.map_append, List.nodup_append]
      refine ⟨hout.nodup, List.nodup_singleton _, fun x hx y hy => ?_⟩
      obtain ⟨other, hother', rfl⟩ := List.mem_map.mp hx
      rw [List.map_singleton, List.mem_singleton] at hy
      rw [hy]
      exact hother other hother'
  | case5 => cases h

end PseudoAttributes

open PseudoAttributes in
theorem nameable_of_parse {attributes : List Attribute} {data : Text} (h : parsePseudoAttributes data = some attributes) :
    Nameable attributes := by
  have hnone : Nameable [] := ⟨by simp, by simp, List.nodup_nil⟩
  exact nameable_readAttributes hnone h

open PseudoAttributes in
/-- Attributes with distinct XML names are read back from their data. -/
theorem parse_serializePseudoAttributes {attributes : List Attribute} (h : Nameable attributes) :
    parsePseudoAttributes (serializePseudoAttributes attributes) = some attributes := by
  cases attributes with
  | nil => exact @readAttributes_later [] [] h
  | cons a attributes =>
    have hname := h.name a (List.mem_cons_self ..)
    have hskip : skipSpace (serializePseudoAttributes (a :: attributes)) = PseudoAttributes.written a ++ later attributes := by
      obtain ⟨c, more, hwritten, hspace⟩ := hname.head_written
      rw [serialize_cons, hwritten, List.cons_append, skipSpace_cons hspace]
    rw [parsePseudoAttributes, readAttributes_written hname (h.ns a (List.mem_cons_self ..)) (by simp) hskip (Or.inl rfl)]
    exact readAttributes_later h

end CtBrowser.Dom
