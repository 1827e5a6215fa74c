import CtBrowser.Shell.Net.Policy
import CtBrowser.Shell.Net.Url.Ipv4Text
import CtBrowser.Shell.Net.Url.Ipv6Text
import CtBrowser.Shell.Net.Url.SerializedAddress

/-!
# Addresses the Policy Reads

The policy's own parsers read every text that denotes an IPv6 address and every dotted decimal,
so they read back whatever host the URL parser serialises from an address.

## Main results

- `Policy.parseIpv6_of_text` — IPv6 literals are read.
- `isPrivateAddress_serializeIpv4`, `isPrivateAddress_of_text` — what the policy says about an
  address literal.
-/

namespace CtBrowser.Shell.Policy

open CtBrowser.Foundations
open CtBrowser.Shell.Url

/-! ## Dotted decimals -/

/-- A byte in at most three decimal digits. -/
structure ShortOctet (cs : List ℕ) (v : ℕ) : Prop where
  ne_nil : cs ≠ []
  length_le : cs.length ≤ 3
  value : numeral 10 cs = some v
  lt : v < 256

theorem shortOctet_of_octet {cs : List ℕ} {v : ℕ} (h : Octet cs v) : ShortOctet cs v :=
  ⟨h.ne_nil, h.length_le, h.value, h.lt⟩

theorem shortOctet_decimalText {v : ℕ} (h : v < 256) : ShortOctet (codes (decimalText v)) v where
  ne_nil := by simpa [codes] using decimalText_ne_nil v
  length_le := by
    rw [length_codes]
    exact length_decimalText_le (k := 2) (by omega)
  value := numeral_decimalText v
  lt := h

theorem isDigit_of_numeral {cs : List ℕ} {v : ℕ} (h : numeral 10 cs = some v) :
    ∀ c ∈ cs, isDigit c := by
  intro c hc
  obtain ⟨d, hd, hlt⟩ := digitOf_isSome_of_numeralFrom h c hc
  exact (isDigit_of_digitOf hd hlt).1

theorem foldl_eq_numeral {u v : ℕ} {cs : List ℕ} (h : numeralFrom 10 u cs = some v) :
    cs.foldl (fun value c => value * 10 + (c - '0'.toNat)) u = v := by
  induction cs generalizing u with
  | nil => exact Option.some.inj h
  | cons c cs ih =>
    rw [numeralFrom] at h
    split at h
    · next d hd =>
      split_ifs at h with hlt
      obtain ⟨-, rfl⟩ := isDigit_of_digitOf hd hlt
      exact ih h
    · cases h

theorem octet_append {cs rest : List ℕ} {v : ℕ} (h : ShortOctet cs v)
    (hrest : ∀ c ∈ rest.head?, ¬ isDigit c) : octet (cs ++ rest) = some (v, rest) := by
  have hdigits : ((cs ++ rest).take 3).takeWhile (fun c => isDigit c) = cs := by
    refine takeWhile_take_append ?_ h.length_le ?_
    · simpa using isDigit_of_numeral h.value
    · simpa using hrest
  have hvalue := foldl_eq_numeral h.value
  have hlt := h.lt
  rw [octet, hdigits, hvalue, List.drop_left]
  exact if_neg (not_or.mpr ⟨h.ne_nil, by omega⟩)

theorem parseIpv4_dotted {a b c d : List ℕ} {s t u v : ℕ} (ha : ShortOctet a s)
    (hb : ShortOctet b t) (hc : ShortOctet c u) (hd : ShortOctet d v) :
    parseIpv4 (a ++ '.'.toNat :: (b ++ '.'.toNat :: (c ++ '.'.toNat :: d))) =
      some [s, t, u, v] := by
  have hdot : ∀ rest : List ℕ, ∀ c ∈ ('.'.toNat :: rest).head?, ¬ isDigit c := by
    rintro rest c ⟨⟩
    exact not_isDigit_dot
  have hend : octet (d ++ []) = some (v, []) := octet_append hd (by simp)
  rw [List.append_nil] at hend
  simp only [parseIpv4, octetsAfter, octet_append ha (hdot _), octet_append hb (hdot _),
    octet_append hc (hdot _), hend, List.head?_cons, List.drop_one, List.tail_cons,
    Option.bind_eq_bind, Option.bind_some, Option.pure_def, ne_eq, not_true_eq_false, if_false,
    if_true]

theorem isDigit_of_octet {text rest : List ℕ} {v : ℕ} (h : octet text = some (v, rest)) :
    ∃ cs, text = cs ++ rest ∧ ∀ c ∈ cs, isDigit c := by
  have hfirst : ((text.take 3).takeWhile fun c => isDigit c) <+: text.take 3 :=
    List.takeWhile_prefix _
  have hpre := hfirst.trans <| List.take_prefix 3 text
  have hall : ∀ c ∈ (text.take 3).takeWhile fun c => isDigit c, isDigit c := fun c hc =>
    of_decide_eq_true (List.all_eq_true.mp List.all_takeWhile c hc)
  rw [octet] at h
  generalize ((text.take 3).takeWhile fun c => isDigit c) = digits at h hpre hall
  split_ifs at h
  obtain ⟨-, rfl⟩ : _ ∧ text.drop digits.length = rest := by simpa using h
  refine ⟨digits, ?_, hall⟩
  obtain ⟨after, rfl⟩ := hpre
  rw [List.drop_left]

/-- A text with a colon is no dotted decimal. -/
theorem parseIpv4_colon {text : List ℕ} (h : ':'.toNat ∈ text) : parseIpv4 text = none := by
  have hcolon : ∀ c ∈ [':'.toNat], ¬ isDigit c := by decide
  have hleft {text rest : List ℕ} {v : ℕ} (hmem : ':'.toNat ∈ text)
      (hread : octet text = some (v, rest)) : ':'.toNat ∈ rest := by
    obtain ⟨cs, rfl, hcs⟩ := isDigit_of_octet hread
    refine (List.mem_append.mp hmem).resolve_left fun hin => ?_
    exact hcolon _ (List.mem_singleton_self _) (hcs _ hin)
  have hafter (left : ℕ) {text : List ℕ} (hmem : ':'.toNat ∈ text) :
      octetsAfter left text = none := by
    induction left generalizing text with
    | zero => exact if_neg (List.ne_nil_of_mem hmem)
    | succ left ih =>
      rw [octetsAfter]
      split_ifs with hdot
      · rfl
      · cases text with
        | nil => cases hmem
        | cons c text =>
          have htail : ':'.toNat ∈ text := by
            refine (List.mem_cons.mp hmem).resolve_left fun hc => hdot ?_
            rw [← hc]
            exact fun heq => absurd (Option.some.inj heq) (by decide)
          rw [List.drop_one, List.tail_cons]
          cases hread : octet text with
          | none => rfl
          | some read =>
            obtain ⟨v, rest⟩ := read
            rw [Option.bind_eq_bind, Option.bind_some]
            dsimp only
            rw [ih (hleft htail hread)]
            rfl
  rw [parseIpv4]
  cases hread : octet text with
  | none => rfl
  | some read =>
    obtain ⟨v, rest⟩ := read
    rw [Option.bind_eq_bind, Option.bind_some]
    dsimp only
    rw [hafter 3 (hleft h hread)]
    rfl

/-! ## IPv6 literals -/

theorem ne_separator {c : ℕ} (h : (digitOf c).isSome) : c ≠ ':'.toNat ∧ c ≠ '.'.toNat := by
  refine ⟨?_, ?_⟩
  · rintro rfl
    rw [digitOf_separator.1] at h
    cases h
  · rintro rfl
    rw [digitOf_separator.2] at h
    cases h

theorem notMem_of_group {cs : List ℕ} {v : ℕ} (h : Ipv6Group cs v) :
    ':'.toNat ∉ cs ∧ '.'.toNat ∉ cs :=
  ⟨fun hin => (ne_separator (isSome_digitOf_of_group h _ hin)).1 rfl,
    fun hin => (ne_separator (isSome_digitOf_of_group h _ hin)).2 rfl⟩

theorem colon_notMem_of_octet {cs : List ℕ} {v : ℕ} (h : Octet cs v) : ':'.toNat ∉ cs := by
  intro hin
  obtain ⟨d, hd, -⟩ := digitOf_isSome_of_numeralFrom h.value _ hin
  rw [digitOf_separator.1] at hd
  cases hd

theorem onlyIpv4Left_group {cs : List ℕ} {v : ℕ} (h : Ipv6Group cs v) :
    onlyIpv4Left cs = false := by
  rw [onlyIpv4Left, List.contains_eq_mem, decide_eq_false (notMem_of_group h).2, Bool.false_and]

theorem onlyIpv4Left_colon {text : List ℕ} (h : ':'.toNat ∈ text) :
    onlyIpv4Left text = false := by
  have hcontains : text.contains ':'.toNat = true := List.contains_iff_mem.mpr h
  rw [onlyIpv4Left, hcontains, Bool.not_true, Bool.and_false]

theorem groups_group {cs after out : List ℕ} {v : ℕ} {gap : Option ℕ} (h : Ipv6Group cs v)
    (hout : out.length < 8) (hnil : after ≠ []) (hafter : after.head? ≠ some ':'.toNat)
    (limit : ℕ) :
    groups (limit + 1) out gap (cs ++ ':'.toNat :: after) = groups limit (out ++ [v]) gap after := by
  have hdigits : hexDigits (cs ++ ':'.toNat :: after) = cs := by
    refine hexDigits_append (isSome_digitOf_of_group h) h.length_le ?_
    rintro c ⟨⟩
    exact digitOf_separator.1
  have hnumber : hexNumber cs = v := hexNumber_eq h.value
  have honly := onlyIpv4Left_colon (List.mem_append_right cs (List.mem_cons_self (l := after)))
  obtain ⟨c, rest, rfl, -⟩ := exists_cons_of_group h
  rw [List.cons_append] at hdigits honly ⊢
  rw [groups, if_neg hout.ne, honly, if_neg Bool.false_ne_true]
  dsimp only
  rw [hdigits, hnumber, ← List.cons_append, List.drop_left, if_neg (List.cons_ne_nil c rest)]
  dsimp only
  rw [if_neg (not_not.mpr rfl), if_neg hafter, if_neg hnil]

theorem groups_gap {cs after out : List ℕ} {v : ℕ} (h : Ipv6Group cs v) (hout : out.length < 8)
    (limit : ℕ) :
    groups (limit + 1) out none (cs ++ ':'.toNat :: ':'.toNat :: after) =
      groups limit (out ++ [v]) (some (out ++ [v]).length) after := by
  have hdigits : hexDigits (cs ++ ':'.toNat :: ':'.toNat :: after) = cs := by
    refine hexDigits_append (isSome_digitOf_of_group h) h.length_le ?_
    rintro c ⟨⟩
    exact digitOf_separator.1
  have hnumber : hexNumber cs = v := hexNumber_eq h.value
  have honly := onlyIpv4Left_colon
    (List.mem_append_right cs (List.mem_cons_self (l := ':'.toNat :: after)))
  obtain ⟨c, rest, rfl, -⟩ := exists_cons_of_group h
  rw [List.cons_append] at hdigits honly ⊢
  rw [groups, if_neg hout.ne, honly, if_neg Bool.false_ne_true]
  dsimp only
  rw [hdigits, hnumber, ← List.cons_append, List.drop_left, if_neg (List.cons_ne_nil c rest)]
  dsimp only
  rw [if_neg (not_not.mpr rfl), if_pos List.head?_cons, if_neg (by simp), List.drop_one,
    List.tail_cons]

theorem groups_last {cs out : List ℕ} {v : ℕ} {gap : Option ℕ} (h : Ipv6Group cs v)
    (hout : out.length < 8) (limit : ℕ) :
    groups (limit + 1) out gap cs = some (out ++ [v], gap) := by
  have hdigits : hexDigits (cs ++ []) = cs :=
    hexDigits_append (isSome_digitOf_of_group h) h.length_le (by simp)
  have hnumber : hexNumber cs = v := hexNumber_eq h.value
  have honly := onlyIpv4Left_group h
  rw [List.append_nil] at hdigits
  obtain ⟨c, rest, rfl, -⟩ := exists_cons_of_group h
  rw [groups, if_neg hout.ne, honly, if_neg Bool.false_ne_true]
  dsimp only
  rw [hdigits, hnumber, List.drop_length, if_neg (List.cons_ne_nil c rest)]

theorem joined {s t : ℕ} (ht : t < 256) : s <<< 8 ||| t = s * 256 + t := by
  rw [← Nat.shiftLeft_add_eq_or_of_lt (i := 8) ht, Nat.shiftLeft_eq]

theorem groups_quad {a b c d out : List ℕ} {s t u v : ℕ} {gap : Option ℕ} (ha : Octet a s)
    (hb : Octet b t) (hc : Octet c u) (hd : Octet d v) (hout : out.length ≤ 6) (limit : ℕ) :
    groups (limit + 1) out gap (a ++ '.'.toNat :: (b ++ '.'.toNat :: (c ++ '.'.toNat :: d))) =
      some (out ++ [s * 256 + t, u * 256 + v], gap) := by
  have hread := parseIpv4_dotted (shortOctet_of_octet ha) (shortOctet_of_octet hb)
    (shortOctet_of_octet hc) (shortOctet_of_octet hd)
  have honly :
      onlyIpv4Left (a ++ '.'.toNat :: (b ++ '.'.toNat :: (c ++ '.'.toNat :: d))) = true := by
    have hcolon : ':'.toNat ≠ '.'.toNat := by decide
    have hnone : ':'.toNat ∉ a ++ '.'.toNat :: (b ++ '.'.toNat :: (c ++ '.'.toNat :: d)) := by
      simp only [List.mem_append, List.mem_cons, hcolon, colon_notMem_of_octet ha,
        colon_notMem_of_octet hb, colon_notMem_of_octet hc, colon_notMem_of_octet hd, or_self,
        not_false_eq_true]
    rw [onlyIpv4Left, List.contains_iff_mem.mpr (by simp), List.contains_eq_mem,
      decide_eq_false hnone]
    rfl
  generalize b ++ '.'.toNat :: (c ++ '.'.toNat :: d) = after at hread honly ⊢
  obtain ⟨x, rest, rfl⟩ := List.exists_cons_of_ne_nil ha.ne_nil
  rw [List.cons_append] at hread honly ⊢
  rw [groups, if_neg (by omega), honly, if_pos rfl, hread]
  dsimp only
  rw [if_neg (by omega), joined hb.lt, joined hd.lt]

theorem groups_groups {cs vs out : List ℕ} {gap : Option ℕ} (h : Ipv6Groups cs vs) {limit : ℕ}
    (hlimit : cs.length ≤ limit) (hlength : out.length + vs.length ≤ 8) :
    groups limit out gap cs = some (out ++ vs, gap) := by
  induction h generalizing out limit with
  | @one cs v h =>
    have hpos := h.length_pos
    obtain ⟨limit, rfl⟩ := Nat.exists_eq_add_of_le' (hpos.trans_le hlimit)
    exact groups_last h (by simpa using hlength) limit
  | quad ha hb hc hd =>
    obtain ⟨limit, rfl⟩ := Nat.exists_eq_add_of_le' (m := 1) (n := limit) (by simp at hlimit; omega)
    exact groups_quad ha hb hc hd (by simpa using hlength) limit
  | @cons cs rest v vs h hrest ih =>
    have hpos := h.length_pos
    simp only [List.length_append, List.length_cons] at hlimit hlength
    obtain ⟨limit, rfl⟩ := Nat.exists_eq_add_of_le' (m := 1) (n := limit) (by omega)
    obtain ⟨x, tail, hx, hcolon⟩ := exists_cons_of_groups hrest
    have hhead : rest.head? ≠ some ':'.toNat := by
      rw [hx]
      exact fun heq => hcolon (Option.some.inj heq)
    rw [groups_group h (by omega) hrest.ne_nil hhead, ih (by omega) (by simp; omega),
      List.append_assoc]
    rfl

theorem groups_before {l vl : List ℕ} (h : HexGroups l vl) {r out : List ℕ} {limit : ℕ}
    (hlimit : l.length + 2 + r.length ≤ limit) (hlength : out.length + vl.length ≤ 8) :
    ∃ limit', r.length ≤ limit' ∧
      groups limit out none (l ++ ':'.toNat :: ':'.toNat :: r) =
        groups limit' (out ++ vl) (some (out ++ vl).length) r := by
  induction h generalizing out limit with
  | @one cs v h =>
    have hpos := h.length_pos
    rw [List.length_singleton] at hlength
    obtain ⟨limit, rfl⟩ := Nat.exists_eq_add_of_le' (m := 1) (n := limit) (by omega)
    exact ⟨limit, by omega, groups_gap h (by omega) limit⟩
  | @cons cs rest v vs h hrest ih =>
    have hpos := h.length_pos
    simp only [List.length_append, List.length_cons] at hlimit hlength
    obtain ⟨limit, rfl⟩ := Nat.exists_eq_add_of_le' (m := 1) (n := limit) (by omega)
    have hlength' : (out ++ [v]).length + vs.length ≤ 8 := by
      rw [List.length_append, List.length_singleton]
      omega
    obtain ⟨limit', hle, hread⟩ := ih (show rest.length + 2 + r.length ≤ limit by omega) hlength'
    refine ⟨limit', hle, ?_⟩
    obtain ⟨x, tail, rfl, hcolon⟩ := exists_cons_of_groups hrest.groups
    have hhead : (x :: tail ++ ':'.toNat :: ':'.toNat :: r).head? ≠ some ':'.toNat :=
      fun heq => hcolon (Option.some.inj heq)
    rw [List.append_assoc, List.cons_append, groups_group h (by omega) (by simp) hhead, hread,
      List.append_assoc, List.singleton_append]

theorem groups_after {r vr out : List ℕ} {gap : Option ℕ} (hr : r = [] ∧ vr = [] ∨ Ipv6Groups r vr)
    {limit : ℕ} (hlimit : r.length ≤ limit) (hlength : out.length + vr.length ≤ 8) :
    groups limit out gap r = some (out ++ vr, gap) := by
  rcases hr with ⟨rfl, rfl⟩ | hr
  · rw [List.append_nil]
    cases limit <;> rfl
  · exact groups_groups hr hlimit hlength

theorem withGap_append {vl vr : List ℕ} (hlength : vl.length + vr.length ≤ 7) :
    withGap (vl ++ vr) (some vl.length) =
      some (vl ++ List.replicate (8 - vl.length - vr.length) 0 ++ vr) := by
  have hfull : (vl ++ vr).length ≠ 8 := by
    rw [List.length_append]
    omega
  rw [withGap, if_neg hfull, List.take_left, List.drop_left, List.length_append, Nat.sub_sub]

theorem parseIpv6_of_text {cs vs : List ℕ} (h : Ipv6Text cs vs) : parseIpv6 cs = some vs := by
  have htwo {c : ℕ} {rest : List ℕ} (hc : c ≠ ':'.toNat) : (c :: rest).take 2 ≠ points "::" :=
    fun heq => hc (List.cons.inj heq).1
  cases h with
  | full h hlength =>
    have hread : groups cs.length [] none cs = some ([] ++ vs, none) :=
      groups_groups h le_rfl (by simp [hlength])
    obtain ⟨c, rest, rfl, hc⟩ := exists_cons_of_groups h
    rw [parseIpv6, if_neg (htwo hc), hread]
    exact if_pos hlength
  | @gap l r vl vr hl hr hlength =>
    rcases hl with ⟨rfl, rfl⟩ | hl
    · have hread : groups (':'.toNat :: ':'.toNat :: r).length [] (some 0) r =
          some ([] ++ vr, some 0) :=
        groups_after hr (by simp only [List.length_cons]; omega) (by simp at hlength ⊢; omega)
      have hstart : ([] ++ ':'.toNat :: ':'.toNat :: r).take 2 = points "::" := rfl
      rw [parseIpv6, if_pos hstart]
      change (groups (':'.toNat :: ':'.toNat :: r).length [] (some 0) r).bind _ = _
      rw [hread]
      exact withGap_append hlength
    · have hlimit : l.length + 2 + r.length ≤ (l ++ ':'.toNat :: ':'.toNat :: r).length := by
        simp only [List.length_append, List.length_cons]
        omega
      obtain ⟨limit, hle, hread⟩ :=
        groups_before hl hlimit (show ([] : List ℕ).length + vl.length ≤ 8 by simp; omega)
      obtain ⟨c, rest, rfl, hc⟩ := exists_cons_of_groups hl.groups
      rw [parseIpv6, List.cons_append, if_neg (htwo hc), ← List.cons_append, hread,
        groups_after hr hle (by simp; omega)]
      exact withGap_append hlength

/-! ## Hosts -/

/-- A character of an address literal. -/
def AddressChar (c : ℕ) : Prop := (digitOf c).isSome ∨ c = ':'.toNat ∨ c = '.'.toNat

instance (c : ℕ) : Decidable (AddressChar c) := inferInstanceAs (Decidable (_ ∨ _ ∨ _))

theorem addressChar_of_numeral {radix v : ℕ} {cs : List ℕ} (h : numeral radix cs = some v) :
    ∀ c ∈ cs, AddressChar c := by
  intro c hc
  obtain ⟨d, hd, -⟩ := digitOf_isSome_of_numeralFrom h c hc
  exact .inl (by rw [hd]; rfl)

theorem addressChar_append {a b : List ℕ} {x : ℕ} (ha : ∀ c ∈ a, AddressChar c)
    (hx : AddressChar x) (hb : ∀ c ∈ b, AddressChar c) : ∀ c ∈ a ++ x :: b, AddressChar c :=
  List.forall_mem_append.mpr ⟨ha, List.forall_mem_cons.mpr ⟨hx, hb⟩⟩

theorem addressChar_colon : AddressChar ':'.toNat := .inr (.inl rfl)

theorem addressChar_dot : AddressChar '.'.toNat := .inr (.inr rfl)

theorem addressChar_of_groups {cs vs : List ℕ} (h : Ipv6Groups cs vs) :
    ∀ c ∈ cs, AddressChar c := by
  induction h with
  | one h => exact addressChar_of_numeral h.value
  | quad ha hb hc hd =>
    exact addressChar_append (addressChar_of_numeral ha.value) addressChar_dot <|
      addressChar_append (addressChar_of_numeral hb.value) addressChar_dot <|
      addressChar_append (addressChar_of_numeral hc.value) addressChar_dot <|
      addressChar_of_numeral hd.value
  | cons h _ ih => exact addressChar_append (addressChar_of_numeral h.value) addressChar_colon ih

theorem addressChar_of_text {cs vs : List ℕ} (h : Ipv6Text cs vs) : ∀ c ∈ cs, AddressChar c := by
  cases h with
  | full h => exact addressChar_of_groups h
  | gap hl hr =>
    refine addressChar_append ?_ addressChar_colon (List.forall_mem_cons.mpr ⟨addressChar_colon, ?_⟩)
    · rcases hl with ⟨rfl, -⟩ | hl
      · simp
      · exact addressChar_of_groups hl.groups
    · rcases hr with ⟨rfl, -⟩ | hr
      · simp
      · exact addressChar_of_groups hr

theorem colon_mem_of_text {cs vs : List ℕ} (h : Ipv6Text cs vs) : ':'.toNat ∈ cs := by
  cases h with
  | full h hlength =>
    cases h with
    | one => simp at hlength
    | quad => simp at hlength
    | cons => simp
  | gap => simp

theorem literal_eq {ip : Text} (h : ∀ c ∈ codes ip, AddressChar c) :
    ¬ (2 < (codes ip).length ∧ (codes ip).head? = some '['.toNat ∧
      (codes ip).getLast? = some ']'.toNat) ∧
      (codes ip).takeWhile (· ≠ '%'.toNat) = codes ip := by
  have hbracket : ¬ AddressChar '['.toNat := by decide
  have hzone : ¬ AddressChar '%'.toNat := by decide
  refine ⟨fun hb => hbracket (h _ (List.mem_of_mem_head? hb.2.1)), ?_⟩
  have hnone : ∀ c ∈ codes ip, decide (c ≠ '%'.toNat) = true := fun c hc =>
    decide_eq_true fun heq => hzone (heq ▸ h c hc)
  have happend : (codes ip ++ []).takeWhile (· ≠ '%'.toNat) = codes ip ++ [] :=
    List.takeWhile_append_of_pos hnone
  rwa [List.append_nil] at happend

theorem isPrivateAddress_v4 {ip : Text} {v4 : List ℕ} (h : ∀ c ∈ codes ip, AddressChar c)
    (hread : parseIpv4 (codes ip) = some v4) : isPrivateAddress ip = privateIpv4 v4 := by
  obtain ⟨hbracket, hzone⟩ := literal_eq h
  rw [isPrivateAddress, if_neg hbracket, hzone, hread]

/-- The address of an IPv6 literal decides. -/
theorem isPrivateAddress_of_text {ip : Text} {vs : List ℕ} (h : Ipv6Text (codes ip) vs) :
    isPrivateAddress ip = privateIpv6 vs := by
  obtain ⟨hbracket, hzone⟩ := literal_eq (addressChar_of_text h)
  rw [isPrivateAddress, if_neg hbracket, hzone, parseIpv4_colon (colon_mem_of_text h),
    parseIpv6_of_text h]

theorem codes_serializeIpv4 (v : ℕ) : codes (serializeIpv4 v) =
    codes (decimalText (v / 2 ^ 24 % 256)) ++ '.'.toNat ::
      (codes (decimalText (v / 2 ^ 16 % 256)) ++ '.'.toNat ::
        (codes (decimalText (v / 2 ^ 8 % 256)) ++ '.'.toNat :: codes (decimalText (v % 256)))) := by
  have hdot : codes (ascii ".") = ['.'.toNat] := by decide
  rw [serializeIpv4_eq]
  simp only [octets, List.map_cons, List.map_nil, List.intercalate, List.intersperse,
    List.flatten_cons, List.flatten_nil, List.append_nil, codes_append, hdot, List.cons_append,
    List.nil_append]

theorem addressChar_serializeIpv4 (v : ℕ) : ∀ c ∈ codes (serializeIpv4 v), AddressChar c := by
  rw [codes_serializeIpv4]
  exact addressChar_append (addressChar_of_numeral (numeral_decimalText _)) addressChar_dot <|
    addressChar_append (addressChar_of_numeral (numeral_decimalText _)) addressChar_dot <|
    addressChar_append (addressChar_of_numeral (numeral_decimalText _)) addressChar_dot <|
    addressChar_of_numeral (numeral_decimalText _)

/-- The number of a dotted decimal decides. -/
theorem isPrivateAddress_serializeIpv4 (v : ℕ) :
    isPrivateAddress (serializeIpv4 v) = privateIpv4 (octets v) := by
  have hbyte (n : ℕ) : ShortOctet (codes (decimalText (n % 256))) (n % 256) :=
    shortOctet_decimalText (Nat.mod_lt n (by norm_num))
  have hread := parseIpv4_dotted (hbyte (v / 2 ^ 24)) (hbyte (v / 2 ^ 16)) (hbyte (v / 2 ^ 8))
    (hbyte v)
  rw [← codes_serializeIpv4] at hread
  rw [isPrivateAddress_v4 (addressChar_serializeIpv4 v) hread]
  rfl

theorem asciiLower_ne_letter {c : UInt8} (h : AddressChar c.toNat) :
    asciiLower c ≠ byte 'l'.toNat := by
  have hchars : '0'.toNat = 48 ∧ '9'.toNat = 57 ∧ 'a'.toNat = 97 ∧ 'f'.toNat = 102 ∧
      'A'.toNat = 65 ∧ 'F'.toNat = 70 ∧ 'Z'.toNat = 90 ∧ ':'.toNat = 58 ∧ '.'.toNat = 46 := by
    decide
  have hrange : c.toNat ≤ 70 ∨ 97 ≤ c.toNat ∧ c.toNat ≤ 102 := by
    rcases h with hdigit | hcolon | hdot
    · unfold digitOf at hdigit
      split_ifs at hdigit with hnum hsmall hcapital <;> first | omega | cases hdigit
    · omega
    · omega
  have hletter : (byte 'l'.toNat).toNat = 108 := by decide
  intro heq
  have hvalue : (asciiLower c).toNat = 108 := by rw [heq, hletter]
  unfold asciiLower at hvalue
  split_ifs at hvalue
  · rw [UInt8.toNat_add] at hvalue
    have hsum : (0x20 : UInt8).toNat = 32 := by decide
    omega
  · omega

theorem loopbackName_eq_false {host : Text} (h : ∀ c ∈ codes host, AddressChar c) :
    loopbackName host = false := by
  have hnone : ∀ c ∈ host, asciiLower c ≠ byte 'l'.toNat := fun c hc =>
    asciiLower_ne_letter (h _ (List.mem_map_of_mem hc))
  have hdiffers {text : Text} {name : String} (htext : text ⊆ host)
      (hname : byte 'l'.toNat ∈ (ascii name).map asciiLower) :
      asciiIequals text (ascii name) = false := by
    refine beq_eq_false_iff_ne.mpr fun heq => ?_
    rw [← heq] at hname
    obtain ⟨c, hc, hlower⟩ := List.mem_map.mp hname
    exact hnone c (htext hc) hlower
  rw [loopbackName, hdiffers (List.Subset.refl host) (by decide),
    hdiffers (List.drop_subset _ host) (by decide), Bool.and_false]
  rfl

end CtBrowser.Shell.Policy
