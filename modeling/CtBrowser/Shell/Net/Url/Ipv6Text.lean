import CtBrowser.Foundations.AddressText
import CtBrowser.Shell.Net.Url.Host

/-!
# IPv6 Hosts

The IPv6 parser of URLs accepts exactly the texts that denote an IPv6 address, and reads the
eight groups they denote.

## Main definitions

- `reading` — the parser's variables when some pieces have been stored.

## Main results

- `ipv6Address_eq_some_iff` — what the parser accepts, and what it reads.
-/

namespace CtBrowser.Shell.Url

open CtBrowser.Foundations

/-! ## Digits -/

theorem hexValue_eq (c : ℕ) : hexValue c = digitOf c := rfl

theorem digitOf_eq_of_isDigit {c : ℕ} (h : isDigit c) :
    digitOf c = some (c - '0'.toNat) ∧ c - '0'.toNat < 10 := by
  have hchars : '0'.toNat = 48 ∧ '9'.toNat = 57 := by decide
  have h' : '0'.toNat ≤ c ∧ c ≤ '9'.toNat := h
  exact ⟨if_pos h', by omega⟩

theorem isDigit_of_digitOf {c d : ℕ} (h : digitOf c = some d) (hd : d < 10) :
    isDigit c ∧ d = c - '0'.toNat := by
  unfold digitOf at h
  split_ifs at h with h0 <;> simp only [Option.some.injEq] at h
  · exact ⟨h0, h.symm⟩
  all_goals omega

theorem digitOf_separator : digitOf ':'.toNat = none ∧ digitOf '.'.toNat = none := by decide

theorem hexNumber_eq {v n : ℕ} {cs : List ℕ} (h : numeralFrom 16 v cs = some n) :
    cs.foldl (fun value c => value * 16 + (hexValue c).getD 0) v = n := by
  induction cs generalizing v with
  | nil => exact Option.some.inj h
  | cons c cs ih =>
    rw [numeralFrom] at h
    rw [List.foldl_cons, hexValue_eq]
    split at h
    · next d hd =>
      split_ifs at h
      rw [hd]
      exact ih h
    · cases h

theorem hexDigits_append {cs rest : List ℕ} (hcs : ∀ c ∈ cs, (digitOf c).isSome)
    (hlength : cs.length ≤ 4) (hrest : ∀ c ∈ rest.head?, digitOf c = none) :
    hexDigits (cs ++ rest) = cs := by
  refine takeWhile_take_append ?_ hlength ?_
  · simpa [hexValue_eq] using hcs
  · simpa [hexValue_eq] using hrest

theorem group_of_hexDigits (text : List ℕ) (h : hexDigits text ≠ []) :
    Ipv6Group (hexDigits text) (hexNumber (hexDigits text)) := by
  have hdigits : ∀ c ∈ hexDigits text, (digitOf c).isSome := by
    intro c hc
    have hall := List.all_eq_true.mp (List.all_takeWhile (l := text.take 4)) c hc
    simpa [hexValue_eq] using hall
  have hvalue : ∀ cs : List ℕ, (∀ c ∈ cs, (digitOf c).isSome) → ∀ v,
      ∃ n, numeralFrom 16 v cs = some n := by
    intro cs
    induction cs with
    | nil => exact fun _ v => ⟨v, rfl⟩
    | cons c cs ih =>
      intro hcs v
      obtain ⟨d, hd⟩ := Option.isSome_iff_exists.mp (hcs c (by simp))
      rw [numeralFrom, hd]
      simp only [digitOf_lt hd, if_true]
      exact ih (fun x hx => hcs x (by simp [hx])) _
  obtain ⟨n, hn⟩ := hvalue _ hdigits 0
  refine ⟨List.length_pos_iff.mpr h, ?_, ?_⟩
  · exact (List.takeWhile_sublist _).length_le.trans (List.length_take_le 4 text)
  · rw [hexNumber, hexNumber_eq hn]
    exact hn

theorem hexDigits_append_drop (text : List ℕ) :
    hexDigits text ++ text.drop (hexDigits text).length = text := by
  have hfirst : hexDigits text <+: text.take 4 := List.takeWhile_prefix _
  have hpre : hexDigits text <+: text := hfirst.trans <| List.take_prefix 4 text
  conv_rhs => rw [← List.take_append_drop (hexDigits text).length text]
  rw [← List.prefix_iff_eq_take.mp hpre]

/-! ## The variables -/

/-- The parser's variables when the pieces of `pre` have been stored. -/
def reading (pre : List ℕ) (compress : Option ℕ) : Ipv6 :=
  { address := pre ++ List.replicate (8 - pre.length) 0, piece := pre.length, compress }

/-- The same when the next piece holds its first byte. -/
def readingHalf (pre : List ℕ) (w : ℕ) (compress : Option ℕ) : Ipv6 :=
  { address := pre ++ w :: List.replicate (7 - pre.length) 0, piece := pre.length, compress }

variable {pre : List ℕ} {compress : Option ℕ}

theorem address_reading (hpre : pre.length < 8) :
    (reading pre compress).address = pre ++ 0 :: List.replicate (7 - pre.length) 0 := by
  have hcount : 8 - pre.length = (7 - pre.length) + 1 := by omega
  rw [reading, hcount, List.replicate_succ]

theorem store_reading (hpre : pre.length < 8) (v : ℕ) :
    (reading pre compress).store v = reading (pre ++ [v]) compress := by
  simp only [Ipv6.store, address_reading hpre]
  simp [reading]

theorem compressHere_reading (hpre : pre.length < 8) :
    (reading pre none).compressHere = reading (pre ++ [0]) (some (pre.length + 1)) := by
  simp only [Ipv6.compressHere, address_reading hpre]
  simp [reading]

theorem appendByte_reading (hpre : pre.length < 8) {v : ℕ} (hv : v < 256) :
    (reading pre compress).appendByte v = readingHalf pre v compress := by
  simp only [Ipv6.appendByte, address_reading hpre]
  simp [reading, readingHalf]
  omega

theorem next_appendByte_readingHalf {w v : ℕ} (hw : w < 256) (hv : v < 256) :
    ((readingHalf pre w compress).appendByte v).next = reading (pre ++ [w * 256 + v]) compress := by
  have hmod : (w * 256 + v) % 65536 = w * 256 + v := Nat.mod_eq_of_lt (by omega)
  simp only [Ipv6.appendByte, Ipv6.next, readingHalf]
  simp [reading, hmod]

/-! ## Embedded IPv4 addresses -/

theorem ipv4Piece_digits {u v : ℕ} {cs rest : List ℕ} (h : numeralFrom 10 u cs = some v)
    (hv : v < 256) (hzero : u = 0 → cs = []) (hrest : ∀ c ∈ rest.head?, ¬ isDigit c) :
    ipv4Piece (some u) (cs ++ rest) = some (some v, rest) := by
  induction cs generalizing u with
  | nil =>
    obtain rfl : u = v := Option.some.inj h
    cases rest with
    | nil => rfl
    | cons c rest => rw [List.nil_append, ipv4Piece, if_neg (hrest c rfl)]
  | cons c cs ih =>
    have hu : u ≠ 0 := fun hu => by simpa using hzero hu
    rw [numeralFrom] at h
    split at h
    · next d hd =>
      split_ifs at h with hlt
      obtain ⟨hdigit, rfl⟩ := isDigit_of_digitOf hd hlt
      have hle : u * 10 + (c - '0'.toNat) ≤ v := le_numeralFrom (by norm_num) h
      rw [List.cons_append, ipv4Piece, if_pos hdigit]
      dsimp only
      rw [if_neg hu, if_neg (by omega)]
      exact ih h fun hz => absurd hz (by omega)
    · cases h

theorem ipv4Piece_octet {v : ℕ} {cs rest : List ℕ} (h : Octet cs v)
    (hrest : ∀ c ∈ rest.head?, ¬ isDigit c) :
    ipv4Piece none (cs ++ rest) = some (some v, rest) := by
  obtain ⟨hnil, hzeros, hvalue, hlt⟩ := h
  cases cs with
  | nil => exact absurd rfl hnil
  | cons c cs =>
    rw [numeral, numeralFrom] at hvalue
    split at hvalue
    · next d hd =>
      split_ifs at hvalue with hd10
      obtain ⟨hdigit, rfl⟩ := isDigit_of_digitOf hd hd10
      rw [Nat.zero_mul, Nat.zero_add] at hvalue
      rw [List.cons_append, ipv4Piece, if_pos hdigit]
      refine ipv4Piece_digits hvalue hlt (fun hz => ?_) hrest
      have hc : c = '0'.toNat := by
        have hdigit' : '0'.toNat ≤ c ∧ c ≤ '9'.toNat := hdigit
        omega
      have hone := hzeros (by rw [hc]; rfl)
      simpa using hone
    · cases hvalue

theorem digits_of_ipv4Piece {u : ℕ} {text rest : List ℕ} {r : Option ℕ}
    (h : ipv4Piece (some u) text = some (r, rest)) (hu : u < 256) :
    ∃ cs v, r = some v ∧ text = cs ++ rest ∧ numeralFrom 10 u cs = some v ∧ v < 256 ∧
      (u = 0 → cs = []) ∧ ∀ c ∈ rest.head?, ¬ isDigit c := by
  induction text generalizing u with
  | nil =>
    obtain ⟨rfl, rfl⟩ : some u = r ∧ [] = rest := by simpa [ipv4Piece] using h
    exact ⟨[], u, rfl, rfl, rfl, hu, fun _ => rfl, by simp⟩
  | cons c text ih =>
    rw [ipv4Piece] at h
    split_ifs at h with hdigit
    · dsimp only at h
      split_ifs at h with hzero hlarge
      obtain ⟨hd, hlt⟩ := digitOf_eq_of_isDigit hdigit
      obtain ⟨cs, v, hr, htext, hvalue, hv, -, hrest⟩ := ih h (by omega)
      refine ⟨c :: cs, v, hr, by rw [htext]; rfl, ?_, hv, fun hz => absurd hz hzero, hrest⟩
      rw [numeralFrom, hd]
      simp only [hlt, if_true]
      exact hvalue
    · obtain ⟨rfl, rfl⟩ : some u = r ∧ c :: text = rest := by simpa using h
      refine ⟨[], u, rfl, rfl, rfl, hu, fun _ => rfl, ?_⟩
      simpa using hdigit

theorem octet_of_ipv4Piece {text rest : List ℕ} {v : ℕ}
    (h : ipv4Piece none text = some (some v, rest)) :
    ∃ cs, text = cs ++ rest ∧ Octet cs v := by
  cases text with
  | nil => simp [ipv4Piece] at h
  | cons c text =>
    rw [ipv4Piece] at h
    split_ifs at h with hdigit
    · obtain ⟨hd, hlt⟩ := digitOf_eq_of_isDigit hdigit
      obtain ⟨cs, w, hr, htext, hvalue, hv, hzero, -⟩ := digits_of_ipv4Piece h (by omega)
      obtain rfl : v = w := Option.some.inj hr
      refine ⟨c :: cs, by rw [htext]; rfl, by simp, fun hc => ?_, ?_, hv⟩
      · have hc' : c = '0'.toNat := by simpa using hc
        rw [hzero (by omega)]
        rfl
      · rw [numeral, numeralFrom, hd]
        simp only [hlt, if_true, Nat.zero_mul, Nat.zero_add]
        exact hvalue
    · simp at h

/-- The dot before every byte but the first. -/
def dotBefore (left : ℕ) : List ℕ := if left = 3 then [] else ['.'.toNat]

theorem not_isDigit_dot : ¬ isDigit '.'.toNat := by decide

theorem skipDot_eq_some_iff {left : ℕ} {text rest : List ℕ} :
    skipDot left text = some rest ↔ text = dotBefore left ++ rest ∧ text ≠ [] := by
  unfold dotBefore
  cases text with
  | nil => simp [skipDot]
  | cons c text =>
    rw [skipDot]
    split_ifs with hleft hdot
    · simp [eq_comm]
    · simp [hdot]
    · simp only [List.singleton_append, List.cons.injEq, hdot, false_and]

theorem embeddedIpv4_octet (left : ℕ) (s : Ipv6) {cs rest : List ℕ} {v : ℕ} (h : Octet cs v)
    (hrest : ∀ c ∈ rest.head?, ¬ isDigit c) :
    embeddedIpv4 (left + 1) s (dotBefore left ++ (cs ++ rest)) =
      embeddedIpv4 left (s.byteRead left v) rest := by
  have hnil : dotBefore left ++ (cs ++ rest) ≠ [] := by simp [h.ne_nil]
  have hskip := skipDot_eq_some_iff.mpr ⟨rfl, hnil⟩
  rw [embeddedIpv4, hskip, Option.bind_eq_bind, Option.bind_some, ipv4Piece_octet h hrest]

theorem octet_of_embeddedIpv4 {left : ℕ} {s out : Ipv6} {text : List ℕ}
    (h : embeddedIpv4 (left + 1) s text = some out) :
    ∃ cs v rest, text = dotBefore left ++ (cs ++ rest) ∧ Octet cs v ∧
      embeddedIpv4 left (s.byteRead left v) rest = some out := by
  rw [embeddedIpv4, Option.bind_eq_bind, Option.bind_eq_some_iff] at h
  obtain ⟨tail, hskip, h⟩ := h
  obtain ⟨htext, -⟩ := skipDot_eq_some_iff.mp hskip
  split at h
  · next v rest hpiece =>
    obtain ⟨cs, hcs, hoctet⟩ := octet_of_ipv4Piece hpiece
    exact ⟨cs, v, rest, by rw [htext, hcs], hoctet, h⟩
  · cases h

theorem byteRead_reading (hpre : pre.length ≤ 6) {a b c d : ℕ} (ha : a < 256) (hb : b < 256)
    (hc : c < 256) (hd : d < 256) :
    ((((reading pre compress).byteRead 3 a).byteRead 2 b).byteRead 1 c).byteRead 0 d =
      reading (pre ++ [a * 256 + b, c * 256 + d]) compress := by
  have hone : (pre ++ [a * 256 + b]).length < 8 := by simp; omega
  change (((((reading pre compress).appendByte a).appendByte b).next.appendByte c).appendByte
    d).next = _
  rw [appendByte_reading (by omega) ha, next_appendByte_readingHalf ha hb,
    appendByte_reading hone hc, next_appendByte_readingHalf hc hd, List.append_assoc]
  rfl

theorem embeddedIpv4_quad (compress : Option ℕ) (hpre : pre.length ≤ 6) {a b c d : List ℕ} {s t u v : ℕ}
    (ha : Octet a s) (hb : Octet b t) (hc : Octet c u) (hd : Octet d v) :
    embeddedIpv4 4 (reading pre compress)
        (a ++ '.'.toNat :: (b ++ '.'.toNat :: (c ++ '.'.toNat :: d))) =
      some (reading (pre ++ [s * 256 + t, u * 256 + v]) compress) := by
  have hdot : ∀ rest : List ℕ, ∀ c ∈ (dotBefore 0 ++ rest).head?, ¬ isDigit c := by
    rintro rest c ⟨⟩
    exact not_isDigit_dot
  have hend : ∀ c ∈ ([] : List ℕ).head?, ¬ isDigit c := by simp
  have hd' := embeddedIpv4_octet 0
    ((((reading pre compress).byteRead 3 s).byteRead 2 t).byteRead 1 u) hd hend
  have hc' := (embeddedIpv4_octet 1 _ hc (hdot (d ++ []))).trans hd'
  have hb' := (embeddedIpv4_octet 2 _ hb (hdot _)).trans hc'
  have ha' := (embeddedIpv4_octet 3 _ ha (hdot _)).trans hb'
  rw [byteRead_reading hpre ha.lt hb.lt hc.lt hd.lt] at ha'
  simpa [dotBefore, embeddedIpv4] using ha'

theorem quad_of_embeddedIpv4 (hpre : pre.length ≤ 6) {text : List ℕ} {out : Ipv6}
    (h : embeddedIpv4 4 (reading pre compress) text = some out) :
    ∃ vs, Ipv6Groups text vs ∧ vs.length = 2 ∧ out = reading (pre ++ vs) compress := by
  obtain ⟨a, s, _, rfl, ha, h⟩ := octet_of_embeddedIpv4 h
  obtain ⟨b, t, _, rfl, hb, h⟩ := octet_of_embeddedIpv4 h
  obtain ⟨c, u, _, rfl, hc, h⟩ := octet_of_embeddedIpv4 h
  obtain ⟨d, v, rest, rfl, hd, h⟩ := octet_of_embeddedIpv4 h
  cases rest with
  | nil =>
    rw [embeddedIpv4, byteRead_reading hpre ha.lt hb.lt hc.lt hd.lt, Option.some.injEq] at h
    refine ⟨_, ?_, rfl, h.symm⟩
    simpa [dotBefore] using Ipv6Groups.quad ha hb hc hd
  | cons x rest => cases h

/-! ## Pieces -/

theorem isSome_digitOf_of_group {cs : List ℕ} {v : ℕ} (h : Ipv6Group cs v) :
    ∀ c ∈ cs, (digitOf c).isSome := by
  intro c hc
  obtain ⟨d, hd, -⟩ := digitOf_isSome_of_numeralFrom h.value c hc
  rw [hd]
  rfl

theorem exists_cons_of_group {cs : List ℕ} {v : ℕ} (h : Ipv6Group cs v) :
    ∃ c rest, cs = c :: rest ∧ c ≠ ':'.toNat := by
  obtain ⟨c, rest, rfl⟩ := List.exists_cons_of_length_pos h.length_pos
  refine ⟨c, rest, rfl, ?_⟩
  rintro rfl
  have hsome := isSome_digitOf_of_group h _ (List.mem_cons_self ..)
  rw [digitOf_separator.1] at hsome
  cases hsome

theorem ipv6Pieces_group {cs : List ℕ} {v : ℕ} (h : Ipv6Group cs v) (hpre : pre.length < 8)
    {after : List ℕ} (hafter : after ≠ []) (limit : ℕ) :
    ipv6Pieces (limit + 1) (reading pre compress) (cs ++ ':'.toNat :: after) =
      ipv6Pieces limit (reading (pre ++ [v]) compress) after := by
  have hdigits : hexDigits (cs ++ ':'.toNat :: after) = cs := by
    refine hexDigits_append (isSome_digitOf_of_group h) h.length_le ?_
    rintro c ⟨⟩
    exact digitOf_separator.1
  have hnumber : hexNumber cs = v := hexNumber_eq h.value
  obtain ⟨c, rest, rfl, hc⟩ := exists_cons_of_group h
  rw [List.cons_append] at hdigits ⊢
  have hpiece : (reading pre compress).piece ≠ 8 := hpre.ne
  rw [ipv6Pieces, if_neg hpiece, if_neg hc]
  dsimp only
  rw [hdigits, hnumber, ← List.cons_append, List.drop_left, store_reading hpre]
  dsimp only
  rw [if_neg (by decide), if_pos rfl, if_neg hafter]

theorem ipv6Pieces_last {cs : List ℕ} {v : ℕ} (h : Ipv6Group cs v) (hpre : pre.length < 8)
    (limit : ℕ) :
    ipv6Pieces (limit + 1) (reading pre compress) cs = some (reading (pre ++ [v]) compress) := by
  have hdigits : hexDigits cs = cs := by
    have happend : hexDigits (cs ++ []) = cs :=
      hexDigits_append (isSome_digitOf_of_group h) h.length_le (by simp)
    rwa [List.append_nil] at happend
  have hnumber : hexNumber cs = v := hexNumber_eq h.value
  obtain ⟨c, rest, rfl, hc⟩ := exists_cons_of_group h
  have hpiece : (reading pre compress).piece ≠ 8 := hpre.ne
  rw [ipv6Pieces, if_neg hpiece, if_neg hc]
  dsimp only
  rw [hdigits, hnumber, List.drop_length, store_reading hpre]
  cases limit <;> rfl

/-- An embedded address at the end is stored. -/
theorem ipv6Pieces_quad (hpre : pre.length ≤ 6) {a b c d : List ℕ} {s t u v : ℕ}
    (ha : Octet a s) (hb : Octet b t) (hc : Octet c u) (hd : Octet d v) (limit : ℕ) :
    ipv6Pieces (limit + 1) (reading pre compress)
        (a ++ '.'.toNat :: (b ++ '.'.toNat :: (c ++ '.'.toNat :: d))) =
      some (reading (pre ++ [s * 256 + t, u * 256 + v]) compress) := by
  have hquad := embeddedIpv4_quad compress hpre ha hb hc hd
  have hlength : a.length ≤ 4 := ha.length_le.trans (by norm_num)
  have hdigits (after : List ℕ) : hexDigits (a ++ '.'.toNat :: after) = a := by
    refine hexDigits_append (fun c hc => ?_) hlength ?_
    · obtain ⟨d, hd, -⟩ := digitOf_isSome_of_numeralFrom ha.value c hc
      rw [hd]
      rfl
    · rintro c ⟨⟩
      exact digitOf_separator.2
  generalize b ++ '.'.toNat :: (c ++ '.'.toNat :: d) = after at hquad ⊢
  obtain ⟨x, rest, rfl⟩ := List.exists_cons_of_ne_nil ha.ne_nil
  have hx : x ≠ ':'.toNat := by
    rintro rfl
    obtain ⟨d, hd, -⟩ := digitOf_isSome_of_numeralFrom ha.value _ (List.mem_cons_self ..)
    rw [digitOf_separator.1] at hd
    cases hd
  have hpiece : (reading pre compress).piece ≠ 8 := (by omega : pre.length ≠ 8)
  have hsix : ¬ 6 < (reading pre compress).piece := not_lt.mpr hpre
  have hdigits' := hdigits after
  rw [List.cons_append] at hdigits' hquad ⊢
  rw [ipv6Pieces, if_neg hpiece, if_neg hx]
  dsimp only
  rw [hdigits', ← List.cons_append, List.drop_left]
  dsimp only
  rw [if_pos rfl, if_neg (by simp), if_neg hsix]
  exact hquad

theorem ipv6Pieces_groups {cs vs : List ℕ} (h : Ipv6Groups cs vs) {limit : ℕ}
    (hlimit : cs.length ≤ limit) (hlength : pre.length + vs.length ≤ 8) :
    ipv6Pieces limit (reading pre compress) cs = some (reading (pre ++ vs) compress) := by
  induction h generalizing pre limit with
  | @one cs v h =>
    have hpos := h.length_pos
    obtain ⟨limit, rfl⟩ := Nat.exists_eq_add_of_le' (hpos.trans_le hlimit)
    exact ipv6Pieces_last h (by simpa using hlength) limit
  | quad ha hb hc hd =>
    obtain ⟨limit, rfl⟩ := Nat.exists_eq_add_of_le' (m := 1) (n := limit) (by simp at hlimit; omega)
    exact ipv6Pieces_quad (by simpa using hlength) ha hb hc hd limit
  | @cons cs rest v vs h hrest ih =>
    have hpos := h.length_pos
    simp only [List.length_append, List.length_cons] at hlimit hlength
    obtain ⟨limit, rfl⟩ := Nat.exists_eq_add_of_le' (m := 1) (n := limit) (by omega)
    rw [ipv6Pieces_group h (by omega) hrest.ne_nil, ih (by omega) (by simp; omega), List.append_assoc]
    rfl

/-- Groups before a double colon are stored, and the double colon leaves a piece out. -/
theorem ipv6Pieces_gap {l vl : List ℕ} (h : HexGroups l vl) {r : List ℕ} {limit : ℕ}
    (hlimit : l.length + 2 + r.length ≤ limit) (hlength : pre.length + vl.length ≤ 7) :
    ∃ limit', r.length ≤ limit' ∧
      ipv6Pieces limit (reading pre none) (l ++ ':'.toNat :: ':'.toNat :: r) =
        ipv6Pieces limit' (reading (pre ++ vl ++ [0]) (some (pre.length + vl.length + 1))) r := by
  induction h generalizing pre limit with
  | @one cs v h =>
    have hpos := h.length_pos
    rw [List.length_singleton] at hlength
    obtain ⟨limit, rfl⟩ := Nat.exists_eq_add_of_le' (m := 2) (n := limit) (by omega)
    refine ⟨limit, by omega, ?_⟩
    have hone : (pre ++ [v]).length < 8 := by
      rw [List.length_append, List.length_singleton]
      omega
    have hpiece : (reading (pre ++ [v]) none).piece ≠ 8 := hone.ne
    rw [ipv6Pieces_group h (by omega) (by simp), ipv6Pieces, if_neg hpiece, if_pos rfl,
      if_neg (by simp [reading]), compressHere_reading hone, List.length_append]
  | @cons cs rest v vs h hrest ih =>
    have hpos := h.length_pos
    simp only [List.length_append, List.length_cons] at hlimit hlength
    obtain ⟨limit, rfl⟩ := Nat.exists_eq_add_of_le' (m := 1) (n := limit) (by omega)
    have hlength' : (pre ++ [v]).length + vs.length ≤ 7 := by
      rw [List.length_append, List.length_singleton]
      omega
    obtain ⟨limit', hle, hrest⟩ := ih (show rest.length + 2 + r.length ≤ limit by omega) hlength'
    refine ⟨limit', hle, ?_⟩
    have hcount : (pre ++ [v]).length + vs.length + 1 = pre.length + (v :: vs).length + 1 := by
      simp only [List.length_append, List.length_cons, List.length_nil]
      omega
    rw [List.append_assoc, List.cons_append, ipv6Pieces_group h (by omega) (by simp), hrest, hcount,
      List.append_assoc pre, List.singleton_append]

/-! ## The pieces after the gap -/

theorem swap_eq (p q r : List ℕ) (x y : ℕ) :
    (((p ++ x :: (q ++ y :: r)).set (p.length + 1 + q.length)
        ((p ++ x :: (q ++ y :: r)).getD p.length 0)).set p.length
      ((p ++ x :: (q ++ y :: r)).getD (p.length + 1 + q.length) 0)) =
      p ++ y :: (q ++ x :: r) := by
  have hlow : (p ++ x :: (q ++ y :: r)).getD p.length 0 = x := by
    rw [List.getD_eq_getElem?_getD, List.getElem?_append_right le_rfl, Nat.sub_self]
    rfl
  have hhigh : (p ++ x :: (q ++ y :: r)).getD (p.length + 1 + q.length) 0 = y := by
    have hindex : p.length + 1 + q.length - p.length = q.length + 1 := by omega
    rw [List.getD_eq_getElem?_getD, List.getElem?_append_right (by omega), hindex,
      List.getElem?_cons_succ, List.getElem?_append_right le_rfl, Nat.sub_self]
    rfl
  have hset : (p ++ x :: (q ++ y :: r)).set (p.length + 1 + q.length) x =
      p ++ x :: (q ++ x :: r) := by
    have hindex : p.length + 1 + q.length - p.length = q.length + 1 := by omega
    rw [List.set_append_right _ _ (by omega), hindex, List.set_cons_succ,
      List.set_append_right _ _ le_rfl, Nat.sub_self, List.set_cons_zero]
  rw [hlow, hhigh, hset, List.set_append_right _ _ le_rfl, Nat.sub_self, List.set_cons_zero]

theorem set_set_getD (l : List ℕ) {i : ℕ} (hi : i < l.length) :
    (l.set i (l.getD i 0)).set i (l.getD i 0) = l := by
  have hget : l.getD i 0 = l[i] := by
    rw [List.getD_eq_getElem?_getD, List.getElem?_eq_getElem hi]
    rfl
  rw [List.set_set, hget, List.set_getElem_self]

/-- The pieces after the gap move to the end. -/
theorem swapTail_eq (a b d : List ℕ) (z piece : ℕ)
    (hpiece : a.length + b.length + z = piece + 1) :
    swapTail a.length b.length piece (a ++ b ++ List.replicate z 0 ++ d) =
      a ++ List.replicate z 0 ++ b ++ d := by
  induction b using List.reverseRecOn generalizing d piece with
  | nil =>
    rw [List.length_nil, List.append_nil, List.append_nil]
    cases piece <;> rfl
  | append_singleton b x ih =>
    rw [List.length_append, List.length_singleton] at hpiece ⊢
    cases piece with
    | zero =>
      obtain rfl : a = [] := List.eq_nil_of_length_eq_zero (by omega)
      obtain rfl : b = [] := List.eq_nil_of_length_eq_zero (by omega)
      obtain rfl : z = 0 := by omega
      rfl
    | succ piece =>
      have hnext := ih (x :: d) piece (by omega)
      rw [swapTail]
      cases z with
      | zero =>
        have hsame : piece + 1 = a.length + b.length := by omega
        rw [hsame, set_set_getD]
        · simpa using hnext
        · simp
      | succ z =>
        have hlist : a ++ (b ++ [x]) ++ List.replicate (z + 1) 0 ++ d =
            (a ++ b) ++ x :: (List.replicate z 0 ++ 0 :: d) := by
          simp [List.replicate_succ']
        have hlow : a.length + b.length = (a ++ b).length := List.length_append.symm
        have hhigh : piece + 1 = (a ++ b).length + 1 + (List.replicate z 0).length := by
          rw [List.length_append, List.length_replicate]
          omega
        have hswapped : (a ++ b) ++ 0 :: (List.replicate z 0 ++ x :: d) =
            a ++ b ++ List.replicate (z + 1) 0 ++ x :: d := by
          simp [List.replicate_succ]
        rw [hlist, hhigh, hlow, swap_eq, hswapped, hnext]
        simp

/-! ## Addresses -/

theorem address_gap {vl vr : List ℕ} (hlength : vl.length + vr.length ≤ 7) :
    swapTail (vl.length + 1) ((vl ++ [0] ++ vr).length - (vl.length + 1)) 7
        (reading (vl ++ [0] ++ vr) (some (vl.length + 1))).address =
      vl ++ List.replicate (8 - vl.length - vr.length) 0 ++ vr := by
  have hswaps : (vl ++ [0] ++ vr).length - (vl.length + 1) = vr.length := by
    simp only [List.length_append, List.length_singleton]
    omega
  have hcount : 8 - (vl ++ [0] ++ vr).length = 7 - vl.length - vr.length := by
    simp only [List.length_append, List.length_singleton]
    omega
  have htail := swapTail_eq (vl ++ [0]) vr [] (7 - vl.length - vr.length) 7
    (by simp only [List.length_append, List.length_singleton]; omega)
  rw [List.length_append, List.length_singleton, List.append_nil, List.append_nil] at htail
  have hzeros : 8 - vl.length - vr.length = (7 - vl.length - vr.length) + 1 := by omega
  rw [reading, hswaps]
  dsimp only
  rw [hcount, htail, hzeros, List.replicate_succ]
  simp

theorem ipv6Finish_full {vs out : List ℕ} :
    ipv6Finish (reading vs none) = some out ↔ vs.length = 8 ∧ vs = out := by
  rw [ipv6Finish, reading]
  dsimp only
  split_ifs with hlength
  · simp [hlength]
  · simp [hlength]

theorem exists_cons_of_groups {cs vs : List ℕ} (h : Ipv6Groups cs vs) :
    ∃ c rest, cs = c :: rest ∧ c ≠ ':'.toNat := by
  cases h with
  | one h => exact exists_cons_of_group h
  | @quad a b c d s t u v ha hb hc hd =>
    obtain ⟨x, a, rfl⟩ := List.exists_cons_of_ne_nil ha.ne_nil
    refine ⟨x, _, rfl, ?_⟩
    rintro rfl
    obtain ⟨d, hd, -⟩ := digitOf_isSome_of_numeralFrom ha.value _ (List.mem_cons_self ..)
    rw [digitOf_separator.1] at hd
    cases hd
  | cons h _ =>
    obtain ⟨c, rest, rfl, hc⟩ := exists_cons_of_group h
    exact ⟨c, _, rfl, hc⟩

theorem ipv6Pieces_after {r vr : List ℕ} (hr : r = [] ∧ vr = [] ∨ Ipv6Groups r vr) {limit : ℕ}
    (hlimit : r.length ≤ limit) (hlength : pre.length + vr.length ≤ 8) :
    ipv6Pieces limit (reading pre compress) r = some (reading (pre ++ vr) compress) := by
  rcases hr with ⟨rfl, rfl⟩ | hr
  · rw [List.append_nil]
    cases limit <;> rfl
  · exact ipv6Pieces_groups hr hlimit hlength

/-- Texts that denote an address are read. -/
theorem ipv6Address_of_text {cs vs : List ℕ} (h : Ipv6Text cs vs) :
    ipv6Address cs = some vs := by
  have hstart : ({} : Ipv6) = reading [] none := rfl
  cases h with
  | full h hlength =>
    have hread : ipv6Pieces cs.length (reading [] none) cs = some (reading ([] ++ vs) none) :=
      ipv6Pieces_groups h le_rfl (by simp [hlength])
    obtain ⟨c, rest, rfl, hc⟩ := exists_cons_of_groups h
    rw [ipv6Address, ipv6Read, if_neg hc, hstart, hread]
    exact ipv6Finish_full.mpr ⟨hlength, rfl⟩
  | @gap l r vl vr hl hr hlength =>
    have hafter : ∀ limit, r.length ≤ limit →
        ipv6Pieces limit (reading (vl ++ [0]) (some (vl.length + 1))) r =
          some (reading (vl ++ [0] ++ vr) (some (vl.length + 1))) := fun limit hlimit =>
      ipv6Pieces_after hr hlimit (by simp only [List.length_append, List.length_singleton]; omega)
    have hfinish : ipv6Finish (reading (vl ++ [0] ++ vr) (some (vl.length + 1))) =
        some (vl ++ List.replicate (8 - vl.length - vr.length) 0 ++ vr) :=
      congrArg some (address_gap hlength)
    rcases hl with ⟨rfl, rfl⟩ | hl
    · have hzero : (reading [] none).compressHere = reading ([] ++ [0]) (some ([].length + 1)) :=
        compressHere_reading (by simp)
      rw [List.nil_append, ipv6Address, ipv6Read, if_pos rfl, if_pos List.head?_cons, hstart,
        hzero, List.drop_one, List.tail_cons, hafter _ (by simp)]
      exact hfinish
    · obtain ⟨c, rest, rfl, hc⟩ := exists_cons_of_groups hl.groups
      have hall : (c :: rest).length + 2 + r.length ≤
          (c :: rest ++ ':'.toNat :: ':'.toNat :: r).length := by
        simp only [List.length_append, List.length_cons]
        omega
      have hnone : ([] : List ℕ).length + vl.length ≤ 7 := by
        rw [List.length_nil]
        omega
      obtain ⟨limit, hlimit, hread⟩ := ipv6Pieces_gap hl hall hnone
      rw [List.nil_append, List.length_nil, Nat.zero_add, hafter limit hlimit] at hread
      rw [ipv6Address, List.cons_append, ipv6Read, if_neg hc, hstart, ← List.cons_append, hread]
      exact hfinish

/-- What a loop over pieces does at a character that is no colon: it stores the last group or an
embedded address, or a group before a colon. -/
theorem step_of_ipv6Pieces {limit x : ℕ} {rest : List ℕ} {out : Ipv6} (hx : x ≠ ':'.toNat)
    (hpre : pre.length ≤ 8)
    (h : ipv6Pieces (limit + 1) (reading pre compress) (x :: rest) = some out) :
    (∃ vs, Ipv6Groups (x :: rest) vs ∧ pre.length + vs.length ≤ 8 ∧
      out = reading (pre ++ vs) compress) ∨
    ∃ cs v after, Ipv6Group cs v ∧ x :: rest = cs ++ ':'.toNat :: after ∧ after ≠ [] ∧
      pre.length < 8 ∧ ipv6Pieces limit (reading (pre ++ [v]) compress) after = some out := by
  have hfull : (reading pre compress).piece ≠ 8 := by
    intro hfull
    rw [ipv6Pieces, if_pos hfull] at h
    cases h
  have hlt : pre.length < 8 := lt_of_le_of_ne hpre hfull
  rw [ipv6Pieces, if_neg hfull, if_neg hx] at h
  have hsplit := hexDigits_append_drop (x :: rest)
  have hgroup := group_of_hexDigits (x :: rest)
  dsimp only at h
  rw [store_reading hlt] at h
  generalize hexDigits (x :: rest) = digits at h hsplit hgroup
  split at h
  · next hdrop =>
    rw [hdrop, List.append_nil] at hsplit
    subst hsplit
    have hout : ipv6Pieces limit (reading (pre ++ [hexNumber (x :: rest)]) compress) [] =
        some (reading (pre ++ [hexNumber (x :: rest)]) compress) := by
      cases limit <;> rfl
    rw [hout, Option.some.injEq] at h
    exact .inl ⟨_, .one (hgroup (by simp)), by simpa using hlt, h.symm⟩
  · next d after hdrop =>
    rw [hdrop] at hsplit
    split_ifs at h with hdot hnil hsix hcolon hafter
    · obtain ⟨vs, hgroups, htwo, hout⟩ := quad_of_embeddedIpv4 (not_lt.mp hsix) h
      have hsix' : pre.length ≤ 6 := not_lt.mp hsix
      exact .inl ⟨vs, hgroups, by omega, hout⟩
    · have hdigits : digits ≠ [] := by
        rintro rfl
        rw [List.nil_append] at hsplit
        exact hx ((List.cons.inj hsplit).1 ▸ hcolon)
      refine .inr ⟨digits, _, after, hgroup hdigits, ?_, hafter, hlt, h⟩
      rw [← hsplit, hcolon]

/-- What the pieces after a gap were read from. -/
theorem groups_of_ipv6Pieces_gap {limit k : ℕ} {text : List ℕ} {out : Ipv6}
    (hpre : pre.length ≤ 8) (h : ipv6Pieces limit (reading pre (some k)) text = some out) :
    ∃ vs, (text = [] ∧ vs = [] ∨ Ipv6Groups text vs) ∧ pre.length + vs.length ≤ 8 ∧
      out = reading (pre ++ vs) (some k) := by
  induction limit generalizing pre text with
  | zero =>
    cases text with
    | nil =>
      rw [ipv6Pieces, Option.some.injEq] at h
      exact ⟨[], .inl ⟨rfl, rfl⟩, by simpa using hpre, by rw [List.append_nil, h]⟩
    | cons x rest => cases h
  | succ limit ih =>
    cases text with
    | nil =>
      rw [ipv6Pieces, Option.some.injEq] at h
      exact ⟨[], .inl ⟨rfl, rfl⟩, by simpa using hpre, by rw [List.append_nil, h]⟩
    | cons x rest =>
      by_cases hx : x = ':'.toNat
      · rw [ipv6Pieces, if_pos hx] at h
        split_ifs at h with hfull hgap
        exact absurd rfl hgap
      · rcases step_of_ipv6Pieces hx hpre h with ⟨vs, hvs⟩ | ⟨cs, v, after, hgroup, htext, hafter,
          hlt, hrest⟩
        · exact ⟨vs, .inr hvs.1, hvs.2⟩
        · obtain ⟨vs, hvs, hlength, hout⟩ := ih (by simpa using hlt) hrest
          have hgroups := hvs.resolve_left fun hnil => hafter hnil.1
          rw [List.length_append, List.length_singleton] at hlength
          refine ⟨v :: vs, .inr ?_, by rw [List.length_cons]; omega, ?_⟩
          · rw [htext]
            exact .cons hgroup hgroups
          · rw [hout, List.append_assoc]
            rfl

/-- Where a gap may stand: at a colon that follows the colon of a group, or a first colon that
was skipped. -/
def GapAt (text l vl r : List ℕ) : Prop :=
  l = [] ∧ vl = [] ∧ text = ':'.toNat :: r ∨
    HexGroups l vl ∧ text = l ++ ':'.toNat :: ':'.toNat :: r

/-- What pieces without a gap yet were read from. -/
theorem text_of_ipv6Pieces {limit : ℕ} {text : List ℕ} {out : Ipv6} (hpre : pre.length ≤ 8)
    (h : ipv6Pieces limit (reading pre none) text = some out) :
    (∃ vs, (text = [] ∧ vs = [] ∨ Ipv6Groups text vs) ∧ pre.length + vs.length ≤ 8 ∧
      out = reading (pre ++ vs) none) ∨
    ∃ l vl r vr, GapAt text l vl r ∧ (r = [] ∧ vr = [] ∨ Ipv6Groups r vr) ∧
      pre.length + vl.length + vr.length ≤ 7 ∧
      out = reading (pre ++ vl ++ [0] ++ vr) (some (pre.length + vl.length + 1)) := by
  induction limit generalizing pre text with
  | zero =>
    cases text with
    | nil =>
      rw [ipv6Pieces, Option.some.injEq] at h
      exact .inl ⟨[], .inl ⟨rfl, rfl⟩, by simpa using hpre, by rw [List.append_nil, h]⟩
    | cons x rest => cases h
  | succ limit ih =>
    cases text with
    | nil =>
      rw [ipv6Pieces, Option.some.injEq] at h
      exact .inl ⟨[], .inl ⟨rfl, rfl⟩, by simpa using hpre, by rw [List.append_nil, h]⟩
    | cons x rest =>
      by_cases hx : x = ':'.toNat
      · have hfull : (reading pre none).piece ≠ 8 := by
          intro hfull
          rw [ipv6Pieces, if_pos hfull] at h
          cases h
        have hlt : pre.length < 8 := lt_of_le_of_ne hpre hfull
        rw [ipv6Pieces, if_neg hfull, if_pos hx, if_neg (by simp [reading]),
          compressHere_reading hlt] at h
        obtain ⟨vr, hvr, hlength, hout⟩ := groups_of_ipv6Pieces_gap (by simpa using hlt) h
        rw [List.length_append, List.length_singleton] at hlength
        refine .inr ⟨[], [], rest, vr, .inl ⟨rfl, rfl, by rw [hx]⟩, hvr, ?_, ?_⟩
        · rw [List.length_nil]
          omega
        · rw [hout, List.append_nil]
          rfl
      · rcases step_of_ipv6Pieces hx hpre h with ⟨vs, hvs⟩ | ⟨cs, v, after, hgroup, htext, hafter,
          hlt, hrest⟩
        · exact .inl ⟨vs, .inr hvs.1, hvs.2⟩
        · rcases ih (by simpa using hlt) hrest with ⟨vs, hvs, hlength, hout⟩ |
            ⟨l, vl, r, vr, hgap, hvr, hlength, hout⟩
          · have hgroups := hvs.resolve_left fun hnil => hafter hnil.1
            rw [List.length_append, List.length_singleton] at hlength
            refine .inl ⟨v :: vs, .inr ?_, by rw [List.length_cons]; omega, ?_⟩
            · rw [htext]
              exact .cons hgroup hgroups
            · rw [hout, List.append_assoc]
              rfl
          · rw [List.length_append, List.length_singleton] at hlength hout
            have hcount : pre.length + 1 + vl.length + 1 = pre.length + (v :: vl).length + 1 := by
              rw [List.length_cons]
              omega
            have hlength' : pre.length + (v :: vl).length + vr.length ≤ 7 := by
              rw [List.length_cons]
              omega
            rw [hcount, List.append_assoc pre, List.singleton_append] at hout
            rcases hgap with ⟨rfl, rfl, hr⟩ | ⟨hl, hr⟩
            · exact .inr ⟨cs, [v], r, vr, .inr ⟨.one hgroup, by rw [htext, hr]⟩, hvr, hlength', hout⟩
            · refine .inr ⟨cs ++ ':'.toNat :: l, v :: vl, r, vr, .inr ⟨.cons hgroup hl, ?_⟩, hvr,
                hlength', hout⟩
              rw [htext, hr, List.append_assoc, List.cons_append]

/-- The IPv6 parser accepts exactly the texts that denote an address, and reads its groups. -/
theorem ipv6Address_eq_some_iff {cs vs : List ℕ} :
    ipv6Address cs = some vs ↔ Ipv6Text cs vs := by
  refine ⟨fun h => ?_, ipv6Address_of_text⟩
  have hstart : ({} : Ipv6) = reading [] none := rfl
  obtain ⟨s, hread, hfinish⟩ := Option.bind_eq_some_iff.mp h
  have hgap (vl vr : List ℕ) (hlength : vl.length + vr.length ≤ 7)
      (hs : s = reading (vl ++ [0] ++ vr) (some (vl.length + 1))) :
      vs = vl ++ List.replicate (8 - vl.length - vr.length) 0 ++ vr := by
    have haddress : ipv6Finish s =
        some (vl ++ List.replicate (8 - vl.length - vr.length) 0 ++ vr) := by
      rw [hs]
      exact congrArg some (address_gap hlength)
    exact Option.some.inj (hfinish.symm.trans haddress)
  unfold ipv6Read at hread
  split at hread
  · rw [← Option.some.inj hread, hstart] at hfinish
    exact absurd (ipv6Finish_full.mp hfinish).1 (by simp)
  · next c rest =>
    split_ifs at hread with hc hcolon
    · obtain ⟨r, rfl⟩ : ∃ r, rest = ':'.toNat :: r := by
        cases rest with
        | nil => cases hcolon
        | cons d r => exact ⟨r, by rw [Option.some.inj hcolon]⟩
      rw [hstart, compressHere_reading (by simp), List.drop_one, List.tail_cons] at hread
      obtain ⟨vr, hvr, hlength, hs⟩ := groups_of_ipv6Pieces_gap (by simp) hread
      have hlength' : vr.length ≤ 7 := by
        simp only [List.nil_append, List.length_singleton] at hlength
        omega
      rw [hc, hgap [] vr (by simpa using hlength') hs]
      exact .gap (.inl ⟨rfl, rfl⟩) hvr (by simpa using hlength')
    · rw [hstart] at hread
      rcases text_of_ipv6Pieces (by simp) hread with ⟨ws, hws, hlength, hs⟩ |
        ⟨l, vl, r, vr, hgapAt, hvr, hlength, hs⟩
      · have hgroups := hws.resolve_left fun hnil => List.cons_ne_nil _ _ hnil.1
        rw [hs, List.nil_append] at hfinish
        obtain ⟨height, rfl⟩ := ipv6Finish_full.mp hfinish
        exact .full hgroups height
      · rw [List.length_nil, Nat.zero_add] at hlength hs
        rw [hgap vl vr hlength hs]
        rcases hgapAt with ⟨-, -, hr⟩ | ⟨hl, hr⟩
        · exact absurd (List.cons.inj hr).1 hc
        · rw [hr]
          exact .gap (.inr hl) hvr hlength

end CtBrowser.Shell.Url
