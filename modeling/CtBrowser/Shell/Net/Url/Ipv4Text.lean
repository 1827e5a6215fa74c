import CtBrowser.Foundations.AddressText
import CtBrowser.Shell.Net.Url.Host

/-!
# IPv4 Hosts

The IPv4 parser of URLs accepts exactly the texts that denote an IPv4 address, and the host it
returns is the address in dotted decimal.

## Main results

- `parseIpv4_eq_some_iff` — what the parser accepts, and what it returns.
- `endsInANumber_of_text` — such a text is always given to the IPv4 parser.
-/

namespace CtBrowser.Shell.Url

open CtBrowser.Foundations

/-! ## Numbers -/

/-- Where the parser stops counting. -/
def saturation : ℕ := 2 ^ 40

theorem ipv4Digits_eq {radix : ℕ} (hradix : 0 < radix) (v : ℕ) (cs : List ℕ) :
    ipv4Digits radix (min v saturation) cs = (numeralFrom radix v cs).map (min · saturation) := by
  induction cs generalizing v with
  | nil => rfl
  | cons c cs ih =>
    have hdigit : hexValue c = digitOf c := rfl
    rw [ipv4Digits, numeralFrom, hdigit]
    cases digitOf c with
    | none => rfl
    | some d =>
      dsimp only
      by_cases hd : d < radix
      · have hmin : min (min v saturation * radix + d) (2 ^ 40) =
            min (v * radix + d) saturation := by
          have hle : saturation ≤ saturation * radix := Nat.le_mul_of_pos_right _ hradix
          rcases le_total v saturation with hv | hv
          · rw [min_eq_left hv]
            rfl
          · have hbig : saturation * radix ≤ v * radix := Nat.mul_le_mul_right _ hv
            rw [min_eq_right hv, min_eq_right (show 2 ^ 40 ≤ _ by simp only [saturation] at *; omega),
              min_eq_right (by omega)]
            rfl
        rw [if_neg (by omega), if_pos hd, hmin]
        exact ih _
      · rw [if_pos (by omega), if_neg hd]
        rfl

theorem ipv4Number_eq (cs : List ℕ) :
    ipv4Number cs = (ipv4Part cs).map (min · saturation) := by
  have hdigits (radix : ℕ) (hradix : 0 < radix) (ds : List ℕ) :
      ipv4Digits radix 0 ds = (numeral radix ds).map (min · saturation) :=
    ipv4Digits_eq hradix 0 ds
  match cs with
  | [] => rfl
  | [c] =>
    rw [ipv4Number, if_neg (by simp), if_neg (by simp), hdigits 10 (by norm_num)]
    rfl
  | a :: b :: rest =>
    have hlower : lower b = 'x'.toNat ↔ b = 'x'.toNat ∨ b = 'X'.toNat := by
      have hchars : 'A'.toNat = 65 ∧ 'Z'.toNat = 90 ∧ 'x'.toNat = 120 ∧ 'X'.toNat = 88 := by decide
      unfold lower
      split_ifs <;> omega
    rw [ipv4Number, if_neg (by simp)]
    by_cases ha : a = '0'.toNat
    · have hlong : 2 ≤ (a :: b :: rest).length ∧ (a :: b :: rest).head? = some '0'.toNat := by
        simp [ha]
      rw [if_pos hlong]
      simp only [List.getD_cons_succ, List.getD_cons_zero, hlower, ipv4Part, ha, if_true]
      split_ifs
      · exact hdigits 16 (by norm_num) rest
      · exact hdigits 8 (by norm_num) (b :: rest)
    · rw [if_neg (by simpa using ha), ipv4Part, if_neg ha]
      exact hdigits 10 (by norm_num) _

/-! ## Parts -/

theorem ipv4Part_of_number {a : List ℕ} {n : ℕ} (h : ipv4Number a = some n)
    (hn : n < saturation) : ipv4Part a = some n := by
  rw [ipv4Number_eq, Option.map_eq_some_iff] at h
  obtain ⟨u, hu, hmin⟩ := h
  have hu' : u = n := by omega
  rw [hu, hu']

theorem ipv4Number_of_part {a : List ℕ} {n : ℕ} (h : ipv4Part a = some n)
    (hn : n < saturation) : ipv4Number a = some n := by
  rw [ipv4Number_eq, h, Option.map_some, min_eq_left hn.le]

theorem digitOf_dot : digitOf '.'.toNat = none := by decide

theorem dot_notMem_of_ipv4Part {a : List ℕ} {n : ℕ} (h : ipv4Part a = some n) :
    '.'.toNat ∉ a ∧ a ≠ [] := by
  have hnumeral {radix m : ℕ} {cs : List ℕ} (h : numeral radix cs = some m) :
      '.'.toNat ∉ cs := by
    intro hdot
    obtain ⟨d, hd, -⟩ := digitOf_isSome_of_numeralFrom h _ hdot
    rw [digitOf_dot] at hd
    cases hd
  have hchars : '.'.toNat = 46 ∧ '0'.toNat = 48 ∧ 'x'.toNat = 120 ∧ 'X'.toNat = 88 := by decide
  match a with
  | [] => cases h
  | [c] => exact ⟨hnumeral h, by simp⟩
  | c :: d :: rest =>
    refine ⟨?_, by simp⟩
    rw [ipv4Part] at h
    split_ifs at h with hc hd
    · have hrest := hnumeral h
      simp only [List.mem_cons, not_or]
      exact ⟨by omega, by omega, hrest⟩
    · have hrest := hnumeral h
      rw [List.mem_cons, not_or]
      exact ⟨by omega, hrest⟩
    · exact hnumeral h

theorem splitDots_cons {a : List ℕ} (ha : '.'.toNat ∉ a) (rest : List ℕ) :
    splitDots (a ++ '.'.toNat :: rest) = a :: splitDots rest :=
  List.splitOn_append_cons_self_of_not_mem ha rest

theorem splitDots_single {a : List ℕ} (ha : '.'.toNat ∉ a) : splitDots a = [a] :=
  List.splitOn_eq_singleton ha

/-- What the parser makes of the parts: all but the last number are bytes, and the last one
fits the bytes left. -/
theorem parseIpv4Parts_eq_some_iff {parts : List (List ℕ)} {out : Text} :
    parseIpv4Parts parts = some out ↔ parts.length ≤ 4 ∧ ∃ ns last,
      parts.mapM ipv4Number = some (ns ++ [last]) ∧ (∀ n ∈ ns, n ≤ 255) ∧
        last < 2 ^ (8 * (4 - ns.length)) ∧ out = serializeIpv4 (last + ipv4Sum 0 ns) := by
  unfold parseIpv4Parts
  split_ifs with hlong
  · exact iff_of_false (by simp) fun h => absurd h.1 (by omega)
  · rw [and_iff_right (by omega)]
    simp only [Option.bind_eq_bind, Option.bind_eq_some_iff]
    constructor
    · rintro ⟨numbers, hnumbers, last, hlast, hout⟩
      obtain ⟨ns, rfl⟩ := List.getLast?_eq_some_iff.mp hlast
      split_ifs at hout with hbytes hlimit
      refine ⟨ns, last, hnumbers, ?_, ?_, ?_⟩
      · simpa using hbytes
      · simpa using hlimit
      · simpa using hout.symm
    · rintro ⟨ns, last, hnumbers, hbytes, hlimit, rfl⟩
      refine ⟨_, hnumbers, last, List.getLast?_concat, ?_⟩
      rw [if_neg (by simpa using hbytes), if_neg (by simpa using hlimit), List.dropLast_concat]

theorem ipv4Sum_eq (a b c : ℕ) :
    ipv4Sum 0 [] = 0 ∧ ipv4Sum 0 [a] = a * 256 ^ 3 ∧
      ipv4Sum 0 [a, b] = a * 256 ^ 3 + b * 256 ^ 2 ∧
      ipv4Sum 0 [a, b, c] = a * 256 ^ 3 + b * 256 ^ 2 + c * 256 := by
  simp only [ipv4Sum, Nat.shiftLeft_eq]
  norm_num
  omega

/-- What parts denote is what the parser reads, and the last one is not empty. -/
theorem parseIpv4Parts_of_parts {cs : List ℕ} {v : ℕ} (h : Ipv4Parts cs v) :
    parseIpv4Parts (splitDots cs) = some (serializeIpv4 v) ∧
      (splitDots cs).getLast? ≠ some [] := by
  have hsaturation : saturation = 2 ^ 40 := rfl
  cases h with
  | one ha hv =>
    obtain ⟨hdot, hnil⟩ := dot_notMem_of_ipv4Part ha
    rw [splitDots_single hdot, parseIpv4Parts_eq_some_iff]
    refine ⟨⟨by simp, [], v, ?_, by simp, by simpa using hv, ?_⟩, by simpa using hnil⟩
    · simp [ipv4Number_of_part ha (by omega)]
    · rw [(ipv4Sum_eq 0 0 0).1, Nat.add_zero]
  | @two a b u v ha hb hu hv =>
    obtain ⟨hadot, -⟩ := dot_notMem_of_ipv4Part ha
    obtain ⟨hbdot, hnil⟩ := dot_notMem_of_ipv4Part hb
    rw [splitDots_cons hadot, splitDots_single hbdot, parseIpv4Parts_eq_some_iff]
    refine ⟨⟨by simp, [u], v, ?_, by simp; omega, by simpa using hv, ?_⟩, by simpa using hnil⟩
    · simp [ipv4Number_of_part ha (by omega), ipv4Number_of_part hb (by omega)]
    · rw [(ipv4Sum_eq u 0 0).2.1, Nat.add_comm]
  | @three a b c t u v ha hb hc ht hu hv =>
    obtain ⟨hadot, -⟩ := dot_notMem_of_ipv4Part ha
    obtain ⟨hbdot, -⟩ := dot_notMem_of_ipv4Part hb
    obtain ⟨hcdot, hnil⟩ := dot_notMem_of_ipv4Part hc
    rw [splitDots_cons hadot, splitDots_cons hbdot, splitDots_single hcdot,
      parseIpv4Parts_eq_some_iff]
    refine ⟨⟨by simp, [t, u], v, ?_, by simp; omega, by simpa using hv, ?_⟩, by simpa using hnil⟩
    · simp [ipv4Number_of_part ha (by omega), ipv4Number_of_part hb (by omega),
        ipv4Number_of_part hc (by omega)]
    · rw [(ipv4Sum_eq t u 0).2.2.1, Nat.add_comm]
  | @four a b c d s t u v ha hb hc hd hs ht hu hv =>
    obtain ⟨hadot, -⟩ := dot_notMem_of_ipv4Part ha
    obtain ⟨hbdot, -⟩ := dot_notMem_of_ipv4Part hb
    obtain ⟨hcdot, -⟩ := dot_notMem_of_ipv4Part hc
    obtain ⟨hddot, hnil⟩ := dot_notMem_of_ipv4Part hd
    rw [splitDots_cons hadot, splitDots_cons hbdot, splitDots_cons hcdot,
      splitDots_single hddot, parseIpv4Parts_eq_some_iff]
    refine ⟨⟨by simp, [s, t, u], v, ?_, by simp; omega, by simpa using hv, ?_⟩,
      by simpa using hnil⟩
    · simp [ipv4Number_of_part ha (by omega), ipv4Number_of_part hb (by omega),
        ipv4Number_of_part hc (by omega), ipv4Number_of_part hd (by omega)]
    · rw [(ipv4Sum_eq s t u).2.2.2, Nat.add_comm]

theorem dots_cons (a b : List ℕ) (parts : List (List ℕ)) :
    ['.'.toNat].intercalate (a :: b :: parts) =
      a ++ '.'.toNat :: ['.'.toNat].intercalate (b :: parts) := by
  rw [List.intercalate_cons_cons, List.append_assoc, List.singleton_append]

theorem dots_concat_nil {parts : List (List ℕ)} (h : parts ≠ []) :
    ['.'.toNat].intercalate (parts ++ [[]]) =
      ['.'.toNat].intercalate parts ++ ['.'.toNat] := by
  induction parts with
  | nil => exact absurd rfl h
  | cons a parts ih =>
    cases parts with
    | nil => rw [List.singleton_append, dots_cons, List.intercalate_singleton,
        List.intercalate_singleton]
    | cons b parts =>
      rw [List.cons_append, List.cons_append, dots_cons, dots_cons, ← List.cons_append,
        ih (by simp), List.append_assoc, List.cons_append]

/-- Numbers the parser accepts denote an address. -/
theorem parts_of_parseIpv4Parts {parts : List (List ℕ)} {out : Text}
    (h : parseIpv4Parts parts = some out) :
    ∃ v, Ipv4Parts (['.'.toNat].intercalate parts) v ∧ out = serializeIpv4 v := by
  have hsaturation : saturation = 2 ^ 40 := rfl
  obtain ⟨hlength, ns, last, hnumbers, hbytes, hlimit, rfl⟩ := parseIpv4Parts_eq_some_iff.mp h
  have hpart {a : List ℕ} {n : ℕ} (h : ipv4Number a = some n) (hn : n < 2 ^ 32) :
      ipv4Part a = some n := ipv4Part_of_number h (by omega)
  match parts, hlength, hnumbers with
  | [], _, hnumbers => simp at hnumbers
  | [a], _, hnumbers =>
    simp only [List.mapM_cons, List.mapM_nil, Option.pure_def, Option.bind_eq_bind,
      Option.bind_some, Option.bind_eq_some_iff, Option.some.injEq] at hnumbers
    obtain ⟨u, hu, hlist⟩ := hnumbers
    obtain ⟨rfl, hlast⟩ := List.append_inj' (show [] ++ [u] = ns ++ [last] from hlist) rfl
    obtain rfl : u = last := by simpa using hlast
    rw [(ipv4Sum_eq 0 0 0).1, List.intercalate_singleton]
    exact ⟨u, .one (hpart hu (by simpa using hlimit)) (by simpa using hlimit), rfl⟩
  | [a, b], _, hnumbers =>
    simp only [List.mapM_cons, List.mapM_nil, Option.pure_def, Option.bind_eq_bind,
      Option.bind_some, Option.bind_eq_some_iff, Option.some.injEq] at hnumbers
    obtain ⟨u, hu, _, ⟨v, hv, rfl⟩, hlist⟩ := hnumbers
    obtain ⟨rfl, hlast⟩ := List.append_inj' (show [u] ++ [v] = ns ++ [last] from hlist) rfl
    obtain rfl : v = last := by simpa using hlast
    have hu' : u ≤ 255 := hbytes u (by simp)
    have hv' : v < 256 ^ 3 := by simpa using hlimit
    rw [(ipv4Sum_eq u 0 0).2.1, Nat.add_comm, dots_cons, List.intercalate_singleton]
    exact ⟨_, .two (hpart hu (by omega)) (hpart hv (by omega)) (by omega) hv', rfl⟩
  | [a, b, c], _, hnumbers =>
    simp only [List.mapM_cons, List.mapM_nil, Option.pure_def, Option.bind_eq_bind,
      Option.bind_some, Option.bind_eq_some_iff, Option.some.injEq] at hnumbers
    obtain ⟨t, ht, _, ⟨u, hu, _, ⟨v, hv, rfl⟩, rfl⟩, hlist⟩ := hnumbers
    obtain ⟨rfl, hlast⟩ := List.append_inj' (show [t, u] ++ [v] = ns ++ [last] from hlist) rfl
    obtain rfl : v = last := by simpa using hlast
    have ht' : t ≤ 255 := hbytes t (by simp)
    have hu' : u ≤ 255 := hbytes u (by simp)
    have hv' : v < 256 ^ 2 := by simpa using hlimit
    rw [(ipv4Sum_eq t u 0).2.2.1, Nat.add_comm, dots_cons, dots_cons, List.intercalate_singleton]
    exact ⟨_, .three (hpart ht (by omega)) (hpart hu (by omega)) (hpart hv (by omega))
      (by omega) (by omega) hv', rfl⟩
  | [a, b, c, d], _, hnumbers =>
    simp only [List.mapM_cons, List.mapM_nil, Option.pure_def, Option.bind_eq_bind,
      Option.bind_some, Option.bind_eq_some_iff, Option.some.injEq] at hnumbers
    obtain ⟨s, hs, _, ⟨t, ht, _, ⟨u, hu, _, ⟨v, hv, rfl⟩, rfl⟩, rfl⟩, hlist⟩ := hnumbers
    obtain ⟨rfl, hlast⟩ := List.append_inj' (show [s, t, u] ++ [v] = ns ++ [last] from hlist) rfl
    obtain rfl : v = last := by simpa using hlast
    have hs' : s ≤ 255 := hbytes s (by simp)
    have ht' : t ≤ 255 := hbytes t (by simp)
    have hu' : u ≤ 255 := hbytes u (by simp)
    have hv' : v < 256 := by simpa using hlimit
    rw [(ipv4Sum_eq s t u).2.2.2, Nat.add_comm, dots_cons, dots_cons, dots_cons,
      List.intercalate_singleton]
    exact ⟨_, .four (hpart hs (by omega)) (hpart ht (by omega)) (hpart hu (by omega))
      (hpart hv (by omega)) (by omega) (by omega) (by omega) hv', rfl⟩

/-! ## Texts -/

theorem splitDots_dot (cs : List ℕ) : splitDots (cs ++ ['.'.toNat]) = splitDots cs ++ [[]] :=
  List.splitOn_append_cons_self cs []

theorem ipv4Parts_of_text {cs : List ℕ} {v : ℕ} (h : Ipv4Text cs v) :
    ∃ ds, Ipv4Parts ds v ∧ ipv4Parts cs = splitDots ds := by
  cases h with
  | plain h =>
    have hlast := (parseIpv4Parts_of_parts h).2
    refine ⟨cs, h, ?_⟩
    rw [ipv4Parts, if_neg (by simp [hlast])]
  | @dotted ds v h =>
    refine ⟨ds, h, ?_⟩
    have hlong : 1 < (splitDots ds ++ [[]]).length := by
      have hpos : 0 < (splitDots ds).length :=
        List.length_pos_iff.mpr (List.splitOn_ne_nil _ _)
      simpa using hpos
    rw [ipv4Parts, splitDots_dot, if_pos ⟨List.getLast?_concat, hlong⟩, List.dropLast_concat]

/-- The IPv4 parser accepts exactly the texts that denote an address, and serialises it. -/
theorem parseIpv4_eq_some_iff {cs : List ℕ} {out : Text} :
    parseIpv4 cs = some out ↔ ∃ v, Ipv4Text cs v ∧ out = serializeIpv4 v := by
  constructor
  · intro h
    obtain ⟨v, hv, rfl⟩ := parts_of_parseIpv4Parts h
    refine ⟨v, ?_, rfl⟩
    have hjoined : ['.'.toNat].intercalate (splitDots cs) = cs := List.intercalate_splitOn _
    unfold ipv4Parts at hv
    dsimp only at hv
    split_ifs at hv with hdot
    · obtain ⟨parts, hparts⟩ := List.getLast?_eq_some_iff.mp hdot.1
      rw [hparts] at hjoined hdot hv
      rw [List.dropLast_concat] at hv
      have hnil : parts ≠ [] := by
        rintro rfl
        simp at hdot
      have hcs : cs = ['.'.toNat].intercalate parts ++ ['.'.toNat] := by
        rw [← hjoined, dots_concat_nil hnil]
      rw [hcs]
      exact .dotted hv
    · rw [hjoined] at hv
      exact .plain hv
  · rintro ⟨v, hv, rfl⟩
    obtain ⟨ds, hds, hparts⟩ := ipv4Parts_of_text hv
    rw [parseIpv4, hparts]
    exact (parseIpv4Parts_of_parts hds).1

theorem exists_last_of_mapM {α β : Type} {f : α → Option β} {xs : List α} {ys : List β} {y : β}
    (h : xs.mapM f = some (ys ++ [y])) : ∃ x, xs.getLast? = some x ∧ f x = some y := by
  rcases xs.eq_nil_or_concat with rfl | ⟨init, x, rfl⟩
  · simp at h
  · rw [List.concat_eq_append] at h ⊢
    refine ⟨x, List.getLast?_concat, ?_⟩
    simp only [List.mapM_append, List.mapM_cons, List.mapM_nil, Option.pure_def,
      Option.bind_eq_bind, Option.bind_some, Option.bind_eq_some_iff, Option.some.injEq] at h
    obtain ⟨zs, -, _, ⟨z, hz, rfl⟩, hlist⟩ := h
    obtain rfl : z = y := by simpa using (List.append_inj' hlist rfl).2
    exact hz

/-- A text that denotes an IPv4 address ends in a number. -/
theorem endsInANumber_of_text {cs : List ℕ} {v : ℕ} (h : Ipv4Text cs v) :
    endsInANumber cs = true := by
  have hparse := parseIpv4_eq_some_iff.mpr ⟨v, h, rfl⟩
  obtain ⟨-, ns, last, hnumbers, -⟩ := parseIpv4Parts_eq_some_iff.mp hparse
  obtain ⟨part, hpart, hnumber⟩ := exists_last_of_mapM hnumbers
  have hsplit : splitDots cs ≠ [[]] := by
    intro hempty
    rw [ipv4Parts, hempty, if_neg (by simp)] at hpart
    obtain rfl : [] = part := by simpa using hpart
    cases hnumber
  rw [endsInANumber, if_neg hsplit, hpart]
  simp [hnumber]

end CtBrowser.Shell.Url
