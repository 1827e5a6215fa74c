import CtBrowser.Foundations.AddressText
import CtBrowser.Shell.Net.Url.Host

/-!
# Serialised Addresses

The host texts that the IPv4 and IPv6 serialisers produce denote the address they were given:
four decimal bytes, and hex groups with at most one run of zeros left out.

## Main results

- `serializeIpv4_eq` — the four bytes of a serialised IPv4 address.
- `ipv6Text_denotes` — what a serialised IPv6 address denotes.
-/

namespace CtBrowser.Shell.Url

open CtBrowser.Foundations

/-! ## Digits -/

theorem digitOf_decimal {d : ℕ} (h : d < 10) :
    digitOf (byte ('0'.toNat + d)).toNat = some d := by
  have hchars : '0'.toNat = 48 ∧ '9'.toNat = 57 := by decide
  rw [toNat_byte (by omega), digitOf, if_pos (by omega), Nat.add_sub_cancel_left]

theorem digitOf_letter {d : ℕ} (h : d < 6) :
    digitOf (byte ('a'.toNat + d)).toNat = some (d + 10) := by
  have hchars : '0'.toNat = 48 ∧ '9'.toNat = 57 ∧ 'a'.toNat = 97 ∧ 'f'.toNat = 102 := by decide
  rw [toNat_byte (by omega), digitOf, if_neg (by omega), if_pos (by omega),
    Nat.add_sub_cancel_left]

theorem numeral_concat {radix n c d : ℕ} {cs : List ℕ} (h : numeral radix cs = some n)
    (hc : digitOf c = some d) (hd : d < radix) :
    numeral radix (cs ++ [c]) = some (n * radix + d) := by
  have hcs : numeralFrom radix 0 cs = some n := h
  rw [numeral, numeralFrom_append, hcs, Option.bind_some, numeralFrom, hc]
  dsimp only
  rw [if_pos hd, numeralFrom]

theorem numeral_single {radix c d : ℕ} (hc : digitOf c = some d) (hd : d < radix) :
    numeral radix [c] = some d := by
  have hnil : numeral radix [] = some 0 := rfl
  simpa using numeral_concat hnil hc hd

theorem decimalText_eq (n : ℕ) : decimalText n =
    if n < 10 then [byte ('0'.toNat + n)]
    else decimalText (n / 10) ++ [byte ('0'.toNat + n % 10)] := by
  have hdigit : ∀ d < 10, byte (Nat.digitChar d).toNat = byte ('0'.toNat + d) := by decide
  rw [decimalText, Nat.toDigits_eq_if (by norm_num)]
  split_ifs with hn
  · rw [List.map_singleton, hdigit n hn]
  · rw [List.map_append, List.map_singleton, hdigit _ (Nat.mod_lt n (by norm_num)), decimalText]

theorem numeral_decimalText (n : ℕ) : numeral 10 (codes (decimalText n)) = some n := by
  induction n using Nat.strong_induction_on with
  | _ n ih =>
    rw [decimalText_eq]
    split_ifs with hn
    · exact numeral_single (digitOf_decimal hn) hn
    · have hlast := digitOf_decimal (Nat.mod_lt n (by norm_num : 0 < 10))
      rw [codes_append]
      refine (numeral_concat (ih (n / 10) (by omega)) hlast (Nat.mod_lt n (by norm_num))).trans ?_
      rw [Nat.div_add_mod']

theorem length_decimalText_le {k n : ℕ} (h : n < 10 ^ (k + 1)) :
    (decimalText n).length ≤ k + 1 := by
  induction k generalizing n with
  | zero =>
    rw [decimalText_eq, if_pos (by simpa using h), List.length_singleton]
  | succ k ih =>
    rw [decimalText_eq]
    split_ifs with hn
    · simp
    · have hdiv : n / 10 < 10 ^ (k + 1) := Nat.div_lt_of_lt_mul (by rwa [← Nat.pow_succ'])
      rw [List.length_append, List.length_singleton]
      exact Nat.succ_le_succ (ih hdiv)

theorem decimalText_ne_nil (n : ℕ) : decimalText n ≠ [] := by
  rw [decimalText_eq]
  split_ifs <;> simp

theorem hexText_eq (v : ℕ) : ∃ c : UInt8, digitOf c.toNat = some (v % 16) ∧
    hexText v = if v < 16 then [c] else hexText (v / 16) ++ [c] := by
  refine ⟨_, ?_, hexText.eq_1 v⟩
  split_ifs with hten
  · exact digitOf_decimal hten
  · rw [digitOf_letter (by omega), Nat.sub_add_cancel (by omega)]

theorem numeral_hexText (v : ℕ) : numeral 16 (codes (hexText v)) = some v := by
  induction v using Nat.strong_induction_on with
  | _ v ih =>
    have hlt : v % 16 < 16 := Nat.mod_lt v (by norm_num)
    obtain ⟨c, hc, heq⟩ := hexText_eq v
    rw [heq]
    split_ifs with hv
    · rw [Nat.mod_eq_of_lt hv] at hc
      exact numeral_single hc hv
    · rw [codes_append]
      refine (numeral_concat (ih (v / 16) (by omega)) hc hlt).trans ?_
      rw [Nat.div_add_mod']

theorem length_hexText_le {k v : ℕ} (h : v < 16 ^ (k + 1)) : (hexText v).length ≤ k + 1 := by
  induction k generalizing v with
  | zero =>
    rw [hexText, if_pos (by simpa using h), List.length_singleton]
  | succ k ih =>
    obtain ⟨c, -, heq⟩ := hexText_eq v
    rw [heq]
    split_ifs with hv
    · simp
    · have hdiv : v / 16 < 16 ^ (k + 1) := Nat.div_lt_of_lt_mul (by rwa [← Nat.pow_succ'])
      rw [List.length_append, List.length_singleton]
      exact Nat.succ_le_succ (ih hdiv)

theorem hexText_ne_nil (v : ℕ) : hexText v ≠ [] := by
  obtain ⟨c, -, heq⟩ := hexText_eq v
  rw [heq]
  split_ifs <;> simp

theorem group_hexText {v : ℕ} (h : v < 2 ^ 16) : Ipv6Group (codes (hexText v)) v where
  length_pos := by
    rw [length_codes]
    exact List.length_pos_iff.mpr (hexText_ne_nil v)
  length_le := by
    rw [length_codes]
    exact length_hexText_le h
  value := numeral_hexText v

/-! ## IPv4 -/

/-- The bytes of a 32-bit number, the highest first. -/
def octets (v : ℕ) : List ℕ := [v / 2 ^ 24 % 256, v / 2 ^ 16 % 256, v / 2 ^ 8 % 256, v % 256]

/-- A serialised IPv4 address is its four bytes in decimal with dots between them. -/
theorem serializeIpv4_eq (v : ℕ) :
    serializeIpv4 v = (ascii ".").intercalate ((octets v).map decimalText) := by
  have hmask (x : ℕ) : x &&& 0xFF = x % 256 := Nat.and_two_pow_sub_one_eq_mod x 8
  simp only [serializeIpv4, hmask, Nat.shiftRight_eq_div_pow, octets, List.map_cons, List.map_nil,
    List.intercalate, List.intersperse, List.flatten_cons, List.flatten_nil, List.append_nil,
    List.append_assoc]

/-! ## IPv6 -/

variable {best i : ℕ}

theorem groups_ipv6Tail {rest : List ℕ} (hbest : best < i ∨ 8 ≤ best)
    (hcount : i + rest.length = 8) (hnil : rest ≠ []) (hlt : ∀ v ∈ rest, v < 2 ^ 16) :
    HexGroups (codes (ipv6Tail best i false rest)) rest := by
  induction rest generalizing i with
  | nil => exact absurd rfl hnil
  | cons v rest ih =>
    rw [List.length_cons] at hcount
    have hv := group_hexText (hlt v (List.mem_cons_self ..))
    have hthere : best ≠ i := by omega
    rw [ipv6Tail, if_neg (by simp), if_neg hthere]
    cases rest with
    | nil =>
      have hseven : i = 7 := by simpa using hcount
      rw [if_neg (not_not.mpr hseven), ipv6Tail, List.append_nil, List.append_nil]
      exact .one hv
    | cons w rest =>
      have hseven : i ≠ 7 := by
        rw [List.length_cons] at hcount
        omega
      have hnext := ih (i := i + 1) (by omega) (by omega) (by simp)
        fun x hx => hlt x (List.mem_cons_of_mem _ hx)
      rw [if_pos hseven, codes_append, codes_append, List.append_assoc]
      exact .cons hv hnext

theorem ipv6Tail_zeros (n : ℕ) (rest : List ℕ) :
    ipv6Tail best i true (List.replicate n 0 ++ rest) = ipv6Tail best (i + n) true rest := by
  induction n generalizing i with
  | zero => rfl
  | succ n ih =>
    rw [List.replicate_succ, List.cons_append, ipv6Tail, if_pos ⟨rfl, rfl⟩, ih, Nat.add_assoc,
      Nat.add_comm 1 n]

theorem ipv6Tail_resume {rest : List ℕ} (h : rest.head? ≠ some 0) :
    ipv6Tail best i true rest = ipv6Tail best i false rest := by
  cases rest with
  | nil => rfl
  | cons v rest =>
    have hv : v ≠ 0 := by simpa using h
    have hignored : ¬ (true = true ∧ v = 0) := fun h => hv h.2
    have hplain : ¬ (false = true ∧ v = 0) := fun h => Bool.false_ne_true h.1
    rw [ipv6Tail, ipv6Tail, if_neg hignored, if_neg hplain]

theorem groups_ipv6Tail_before {l : List ℕ} (tail : List ℕ) (hnil : l ≠ []) (hcount : i + l.length = best)
    (hbest : best < 8) (hlt : ∀ v ∈ l, v < 2 ^ 16) :
    ∃ text, HexGroups text l ∧ codes (ipv6Tail best i false (l ++ tail)) =
      text ++ ':'.toNat :: codes (ipv6Tail best best false tail) := by
  induction l generalizing i with
  | nil => exact absurd rfl hnil
  | cons v l ih =>
    rw [List.length_cons] at hcount
    have hv := group_hexText (hlt v (List.mem_cons_self ..))
    have hthere : best ≠ i := by omega
    have hseven : i ≠ 7 := by omega
    rw [List.cons_append, ipv6Tail, if_neg (by simp), if_neg hthere, if_pos hseven, codes_append,
      codes_append, List.append_assoc]
    cases l with
    | nil =>
      obtain rfl : i + 1 = best := hcount
      exact ⟨_, .one hv, rfl⟩
    | cons w l =>
      obtain ⟨text, htext, htail⟩ := ih (i := i + 1) (by simp) (by omega)
        fun x hx => hlt x (List.mem_cons_of_mem _ hx)
      refine ⟨_, .cons hv htext, ?_⟩
      rw [htail, List.append_assoc]
      rfl

/-- A place for the gap: a run of zeros, as long as it can be to the right. -/
def GapIn (address : List ℕ) (gap : ℕ × ℕ) : Prop :=
  ∃ l r, address = l ++ List.replicate gap.2 0 ++ r ∧ l.length = gap.1 ∧ 0 < gap.2 ∧
    r.head? ≠ some 0

theorem gapIn_run {address : List ℕ} (h : address[i]? = some 0) :
    GapIn address (i, ((address.drop i).takeWhile (· = 0)).length) := by
  obtain ⟨hi, hget⟩ := List.getElem?_eq_some_iff.mp h
  have hdrop : address.drop i = 0 :: address.drop (i + 1) := by
    rw [List.drop_eq_getElem_cons hi, hget]
  have hzeros : (address.drop i).takeWhile (· = 0) =
      List.replicate ((address.drop i).takeWhile (· = 0)).length 0 := by
    refine List.eq_replicate_iff.mpr ⟨rfl, fun x hx => ?_⟩
    exact of_decide_eq_true (List.all_eq_true.mp List.all_takeWhile x hx)
  refine ⟨address.take i, (address.drop i).dropWhile (· = 0), ?_, ?_, ?_, ?_⟩
  · dsimp only
    rw [← hzeros, List.append_assoc, List.takeWhile_append_dropWhile, List.take_append_drop]
  · exact List.length_take_of_le hi.le
  · dsimp only
    rw [hdrop, List.takeWhile_cons_of_pos (by simp)]
    exact Nat.succ_pos _
  · intro hhead
    have hnot := List.head?_dropWhile_not (· = 0) (address.drop i)
    rw [hhead] at hnot
    simp at hnot

theorem longestRun_spec {address : List ℕ} (limit : ℕ) {gap : ℕ × ℕ}
    (h : 8 ≤ gap.1 ∨ GapIn address gap) :
    8 ≤ (longestRun address limit i gap).1 ∨
      GapIn address (longestRun address limit i gap) := by
  induction limit generalizing i gap with
  | zero => exact h
  | succ limit ih =>
    rw [longestRun]
    split
    · exact h
    · next v hv =>
      split_ifs with hzero
      · exact ih h
      · obtain rfl : v = 0 := not_not.mp hzero
        dsimp only
        refine ih ?_
        split_ifs
        · exact .inr (gapIn_run hv)
        · exact h

/-- A serialised IPv6 address denotes the address. -/
theorem ipv6Text_denotes {address : List ℕ} (hlength : address.length = 8)
    (hlt : ∀ v ∈ address, v < 2 ^ 16) : Ipv6Text (codes (ipv6Text address)) address := by
  have hnil : address ≠ [] := List.ne_nil_of_length_pos (by omega)
  rw [ipv6Text]
  rcases longestRun_spec (i := 0) 8 (.inl (le_refl 8) : 8 ≤ (8, 1).1 ∨ GapIn address (8, 1)) with
    hnone | ⟨l, r, haddress, hl, hpos, hr⟩
  · exact .full (groups_ipv6Tail (.inr hnone) (by omega) hnil hlt).groups hlength
  · generalize longestRun address 8 0 (8, 1) = gap at haddress hl hpos
    obtain ⟨best, zeros⟩ := gap
    dsimp only at haddress hl hpos ⊢
    subst hl
    have hsum : l.length + zeros + r.length = 8 := by
      rw [← hlength, haddress, List.length_append, List.length_append, List.length_replicate]
    have hafter : r = [] ∧ codes (ipv6Tail l.length (l.length + zeros) false r) = [] ∨
        HexGroups (codes (ipv6Tail l.length (l.length + zeros) false r)) r := by
      by_cases hrnil : r = []
      · exact .inl ⟨hrnil, by rw [hrnil]; rfl⟩
      · refine .inr (groups_ipv6Tail (.inl (by omega)) (by omega) hrnil fun v hv => hlt v ?_)
        rw [haddress]
        exact List.mem_append_right _ hv
    have hgap : ipv6Tail l.length l.length false (List.replicate zeros 0 ++ r) =
        (if l.length = 0 then ascii "::" else ascii ":") ++
          ipv6Tail l.length (l.length + zeros) false r := by
      obtain ⟨n, rfl⟩ := Nat.exists_eq_add_of_le' hpos
      rw [List.replicate_succ, List.cons_append, ipv6Tail, if_neg (by simp), if_pos rfl,
        ipv6Tail_zeros, ipv6Tail_resume hr, Nat.add_assoc, Nat.add_comm 1 n]
    have hcount : zeros = 8 - l.length - r.length := by omega
    have hgroups : r = [] ∧ codes (ipv6Tail l.length (l.length + zeros) false r) = [] ∨
        Ipv6Groups (codes (ipv6Tail l.length (l.length + zeros) false r)) r :=
      hafter.imp_right HexGroups.groups
    by_cases hlnil : l = []
    · subst hlnil
      have hgap' : ipv6Tail 0 0 false (List.replicate zeros 0 ++ r) =
          ascii "::" ++ ipv6Tail 0 (0 + zeros) false r := hgap
      rw [haddress, List.nil_append, List.length_nil, hgap', codes_append]
      have htext := Ipv6Text.gap (.inl ⟨rfl, rfl⟩) (hgroups.imp_left And.symm) (by
        rw [List.length_nil]
        omega)
      rw [← hcount] at htext
      exact htext
    · have hltl : ∀ v ∈ l, v < 2 ^ 16 := fun v hv => hlt v <| by
        rw [haddress, List.append_assoc]
        exact List.mem_append_left _ hv
      obtain ⟨text, htext, hbefore⟩ := groups_ipv6Tail_before (List.replicate zeros 0 ++ r) hlnil
        (Nat.zero_add _) (by omega) hltl
      have hlpos : l.length ≠ 0 := by simpa using hlnil
      rw [haddress, List.append_assoc, hbefore, hgap, if_neg hlpos, codes_append]
      have hdenotes := Ipv6Text.gap (.inr htext) (hgroups.imp_left And.symm) (by omega)
      rw [← hcount, List.append_assoc] at hdenotes
      exact hdenotes

end CtBrowser.Shell.Url
