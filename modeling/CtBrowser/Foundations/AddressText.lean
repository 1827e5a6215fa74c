import Mathlib.Tactic

/-!
# Textual Internet Addresses

What a text means as an IPv4 or IPv6 address: numerals in radix 8, 10 and 16, one to four IPv4
parts of which the last fills the bytes that are left, and eight IPv6 groups with one run of
zeros left out and the last two possibly written as an IPv4 address. Characters are numbers.

## Main definitions

- `numeral`, `ipv4Part` — numerals.
- `Ipv4Text` — a text and the 32-bit number it denotes.
- `Ipv6Text` — a text and the eight groups it denotes.

## Main results

- `numeralFrom_append`, `le_numeralFrom` — reading numerals piecewise.
- `Ipv6Text.length_groups` — there are eight groups.
-/

namespace CtBrowser.Foundations

/-- The value of a digit, up to radix 16. -/
def digitOf (c : ℕ) : Option ℕ :=
  if '0'.toNat ≤ c ∧ c ≤ '9'.toNat then some (c - '0'.toNat)
  else if 'a'.toNat ≤ c ∧ c ≤ 'f'.toNat then some (c - 'a'.toNat + 10)
  else if 'A'.toNat ≤ c ∧ c ≤ 'F'.toNat then some (c - 'A'.toNat + 10)
  else none

/-- The number that digits in a radix make after those of `v`. -/
def numeralFrom (radix : ℕ) : ℕ → List ℕ → Option ℕ
  | v, [] => some v
  | v, c :: cs =>
    match digitOf c with
    | some d => if d < radix then numeralFrom radix (v * radix + d) cs else none
    | none => none

/-- The number that digits in a radix make. -/
def numeral (radix : ℕ) (cs : List ℕ) : Option ℕ := numeralFrom radix 0 cs

/-- A part of an IPv4 address: hex after `0x`, octal after another `0`, else decimal. -/
def ipv4Part (cs : List ℕ) : Option ℕ :=
  match cs with
  | [] => none
  | [c] => numeral 10 [c]
  | a :: b :: rest =>
    if a = '0'.toNat then
      if b = 'x'.toNat ∨ b = 'X'.toNat then numeral 16 rest else numeral 8 (b :: rest)
    else numeral 10 cs

/-- One to four parts with dots between them; the last one fills the bytes left. -/
inductive Ipv4Parts : List ℕ → ℕ → Prop
  | one {a : List ℕ} {v : ℕ} (ha : ipv4Part a = some v) (hv : v < 256 ^ 4) : Ipv4Parts a v
  | two {a b : List ℕ} {u v : ℕ} (ha : ipv4Part a = some u) (hb : ipv4Part b = some v)
      (hu : u < 256) (hv : v < 256 ^ 3) :
      Ipv4Parts (a ++ '.'.toNat :: b) (u * 256 ^ 3 + v)
  | three {a b c : List ℕ} {t u v : ℕ} (ha : ipv4Part a = some t) (hb : ipv4Part b = some u)
      (hc : ipv4Part c = some v) (ht : t < 256) (hu : u < 256) (hv : v < 256 ^ 2) :
      Ipv4Parts (a ++ '.'.toNat :: (b ++ '.'.toNat :: c)) (t * 256 ^ 3 + u * 256 ^ 2 + v)
  | four {a b c d : List ℕ} {s t u v : ℕ} (ha : ipv4Part a = some s) (hb : ipv4Part b = some t)
      (hc : ipv4Part c = some u) (hd : ipv4Part d = some v) (hs : s < 256) (ht : t < 256)
      (hu : u < 256) (hv : v < 256) :
      Ipv4Parts (a ++ '.'.toNat :: (b ++ '.'.toNat :: (c ++ '.'.toNat :: d)))
        (s * 256 ^ 3 + t * 256 ^ 2 + u * 256 + v)

/-- A text that denotes an IPv4 address, possibly with a dot at its end. -/
inductive Ipv4Text : List ℕ → ℕ → Prop
  | plain {cs : List ℕ} {v : ℕ} (h : Ipv4Parts cs v) : Ipv4Text cs v
  | dotted {cs : List ℕ} {v : ℕ} (h : Ipv4Parts cs v) : Ipv4Text (cs ++ ['.'.toNat]) v

/-- A group of an IPv6 address: one to four hex digits. -/
structure Ipv6Group (cs : List ℕ) (v : ℕ) : Prop where
  length_pos : 0 < cs.length
  length_le : cs.length ≤ 4
  value : numeral 16 cs = some v

/-- A decimal byte without superfluous zeros. -/
structure Octet (cs : List ℕ) (v : ℕ) : Prop where
  ne_nil : cs ≠ []
  no_zeros : cs.head? = some '0'.toNat → cs.length = 1
  value : numeral 10 cs = some v
  lt : v < 256

/-- Groups with colons between them. -/
inductive HexGroups : List ℕ → List ℕ → Prop
  | one {cs : List ℕ} {v : ℕ} (h : Ipv6Group cs v) : HexGroups cs [v]
  | cons {cs rest : List ℕ} {v : ℕ} {vs : List ℕ} (h : Ipv6Group cs v) (hrest : HexGroups rest vs) :
      HexGroups (cs ++ ':'.toNat :: rest) (v :: vs)

/-- Groups with colons between them, the last two possibly as an IPv4 address. -/
inductive Ipv6Groups : List ℕ → List ℕ → Prop
  | one {cs : List ℕ} {v : ℕ} (h : Ipv6Group cs v) : Ipv6Groups cs [v]
  | quad {a b c d : List ℕ} {s t u v : ℕ} (ha : Octet a s) (hb : Octet b t) (hc : Octet c u)
      (hd : Octet d v) :
      Ipv6Groups (a ++ '.'.toNat :: (b ++ '.'.toNat :: (c ++ '.'.toNat :: d)))
        [s * 256 + t, u * 256 + v]
  | cons {cs rest : List ℕ} {v : ℕ} {vs : List ℕ} (h : Ipv6Group cs v)
      (hrest : Ipv6Groups rest vs) : Ipv6Groups (cs ++ ':'.toNat :: rest) (v :: vs)

/-- A text that denotes an IPv6 address: all eight groups, or a double colon for one or more
groups of zero. -/
inductive Ipv6Text : List ℕ → List ℕ → Prop
  | full {cs vs : List ℕ} (h : Ipv6Groups cs vs) (hlength : vs.length = 8) : Ipv6Text cs vs
  | gap {l r vl vr : List ℕ} (hl : l = [] ∧ vl = [] ∨ HexGroups l vl)
      (hr : r = [] ∧ vr = [] ∨ Ipv6Groups r vr) (hlength : vl.length + vr.length ≤ 7) :
      Ipv6Text (l ++ ':'.toNat :: ':'.toNat :: r)
        (vl ++ List.replicate (8 - vl.length - vr.length) 0 ++ vr)

/-! ## Numerals -/

/-- Up to `n` characters of one kind before a character of another kind. -/
theorem takeWhile_take_append {p : ℕ → Bool} {cs rest : List ℕ} {n : ℕ} (hcs : ∀ c ∈ cs, p c)
    (hlength : cs.length ≤ n) (hrest : ∀ c ∈ rest.head?, ¬ p c) :
    ((cs ++ rest).take n).takeWhile p = cs := by
  rw [List.take_append, List.take_of_length_le hlength, List.takeWhile_append_of_pos hcs]
  cases rest with
  | nil => simp
  | cons c rest =>
    cases n - cs.length with
    | zero => simp
    | succ n => rw [List.take_succ_cons, List.takeWhile_cons_of_neg (hrest c rfl), List.append_nil]

/-- A numeral may be read in two pieces. -/
theorem numeralFrom_append (radix v : ℕ) (cs ds : List ℕ) :
    numeralFrom radix v (cs ++ ds) = (numeralFrom radix v cs).bind (numeralFrom radix · ds) := by
  induction cs generalizing v with
  | nil => rfl
  | cons c cs ih =>
    rw [List.cons_append, numeralFrom, numeralFrom]
    cases digitOf c with
    | none => rfl
    | some d =>
      dsimp only
      split_ifs
      · exact ih _
      · rfl

/-- The value of a digit is below 16. -/
theorem digitOf_lt {c d : ℕ} (h : digitOf c = some d) : d < 16 := by
  have hchars : '0'.toNat = 48 ∧ '9'.toNat = 57 ∧ 'a'.toNat = 97 ∧ 'f'.toNat = 102 ∧
      'A'.toNat = 65 ∧ 'F'.toNat = 70 := by decide
  unfold digitOf at h
  split_ifs at h <;> simp only [Option.some.injEq] at h <;> omega

/-- Every digit multiplies the number by the radix at least. -/
theorem mul_pow_le_numeralFrom {radix v n : ℕ} {cs : List ℕ}
    (h : numeralFrom radix v cs = some n) : v * radix ^ cs.length ≤ n := by
  induction cs generalizing v with
  | nil =>
    obtain rfl : v = n := Option.some.inj h
    simp
  | cons c cs ih =>
    rw [numeralFrom] at h
    split at h
    · next d _ =>
      split_ifs at h
      calc v * radix ^ (cs.length + 1) = v * radix * radix ^ cs.length := by ring
        _ ≤ (v * radix + d) * radix ^ cs.length :=
          Nat.mul_le_mul_right _ (Nat.le_add_right _ _)
        _ ≤ n := ih h
    · cases h

/-- More digits make no smaller number. -/
theorem le_numeralFrom {radix v n : ℕ} {cs : List ℕ} (hradix : 0 < radix)
    (h : numeralFrom radix v cs = some n) : v ≤ n :=
  (Nat.le_mul_of_pos_right v (Nat.pow_pos hradix)).trans (mul_pow_le_numeralFrom h)

/-- A numeral of `n` digits is below the `n`-th power of the radix. -/
theorem numeralFrom_lt {radix v n : ℕ} {cs : List ℕ}
    (h : numeralFrom radix v cs = some n) : n < (v + 1) * radix ^ cs.length := by
  induction cs generalizing v with
  | nil =>
    obtain rfl : v = n := Option.some.inj h
    simp
  | cons c cs ih =>
    rw [numeralFrom] at h
    split at h
    · next d _ =>
      split_ifs at h with hd
      have hih := ih h
      have hstep : v * radix + d + 1 ≤ (v + 1) * radix := by
        rw [Nat.add_mul, Nat.one_mul]
        omega
      calc n < (v * radix + d + 1) * radix ^ cs.length := hih
        _ ≤ (v + 1) * radix * radix ^ cs.length := Nat.mul_le_mul_right _ hstep
        _ = (v + 1) * radix ^ (cs.length + 1) := by ring
    · cases h

/-- The characters of a numeral are digits. -/
theorem digitOf_isSome_of_numeralFrom {radix v n : ℕ} {cs : List ℕ}
    (h : numeralFrom radix v cs = some n) : ∀ c ∈ cs, ∃ d, digitOf c = some d ∧ d < radix := by
  induction cs generalizing v with
  | nil => simp
  | cons c cs ih =>
    rw [numeralFrom] at h
    split at h
    · next d hd =>
      split_ifs at h with hlt
      intro x hx
      rcases List.mem_cons.mp hx with rfl | hx
      · exact ⟨d, hd, hlt⟩
      · exact ih h x hx
    · cases h

/-- A byte has at most three digits. -/
theorem Octet.length_le {cs : List ℕ} {v : ℕ} (h : Octet cs v) : cs.length ≤ 3 := by
  obtain ⟨hnil, hzeros, hvalue, hlt⟩ := h
  cases cs with
  | nil => exact absurd rfl hnil
  | cons c cs =>
    rw [numeral, numeralFrom] at hvalue
    split at hvalue
    · next d hd =>
      split_ifs at hvalue
      rw [Nat.zero_mul, Nat.zero_add] at hvalue
      have hle := mul_pow_le_numeralFrom hvalue
      by_contra hlong
      have hthree : 3 ≤ cs.length := by
        rw [List.length_cons] at hlong
        omega
      have hpow : 10 ^ 3 ≤ 10 ^ cs.length := Nat.pow_le_pow_right (by norm_num) hthree
      have hd0 : d = 0 := by
        by_contra hpos
        have hone : 10 ^ cs.length ≤ d * 10 ^ cs.length :=
          Nat.le_mul_of_pos_left _ (Nat.pos_of_ne_zero hpos)
        omega
      have hc : c = '0'.toNat := by
        have hchars : '0'.toNat = 48 ∧ '9'.toNat = 57 ∧ 'a'.toNat = 97 ∧ 'f'.toNat = 102 ∧
            'A'.toNat = 65 ∧ 'F'.toNat = 70 := by decide
        unfold digitOf at hd
        split_ifs at hd <;> simp only [Option.some.injEq] at hd <;> omega
      have hone := hzeros (by rw [hc]; rfl)
      rw [List.length_cons] at hone
      omega
    · cases hvalue

/-! ## Groups -/

/-- Hex groups are groups. -/
theorem HexGroups.groups {cs vs : List ℕ} (h : HexGroups cs vs) : Ipv6Groups cs vs := by
  induction h with
  | one h => exact .one h
  | cons h _ ih => exact .cons h ih

/-- Groups are no empty text. -/
theorem Ipv6Groups.ne_nil {cs vs : List ℕ} (h : Ipv6Groups cs vs) : cs ≠ [] := by
  cases h with
  | one h => exact List.ne_nil_of_length_pos h.length_pos
  | quad => simp
  | cons => simp

/-- A group fits sixteen bits. -/
theorem Ipv6Group.lt {cs : List ℕ} {v : ℕ} (h : Ipv6Group cs v) : v < 2 ^ 16 := by
  have hlt := numeralFrom_lt h.value
  have hpow : 16 ^ cs.length ≤ 16 ^ 4 := Nat.pow_le_pow_right (by norm_num) h.length_le
  omega

/-- Groups fit sixteen bits. -/
theorem Ipv6Groups.lt {cs vs : List ℕ} (h : Ipv6Groups cs vs) : ∀ v ∈ vs, v < 2 ^ 16 := by
  induction h with
  | one h => simpa using h.lt
  | quad ha hb hc hd =>
    have := ha.lt
    have := hb.lt
    have := hc.lt
    have := hd.lt
    simp only [List.mem_cons, List.not_mem_nil, or_false, forall_eq_or_imp, forall_eq]
    omega
  | cons h _ ih => exact List.forall_mem_cons.mpr ⟨h.lt, ih⟩

/-- An IPv6 address has eight groups of sixteen bits. -/
theorem Ipv6Text.groups {cs vs : List ℕ} (h : Ipv6Text cs vs) :
    vs.length = 8 ∧ ∀ v ∈ vs, v < 2 ^ 16 := by
  cases h with
  | full h hlength => exact ⟨hlength, h.lt⟩
  | gap hl hr hlength =>
    refine ⟨by simp only [List.length_append, List.length_replicate]; omega, ?_⟩
    intro v hv
    rcases List.mem_append.mp hv with hv | hv
    · rcases List.mem_append.mp hv with hv | hv
      · rcases hl with ⟨-, rfl⟩ | hl
        · cases hv
        · exact hl.groups.lt v hv
      · rw [(List.mem_replicate.mp hv).2]
        norm_num
    · rcases hr with ⟨-, rfl⟩ | hr
      · cases hv
      · exact hr.lt v hv

end CtBrowser.Foundations
