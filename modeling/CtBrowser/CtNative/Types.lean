import CtBrowser.Core.Text
import Mathlib.Data.List.Lex

/-!
# Native Types

The types of the native dialect. Two types are equal when they are spelled the same way. The
ones that only meet with themselves, and the ones that hold one element and meet by it, are a
constructor each.

## Main definitions

- `CtType` — a type.
- `CtType.code` — a spelling of a type in numbers.

## Main results

- `CtType.code_injective` — types have different spellings.
-/

namespace CtBrowser.CtNative

/-- The numeric chain. -/
inductive NumKind
  | i32
  | i64
  | f64
deriving DecidableEq, Repr

/-- The encoding chain. -/
inductive StrEncoding
  | utf8
  | utf16
deriving DecidableEq, Repr

def NumKind.rank : NumKind → ℕ
  | i32 => 0
  | i64 => 1
  | f64 => 2

def StrEncoding.rank : StrEncoding → ℕ
  | utf8 => 0
  | utf16 => 1

/-- The types without a family of their own. -/
inductive Nominal
  | bool
  | symbol
  | domElement
  | domRect
  | computedStyle
  | event
  | timer
  | objectIdentity
  | globalObject (binding : Text)
  | staticTable (binding : Text)
  | instance_ (className : Text)
  | methodTable (site : Text)
deriving DecidableEq, Repr

/-- The types with one element that meet with their own kind only. -/
inductive Wrapper
  | vec
  | dict
  | set
  | weak
  | promise
  | promiseResolve
deriving DecidableEq, Repr

/-- A native type. -/
inductive CtType
  | bottom
  | boxed
  | json
  | nominal (n : Nominal)
  | num (kind : NumKind)
  | str (encoding : StrEncoding)
  | strview (encoding : StrEncoding)
  | opt (element : CtType)
  | variant (alternatives : List CtType)
  | wrapper (w : Wrapper) (element : CtType)
  | tuple (elements : List CtType)
  | map (key value : CtType)
  | closure (target : Text)
  | closureSet (targets : List Text)
  | classTag (className : Text)
  | owned (pointee : CtType)
  | shared (pointee : CtType)

/-! ## Spelling -/

theorem codes_injective : Function.Injective codes :=
  List.map_injective_iff.mpr fun _ _ => UInt8.toNat_inj.mp

/-- A name, before what follows it. -/
def spellText (t : Text) (rest : List ℕ) : List ℕ := t.length :: (codes t ++ rest)

theorem spellText_inj {t t' : Text} {r r' : List ℕ} (h : spellText t r = spellText t' r') :
    t = t' ∧ r = r' := by
  obtain ⟨hlength, happend⟩ := List.cons.inj h
  obtain ⟨hcodes, hrest⟩ := List.append_inj happend (by simpa using hlength)
  exact ⟨codes_injective hcodes, hrest⟩

/-- Names one after the other. -/
def spellTexts : List Text → List ℕ → List ℕ
  | [], rest => 0 :: rest
  | t :: ts, rest => 1 :: spellText t (spellTexts ts rest)

theorem spellTexts_inj {ts ts' : List Text} {r r' : List ℕ}
    (h : spellTexts ts r = spellTexts ts' r') : ts = ts' ∧ r = r' := by
  induction ts generalizing ts' with
  | nil =>
    cases ts' with
    | nil => exact ⟨rfl, List.tail_eq_of_cons_eq h⟩
    | cons t' ts' => cases h
  | cons t ts ih =>
    cases ts' with
    | nil => cases h
    | cons t' ts' =>
      obtain ⟨rfl, hrest⟩ := spellText_inj (List.tail_eq_of_cons_eq h)
      obtain ⟨rfl, rfl⟩ := ih hrest
      exact ⟨rfl, rfl⟩

/-- The place of a nominal type among them, and its name if it has one. -/
def Nominal.parts : Nominal → ℕ × Text
  | bool => (0, [])
  | symbol => (1, [])
  | domElement => (2, [])
  | domRect => (3, [])
  | computedStyle => (4, [])
  | event => (5, [])
  | timer => (6, [])
  | objectIdentity => (7, [])
  | globalObject binding => (8, binding)
  | staticTable binding => (9, binding)
  | instance_ className => (10, className)
  | methodTable site => (11, site)

theorem Nominal.parts_injective : Function.Injective Nominal.parts := by
  intro n n' h
  cases n <;> cases n' <;> simp_all [parts]

def Wrapper.index : Wrapper → ℕ
  | vec => 0
  | dict => 1
  | set => 2
  | weak => 3
  | promise => 4
  | promiseResolve => 5

theorem Wrapper.index_injective : Function.Injective Wrapper.index := by
  intro w w' h
  cases w <;> cases w' <;> first | rfl | cases h

theorem NumKind.rank_injective : Function.Injective NumKind.rank := by
  intro k k' h
  cases k <;> cases k' <;> first | rfl | cases h

theorem StrEncoding.rank_injective : Function.Injective StrEncoding.rank := by
  intro e e' h
  cases e <;> cases e' <;> first | rfl | cases h

namespace CtType

mutual

/-- A type in numbers, before what follows it. -/
def spell : CtType → List ℕ → List ℕ
  | nominal n, r => 0 :: n.parts.1 :: spellText n.parts.2 r
  | bottom, r => 1 :: r
  | boxed, r => 2 :: r
  | classTag className, r => 3 :: spellText className r
  | closure target, r => 4 :: spellText target r
  | closureSet targets, r => 5 :: spellTexts targets r
  | wrapper w element, r => 6 :: w.index :: spell element r
  | json, r => 7 :: r
  | map key value, r => 8 :: spell key (spell value r)
  | num kind, r => 9 :: kind.rank :: r
  | opt element, r => 10 :: spell element r
  | owned pointee, r => 11 :: spell pointee r
  | shared pointee, r => 12 :: spell pointee r
  | str encoding, r => 13 :: encoding.rank :: r
  | strview encoding, r => 14 :: encoding.rank :: r
  | tuple elements, r => 15 :: spellAll elements r
  | variant alternatives, r => 16 :: spellAll alternatives r

/-- Types one after the other. -/
def spellAll : List CtType → List ℕ → List ℕ
  | [], r => 0 :: r
  | t :: ts, r => 1 :: spell t (spellAll ts r)

end

mutual

theorem spell_inj : ∀ (t t' : CtType) (r r' : List ℕ), spell t r = spell t' r' →
    t = t' ∧ r = r'
  | nominal n, t', r, r', h => by
    cases t' with
    | nominal n' =>
      obtain ⟨hindex, hrest⟩ := List.cons.inj (List.tail_eq_of_cons_eq h)
      obtain ⟨hname, rfl⟩ := spellText_inj hrest
      rw [Nominal.parts_injective (Prod.ext hindex hname)]
      exact ⟨rfl, rfl⟩
    | _ => exact absurd (List.cons.inj h).1 (by decide)
  | bottom, t', r, r', h => by
    cases t' with
    | bottom => exact ⟨rfl, List.tail_eq_of_cons_eq h⟩
    | _ => exact absurd (List.cons.inj h).1 (by decide)
  | boxed, t', r, r', h => by
    cases t' with
    | boxed => exact ⟨rfl, List.tail_eq_of_cons_eq h⟩
    | _ => exact absurd (List.cons.inj h).1 (by decide)
  | json, t', r, r', h => by
    cases t' with
    | json => exact ⟨rfl, List.tail_eq_of_cons_eq h⟩
    | _ => exact absurd (List.cons.inj h).1 (by decide)
  | classTag c, t', r, r', h => by
    cases t' with
    | classTag c' =>
      obtain ⟨rfl, rfl⟩ := spellText_inj (List.tail_eq_of_cons_eq h)
      exact ⟨rfl, rfl⟩
    | _ => exact absurd (List.cons.inj h).1 (by decide)
  | closure f, t', r, r', h => by
    cases t' with
    | closure f' =>
      obtain ⟨rfl, rfl⟩ := spellText_inj (List.tail_eq_of_cons_eq h)
      exact ⟨rfl, rfl⟩
    | _ => exact absurd (List.cons.inj h).1 (by decide)
  | closureSet fs, t', r, r', h => by
    cases t' with
    | closureSet fs' =>
      obtain ⟨rfl, rfl⟩ := spellTexts_inj (List.tail_eq_of_cons_eq h)
      exact ⟨rfl, rfl⟩
    | _ => exact absurd (List.cons.inj h).1 (by decide)
  | wrapper w e, t', r, r', h => by
    cases t' with
    | wrapper w' e' =>
      obtain ⟨hindex, hrest⟩ := List.cons.inj (List.tail_eq_of_cons_eq h)
      obtain ⟨rfl, rfl⟩ := spell_inj e e' r r' hrest
      exact ⟨by rw [Wrapper.index_injective hindex], rfl⟩
    | _ => exact absurd (List.cons.inj h).1 (by decide)
  | map k v, t', r, r', h => by
    cases t' with
    | map k' v' =>
      obtain ⟨rfl, hrest⟩ := spell_inj k k' _ _ (List.tail_eq_of_cons_eq h)
      obtain ⟨rfl, rfl⟩ := spell_inj v v' r r' hrest
      exact ⟨rfl, rfl⟩
    | _ => exact absurd (List.cons.inj h).1 (by decide)
  | num k, t', r, r', h => by
    cases t' with
    | num k' =>
      obtain ⟨hrank, rfl⟩ := List.cons.inj (List.tail_eq_of_cons_eq h)
      exact ⟨by rw [NumKind.rank_injective hrank], rfl⟩
    | _ => exact absurd (List.cons.inj h).1 (by decide)
  | str k, t', r, r', h => by
    cases t' with
    | str k' =>
      obtain ⟨hrank, rfl⟩ := List.cons.inj (List.tail_eq_of_cons_eq h)
      exact ⟨by rw [StrEncoding.rank_injective hrank], rfl⟩
    | _ => exact absurd (List.cons.inj h).1 (by decide)
  | strview k, t', r, r', h => by
    cases t' with
    | strview k' =>
      obtain ⟨hrank, rfl⟩ := List.cons.inj (List.tail_eq_of_cons_eq h)
      exact ⟨by rw [StrEncoding.rank_injective hrank], rfl⟩
    | _ => exact absurd (List.cons.inj h).1 (by decide)
  | opt e, t', r, r', h => by
    cases t' with
    | opt e' =>
      obtain ⟨rfl, rfl⟩ := spell_inj e e' r r' (List.tail_eq_of_cons_eq h)
      exact ⟨rfl, rfl⟩
    | _ => exact absurd (List.cons.inj h).1 (by decide)
  | owned e, t', r, r', h => by
    cases t' with
    | owned e' =>
      obtain ⟨rfl, rfl⟩ := spell_inj e e' r r' (List.tail_eq_of_cons_eq h)
      exact ⟨rfl, rfl⟩
    | _ => exact absurd (List.cons.inj h).1 (by decide)
  | shared e, t', r, r', h => by
    cases t' with
    | shared e' =>
      obtain ⟨rfl, rfl⟩ := spell_inj e e' r r' (List.tail_eq_of_cons_eq h)
      exact ⟨rfl, rfl⟩
    | _ => exact absurd (List.cons.inj h).1 (by decide)
  | tuple es, t', r, r', h => by
    cases t' with
    | tuple es' =>
      obtain ⟨rfl, rfl⟩ := spellAll_inj es es' r r' (List.tail_eq_of_cons_eq h)
      exact ⟨rfl, rfl⟩
    | _ => exact absurd (List.cons.inj h).1 (by decide)
  | variant es, t', r, r', h => by
    cases t' with
    | variant es' =>
      obtain ⟨rfl, rfl⟩ := spellAll_inj es es' r r' (List.tail_eq_of_cons_eq h)
      exact ⟨rfl, rfl⟩
    | _ => exact absurd (List.cons.inj h).1 (by decide)

theorem spellAll_inj : ∀ (ts ts' : List CtType) (r r' : List ℕ),
    spellAll ts r = spellAll ts' r' → ts = ts' ∧ r = r'
  | [], ts', r, r', h => by
    cases ts' with
    | nil => exact ⟨rfl, List.tail_eq_of_cons_eq h⟩
    | cons t' ts' => exact absurd (List.cons.inj h).1 (by decide)
  | t :: ts, ts', r, r', h => by
    cases ts' with
    | nil => exact absurd (List.cons.inj h).1 (by decide)
    | cons t' ts' =>
      obtain ⟨rfl, hrest⟩ := spell_inj t t' _ _ (List.tail_eq_of_cons_eq h)
      obtain ⟨rfl, rfl⟩ := spellAll_inj ts ts' r r' hrest
      exact ⟨rfl, rfl⟩

end

/-- The spelling of a type in numbers. -/
def code (t : CtType) : List ℕ := spell t []

theorem code_injective : Function.Injective code := fun t t' h => (spell_inj t t' [] [] h).1

instance : DecidableEq CtType := fun t t' =>
  decidable_of_iff (code t = code t') ⟨fun h => code_injective h, congrArg code⟩

end CtType

end CtBrowser.CtNative
