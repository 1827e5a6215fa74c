import Mathlib.Tactic

/-!
# Committed Search

A search along a list of links: each link offers candidates in an order and wants one that
passes a test. A committed search takes the first candidate that passes and never comes
back to that choice. It finds nothing that is not there, and it finds everything when
among the candidates of a link an earlier one always leads on if a later one does.

## Main definitions

- `SearchLink` — the candidates of a link and its test.
- `commits` — the committed search.
- `Leads` — some choice of candidates passes every test.

## Main results

- `leads_of_commits` — what a committed search finds is there.
- `commits_iff_leads` — a committed search misses nothing when first choices are good.
-/

namespace CtBrowser.Foundations.CommittedSearch

variable {γ : Type*}

/-- A link of a search: the candidates it offers from a place, in order, and its test. -/
structure SearchLink (γ : Type*) where
  candidates : γ → List γ
  want : γ → Bool

/-- Takes the first candidate of each link that passes, and never comes back. -/
def commits : List (SearchLink γ) → γ → Bool
  | [], _ => true
  | link :: links, x =>
    match (link.candidates x).find? link.want with
    | none => false
    | some y => commits links y

/-- Some choice of candidates passes every test. -/
def Leads : List (SearchLink γ) → γ → Prop
  | [], _ => True
  | link :: links, x => ∃ y ∈ link.candidates x, link.want y = true ∧ Leads links y

/-- Among the candidates of a link, one that stands before another leads on if it does. -/
def FirstIsGood (link : SearchLink γ) (links : List (SearchLink γ)) : Prop :=
  ∀ x, (link.candidates x).Pairwise fun y z => Leads links z → Leads links y

/-- At every link of the search an earlier candidate leads on if a later one does. -/
def FirstsAreGood : List (SearchLink γ) → Prop
  | [] => True
  | link :: links => FirstIsGood link links ∧ FirstsAreGood links

/-- What a committed search finds is there. -/
theorem leads_of_commits {links : List (SearchLink γ)} {x : γ} (h : commits links x = true) :
    Leads links x := by
  induction links generalizing x with
  | nil => trivial
  | cons link links ih =>
    rw [commits] at h
    cases hfind : (link.candidates x).find? link.want with
    | none => simp [hfind] at h
    | some y =>
      rw [hfind] at h
      exact ⟨y, List.mem_of_find?_eq_some hfind, List.find?_some hfind, ih h⟩

/-- The first element of a list that passes a test is related to every other that does, as an
element of the list is to those after it. -/
theorem find?_related {R : γ → γ → Prop} {p : γ → Bool} {l : List γ} (hl : l.Pairwise R) {z : γ}
    (hz : z ∈ l) (hp : p z = true) : ∃ y, l.find? p = some y ∧ (y = z ∨ R y z) := by
  induction l with
  | nil => cases hz
  | cons w rest ih =>
    obtain ⟨hw, hrest⟩ := List.pairwise_cons.mp hl
    by_cases hpw : p w = true
    · refine ⟨w, by simp [hpw], ?_⟩
      rcases List.mem_cons.mp hz with rfl | hz
      · exact .inl rfl
      · exact .inr (hw z hz)
    · have hne : z ≠ w := by
        rintro rfl
        exact hpw hp
      obtain ⟨y, hy, hyz⟩ := ih hrest ((List.mem_cons.mp hz).resolve_left hne)
      exact ⟨y, by simp [hpw, hy], hyz⟩

/-- A committed search misses nothing when first choices are good. -/
theorem commits_iff_leads {links : List (SearchLink γ)} (hgood : FirstsAreGood links) (x : γ) :
    commits links x = true ↔ Leads links x := by
  refine ⟨leads_of_commits, fun h => ?_⟩
  induction links generalizing x with
  | nil => rfl
  | cons link links ih =>
    obtain ⟨z, hz, hwant, hleads⟩ := h
    obtain ⟨y, hfind, hyz⟩ := find?_related (hgood.1 x) hz hwant
    rw [commits, hfind]
    apply ih hgood.2
    rcases hyz with rfl | hyz
    · exact hleads
    · exact hyz hleads

end CtBrowser.Foundations.CommittedSearch
