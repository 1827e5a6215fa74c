import CtBrowser.Core.Text

/-!
# Atoms

Interned strings. An atom is an index into the table that made it, and a text is in a table
once, so that atoms are equal when their texts are.

## Main definitions

- `Atom`, `AtomTable` — an interned string's id, and the strings it stands for.
- `AtomTable.text`, `AtomTable.intern` — from an atom to its text and back.

## Main results

- `intern_text` — interning an atom's text gives the atom back and adds nothing.
-/

namespace CtBrowser

/-- An interned string's id within one table. -/
structure Atom where
  -- 0 is the empty atom
  id : ℕ
  deriving DecidableEq, Repr

/-- The interned strings, by id. -/
structure AtomTable where
  storage : List Text
  -- id 0 is the empty string
  empty : storage.head? = some []
  -- the index finds a text that is there instead of adding it again
  nodup : storage.Nodup

namespace AtomTable

/-- A table before anything is interned. -/
def fresh : AtomTable := ⟨[[]], rfl, by decide⟩

/-- The text of an atom. -/
def text (t : AtomTable) (a : Atom) : Text := t.storage.getD a.id []

/-- The atom for a text, which is added when it is new. -/
def intern (t : AtomTable) (s : Text) : Atom × AtomTable :=
  if h : s ∈ t.storage then (⟨t.storage.idxOf s⟩, t)
  else (⟨t.storage.length⟩, {
    storage := t.storage ++ [s]
    empty := by
      have hempty := t.empty
      cases hstorage : t.storage with
      | nil => simp [hstorage] at hempty
      | cons first rest => simpa [hstorage] using hempty
    nodup := by
      refine List.nodup_append.mpr ⟨t.nodup, List.nodup_singleton s, ?_⟩
      rintro a ha b hb rfl
      exact h (List.mem_singleton.mp hb ▸ ha) })

/-- The atom is one the table gave out. -/
def Holds (t : AtomTable) (a : Atom) : Prop := a.id < t.storage.length

instance (t : AtomTable) (a : Atom) : Decidable (t.Holds a) := Nat.decLt ..

/-- Interning the text of an atom gives the atom back, and adds nothing to the table. -/
theorem intern_text {t : AtomTable} {a : Atom} (h : t.Holds a) : t.intern (t.text a) = (a, t) := by
  have hlt : a.id < t.storage.length := h
  have htext : t.text a = t.storage[a.id] := by
    rw [text, List.getD_eq_getElem?_getD, List.getElem?_eq_getElem hlt, Option.getD_some]
  rw [intern, htext, dif_pos (List.getElem_mem hlt), t.nodup.idxOf_getElem]

end AtomTable

end CtBrowser
