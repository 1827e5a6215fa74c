import Mathlib.Tactic

/-!
# Windows on a Shared Stack

Activation records that keep their variables in windows of one shared, growing and shrinking
vector. Windows may overlap: a callee's window usually starts inside its caller's. Foreign
calls mark the size of the vector and the depth of the record stack when they start, and cut
the vector back to the mark when they end.

## Main definitions

- `resized` — `std::vector::resize`.
- `Window`, `Mark` — the window of a record, and what a foreign call remembers.
- `WindowStack` — every window lies inside the vector, windows start in stack order, and
  every mark covers the windows below it.

## Main results

- `WindowStack.push`, `WindowStack.of_prefix`, `WindowStack.grow`, `WindowStack.mark`,
  `WindowStack.unmarkTake`, `WindowStack.cutTo` — the operations keep the discipline.
-/

namespace CtBrowser.Foundations

section Resize

variable {α : Type}

/-- A vector resized to `n` elements, new ones being `fill`. -/
def resized (n : ℕ) (fill : α) (xs : List α) : List α :=
  xs.take n ++ List.replicate (n - xs.length) fill

@[simp]
theorem length_resized (n : ℕ) (fill : α) (xs : List α) : (resized n fill xs).length = n := by
  simp only [resized, List.length_append, List.length_take, List.length_replicate]
  omega

/-- Resizing keeps the elements below the old and the new size. -/
theorem getElem?_resized {n j : ℕ} (fill : α) (xs : List α) (hj : j < n)
    (hxs : j < xs.length) : (resized n fill xs)[j]? = xs[j]? := by
  rw [resized, List.getElem?_append_left (by simpa using ⟨hj, hxs⟩),
    List.getElem?_take_of_lt hj]

/-- A vector grown to at least `n` elements. -/
def grownTo (n : ℕ) (fill : α) (xs : List α) : List α :=
  if xs.length < n then resized n fill xs else xs

/-- Growing reaches the size asked for. -/
theorem le_length_grownTo (n : ℕ) (fill : α) (xs : List α) :
    n ≤ (grownTo n fill xs).length ∧ xs.length ≤ (grownTo n fill xs).length := by
  unfold grownTo
  split_ifs with h
  · rw [length_resized]
    exact ⟨le_rfl, h.le⟩
  · exact ⟨not_lt.mp h, le_rfl⟩

/-- Growing keeps every element. -/
theorem getElem?_grownTo {n j : ℕ} (fill : α) (xs : List α) (hxs : j < xs.length) :
    (grownTo n fill xs)[j]? = xs[j]? := by
  unfold grownTo
  split_ifs with h
  · exact getElem?_resized fill xs (by omega) hxs
  · rfl

/-- A vector with `count` elements from `start` on overwritten by `v`. -/
def overwritten (start : ℕ) (v : α) : ℕ → List α → List α
  | 0, xs => xs
  | count + 1, xs => overwritten (start + 1) v count (xs.set start v)

@[simp]
theorem length_overwritten (start : ℕ) (v : α) (count : ℕ) (xs : List α) :
    (overwritten start v count xs).length = xs.length := by
  induction count generalizing start xs with
  | zero => rfl
  | succ count ih => rw [overwritten, ih, List.length_set]

/-- Overwriting keeps the elements below its start. -/
theorem getElem?_overwritten {start j : ℕ} (v : α) (count : ℕ) (xs : List α)
    (hj : j < start) : (overwritten start v count xs)[j]? = xs[j]? := by
  induction count generalizing start xs with
  | zero => rfl
  | succ count ih => rw [overwritten, ih _ (by omega), List.getElem?_set_ne (by omega)]

end Resize

/-- The part of the vector a record keeps its variables in. -/
structure Window where
  base : ℕ
  size : ℕ
deriving DecidableEq, Repr

namespace Window

/-- The end of a window. -/
def top (w : Window) : ℕ := w.base + w.size

end Window

/-- What a foreign call remembers: the size of the vector and the number of records when it
started, and a lower bound for where the record that started it may still write. -/
structure Mark where
  floor : ℕ
  stop : ℕ
  site : ℕ
deriving DecidableEq, Repr

/-- Every mark covers the windows of the records below it, innermost mark first. Records that
were unwound below an inner mark are below the outer ones too. -/
def MarksCover : List Window → List Mark → Prop
  | _, [] => True
  | ws, m :: ms =>
      (∀ w ∈ ws.take m.stop, w.top ≤ m.floor ∧ w.base ≤ m.site) ∧ MarksCover (ws.take m.stop) ms

/-- The discipline of a vector of `size` elements shared by the windows `ws`, bottom first,
under the marks `ms`, innermost first. -/
structure WindowStack (size : ℕ) (ws : List Window) (ms : List Mark) : Prop where
  -- every window lies inside the vector
  fits : ∀ w ∈ ws, w.top ≤ size
  -- a record starts at or above the one below it
  ordered : ws.Pairwise (fun v w => v.base ≤ w.base)
  -- the marks cover what lies below them
  covered : MarksCover ws ms

/-- Marks that cover records cover the ones that are left after unwinding. -/
theorem MarksCover.of_prefix {ws vs : List Window} {ms : List Mark} (h : MarksCover ws ms)
    (hle : vs <+: ws) : MarksCover vs ms := by
  induction ms generalizing ws vs with
  | nil => trivial
  | cons m ms ih =>
    have htake : vs.take m.stop <+: ws.take m.stop := hle.take m.stop
    exact ⟨fun w hw => h.1 w (htake.subset hw), ih h.2 htake⟩

/-- A record pushed above every mark changes no mark's cover. -/
theorem MarksCover.push {ws : List Window} {m : Mark} {ms : List Mark}
    (h : MarksCover ws (m :: ms)) (hstop : m.stop ≤ ws.length) (w : Window) :
    MarksCover (ws ++ [w]) (m :: ms) := by
  have htake : (ws ++ [w]).take m.stop = ws.take m.stop := List.take_append_of_le_length hstop
  unfold MarksCover at h ⊢
  rwa [htake]

namespace WindowStack

variable {size : ℕ} {ws : List Window} {ms : List Mark}

/-- The empty vector without records. -/
theorem nil : WindowStack size [] [] := ⟨by simp, .nil, trivial⟩

/-- The top record starts at or above every record. -/
theorem base_le_getLast? (h : WindowStack size ws ms) {v w : Window} (hv : v ∈ ws)
    (hw : ws.getLast? = some w) : v.base ≤ w.base := by
  obtain ⟨rest, rfl⟩ := List.getLast?_eq_some_iff.mp hw
  rcases List.mem_append.mp hv with hv | hv
  · exact (List.pairwise_append.mp h.ordered).2.2 v hv w (List.mem_singleton_self w)
  · rw [List.mem_singleton.mp hv]

/-- The vector may grow. -/
theorem grow (h : WindowStack size ws ms) {size' : ℕ} (hle : size ≤ size') :
    WindowStack size' ws ms :=
  ⟨fun w hw => (h.fits w hw).trans hle, h.ordered, h.covered⟩

/-- Records may be unwound. -/
theorem of_prefix (h : WindowStack size ws ms) {vs : List Window} (hle : vs <+: ws) :
    WindowStack size vs ms :=
  ⟨fun w hw => h.fits w (hle.subset hw), h.ordered.sublist hle.sublist,
    h.covered.of_prefix hle⟩

/-- The vector may be cut to a size every window still fits. -/
theorem cutTo (h : WindowStack size ws ms) {size' : ℕ} (hfits : ∀ w ∈ ws, w.top ≤ size') :
    WindowStack size' ws ms :=
  ⟨hfits, h.ordered, h.covered⟩

/-- A record may be pushed above the innermost mark, starting at or above the top one. -/
theorem push {m : Mark} (h : WindowStack size ws (m :: ms)) (hstop : m.stop ≤ ws.length)
    {w : Window} (hfits : w.top ≤ size) (hbase : ∀ v ∈ ws, v.base ≤ w.base) :
    WindowStack size (ws ++ [w]) (m :: ms) := by
  refine ⟨fun v hv => ?_, ?_, h.covered.push hstop w⟩
  · rcases List.mem_append.mp hv with hv | hv
    · exact h.fits v hv
    · rw [List.mem_singleton.mp hv]
      exact hfits
  · refine List.pairwise_append.mpr ⟨h.ordered, List.pairwise_singleton _ _, fun v hv u hu => ?_⟩
    rw [List.mem_singleton.mp hu]
    exact hbase v hv

/-- A foreign call may start: its mark remembers the size of the vector. -/
theorem mark (h : WindowStack size ws ms) {site : ℕ} (hsite : ∀ w ∈ ws, w.base ≤ site) :
    WindowStack size ws (⟨size, ws.length, site⟩ :: ms) := by
  refine ⟨h.fits, h.ordered, ?_, ?_⟩
  · rw [List.take_length]
    exact fun w hw => ⟨h.fits w hw, hsite w hw⟩
  · rw [List.take_length]
    exact h.covered

/-- A foreign call may end when the records it started go with it. -/
theorem unmarkTake {m : Mark} (h : WindowStack size ws (m :: ms)) :
    WindowStack size (ws.take m.stop) ms := by
  have hrest := h.of_prefix (List.take_prefix m.stop ws)
  exact ⟨hrest.fits, hrest.ordered, h.covered.2⟩

/-- Below the mark of a foreign call every window ends at its floor and starts at its site. -/
theorem top_le_floor {m : Mark} (h : WindowStack size ws (m :: ms)) {w : Window}
    (hw : w ∈ ws.take m.stop) : w.top ≤ m.floor ∧ w.base ≤ m.site :=
  h.covered.1 w hw

end WindowStack

end CtBrowser.Foundations
