import CtBrowser.Script.Vm.Steps

/-!
# Register Windows

Every frame keeps its registers in a window of the one register vector. The windows overlap: a
callee's frame starts inside its caller's call window, so what a waiting frame still owns is
the part of its window below the base of the frame above it.

## Main definitions

- `Context.Fits` — every window lies inside the register vector.
- `Owns`, `Keeps` — what a frame owns, and that a step leaves it alone.
- `Context.Sound` — the invariant: a window stack under the marks of the C++ calls.
- `Context.KeepsCallers`, `Label.Allowed` — the suspensions, and the steps, that keep the
  discipline.
-/

namespace CtBrowser.Script.Vm

open CtBrowser.Foundations

/-- Register `j` is owned by frame `i`: it lies in the frame's window, below the base of the
frame above it. -/
def Owns (frames : List CallFrame) (i j : ℕ) : Prop :=
  ∃ f, frames[i]? = some f ∧ f.base ≤ j ∧ j < f.base + f.size ∧
    ∀ g, frames[i + 1]? = some g → j < g.base

/-- The number of frames, from the bottom, that neither ran nor were returned to in a step:
a call out of C++ runs no frame that was there, its return runs none that is left, and every
other step runs the top frame and may hand control to the one that is on top after it. -/
def waiting (l : Label) (s t : Context) : ℕ :=
  match l with
  | .invoke .. | .runReentrant .. | .resume .. | .generatorResume .. =>
      if s.frames.length < t.frames.length then s.frames.length
      else min s.frames.length t.frames.length - 1
  | .leave _ none => t.frames.length
  | _ => min s.frames.length t.frames.length - 1

/-- A step leaves what the waiting frames own as it was. -/
def Keeps (l : Label) (s t : Context) : Prop :=
  ∀ i j, i < waiting l s t → Owns s.frames i j → t.registers[j]? = s.registers[j]?

namespace Context

/-- The windows of the frames. -/
def windows (s : Context) : List Window := s.frames.map CallFrame.window

/-- The marks of the C++ calls that run the loop. -/
def marks (s : Context) : List Mark := s.runs.map fun r => ⟨r.base, r.stop, r.site⟩

/-- Every frame's window lies inside the register vector. -/
def Fits (s : Context) : Prop := ∀ f ∈ s.frames, f.base + f.size ≤ s.registers.length

/-- The windows form a stack under the marks of the C++ calls, and every suspended window has
the size its frame needs. -/
structure Sound (s : Context) : Prop where
  stack : WindowStack s.registers.length s.windows s.marks
  saved : ∀ c ∈ s.coroutines, c.proto.frameSize.toNat ≤ c.window.length

/-- The frames that stay keep their windows when the running frame is suspended. -/
def KeepsCallers (s : Context) : Prop :=
  ∀ f ∈ s.frames.dropLast, f.base + f.size ≤ s.keptSize

end Context

/-- The steps that keep the discipline: a suspension keeps the window of every frame that
stays, and a C++ call that ran the loop ends with its own frames gone, the top level of a
script excepted. -/
def Label.Allowed (s : Context) : Label → Prop
  | .await _ _ | .yield _ => s.KeepsCallers
  | .leave mode _ => s.frames.length ≤ s.stop ∨ (s.runs.length = 1 ∧ mode = .keep)
  | _ => True

namespace Context

variable {s t : Context}

/-! ## Frames and windows -/

theorem Sound.fits (h : s.Sound) : s.Fits :=
  fun f hf => h.stack.fits f.window (List.mem_map_of_mem hf)

theorem getLast?_windows {f : CallFrame} (hf : s.frames.getLast? = some f) :
    s.windows.getLast? = some f.window := by
  rw [windows, List.getLast?_map, hf]
  rfl

theorem Sound.base_le_site (h : s.Sound) {w : Window} (hw : w ∈ s.windows) :
    w.base ≤ s.site := by
  unfold site
  cases htop : s.frames.getLast? with
  | none =>
    rw [windows, List.getLast?_eq_none_iff.mp htop] at hw
    cases hw
  | some g => exact h.stack.base_le_getLast? hw (getLast?_windows htop)

theorem windows_mapTop (s : Context) {f : CallFrame → CallFrame}
    (hf : ∀ g, (f g).window = g.window) : (s.mapTop f).windows = s.windows := by
  rcases s.frames.eq_nil_or_concat with hnil | ⟨rest, top, htop⟩
  · simp [mapTop, windows, hnil]
  · simp [mapTop, windows, htop, hf]

theorem length_frames_mapTop (s : Context) (f : CallFrame → CallFrame) :
    (s.mapTop f).frames.length = s.frames.length := by
  rcases s.frames.eq_nil_or_concat with hnil | ⟨rest, top, htop⟩
  · simp [mapTop, hnil]
  · simp [mapTop, htop]

@[simp]
theorem windows_fetched (s : Context) : s.fetched.windows = s.windows :=
  s.windows_mapTop fun _ => rfl

end Context

end CtBrowser.Script.Vm
