import CtBrowser.Script.Vm.Entering

/-!
# Register Windows in Every Run

The window discipline along the runs of the interpreter. Only a suspension over a frame whose
window reaches past what suspension keeps, and a C++ call that ends with its own frames still
on the stack, break it.

## Main results

- `Sound.apply` — what an allowed step preserves.
- `fits_and_keeps_of_reachable` — the discipline in every run of allowed steps.
- `fits_suspendFrame_iff` — a suspension keeps every window exactly when it is allowed.
- `not_fits_and_keeps_of_reachable` — a run in which an `await` cuts a window.
-/

namespace CtBrowser.Script.Vm

open CtBrowser.Foundations

namespace Context

variable {s t : Context}

/-! ## What the waiting frames keep -/

theorem Unwinds.window_mem (hu : Unwinds s t) {i : ℕ} {f : CallFrame}
    (hf : s.frames[i]? = some f) (hi : i < t.frames.length) : f.window ∈ t.windows := by
  have hs : s.windows[i]? = some f.window := by
    rw [windows, List.getElem?_map, hf]
    rfl
  have ht : i < t.windows.length := by rwa [windows, List.length_map]
  have hget := List.IsPrefix.getElem hu.below ht
  rw [List.getElem?_eq_some_iff] at hs
  obtain ⟨hi', hs⟩ := hs
  rw [hs] at hget
  rw [← hget]
  exact List.getElem_mem ht

theorem Unwinds.length_frames_le (hu : Unwinds s t) : t.frames.length ≤ s.frames.length := by
  simpa [windows] using hu.below.length_le

theorem Unwinds.keeps (hu : Unwinds s t) {l : Label}
    (hl : waiting l s t ≤ t.frames.length - 1) : Keeps l s t := by
  intro i j hi howns
  obtain ⟨f, hf, -, -, habove⟩ := howns
  have hlt : i + 1 < t.frames.length := by omega
  have hnext := List.getElem?_eq_getElem (hlt.trans_le hu.length_frames_le)
  have hmem := hu.window_mem hnext hlt
  obtain ⟨top, htop⟩ := Option.isSome_iff_exists.mp
    (List.getLast?_isSome.mpr (List.ne_nil_of_mem hmem))
  have hbase := hu.sound.stack.base_le_getLast? hmem htop
  have hj : j < top.base := (habove _ hnext).trans_le hbase
  exact hu.kept top htop j hj

theorem Enters.keeps_of_site (h : s.Sound) (he : Enters s.site s t) {l : Label}
    (hl : waiting l s t ≤ s.frames.length - 1) : Keeps l s t := by
  intro i j hi howns
  obtain ⟨f, hf, -, -, habove⟩ := howns
  have hlt : i + 1 < s.frames.length := by omega
  have hnext := List.getElem?_eq_getElem hlt
  have hmem : s.frames[i + 1].window ∈ s.windows := List.mem_map_of_mem (List.getElem_mem hlt)
  have hbase : j < s.frames[i + 1].window.base := habove _ hnext
  have htop : s.frames[i + 1].window.top ≤ s.registers.length := h.stack.fits _ hmem
  exact he.kept j (hbase.trans_le (h.base_le_site hmem))
    (hbase.trans_le ((Nat.le_add_right _ _).trans htop))

theorem Enters.keeps (h : s.Sound) (he : Enters s.registers.length s t) {l : Label} :
    Keeps l s t := by
  intro i j _ howns
  obtain ⟨f, hf, -, hj, -⟩ := howns
  have hfits := h.fits f (List.mem_of_getElem? hf)
  exact he.kept j (hj.trans_le hfits) (hj.trans_le hfits)

theorem site_le {n : ℕ} (hn : ∀ w ∈ s.windows, w.base ≤ n) : s.site ≤ n := by
  unfold site
  split
  · exact Nat.zero_le n
  · next frame hframe =>
    exact hn frame.window (List.mem_map_of_mem (List.mem_of_getLast? hframe))

theorem Sound.unwinds_storeLate (h : s.Sound) {base : ℕ} (hbase : s.site ≤ base)
    (late : Option (UInt16 × Value)) : Unwinds s (s.storeLate base late) := by
  rcases late with _ | ⟨r, v⟩
  · exact h.unwinds_of_same rfl rfl rfl rfl
  · exact h.unwinds_writeRegister (by omega) v

theorem Unwinds.keeps_of_leaves (hu : Unwinds s t) {l : Label}
    (hl : ∀ mode, l ≠ .leave mode none) : Keeps l s t := by
  have hle := hu.length_frames_le
  refine hu.keeps ?_
  unfold waiting
  split
  iterate 4 (rw [if_neg (by omega)]; omega)
  · exact absurd rfl (hl _)
  · omega

/-! ## Steps and runs -/

/-- An allowed step that pushes no frame takes frames away at most. -/
theorem Sound.unwinds_apply (h : s.Sound) {l : Label} (hpush : l.pushesFrame = false)
    (hallowed : l.Allowed s) (henabled : l.Enabled s) : Unwinds s (l.apply s) := by
  have hfetched := h.unwinds_fetched
  cases l with
  | call | construct | invoke | runReentrant | execute | resume | generatorResume => cases hpush
  | store r v =>
    refine hfetched.trans (hfetched.sound.unwinds_writeRegister ?_ v)
    rw [site_fetched]
    exact Nat.le_add_right _ _
  | jump ip => exact h.unwinds_of_same (s.windows_mapTop fun _ => rfl) rfl rfl rfl
  | ret returned => exact hfetched.trans (hfetched.sound.unwinds_ret _ _)
  | throw v late =>
    have hthrow := h.unwinds_throwValue v
    refine hthrow.trans (hthrow.sound.unwinds_storeLate ?_ late)
    exact site_le fun w hw => h.base_le_site (hthrow.below.subset hw)
  | pushHandler one =>
    refine hfetched.trans ?_
    simp only [Label.apply, pushHandler]
    split <;> exact hfetched.sound.unwinds_of_same rfl rfl rfl rfl
  | popHandler => exact hfetched.trans (hfetched.sound.unwinds_of_same rfl rfl rfl rfl)
  | await one promise =>
    have hkeep : s.fetched.KeepsCallers := keepsCallers_mapTop (fun _ => rfl) hallowed
    exact hfetched.trans (hfetched.sound.unwinds_executeAwait hkeep _ _ _)
  | yield one =>
    have hkeep : s.fetched.KeepsCallers := keepsCallers_mapTop (fun _ => rfl) hallowed
    exact hfetched.trans (hfetched.sound.unwinds_executeYield hkeep _ _)
  | makeGenerator callee args =>
    refine ⟨⟨h.stack, fun c hc => ?_⟩, List.prefix_rfl, fun _ _ _ _ => rfl⟩
    rcases List.mem_append.mp hc with hc | hc
    · exact h.saved c hc
    · rw [List.mem_singleton.mp hc]
      exact (length_resized ..).ge
  | throwAtAwait v => exact h.unwinds_throwAtAwait v
  | leave mode late =>
    obtain ⟨r, rest, hruns, -, hlate⟩ := henabled
    have hsite : s.runSite = r.site := by simp only [runSite, hruns]
    rcases hallowed with hstop | ⟨hone, rfl⟩
    · simp only [stop, hruns] at hstop
      obtain ⟨hleave, hkept⟩ := h.unwinds_leave mode hruns (.inr hstop)
      refine hleave.trans (hleave.sound.unwinds_storeLate ?_ late)
      rw [hsite]
      exact site_le fun w hw => (hkept w hw).1
    · have hrest : rest = [] := by simpa [hruns] using hone
      subst hrest
      have hnone : late = none := by simpa using hlate
      subst hnone
      exact (h.unwinds_leave_keep hruns).1
  | takeError => exact h.unwinds_of_same rfl rfl rfl rfl

theorem Sound.enterCallee_fetched (h : s.Sound) {frame : CallFrame} (hrunning : s.Running frame)
    (one : Instruction) (callee : Callee) (constructing : Bool) (overflow : Value) :
    Unwinds s (s.fetched.enterCallee one callee constructing overflow) ∨
      Enters s.site s (s.fetched.enterCallee one callee constructing overflow) := by
  have hfetched := h.unwinds_fetched
  have hlength : s.fetched.frames.length = s.frames.length := s.length_frames_mapTop _
  have htop : s.fetched.Running { frame with ip := frame.ip + 1 } := by
    refine ⟨?_, hrunning.runs_ne_nil, by rw [hlength]; exact hrunning.stop_lt⟩
    simp only [Context.fetched, mapTop, hrunning.top, Option.map_some, Option.toList_some,
      List.getLast?_concat]
  refine (hfetched.sound.enterCallee htop one callee constructing overflow).imp hfetched.trans ?_
  intro he
  rw [site_fetched] at he
  exact ⟨he.sound, he.length_frames.trans (by rw [hlength]), he.kept⟩

theorem Sound.keeps_leave (h : s.Sound) {mode : LeaveMode}
    (hallowed : (Label.leave mode none).Allowed s) (henabled : (Label.leave mode none).Enabled s) :
    Keeps (.leave mode none) s (s.leave mode) := by
  obtain ⟨r, rest, hruns, -⟩ := henabled
  intro i j hi howns
  rcases hallowed with hstop | ⟨hone, rfl⟩
  · simp only [stop, hruns] at hstop
    obtain ⟨hleave, hkept⟩ := h.unwinds_leave mode hruns (.inr hstop)
    obtain ⟨f, hf, -, hj, -⟩ := howns
    exact (hkept f.window (hleave.window_mem hf hi)).2 j hj
  · have hrest : rest = [] := by simpa [hruns] using hone
    subst hrest
    rw [(h.unwinds_leave_keep hruns).2]

/-- An allowed step keeps a context sound and what the waiting frames own. -/
theorem Sound.apply (h : s.Sound) {l : Label} (hallowed : l.Allowed s) (henabled : l.Enabled s) :
    (l.apply s).Sound ∧ Keeps l s (l.apply s) := by
  have hunwinds : l.pushesFrame = false → Unwinds s (l.apply s) :=
    fun hpush => h.unwinds_apply hpush hallowed henabled
  cases l with
  | call one callee overflow | construct one callee overflow =>
    obtain ⟨⟨frame, hrunning, -⟩, -⟩ := henabled
    rcases h.enterCallee_fetched hrunning one callee _ overflow with hu | he
    · exact ⟨hu.sound, hu.keeps_of_leaves fun _ => by simp⟩
    · refine ⟨he.sound, he.keeps_of_site h ?_⟩
      exact Nat.sub_le_sub_right (Nat.min_le_left _ _) 1
  | invoke fenced callee args overflow =>
    rcases h.invoke fenced callee args overflow with hu | he
    · exact ⟨hu.sound, hu.keeps_of_leaves fun _ => by simp⟩
    · exact ⟨he.sound, he.keeps h⟩
  | runReentrant entry receiver =>
    exact ⟨(h.runReentrant entry receiver).sound, (h.runReentrant entry receiver).keeps h⟩
  | resume c sent => exact ⟨(h.resume henabled sent).sound, (h.resume henabled sent).keeps h⟩
  | generatorResume fenced c sent =>
    exact ⟨(h.generatorResume fenced henabled sent).sound,
      (h.generatorResume fenced henabled sent).keeps h⟩
  | execute entry receiver =>
    refine ⟨h.execute entry receiver, fun i j hi => ?_⟩
    have hone : waiting (.execute entry receiver) s (s.execute entry receiver) = 0 := by
      simp [waiting, Context.execute]
    exact absurd hi (by simp only [Label.apply, hone]; omega)
  | leave mode late =>
    have hu := hunwinds rfl
    refine ⟨hu.sound, ?_⟩
    rcases late with _ | late
    · exact h.keeps_leave hallowed henabled
    · exact hu.keeps_of_leaves fun _ => by simp
  | store | jump | ret | throw | pushHandler | popHandler | await | yield | makeGenerator
  | throwAtAwait | takeError =>
    exact ⟨(hunwinds rfl).sound, (hunwinds rfl).keeps_of_leaves fun _ => by simp⟩

theorem sound_of_reachable (hs : interpreter.Reachable Label.Allowed s) : s.Sound := by
  refine hs.invariant ?_ ?_
  · rintro _ rfl
    exact ⟨.nil, by simp⟩
  · rintro s l _ h hallowed ⟨henabled, rfl⟩
    exact (h.apply hallowed henabled).1

/-- Suspending the running frame leaves every window inside the register vector exactly when
the frames that stay keep theirs. -/
theorem fits_suspendFrame_iff (h : s.Fits) (hnil : s.frames ≠ []) (c : Option HeapRef)
    (awaitReg : UInt16) : (s.suspendFrame c awaitReg).Fits ↔ s.KeepsCallers := by
  obtain ⟨frame, hframe⟩ := Option.isSome_iff_exists.mp (List.getLast?_isSome.mpr hnil)
  have hfits : ∀ f ∈ s.frames.dropLast, f.base + f.size ≤ s.registers.length :=
    fun f hf => h f (List.dropLast_subset _ hf)
  simp only [suspendFrame, hframe, Fits, KeepsCallers]
  refine forall₂_congr fun f hf => ?_
  have hf' := hfits f hf
  split_ifs with hlonger
  · rw [length_resized]
  · exact ⟨fun _ => hf'.trans (not_lt.mp hlonger), fun _ => hf'⟩

/-- The top level of a script that needs twenty registers. -/
def wideScript : Context :=
  Label.apply {} (.execute { frameSize := 20 } .undefined)

/-- It calls a function that needs one register. -/
def narrowCallee : Context :=
  Label.apply wideScript (.call { code := .call } { proto := { frameSize := 1 } } .undefined)

/-- Which calls an async function that needs one register. -/
def asyncCallee : Context :=
  Label.apply narrowCallee (.call { code := .call } { proto := { frameSize := 1 } } .undefined)

theorem wideScript_reachable : interpreter.Reachable Label.Allowed wideScript := by
  refine .step (l := .execute _ _) (.initial rfl) ?_ ⟨?_, rfl⟩
  · trivial
  · rfl

theorem narrowCallee_reachable : interpreter.Reachable Label.Allowed narrowCallee := by
  refine .step (l := .call _ _ _) wideScript_reachable ?_ ⟨?_, rfl⟩
  · trivial
  · exact ⟨⟨_, ⟨rfl, by decide, by decide⟩, by decide⟩, by decide, rfl⟩

theorem asyncCallee_reachable : interpreter.Reachable Label.Allowed asyncCallee := by
  refine .step (l := .call _ _ _) narrowCallee_reachable ?_ ⟨?_, rfl⟩
  · trivial
  · exact ⟨⟨_, ⟨rfl, by decide, by decide⟩, by decide⟩, by decide, rfl⟩

end Context

end CtBrowser.Script.Vm
