import CtBrowser.Script.Vm.RegisterWindows

/-!
# Taking Frames Away

Returns, throws, suspensions and the ends of C++ calls take frames away and write no register
below the top frame that is left.

## Main definitions

- `Unwinds` — a sound context with none but frames of another, and their registers.

## Main results

- `Sound.unwinds_throwValue`, `Sound.unwinds_ret`, `Sound.unwinds_executeAwait`,
  `Sound.unwinds_executeYield`, `Sound.unwinds_leave`, `Sound.unwinds_throwAtAwait` — one for
  each operation.
-/

namespace CtBrowser.Script.Vm

open CtBrowser.Foundations

namespace Context

variable {s t : Context}

/-- A sound context `t` with none but frames of `s`, whose registers below the top one of them
are as they were. -/
structure Unwinds (s t : Context) : Prop where
  sound : t.Sound
  below : t.windows <+: s.windows
  kept : ∀ w, t.windows.getLast? = some w → ∀ j < w.base, t.registers[j]? = s.registers[j]?

theorem Sound.unwinds_of_eq (h : s.Sound) (hwindows : t.windows = s.windows)
    (hmarks : t.marks = s.marks) (hcoroutines : t.coroutines = s.coroutines)
    (hregisters : s.registers.length ≤ t.registers.length)
    (hkept : ∀ j < s.site, j < s.registers.length → t.registers[j]? = s.registers[j]?) :
    Unwinds s t := by
  refine ⟨⟨?_, by rw [hcoroutines]; exact h.saved⟩, by rw [hwindows], fun w hw j hj => ?_⟩
  · rw [hwindows, hmarks]
    exact h.stack.grow hregisters
  · have hmem : w ∈ s.windows := by
      rw [← hwindows]
      exact List.mem_of_getLast? hw
    have hsite : w.base ≤ s.site := h.base_le_site hmem
    have htop : w.base + w.size ≤ s.registers.length := h.stack.fits w hmem
    exact hkept j (by omega) (by omega)

theorem Sound.unwinds_of_same (h : s.Sound) (hwindows : t.windows = s.windows)
    (hmarks : t.marks = s.marks) (hcoroutines : t.coroutines = s.coroutines)
    (hregisters : t.registers = s.registers) : Unwinds s t := by
  refine h.unwinds_of_eq hwindows hmarks hcoroutines ?_ fun j _ _ => ?_
  · rw [hregisters]
  · rw [hregisters]

theorem Unwinds.trans {u : Context} (hst : Unwinds s t) (htu : Unwinds t u) : Unwinds s u := by
  refine ⟨htu.sound, htu.below.trans hst.below, fun w hw j hj => ?_⟩
  have hmem : w ∈ t.windows := htu.below.subset (List.mem_of_getLast? hw)
  obtain ⟨top, htop⟩ := Option.isSome_iff_exists.mp
    (List.getLast?_isSome.mpr (List.ne_nil_of_mem hmem))
  have hbase : w.base ≤ top.base := hst.sound.stack.base_le_getLast? hmem htop
  rw [htu.kept w hw j hj, hst.kept top htop j (by omega)]

theorem Sound.unwinds_writeRegister (h : s.Sound) {index : ℕ} (hindex : s.site ≤ index)
    (v : Value) : Unwinds s (s.writeRegister index v) := by
  refine h.unwinds_of_eq rfl rfl rfl (List.length_set ..).ge fun j hj _ => ?_
  exact List.getElem?_set_ne (by omega)

theorem Sound.unwinds_fetched (h : s.Sound) : Unwinds s s.fetched :=
  h.unwinds_of_same s.windows_fetched rfl rfl rfl

@[simp]
theorem site_fetched (s : Context) : s.fetched.site = s.site := by
  rcases s.frames.eq_nil_or_concat with hnil | ⟨rest, top, htop⟩
  · simp [fetched, mapTop, site, hnil]
  · simp [fetched, mapTop, site, htop]

/-- Going to a handler writes its register in the frame it belongs to, which is the top one
then. -/
theorem Sound.unwinds_land (h : s.Sound) (handler : Handler) (below : List Handler) :
    Unwinds s (s.land handler below) := by
  simp only [land]
  cases htarget : (s.frames.take (handler.frame + 1)).getLast? with
  | none => exact h.unwinds_of_same rfl rfl rfl rfl
  | some target =>
    obtain ⟨rest, hrest⟩ := List.getLast?_eq_some_iff.mp htarget
    have hmap : ((s.frames.take (handler.frame + 1)).dropLast ++
        [target.landedAt handler]).map CallFrame.window =
        (s.frames.take (handler.frame + 1)).map CallFrame.window := by
      rw [hrest, List.dropLast_concat, List.map_append, List.map_append, List.map_singleton,
        List.map_singleton, CallFrame.window_landedAt]
    have hbelow : (s.frames.take (handler.frame + 1)).map CallFrame.window <+: s.windows :=
      (List.take_prefix _ _).map _
    rw [← hmap] at hbelow
    have hgrown := le_length_grownTo handler.regTop Value.undefined s.registers
    refine ⟨⟨?_, h.saved⟩, hbelow, fun w hw j hj => ?_⟩
    · rw [List.length_set]
      exact (h.stack.of_prefix hbelow).grow hgrown.2
    · have hw' : target.window = w := by
        simpa [windows] using hw
      have htop : w.top ≤ s.registers.length :=
        h.stack.fits w (hbelow.subset (List.mem_of_getLast? hw))
      have hlength : j < s.registers.length := hj.trans_le ((Nat.le_add_right _ _).trans htop)
      have hbase : j < target.base := by
        rw [← hw'] at hj
        exact hj
      rw [List.getElem?_set_ne (by omega)]
      exact getElem?_grownTo _ _ hlength

theorem Sound.unwinds_unwind (h : s.Sound) (hs : List Handler) :
    Unwinds s (s.unwind hs).2 := by
  induction hs with
  | nil => exact h.unwinds_of_same rfl rfl rfl rfl
  | cons handler below ih =>
    unfold unwind
    split_ifs
    · have htake : (s.frames.take handler.frame).map CallFrame.window <+: s.windows :=
        (List.take_prefix _ _).map _
      exact ⟨⟨h.stack.of_prefix htake, h.saved⟩, htake, fun _ _ _ _ => rfl⟩
    · exact ih
    · exact h.unwinds_land handler below.reverse

/-- Throwing. -/
theorem Sound.unwinds_throwValue (h : s.Sound) (v : Value) : Unwinds s (s.throwValue v) := by
  have hthrown : Unwinds s { s with thrown := v } := h.unwinds_of_same rfl rfl rfl rfl
  have hunwind : Unwinds s ({ s with thrown := v } : Context).unwindToHandler.2 :=
    hthrown.trans (hthrown.sound.unwinds_unwind _)
  unfold throwValue
  split
  · next t ht =>
    rw [ht] at hunwind
    exact hunwind
  · next t ht =>
    rw [ht] at hunwind
    exact hunwind.trans (hunwind.sound.unwinds_of_same rfl rfl rfl rfl)

theorem Sound.unwinds_popFence (h : s.Sound) (fenceMark : Option ℕ) :
    Unwinds s (s.popFence fenceMark) := by
  unfold popFence
  split
  · exact h.unwinds_of_same rfl rfl rfl rfl
  · split_ifs <;> exact h.unwinds_of_same rfl rfl rfl rfl

/-- Returning writes a register of the caller, which is the top frame then. -/
theorem Sound.unwinds_ret (h : s.Sound) (stop : ℕ) (returned : Value) :
    Unwinds s (s.ret stop returned) := by
  unfold ret
  cases htop : s.frames.getLast? with
  | none => exact h.unwinds_of_same rfl rfl rfl rfl
  | some frame =>
    have hdrop : s.frames.dropLast.map CallFrame.window <+: s.windows :=
      (List.dropLast_prefix _).map _
    have hpopped : ∀ handlers, Unwinds s { s with frames := s.frames.dropLast, handlers } :=
      fun _ => ⟨⟨h.stack.of_prefix hdrop, h.saved⟩, hdrop, fun _ _ _ _ => rfl⟩
    dsimp only
    split_ifs
    · exact hpopped _
    · exact hpopped _
    all_goals
      cases hcaller : s.frames.dropLast.getLast? with
      | none => exact hpopped _
      | some caller =>
        refine (hpopped _).trans ((hpopped _).sound.unwinds_writeRegister ?_ returned)
        simp [site, hcaller]

/-! ## Suspension -/

theorem forall_mem_modify {α : Type} {P : α → Prop} {f : α → α} {xs : List α}
    (hxs : ∀ x ∈ xs, P x) (hf : ∀ x, P x → P (f x)) (i : ℕ) : ∀ x ∈ xs.modify i f, P x := by
  intro x hx
  obtain ⟨k, hk⟩ := List.mem_iff_getElem?.mp hx
  rw [List.getElem?_modify] at hk
  cases hold : xs[k]? with
  | none => simp [hold] at hk
  | some old =>
    have hP : P old := hxs old (List.mem_of_getElem? hold)
    rw [hold] at hk
    split_ifs at hk <;> cases hk
    · exact hf old hP
    · exact hP

theorem dropLast_mapTop (s : Context) (f : CallFrame → CallFrame) :
    (s.mapTop f).frames.dropLast = s.frames.dropLast := by
  rcases s.frames.eq_nil_or_concat with hnil | ⟨rest, top, htop⟩
  · simp [mapTop, hnil]
  · simp [mapTop, htop]

theorem keptSize_mapTop (s : Context) {f : CallFrame → CallFrame}
    (hf : ∀ g, (f g).base = g.base) : (s.mapTop f).keptSize = s.keptSize := by
  unfold keptSize
  rw [dropLast_mapTop]
  rcases s.frames.eq_nil_or_concat with hnil | ⟨rest, top, htop⟩
  · simp [mapTop, hnil]
  · simp [mapTop, htop, hf]

theorem keepsCallers_mapTop {f : CallFrame → CallFrame} (hf : ∀ g, (f g).base = g.base)
    (hkeep : s.KeepsCallers) : (s.mapTop f).KeepsCallers := by
  unfold KeepsCallers
  rwa [dropLast_mapTop, keptSize_mapTop s hf]

theorem Sound.saved_suspendFrame (h : s.Sound) {frame : CallFrame}
    (hframe : s.frames.getLast? = some frame) (saved : Coroutine) (awaitReg : UInt16) :
    (s.savedAs frame saved awaitReg).proto.frameSize.toNat ≤
      (s.savedAs frame saved awaitReg).window.length := by
  have hfits := h.fits frame (List.mem_of_getLast? hframe)
  have hlength : (s.savedAs frame saved awaitReg).window.length =
      s.registers.length - frame.base := List.length_drop ..
  have hsize : (s.savedAs frame saved awaitReg).proto.frameSize.toNat = frame.size := rfl
  rw [hlength, hsize]
  omega

/-- Suspending a frame over callers that keep their windows. -/
theorem Sound.unwinds_suspendFrame (h : s.Sound) (hkeep : s.KeepsCallers)
    (c : Option HeapRef) (awaitReg : UInt16) : Unwinds s (s.suspendFrame c awaitReg) := by
  unfold suspendFrame
  cases hframe : s.frames.getLast? with
  | none => exact h.unwinds_of_same rfl rfl rfl rfl
  | some frame =>
    have hbelow : s.frames.dropLast.map CallFrame.window <+: s.windows :=
      (List.dropLast_prefix _).map _
    have hkept : ∀ w ∈ s.frames.dropLast.map CallFrame.window, w.top ≤ s.keptSize := by
      intro w hw
      obtain ⟨f, hf, rfl⟩ := List.mem_map.mp hw
      exact hkeep f hf
    have hfits : ∀ w ∈ s.frames.dropLast.map CallFrame.window, w.top ≤ s.registers.length :=
      fun w hw => h.stack.fits w (hbelow.subset hw)
    refine ⟨⟨?_, ?_⟩, hbelow, fun w hw j hj => ?_⟩
    · refine (h.stack.of_prefix hbelow).cutTo fun w hw => ?_
      dsimp only
      split_ifs
      · rw [length_resized]
        exact hkept w hw
      · exact hfits w hw
    · have hsaved := h.saved_suspendFrame hframe
      rcases c with _ | i
      · intro coroutine hc
        rcases List.mem_append.mp hc with hc | hc
        · exact h.saved coroutine hc
        · rw [List.mem_singleton.mp hc]
          exact hsaved _ _
      · exact forall_mem_modify h.saved (fun saved _ => hsaved saved awaitReg) i
    · have hmem := List.mem_of_getLast? hw
      have hj' : j < w.top := hj.trans_le (Nat.le_add_right _ _)
      dsimp only
      split_ifs
      · exact getElem?_resized _ _ (hj'.trans_le (hkept w hmem)) (hj'.trans_le (hfits w hmem))
      · rfl

/-- Awaiting over callers that keep their windows. -/
theorem Sound.unwinds_executeAwait (h : s.Sound) (hkeep : s.KeepsCallers) (stop : ℕ)
    (one : Instruction) (promise : Value) : Unwinds s (s.executeAwait stop one promise) := by
  have hpromise : ∀ g : CallFrame,
      (if g.asyncPromise.isUndefined then { g with asyncPromise := promise } else g).window =
        g.window := by
    intro g
    split_ifs <;> rfl
  unfold executeAwait
  generalize ht : (s.mapTop fun frame =>
    if frame.asyncPromise.isUndefined then { frame with asyncPromise := promise } else frame) = t
  have hst : Unwinds s t := by
    rw [← ht]
    exact h.unwinds_of_same (s.windows_mapTop hpromise) rfl rfl rfl
  have hcallers : t.KeepsCallers := by
    rw [← ht]
    exact keepsCallers_mapTop (fun g => congrArg Window.base (hpromise g)) hkeep
  dsimp only
  cases hframe : t.frames.getLast? with
  | none => exact h.unwinds_of_same rfl rfl rfl rfl
  | some frame =>
    have hsuspend := hst.trans
      (hst.sound.unwinds_suspendFrame hcallers frame.generator one.a)
    have hsuspended := hsuspend.trans
      (hsuspend.sound.unwinds_of_same (t := { t.suspendFrame frame.generator one.a with
        suspended := true }) rfl rfl rfl rfl)
    dsimp only
    split_ifs
    · exact hsuspended
    · split
      · exact hsuspended
      · next caller hcaller =>
        refine hsuspended.trans (hsuspended.sound.unwinds_writeRegister ?_ _)
        simp only [site, hcaller]
        omega

/-- Yielding over callers that keep their windows. -/
theorem Sound.unwinds_executeYield (h : s.Sound) (hkeep : s.KeepsCallers) (stop : ℕ)
    (one : Instruction) : Unwinds s (s.executeYield stop one) := by
  unfold executeYield
  split
  · exact h.unwinds_of_same rfl rfl rfl rfl
  · split
    · exact h.unwinds_of_same rfl rfl rfl rfl
    · next c _ =>
      have hsuspend := h.unwinds_suspendFrame hkeep (some c) one.a
      dsimp only
      split_ifs
      · exact hsuspend.trans (hsuspend.sound.unwinds_of_same rfl rfl rfl rfl)
      · exact hsuspend.trans (hsuspend.sound.unwinds_of_same rfl rfl rfl rfl)

/-! ## Leaving the loop -/

theorem popFence_stacks (s : Context) (fenceMark : Option ℕ) :
    (s.popFence fenceMark).registers = s.registers ∧
      (s.popFence fenceMark).frames = s.frames ∧
      (s.popFence fenceMark).coroutines = s.coroutines := by
  unfold popFence
  split
  · exact ⟨rfl, rfl, rfl⟩
  · split_ifs <;> exact ⟨rfl, rfl, rfl⟩

/-- The end of a C++ call that takes the frames above its own start with it: the registers
below the windows that are left are as they were. -/
theorem Sound.unwinds_leave (h : s.Sound) (mode : LeaveMode) {r : Run} {rest : List Run}
    (hruns : s.runs = r :: rest)
    (hstop : mode = .abandon ∨ s.frames.length ≤ r.stop) :
    Unwinds s (s.leave mode) ∧ ∀ w ∈ (s.leave mode).windows, w.base ≤ r.site ∧
      ∀ j < w.top, (s.leave mode).registers[j]? = s.registers[j]? := by
  obtain ⟨hregisters, hframes, hcoroutines⟩ := popFence_stacks s r.fenceMark
  have hstack : WindowStack s.registers.length s.windows (⟨r.base, r.stop, r.site⟩ ::
      rest.map fun r => ⟨r.base, r.stop, r.site⟩) := by
    have hstack := h.stack
    rwa [marks, hruns, List.map_cons] at hstack
  have hmarks : (s.leave mode).marks = rest.map fun r => ⟨r.base, r.stop, r.site⟩ := by
    simp only [leave, hruns, marks]
  have hwindows : (s.leave mode).windows = s.windows.take r.stop := by
    have htake : mode ≠ .abandon → s.frames.take r.stop = s.frames := fun hmode =>
      List.take_of_length_le (hstop.resolve_left hmode)
    rw [windows, windows, ← List.map_take]
    cases mode <;> simp [leave, hruns, hframes, htake]
  have hlength : s.registers.length ≤ (s.leave mode).registers.length ∨
      r.base ≤ (s.leave mode).registers.length := by
    simp only [leave, hruns, hregisters]
    cases mode with
    | keep => exact .inl le_rfl
    | cut =>
      dsimp only
      split_ifs
      · exact .inr (length_resized ..).ge
      · exact .inl le_rfl
    | finish => exact .inr (length_resized ..).ge
    | abandon => exact .inr (length_resized ..).ge
  have hbelow : ∀ j < r.base, j < s.registers.length →
      (s.leave mode).registers[j]? = s.registers[j]? := by
    intro j hbase hj
    simp only [leave, hruns, hregisters]
    cases mode with
    | keep => rfl
    | cut =>
      dsimp only
      split_ifs
      · exact getElem?_resized _ _ hbase hj
      · rfl
    | finish => exact getElem?_resized _ _ hbase hj
    | abandon => exact getElem?_resized _ _ hbase hj
  have hkept : ∀ w ∈ (s.leave mode).windows, w.base ≤ r.site ∧
      ∀ j < w.top, (s.leave mode).registers[j]? = s.registers[j]? := by
    intro w hw
    rw [hwindows] at hw
    have hfloor := hstack.top_le_floor hw
    have htop : w.top ≤ s.registers.length := h.stack.fits w (List.mem_of_mem_take hw)
    exact ⟨hfloor.2, fun j hj => hbelow j (hj.trans_le hfloor.1) (hj.trans_le htop)⟩
  refine ⟨⟨⟨?_, ?_⟩, ?_, fun w hw j hj => ?_⟩, hkept⟩
  · rw [hwindows, hmarks]
    refine hstack.unmarkTake.cutTo fun w hw => ?_
    have hfloor := hstack.top_le_floor hw
    have htop : w.top ≤ s.registers.length := h.stack.fits w (List.mem_of_mem_take hw)
    rcases hlength with hlength | hlength
    · exact htop.trans hlength
    · exact hfloor.1.trans hlength
  · simp only [leave, hruns, hcoroutines]
    exact h.saved
  · rw [hwindows]
    exact List.take_prefix _ _
  · exact (hkept w (List.mem_of_getLast? hw)).2 j (hj.trans_le (Nat.le_add_right _ _))

theorem Sound.unwinds_leave_keep (h : s.Sound) {r : Run} (hruns : s.runs = [r]) :
    Unwinds s (s.leave .keep) ∧ (s.leave .keep).registers = s.registers := by
  obtain ⟨hregisters, hframes, hcoroutines⟩ := popFence_stacks s r.fenceMark
  have hsame : (s.leave .keep).registers = s.registers := by
    simp only [leave, hruns, hregisters]
  have hwindows : (s.leave .keep).windows = s.windows := by
    simp only [leave, hruns, windows, hframes]
  have hmarks : (s.leave .keep).marks = [] := by
    simp only [leave, hruns, marks, List.map_nil]
  refine ⟨⟨⟨?_, ?_⟩, by rw [hwindows], fun w _ j _ => by rw [hsame]⟩, hsame⟩
  · rw [hsame, hwindows, hmarks]
    exact ⟨h.stack.fits, h.stack.ordered, trivial⟩
  · simp only [leave, hruns, hcoroutines]
    exact h.saved

theorem runs_unwind (s : Context) (hs : List Handler) : (s.unwind hs).2.runs = s.runs := by
  induction hs with
  | nil => rfl
  | cons handler below ih =>
    unfold unwind
    split_ifs
    · rfl
    · exact ih
    · simp only [land]
      split <;> rfl

/-- Throwing a rejection into a coroutine that was put back. -/
theorem Sound.unwinds_throwAtAwait (h : s.Sound) (v : Value) :
    Unwinds s (s.throwAtAwait v) := by
  have hthrown : Unwinds s { s with thrown := v } := h.unwinds_of_same rfl rfl rfl rfl
  have hunwind : Unwinds s ({ s with thrown := v } : Context).unwindToHandler.2 :=
    hthrown.trans (hthrown.sound.unwinds_unwind _)
  unfold throwAtAwait
  split
  · next t ht =>
    rw [ht] at hunwind
    exact hunwind
  · next t ht =>
    rw [ht] at hunwind
    split
    · exact hunwind
    · next r rest hruns =>
      have htruns : t.runs = r :: rest := by
        have hsame := runs_unwind { s with thrown := v } s.handlers.reverse
        rw [show ({ s with thrown := v } : Context).unwind s.handlers.reverse = (false, t) from ht]
          at hsame
        exact hsame.trans hruns
      have hleave := hunwind.trans (hunwind.sound.unwinds_leave .abandon htruns (.inl rfl)).1
      exact hleave.trans (hleave.sound.unwinds_of_same rfl rfl rfl rfl)

end Context

end CtBrowser.Script.Vm
