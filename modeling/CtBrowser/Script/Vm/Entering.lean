import CtBrowser.Script.Vm.Unwinding

/-!
# Pushing Frames

Calls by opcodes push a frame that starts inside the caller's window; calls from C++ and
coroutines that are put back push one past the end of the register vector.

## Main definitions

- `Enters` — a sound context with one frame more.

## Main results

- `Sound.enterCallee`, `Sound.invoke`, `Sound.runReentrant`, `Sound.resume`,
  `Sound.generatorResume` — one for each operation.
-/

namespace CtBrowser.Script.Vm

open CtBrowser.Foundations

namespace Context

variable {s t : Context}

/-- A sound context with a frame on top of the frames of `s`, whose registers below `limit` are
as they were. -/
structure Enters (limit : ℕ) (s t : Context) : Prop where
  sound : t.Sound
  length_frames : t.frames.length = s.frames.length + 1
  kept : ∀ j < limit, j < s.registers.length → t.registers[j]? = s.registers[j]?

/-- A call opcode pushes a frame that starts above its caller's, or throws. -/
theorem Sound.enterCallee (h : s.Sound) {frame : CallFrame} (hrunning : s.Running frame)
    (one : Instruction) (callee : Callee) (constructing : Bool) (overflow : Value) :
    Unwinds s (s.enterCallee one callee constructing overflow) ∨
      Enters s.site s (s.enterCallee one callee constructing overflow) := by
  obtain ⟨htop, hruns, hstop⟩ := hrunning
  obtain ⟨r, rest, hr⟩ := List.exists_cons_of_ne_nil hruns
  have hsite : s.site = frame.base := by simp only [site, htop]
  simp only [Context.enterCallee, htop]
  generalize hbase : frame.base + one.a.toNat + 1 = newBase
  have hgrown := le_length_grownTo (newBase + callee.proto.frameSize.toNat + slack)
    Value.undefined s.registers
  have hlength : (s.calleeRegisters newBase callee.proto one.b.toNat).length =
      (grownTo (newBase + callee.proto.frameSize.toNat + slack) .undefined s.registers).length :=
    length_overwritten ..
  have hkept : ∀ j < s.site, j < s.registers.length →
      (s.calleeRegisters newBase callee.proto one.b.toNat)[j]? = s.registers[j]? := by
    intro j hj hjlength
    rw [calleeRegisters, getElem?_overwritten _ _ _ (by omega), getElem?_grownTo _ _ hjlength]
  split_ifs
  · have hregisters : Unwinds s
        { s with registers := s.calleeRegisters newBase callee.proto one.b.toNat } :=
      h.unwinds_of_eq rfl rfl rfl (hlength ▸ hgrown.2) hkept
    exact .inl (hregisters.trans (hregisters.sound.unwinds_throwValue overflow))
  · refine .inr ⟨⟨?_, h.saved⟩, by simp, hkept⟩
    have hstack := h.stack.grow (hlength ▸ hgrown.2)
    have hmarks : s.marks = ⟨r.base, r.stop, r.site⟩ ::
        rest.map fun r => ⟨r.base, r.stop, r.site⟩ := by
      rw [marks, hr, List.map_cons]
    have hstop' : r.stop ≤ s.windows.length := by
      rw [windows, List.length_map]
      simp only [stop, hr] at hstop
      exact hstop.le
    rw [hmarks] at hstack
    have hpush := hstack.push (w := ⟨newBase, callee.proto.frameSize.toNat⟩) hstop'
      (by rw [hlength]; exact (Nat.le_add_right _ slack).trans hgrown.1)
      (fun v hv => (h.base_le_site hv).trans (by rw [hsite, ← hbase]; dsimp only; omega))
    simpa [windows, marks, hr, CallFrame.window, CallFrame.size] using hpush

/-- A C++ call that runs the loop pushes a frame past the end of the register vector, and
remembers where the vector and the frames ended. -/
theorem Sound.enters (h : s.Sound) {f : CallFrame} {r : Run}
    (hframes : t.frames = s.frames ++ [f]) (hruns : t.runs = r :: s.runs)
    (hbase : f.base = s.registers.length) (hrbase : r.base = s.registers.length)
    (hrstop : r.stop = s.frames.length) (hrsite : r.site = s.site)
    (hlength : s.registers.length + f.size ≤ t.registers.length)
    (hkept : ∀ j < s.registers.length, t.registers[j]? = s.registers[j]?)
    (hsaved : ∀ c ∈ t.coroutines, c.proto.frameSize.toNat ≤ c.window.length) :
    Enters s.registers.length s t := by
  refine ⟨⟨?_, hsaved⟩, by simp [hframes], fun j hj _ => hkept j hj⟩
  have hgrown := h.stack.grow (Nat.le_of_add_right_le hlength)
  have hmark : WindowStack t.registers.length s.windows (⟨r.base, r.stop, r.site⟩ :: s.marks) := by
    refine ⟨hgrown.fits, hgrown.ordered, ?_⟩
    have hcovered := (h.stack.mark fun w hw => h.base_le_site hw).covered
    rw [windows, List.length_map] at hcovered
    rw [hrbase, hrstop, hrsite, windows]
    exact hcovered
  have hpush := hmark.push (w := f.window) (by rw [hrstop, windows, List.length_map])
    (by rw [← hbase] at hlength; exact hlength)
    (fun v hv => (Nat.le_add_right _ _).trans ((h.stack.fits v hv).trans hbase.ge))
  simpa [windows, marks, hframes, hruns] using hpush

theorem Sound.pushFence (h : s.Sound) (fenced : Bool) : (s.pushFence fenced).Sound ∧
    (s.pushFence fenced).registers = s.registers ∧ (s.pushFence fenced).frames = s.frames ∧
    (s.pushFence fenced).runs = s.runs ∧
    (s.pushFence fenced).coroutines = s.coroutines := by
  unfold Context.pushFence
  split_ifs
  · exact ⟨⟨h.stack, h.saved⟩, rfl, rfl, rfl, rfl⟩
  · exact ⟨h, rfl, rfl, rfl, rfl⟩

/-- A call from C++ pushes a frame past the end of the register vector, or throws. -/
theorem Sound.invoke (h : s.Sound) (fenced : Bool) (callee : Callee) (args : List Value)
    (overflow : Value) : Unwinds s (s.invoke fenced callee args overflow) ∨
      Enters s.registers.length s (s.invoke fenced callee args overflow) := by
  obtain ⟨hsound, hregisters, hframes, hruns, hcoroutines⟩ := h.pushFence fenced
  have hwindow : callee.proto.frameSize.toNat ≤ (argumentWindow callee.proto args).length := by
    rw [argumentWindow, length_resized]
    omega
  unfold Context.invoke
  dsimp only
  split_ifs
  · refine .inl ?_
    have hgrown : Unwinds s { s.pushFence fenced with
        registers := (s.pushFence fenced).registers ++ argumentWindow callee.proto args } := by
      refine h.unwinds_of_eq ?_ ?_ hcoroutines ?_ fun j _ hj => ?_
      · simp only [windows, hframes]
      · simp only [marks, hruns]
      · simp only [hregisters, List.length_append]
        omega
      · simp only [hregisters]
        exact List.getElem?_append_left hj
    have hthrow := hgrown.trans (hgrown.sound.unwinds_throwValue overflow)
    exact hthrow.trans (hthrow.sound.unwinds_popFence _)
  · refine .inr (h.enters (by rw [hframes]) (by rw [hruns]) (by rw [hregisters])
      (by rw [hregisters]) (by rw [hframes]) (by simp only [site, hframes]) ?_ (fun j hj => ?_) ?_)
    · rw [List.length_append, hregisters]
      exact Nat.add_le_add_left hwindow _
    · rw [hregisters]
      exact List.getElem?_append_left hj
    · rw [hcoroutines]
      exact h.saved

/-- A module run inside another program's turn pushes a frame past the end of the register
vector. -/
theorem Sound.runReentrant (h : s.Sound) (entry : FunctionProto) (receiver : Value) :
    Enters s.registers.length s (s.runReentrant entry receiver) := by
  refine h.enters rfl rfl rfl rfl rfl rfl ?_ (fun j hj => List.getElem?_append_left hj) h.saved
  simp only [Context.runReentrant, CallFrame.size, List.length_append, List.length_replicate]
  omega

theorem Sound.restoreFrame (h : s.Sound) {c : HeapRef} {saved : Coroutine}
    (hc : s.coroutines[c]? = some saved) :
    (∃ f, (s.restoreFrame c).frames = s.frames ++ [f] ∧ f.base = s.registers.length ∧
      s.registers.length + f.size ≤ (s.restoreFrame c).registers.length) ∧
    (∀ j < s.registers.length, (s.restoreFrame c).registers[j]? = s.registers[j]?) ∧
    ∀ c' ∈ (s.restoreFrame c).coroutines, c'.proto.frameSize.toNat ≤ c'.window.length := by
  have hwindow := h.saved saved (List.mem_of_getElem? hc)
  simp only [Context.restoreFrame, hc]
  refine ⟨⟨_, rfl, rfl, ?_⟩, fun j hj => ?_, forall_mem_modify h.saved ?_ c⟩
  · simp only [CallFrame.size, List.length_append]
    omega
  · rw [List.append_assoc]
    exact List.getElem?_append_left hj
  · exact fun _ hx => hx

/-- An async function's frame is put back past the end of the register vector. -/
theorem Sound.resume (h : s.Sound) {c : HeapRef} (hc : c < s.coroutines.length) (sent : Value) :
    Enters s.registers.length s (s.resume c sent) := by
  have hc' := List.getElem?_eq_getElem hc
  obtain ⟨⟨f, hframes, hbase, hlength⟩, hkept, hsaved⟩ := h.restoreFrame hc'
  simp only [Context.resume, hc']
  refine h.enters hframes rfl hbase rfl rfl rfl ?_ (fun j hj => ?_) hsaved
  · rw [List.length_set]
    exact hlength
  · rw [List.getElem?_set_ne (by omega)]
    exact hkept j hj

/-- A generator's frame is put back past the end of the register vector. -/
theorem Sound.generatorResume (h : s.Sound) (fenced : Bool) {c : HeapRef}
    (hc : c < s.coroutines.length) (sent : Value) :
    Enters s.registers.length s (s.generatorResume fenced c sent) := by
  have hc' := List.getElem?_eq_getElem hc
  obtain ⟨hsound, hregisters, hframes, hruns, hcoroutines⟩ := h.pushFence fenced
  obtain ⟨⟨f, hframes', hbase, hlength⟩, hkept, hsaved⟩ :=
    hsound.restoreFrame (by rw [hcoroutines]; exact hc')
  rw [hregisters] at hbase hlength hkept
  simp only [Context.generatorResume, hc']
  refine h.enters (hframes'.trans (by rw [hframes])) rfl hbase rfl rfl rfl ?_
    (fun j hj => ?_) (forall_mem_modify hsaved ?_ c)
  · split_ifs
    · rw [List.length_set]
      exact hlength
    · exact hlength
  · dsimp only
    split_ifs
    · rw [List.getElem?_set_ne (by omega)]
      exact hkept j hj
    · exact hkept j hj
  · exact fun _ hx => hx

theorem Sound.execute (h : s.Sound) (entry : FunctionProto) (receiver : Value) :
    (s.execute entry receiver).Sound := by
  refine ⟨⟨?_, List.pairwise_singleton _ _, ⟨?_, trivial⟩⟩, h.saved⟩
  · intro w hw
    rw [List.mem_singleton.mp hw]
    simp [Context.execute, CallFrame.window, CallFrame.size, Window.top]
  · simp

end Context

end CtBrowser.Script.Vm
