import CtBrowser.Shell.Bindings.Timers
import Mathlib.Data.List.Forall2

/-!
# Runs of Timers

What holds of a page's timers in every state they reach while ids are left: the callbacks stay beside
their deadlines, each is the one it was registered with, a timer that is not an interval fires at
most once, none fires twice in a run or after it was cleared, and a run fires in the order of
registration. That is not the order of deadlines, and an interval that a run within a run has
already fired is fired by the outer one as well, before its next deadline.

## Main definitions

- `TimerStep` — what a step may change, by its kind.
- `Orderly` — what a page can rely on.

## Main results

- `timerStep_of_step` — every step is of one of the kinds.
- `orderly_of_reachable` — in every run whose ids are left, timers are orderly.
-/

namespace CtBrowser.Shell

open Foundations

variable {τ ν : Type} {s s' : Timers ν τ}

/-! ## Changes of the queue -/

/-- At most the entries of one id change, and none of them comes back. -/
def Touched (id : ℕ) (q q' : TimerQueue τ) : Prop :=
  List.Forall₂ (fun e e' => e'.id = e.id ∧ e'.repeating = e.repeating ∧
    (e.cancelled = true → e'.cancelled = true) ∧ (e.id ≠ id → e' = e)) q q'

namespace Touched

variable {id : ℕ} {q q' : TimerQueue τ}

theorem refl (id : ℕ) (q : TimerQueue τ) : Touched id q q :=
  List.forall₂_same.mpr fun _ _ => ⟨rfl, rfl, fun h => h, fun _ => rfl⟩

theorem map_id (h : Touched id q q') : q'.map (·.id) = q.map (·.id) := by
  induction h with
  | nil => rfl
  | cons he _ ih => rw [List.map_cons, List.map_cons, he.1, ih]

theorem exists_of_mem (h : Touched id q q') {e' : TimerEntry τ} (he' : e' ∈ q') :
    ∃ e ∈ q, e'.id = e.id ∧ e'.repeating = e.repeating ∧ (e.cancelled = true → e'.cancelled = true) ∧
      (e.id ≠ id → e' = e) := by
  induction h with
  | nil => simp at he'
  | cons hfirst _ ih =>
    rcases List.mem_cons.mp he' with rfl | he'
    · exact ⟨_, List.mem_cons_self, hfirst⟩
    · obtain ⟨e, he, hkept⟩ := ih he'
      exact ⟨e, List.mem_cons_of_mem _ he, hkept⟩

end Touched

theorem touched_cancel (id : ℕ) (q : TimerQueue τ) : Touched id q (q.cancel id) := by
  refine List.forall₂_map_right_iff.mpr (List.forall₂_same.mpr fun e _ => ?_)
  rw [TimerQueue.cancelled]
  split_ifs with hid
  · exact ⟨rfl, rfl, fun _ => rfl, fun hne => absurd hid hne⟩
  · exact ⟨rfl, rfl, fun h => h, fun _ => rfl⟩

theorem TimerQueue.exists_of_findActive {q : TimerQueue τ} {id index : ℕ} (h : q.findActive id = some index) :
    ∃ e, q[index]? = some e ∧ e.id = id ∧ e.cancelled = false := by
  obtain ⟨hlt, hfound, -⟩ := List.findIdx?_eq_some_iff_getElem.mp h
  refine ⟨_, List.getElem?_eq_getElem hlt, ?_, ?_⟩
  · simpa using (Bool.and_eq_true_iff.mp hfound).1
  · simpa using (Bool.and_eq_true_iff.mp hfound).2

theorem touched_modify [Add τ] {q : TimerQueue τ} {index : ℕ} {e : TimerEntry τ} (he : q[index]? = some e) (now : τ)
    (eligible : Bool) : Touched e.id q (q.modify index (TimerQueue.begun now eligible)) := by
  refine List.forall₂_iff_get.mpr ⟨(List.length_modify ..).symm, fun n hn hn' => ?_⟩
  rw [List.get_eq_getElem, List.get_eq_getElem, List.getElem_modify]
  split_ifs with hindex
  · subst hindex
    obtain ⟨-, rfl⟩ := List.getElem?_eq_some_iff.mp he
    rw [TimerQueue.begun]
    split_ifs
    · exact ⟨rfl, rfl, fun h => h, fun hne => absurd rfl hne⟩
    · exact ⟨rfl, rfl, fun _ => rfl, fun hne => absurd rfl hne⟩
  · exact ⟨rfl, rfl, fun h => h, fun _ => rfl⟩

/-! ## The kinds of steps -/

/-- A page's two lists are parallel, and ids ascend. -/
structure TimerTables (s : Timers ν τ) : Prop where
  parallel : s.timers.map (·.id) = s.timerSchedule.map (·.id)
  ascending : (s.timerSchedule.map (·.id)).Pairwise (· < ·)
  handed : ∀ e ∈ s.timerSchedule, e.id ≤ s.nextTimerId

/-- What a step may change, by its kind. -/
inductive TimerStep [LinearOrder τ] (s : Timers ν τ) : Timers ν τ → Prop
  | register {t : Timer ν} {e : TimerEntry τ} (ht : t.id = s.nextTimerId + 1) (he : e.id = t.id)
      (hactive : e.cancelled = false) :
      TimerStep s { s with
        nextTimerId := t.id
        timers := s.timers ++ [t]
        timerSchedule := s.timerSchedule ++ [e]
        log := .registered t e.repeating :: s.log }
  | takeId : TimerStep s { s with nextTimerId := s.nextTimerId + 1 }
  | clear (id : ℕ) : TimerStep s { s with timerSchedule := s.timerSchedule.cancel id, log := .cleared id :: s.log }
  | advanceClock (now : τ) : TimerStep s { s with nowMs := now }
  | runTimers (queuedTasksOnly : Bool) : TimerStep s (s.beginRun queuedTasksOnly)
  -- the timer was cleared, or its window has no document
  | skip {run : TimerRun ν τ} {t : Timer ν} {due : List (Timer ν)} {outer : List (TimerRun ν τ)} {q : TimerQueue τ}
      (hrunning : s.running = run :: outer) (hdue : run.due = t :: due) (hq : Touched t.id s.timerSchedule q) :
      TimerStep s { s with running := { run with due } :: outer, timerSchedule := q }
  -- an interval stays active, any other timer does not
  | fire {run : TimerRun ν τ} {t : Timer ν} {due : List (Timer ν)} {outer : List (TimerRun ν τ)} {q : TimerQueue τ}
      {e : TimerEntry τ} (hrunning : s.running = run :: outer) (hdue : run.due = t :: due)
      (he : e ∈ s.timerSchedule) (hid : e.id = t.id) (hactive : e.cancelled = false)
      (hq : Touched t.id s.timerSchedule q)
      (hspent : e.repeating = false → ∀ e' ∈ q, e'.id = t.id → e'.cancelled = true) :
      TimerStep s { s with
        running := { run with due } :: outer
        timerSchedule := q
        log := .fired run.number t (some e.dueMs) run.start :: s.log }
  | finish {run : TimerRun ν τ} {outer : List (TimerRun ν τ)} (hrunning : s.running = run :: outer)
      (hdue : run.due = []) : TimerStep s (Timers.compact { s with running := outer })

theorem TimerTables.unique (h : TimerTables s) {e e' : TimerEntry τ} (he : e ∈ s.timerSchedule)
    (he' : e' ∈ s.timerSchedule) (hid : e.id = e'.id) : e = e' := by
  have hnodup : (s.timerSchedule.map (·.id)).Nodup := h.ascending.imp fun h => h.ne
  exact List.inj_on_of_nodup_map hnodup he he' hid

theorem TimerTables.cancelled_of_begun [Add τ] (h : TimerTables s) {index : ℕ} {e e' : TimerEntry τ}
    (he : s.timerSchedule[index]? = some e) (honce : e.repeating = false) (now : τ)
    (he' : e' ∈ s.timerSchedule.modify index (TimerQueue.begun now true)) (hid : e'.id = e.id) :
    e'.cancelled = true := by
  obtain ⟨n, hn, rfl⟩ := List.mem_iff_getElem.mp he'
  rw [List.length_modify] at hn
  rw [List.getElem_modify] at hid ⊢
  split_ifs at hid ⊢ with hindex
  · subst hindex
    obtain ⟨hlt, rfl⟩ := List.getElem?_eq_some_iff.mp he
    rw [TimerQueue.begun, honce]
    rfl
  · -- no other entry has the id
    obtain ⟨hlt, rfl⟩ := List.getElem?_eq_some_iff.mp he
    have hnodup : (s.timerSchedule.map (·.id)).Nodup := h.ascending.imp fun h => h.ne
    have hget : (s.timerSchedule.map (·.id)).get ⟨n, by simpa using hn⟩ =
        (s.timerSchedule.map (·.id)).get ⟨index, by simpa using hlt⟩ := by simpa using hid
    have hsame := List.nodup_iff_injective_get.mp hnodup hget
    exact absurd (Fin.mk.inj hsame).symm hindex

/-- Every step is of one of the kinds. -/
theorem timerStep_of_step [LinearOrder τ] [Add τ] [Zero τ] (htables : TimerTables s) {input : TimerInput ν τ}
    (hleft : IdLeft s input) (h : s.step input = some s') : TimerStep s s' := by
  cases input with
  | register callback arguments window delay repeating source =>
    obtain rfl := Option.some.inj h
    have hword : (s.nextTimerId + 1) % 2 ^ 32 = s.nextTimerId + 1 := Nat.mod_eq_of_lt hleft
    rw [Timers.addTimer, hword]
    exact .register (t := { id := s.nextTimerId + 1, callback, arguments, window })
      (e := ⟨s.nextTimerId + 1, s.nowMs + max 0 delay, max 0 delay, repeating, false, source⟩) rfl rfl rfl
  | takeId =>
    obtain rfl := Option.some.inj h
    have hword : (s.nextTimerId + 1) % 2 ^ 32 = s.nextTimerId + 1 := Nat.mod_eq_of_lt hleft
    rw [hword]
    exact .takeId
  | clear id =>
    obtain rfl := Option.some.inj h
    exact .clear id
  | advanceClock now =>
    obtain rfl := Option.some.inj h
    exact .advanceClock now
  | runTimers queuedTasksOnly =>
    obtain rfl := Option.some.inj h
    exact .runTimers queuedTasksOnly
  | next live =>
    rw [Timers.step] at h
    cases hrunning : s.running with
    | nil => simp [hrunning] at h
    | cons run outer =>
      cases hdue : run.due with
      | nil => simp [hrunning, hdue] at h
      | cons t due =>
        simp only [hrunning, hdue, Option.some.injEq] at h
        subst h
        rw [Timers.invoke]
        cases hactive : s.timerSchedule.findActive t.id with
        | none => exact .skip hrunning hdue (.refl t.id _)
        | some index =>
          obtain ⟨e, he, hid, hnot⟩ := TimerQueue.exists_of_findActive hactive
          have htouched := touched_modify he s.nowMs (s.timers[index]?.any fun still => live still.window)
          rw [hid] at htouched
          dsimp only
          rw [TimerQueue.beginTimer, hactive, he]
          cases heligible : s.timers[index]?.any fun still => live still.window with
          | false =>
            rw [heligible] at htouched
            exact .skip hrunning hdue htouched
          | true =>
            rw [heligible] at htouched
            refine .fire hrunning hdue (List.mem_of_getElem? he) hid hnot htouched fun honce e' he' hid' => ?_
            exact htables.cancelled_of_begun he honce s.nowMs he' (hid'.trans hid.symm)
  | finish =>
    rw [Timers.step] at h
    cases hrunning : s.running with
    | nil => simp [hrunning] at h
    | cons run outer =>
      simp only [hrunning] at h
      split_ifs at h with hdue
      · obtain rfl := Option.some.inj h
        exact .finish hrunning (List.isEmpty_iff.mp hdue)

/-! ## The lists -/

theorem map_snd_filter_zip {q : TimerQueue τ} {timers : List (Timer ν)} (h : timers.length = q.length) :
    ((timers.zip q).filter fun p => !p.2.cancelled).map Prod.snd = q.discardCancelled := by
  rw [TimerQueue.discardCancelled]
  conv_rhs => rw [← (List.map_snd_zip h.ge : (timers.zip q).map Prod.snd = q)]
  rw [List.filter_map]
  rfl

namespace TimerTables

theorem length_eq (h : TimerTables s) : s.timers.length = s.timerSchedule.length := by
  simpa using congrArg List.length h.parallel

theorem id_eq_of_mem_zip (h : TimerTables s) {p : Timer ν × TimerEntry τ} (hp : p ∈ s.timers.zip s.timerSchedule) :
    p.1.id = p.2.id := by
  obtain ⟨n, hn, rfl⟩ := List.mem_iff_getElem.mp hp
  have hn' : n < s.timers.length ∧ n < s.timerSchedule.length := by simpa using hn
  have := congrArg (fun l => l[n]?) h.parallel
  simpa [hn'.1, hn'.2] using this

theorem compact (h : TimerTables s) : TimerTables s.compact where
  parallel := by
    rw [Timers.compact]
    dsimp only
    rw [← map_snd_filter_zip h.length_eq, List.map_map, List.map_map]
    exact List.map_congr_left fun p hp => h.id_eq_of_mem_zip (List.mem_filter.mp hp).1
  ascending := (h.ascending.sublist (List.filter_sublist.map _))
  handed e he := h.handed e (List.mem_filter.mp he).1

theorem touch (h : TimerTables s) {id : ℕ} {q : TimerQueue τ} (hq : Touched id s.timerSchedule q)
    {running : List (TimerRun ν τ)} {log : List (TimerEvent ν τ)} :
    TimerTables { s with timerSchedule := q, running, log } where
  parallel := h.parallel.trans hq.map_id.symm
  ascending := by
    rw [hq.map_id]
    exact h.ascending
  handed e' he' := by
    obtain ⟨e, he, hid, -⟩ := hq.exists_of_mem he'
    exact hid.symm ▸ h.handed e he

theorem step [LinearOrder τ] (h : TimerTables s) (hstep : TimerStep s s') : TimerTables s' := by
  cases hstep with
  | register ht he hactive =>
    refine ⟨?_, ?_, fun e he' => ?_⟩
    · rw [List.map_append, List.map_append, h.parallel]
      simp [he]
    · rw [List.map_append, List.pairwise_append]
      refine ⟨h.ascending, List.pairwise_singleton .., fun id hid id' hid' => ?_⟩
      obtain ⟨e, hmem, rfl⟩ := List.mem_map.mp hid
      have := h.handed e hmem
      simp only [List.map_cons, List.map_nil, List.mem_singleton] at hid'
      omega
    · rcases List.mem_append.mp he' with he' | he'
      · have := h.handed e he'
        dsimp only
        omega
      · rw [List.mem_singleton.mp he']
        exact he.le
  | takeId => exact ⟨h.parallel, h.ascending, fun e he => (h.handed e he).trans (Nat.le_succ _)⟩
  | clear id => exact h.touch (touched_cancel id _)
  | advanceClock now => exact ⟨h.parallel, h.ascending, h.handed⟩
  | runTimers queuedTasksOnly => exact ⟨h.parallel, h.ascending, h.handed⟩
  | skip hrunning hdue hq => exact h.touch hq
  | fire hrunning hdue he hid hactive hq hspent => exact h.touch hq
  | finish hrunning hdue =>
    exact compact ⟨h.parallel, h.ascending, h.handed⟩

end TimerTables

/-! ## What was registered -/

/-- Every callback that is kept or copied is one that was registered, and no id was registered twice. -/
structure TimerRecord (s : Timers ν τ) : Prop where
  handed : ∀ t r, .registered t r ∈ s.log → t.id ≤ s.nextTimerId
  unique : ∀ t r t' r', .registered t r ∈ s.log → .registered t' r' ∈ s.log → t.id = t'.id → t = t' ∧ r = r'
  kept : ∀ p ∈ s.timers.zip s.timerSchedule, .registered p.1 p.2.repeating ∈ s.log
  copied : ∀ run ∈ s.running, ∀ t ∈ run.due, ∃ r, .registered t r ∈ s.log
  fired : ∀ n t due start, .fired n t due start ∈ s.log → ∃ r, .registered t r ∈ s.log

namespace TimerRecord

theorem change (h : TimerRecord s) {q : TimerQueue τ} {timers : List (Timer ν)} {running : List (TimerRun ν τ)} 
    {next runs : ℕ} {now : τ} {nested : Bool} {log : List (TimerEvent ν τ)} (hnext : s.nextTimerId ≤ next)
    (hkept : ∀ p ∈ timers.zip q, .registered p.1 p.2.repeating ∈ s.log)
    (hcopied : ∀ run ∈ running, ∀ t ∈ run.due, ∃ r, .registered t r ∈ s.log)
    (hsub : s.log ⊆ log) (hlog : ∀ e ∈ log, e ∈ s.log ∨ (∃ id, e = .cleared id) ∨
      ∃ n t due start, e = .fired n t due start ∧ ∃ r, .registered t r ∈ s.log) :
    TimerRecord { nextTimerId := next, timerSchedule := q, timers, nowMs := now, running, runs, nested, log } := by
  have hregistered : ∀ t r, .registered t r ∈ log → .registered t r ∈ s.log := fun t r h => by
    rcases hlog _ h with h | ⟨_, heq⟩ | ⟨_, _, _, _, heq, _⟩
    · exact h
    · cases heq
    · cases heq
  refine ⟨fun t r ht => (h.handed t r (hregistered t r ht)).trans hnext,
    fun t r t' r' ht ht' => h.unique t r t' r' (hregistered t r ht) (hregistered t' r' ht'),
    fun p hp => hsub (hkept p hp), fun run hrun t ht => (hcopied run hrun t ht).imp fun _ h => hsub h,
    fun n t due start hfired => ?_⟩
  rcases hlog _ hfired with hfired | ⟨_, heq⟩ | ⟨_, _, _, _, heq, r, hr⟩
  · exact (h.fired n t due start hfired).imp fun _ h => hsub h
  · cases heq
  · cases heq
    exact ⟨r, hsub hr⟩

theorem kept_touch (h : TimerRecord s) (hlength : s.timers.length = s.timerSchedule.length) {id : ℕ} {q : TimerQueue τ}
    (hq : Touched id s.timerSchedule q) : ∀ p ∈ s.timers.zip q, .registered p.1 p.2.repeating ∈ s.log := by
  intro p hp
  obtain ⟨n, hn, rfl⟩ := List.mem_iff_getElem.mp hp
  obtain ⟨hlength', hentries⟩ := List.forall₂_iff_get.mp hq
  have hn' : n < s.timers.length ∧ n < q.length := by simpa using hn
  have hold : n < (s.timers.zip s.timerSchedule).length := by simpa using And.intro hn'.1 (hlength ▸ hn'.1)
  have hkept := h.kept _ (List.getElem_mem hold)
  have hrepeating := (hentries n (hlength' ▸ hn'.2) hn'.2).2.1
  rw [List.getElem_zip] at hkept ⊢
  rw [List.get_eq_getElem, List.get_eq_getElem] at hrepeating
  rwa [hrepeating]

theorem copied_next (h : TimerRecord s) {run : TimerRun ν τ} {outer : List (TimerRun ν τ)} {t : Timer ν}
    {due : List (Timer ν)} (hrunning : s.running = run :: outer) (hdue : run.due = t :: due) :
    ∀ run' ∈ { run with due } :: outer, ∀ t ∈ run'.due, ∃ r, .registered t r ∈ s.log := by
  intro run' hrun' t' ht'
  rcases List.mem_cons.mp hrun' with rfl | hrun'
  · exact h.copied run (hrunning ▸ List.mem_cons_self) t' (hdue ▸ List.mem_cons_of_mem _ ht')
  · exact h.copied run' (hrunning ▸ List.mem_cons_of_mem _ hrun') t' ht'

theorem step [LinearOrder τ] (htables : TimerTables s) (h : TimerRecord s) (hstep : TimerStep s s') :
    TimerRecord s' := by
  cases hstep with
  | @register t e ht he hactive =>
    have hnew : ∀ t' r, .registered t' r ∈ s.log → t'.id ≠ t.id := fun t' r h' => by
      have := h.handed t' r h'
      omega
    refine ⟨fun t' r ht' => ?_, fun t' r t'' r' ht' ht'' hid => ?_, fun p hp => ?_, ?_, ?_⟩
    · rcases List.mem_cons.mp ht' with heq | ht'
      · cases heq
        exact le_rfl
      · have := h.handed t' r ht'
        dsimp only
        omega
    · rcases List.mem_cons.mp ht' with heq | ht' <;> rcases List.mem_cons.mp ht'' with heq' | ht''
      · cases heq
        cases heq'
        exact ⟨rfl, rfl⟩
      · cases heq
        exact absurd hid.symm (hnew t'' r' ht'')
      · cases heq'
        exact absurd hid (hnew t' r ht')
      · exact h.unique t' r t'' r' ht' ht'' hid
    · dsimp only at hp
      rw [List.zip_append htables.length_eq] at hp
      rcases List.mem_append.mp hp with hp | hp
      · exact List.mem_cons_of_mem _ (h.kept p hp)
      · rw [List.mem_singleton.mp hp]
        exact List.mem_cons_self
    · exact fun run hrun t' ht' => (h.copied run hrun t' ht').imp fun _ => List.mem_cons_of_mem _
    · intro n t' due start hfired
      rcases List.mem_cons.mp hfired with heq | hfired
      · cases heq
      · exact (h.fired n t' due start hfired).imp fun _ => List.mem_cons_of_mem _
  | takeId => exact h.change (Nat.le_succ _) h.kept h.copied (List.Subset.refl _) fun e he => .inl he
  | clear id =>
    refine h.change le_rfl (h.kept_touch htables.length_eq (touched_cancel id _)) h.copied (List.subset_cons_self ..)
      fun e he => ?_
    rcases List.mem_cons.mp he with rfl | he
    · exact .inr (.inl ⟨id, rfl⟩)
    · exact .inl he
  | advanceClock now => exact h.change le_rfl h.kept h.copied (List.Subset.refl _) fun e he => .inl he
  | runTimers queuedTasksOnly =>
    refine h.change le_rfl h.kept (fun run hrun t ht => ?_) (List.Subset.refl _) fun e he => .inl he
    rcases List.mem_cons.mp hrun with rfl | hrun
    · obtain ⟨p, hp, rfl⟩ := List.mem_map.mp ht
      exact ⟨_, h.kept p (List.mem_filter.mp hp).1⟩
    · exact h.copied run hrun t ht
  | skip hrunning hdue hq =>
    exact h.change le_rfl (h.kept_touch htables.length_eq hq) (h.copied_next hrunning hdue) (List.Subset.refl _)
      fun e he => .inl he
  | fire hrunning hdue he hid hactive hq hspent =>
    refine h.change le_rfl (h.kept_touch htables.length_eq hq) (h.copied_next hrunning hdue) (List.subset_cons_self ..)
      fun e he => ?_
    rcases List.mem_cons.mp he with rfl | he
    · exact .inr (.inr ⟨_, _, _, _, rfl, h.copied _ (hrunning ▸ List.mem_cons_self) _ (hdue ▸ List.mem_cons_self)⟩)
    · exact .inl he
  | finish hrunning hdue =>
    refine h.change le_rfl (fun p hp => ?_) (fun run hrun => h.copied run (hrunning ▸ List.mem_cons_of_mem _ hrun))
      (List.Subset.refl _) fun e he => .inl he
    rw [← map_snd_filter_zip htables.length_eq, List.zip_map'] at hp
    obtain ⟨p', hp', rfl⟩ := List.mem_map.mp hp
    exact h.kept p' (List.mem_filter.mp hp').1

theorem exists_of_mem (htables : TimerTables s) (h : TimerRecord s) {e : TimerEntry τ} (he : e ∈ s.timerSchedule) :
    ∃ t, t.id = e.id ∧ .registered t e.repeating ∈ s.log := by
  rw [← (List.map_snd_zip htables.length_eq.ge : (s.timers.zip s.timerSchedule).map Prod.snd = s.timerSchedule)] at he
  obtain ⟨p, hp, rfl⟩ := List.mem_map.mp he
  exact ⟨p.1, htables.id_eq_of_mem_zip hp, h.kept p hp⟩

end TimerRecord

/-! ## What fires no more -/

/-- No entry of an id is left that is not cancelled. -/
def Spent (s : Timers ν τ) (id : ℕ) : Prop := ∀ e ∈ s.timerSchedule, e.id = id → e.cancelled = true

theorem Spent.touch {id id' : ℕ} {q : TimerQueue τ} (h : Spent s id) (hq : Touched id' s.timerSchedule q) :
    ∀ e ∈ q, e.id = id → e.cancelled = true := by
  intro e' he' hid
  obtain ⟨e, he, hsame, -, hcancelled, -⟩ := hq.exists_of_mem he'
  exact hcancelled (h e he (hsame ▸ hid))

theorem Spent.step [LinearOrder τ] {id : ℕ} (h : Spent s id) (hid : id ≤ s.nextTimerId) (hstep : TimerStep s s') :
    Spent s' id := by
  cases hstep with
  | register ht he hactive =>
    intro e' he' hid'
    rcases List.mem_append.mp he' with he' | he'
    · exact h e' he' hid'
    · rw [List.mem_singleton.mp he'] at hid'
      omega
  | takeId => exact h
  | clear id' => exact h.touch (touched_cancel id' _)
  | advanceClock now => exact h
  | runTimers queuedTasksOnly => exact h
  | skip hrunning hdue hq => exact h.touch hq
  | fire hrunning hdue he hid' hactive hq hspent => exact h.touch hq
  | finish hrunning hdue => exact fun e he => h e (List.mem_filter.mp he).1

/-- The id of the timer that an event fires. -/
def firedId : TimerEvent ν τ → Option ℕ
  | .fired _ t _ _ => some t.id
  | _ => none

/-- A timer that is not an interval fires at most once, and none fires after it was cleared. -/
structure TimerHistory (s : Timers ν τ) : Prop where
  spent : ∀ n t due start, .fired n t due start ∈ s.log → .registered t false ∈ s.log → Spent s t.id
  once : ∀ t, .registered t false ∈ s.log → (s.log.filterMap firedId).count t.id ≤ 1
  cleared : ∀ later id earlier, s.log = later ++ .cleared id :: earlier →
    (∃ t r, t.id = id ∧ .registered t r ∈ earlier) → Spent s id ∧ id ∉ later.filterMap firedId

namespace TimerHistory

theorem quiet [LinearOrder τ] (hrecord : TimerRecord s) (h : TimerHistory s) (hstep : TimerStep s s')
    (hlog : s'.log = s.log) : TimerHistory s' := by
  refine ⟨fun n t due start hfired hregistered => ?_, fun t hregistered => ?_,
    fun later id earlier heq hearlier => ?_⟩
  · rw [hlog] at hfired hregistered
    exact (h.spent n t due start hfired hregistered).step (hrecord.handed t false hregistered) hstep
  · rw [hlog] at hregistered ⊢
    exact h.once t hregistered
  · rw [hlog] at heq
    obtain ⟨hspent, hnot⟩ := h.cleared later id earlier heq hearlier
    obtain ⟨t, r, rfl, ht⟩ := hearlier
    refine ⟨hspent.step (hrecord.handed t r ?_) hstep, hnot⟩
    rw [heq]
    exact List.mem_append_right _ (List.mem_cons_of_mem _ ht)

theorem cleared_cons [LinearOrder τ] (hrecord : TimerRecord s) (h : TimerHistory s) (hstep : TimerStep s s')
    {event : TimerEvent ν τ} {later earlier : List (TimerEvent ν τ)} {id : ℕ}
    (heq : s.log = later ++ .cleared id :: earlier) (hearlier : ∃ t r, t.id = id ∧ .registered t r ∈ earlier)
    (hevent : Spent s id → firedId event ≠ some id) : Spent s' id ∧ id ∉ (event :: later).filterMap firedId := by
  obtain ⟨hspent, hnot⟩ := h.cleared later id earlier heq hearlier
  obtain ⟨t, r, rfl, ht⟩ := hearlier
  refine ⟨hspent.step (hrecord.handed t r ?_) hstep, fun hmem => ?_⟩
  · rw [heq]
    exact List.mem_append_right _ (List.mem_cons_of_mem _ ht)
  · obtain ⟨event', hmem, hid⟩ := List.mem_filterMap.mp hmem
    rcases List.mem_cons.mp hmem with rfl | hmem
    · exact hevent hspent hid
    · exact hnot (List.mem_filterMap.mpr ⟨event', hmem, hid⟩)

theorem count_eq_zero {id : ℕ}
    (hnone : ∀ n t due start, .fired n t due start ∈ s.log → t.id ≠ id) : (s.log.filterMap firedId).count id = 0 := by
  refine List.count_eq_zero.mpr fun hmem => ?_
  obtain ⟨event, hmem, hid⟩ := List.mem_filterMap.mp hmem
  cases event with
  | registered t r => cases hid
  | cleared id' => cases hid
  | fired n t due start => exact hnone n t due start hmem (Option.some.inj hid)

theorem step [LinearOrder τ] (htables : TimerTables s) (hrecord : TimerRecord s) (h : TimerHistory s)
    (hstep : TimerStep s s') : TimerHistory s' := by
  have hstep' := hstep
  cases hstep with
  | @register t e ht he hactive =>
    have hnew : ∀ n t' due start, .fired n t' due start ∈ s.log → t'.id ≠ t.id := by
      intro n t' due start hfired
      obtain ⟨r, hr⟩ := hrecord.fired n t' due start hfired
      have := hrecord.handed t' r hr
      omega
    refine ⟨fun n t' due start hfired hregistered => ?_, fun t' hregistered => ?_,
      fun later id earlier heq hearlier => ?_⟩
    · rcases List.mem_cons.mp hfired with heq | hfired
      · cases heq
      · rcases List.mem_cons.mp hregistered with heq | hregistered
        · exact absurd (congrArg Timer.id (TimerEvent.registered.inj heq).1) (hnew n t' due start hfired)
        · exact (h.spent n t' due start hfired hregistered).step (hrecord.handed t' false hregistered) hstep'
    · rcases List.mem_cons.mp hregistered with heq | hregistered
      · obtain ⟨rfl, -⟩ := TimerEvent.registered.inj heq
        exact (count_eq_zero hnew).trans_le (Nat.zero_le _)
      · exact h.once t' hregistered
    · rcases List.cons_eq_append_iff.mp heq with ⟨-, hhead⟩ | ⟨later, rfl, htail⟩
      · cases hhead
      · exact h.cleared_cons hrecord hstep' htail hearlier fun _ => nofun
  | takeId => exact h.quiet hrecord hstep' rfl
  | clear id =>
    refine ⟨fun n t due start hfired hregistered => ?_, fun t hregistered => ?_,
      fun later id' earlier heq hearlier => ?_⟩
    · have hfired := (List.mem_cons.mp hfired).resolve_left nofun
      have hregistered := (List.mem_cons.mp hregistered).resolve_left nofun
      exact (h.spent n t due start hfired hregistered).step (hrecord.handed t false hregistered) hstep'
    · exact h.once t ((List.mem_cons.mp hregistered).resolve_left nofun)
    · rcases List.cons_eq_append_iff.mp heq with ⟨rfl, hhead⟩ | ⟨later, rfl, htail⟩
      · cases hhead
        refine ⟨fun e' he' hid => ?_, by simp⟩
        obtain ⟨e, he, rfl⟩ := List.mem_map.mp he'
        rw [TimerQueue.cancelled] at hid ⊢
        split_ifs at hid ⊢ with hsame
        · rfl
        · exact absurd hid hsame
      · exact h.cleared_cons hrecord hstep' htail hearlier fun _ => nofun
  | advanceClock now => exact h.quiet hrecord hstep' rfl
  | runTimers queuedTasksOnly => exact h.quiet hrecord hstep' rfl
  | skip hrunning hdue hq => exact h.quiet hrecord hstep' rfl
  | @fire run t due outer q e hrunning hdue he hid hactive hq hspent =>
    have hlive : ¬ Spent s t.id := fun hall => by simpa [hactive] using hall e he hid
    -- a timer that is not an interval is the entry's
    have honce : ∀ t', .registered t' false ∈ s.log → t'.id = t.id → e.repeating = false := by
      intro t' ht' hid'
      obtain ⟨t'', hid'', ht''⟩ := hrecord.exists_of_mem htables he
      exact (hrecord.unique _ _ _ _ ht'' ht' (hid''.trans (hid.trans hid'.symm))).2
    refine ⟨fun n t' due' start hfired hregistered => ?_, fun t' hregistered => ?_,
      fun later id earlier heq hearlier => ?_⟩
    · have hregistered := (List.mem_cons.mp hregistered).resolve_left nofun
      rcases List.mem_cons.mp hfired with heq | hfired
      · cases heq
        exact hspent (honce t hregistered rfl)
      · exact (h.spent n t' due' start hfired hregistered).step (hrecord.handed t' false hregistered) hstep'
    · have hregistered := (List.mem_cons.mp hregistered).resolve_left nofun
      have hcount := h.once t' hregistered
      by_cases hsame : t'.id = t.id
      · have hzero := count_eq_zero fun n t'' due' start hfired hid' => by
          obtain ⟨r, hr⟩ := hrecord.fired n t'' due' start hfired
          obtain ⟨rfl, rfl⟩ := hrecord.unique _ _ _ _ hr hregistered hid'
          exact hlive (hsame ▸ h.spent n t'' due' start hfired hregistered)
        simp [firedId, hsame, hsame ▸ hzero]
      · have hne : ¬ t.id = t'.id := fun heq => hsame heq.symm
        simpa [List.filterMap_cons, firedId, List.count_cons, hne] using hcount
    · rcases List.cons_eq_append_iff.mp heq with ⟨-, hhead⟩ | ⟨later, rfl, htail⟩
      · cases hhead
      · refine h.cleared_cons hrecord hstep' htail hearlier fun hall hsame => hlive ?_
        exact Option.some.inj hsame ▸ hall
  | finish hrunning hdue => exact h.quiet hrecord hstep' rfl

end TimerHistory

/-! ## The order of a run -/

/-- The id of the timer that an event fires in a run. -/
def firedIn (n : ℕ) : TimerEvent ν τ → Option ℕ
  | .fired m t _ _ => if m = n then some t.id else none
  | _ => none

/-- A run fires in ascending order of ids, and what it still has to fire comes after that. -/
structure TimerOrder (s : Timers ν τ) : Prop where
  copied : ∀ run ∈ s.running, (run.due.map (·.id)).Pairwise (· < ·)
  numbers : (s.running.map (·.number)).Pairwise (· > ·)
  begun : ∀ run ∈ s.running, run.number < s.runs
  firedBegun : ∀ n t due start, .fired n t due start ∈ s.log → n < s.runs
  before : ∀ run ∈ s.running, ∀ id ∈ s.log.filterMap (firedIn run.number), ∀ t ∈ run.due, id < t.id
  order : ∀ n, (s.log.filterMap (firedIn n)).Pairwise (· > ·)

namespace TimerOrder

theorem filterMap_firedIn_eq_nil (h : TimerOrder s) {n : ℕ} (hn : s.runs ≤ n) : s.log.filterMap (firedIn n) = [] := by
  refine List.filterMap_eq_nil_iff.mpr fun event hevent => ?_
  cases event with
  | registered t r => rfl
  | cleared id => rfl
  | fired m t due start =>
    have := h.firedBegun m t due start hevent
    exact if_neg (by omega)

theorem pass (h : TimerOrder s) {run : TimerRun ν τ} {t : Timer ν} {due : List (Timer ν)}
    {outer : List (TimerRun ν τ)} {q : TimerQueue τ} (hrunning : s.running = run :: outer) (hdue : run.due = t :: due) :
    TimerOrder { s with running := { run with due } :: outer, timerSchedule := q } := by
  have hrun : run ∈ s.running := hrunning ▸ List.mem_cons_self
  have houter : ∀ run' ∈ outer, run' ∈ s.running := fun run' h => hrunning ▸ List.mem_cons_of_mem _ h
  have hcopied := h.copied run hrun
  rw [hdue] at hcopied
  have hnumbers := h.numbers
  rw [hrunning] at hnumbers
  refine ⟨fun run' hrun' => ?_, hnumbers, fun run' hrun' => ?_, h.firedBegun,
    fun run' hrun' id hid t' ht' => ?_, h.order⟩
  · rcases List.mem_cons.mp hrun' with rfl | hrun'
    · exact hcopied.tail
    · exact h.copied run' (houter run' hrun')
  · rcases List.mem_cons.mp hrun' with rfl | hrun'
    · exact h.begun run hrun
    · exact h.begun run' (houter run' hrun')
  · rcases List.mem_cons.mp hrun' with rfl | hrun'
    · exact h.before run hrun id hid t' (hdue ▸ List.mem_cons_of_mem _ ht')
    · exact h.before run' (houter run' hrun') id hid t' ht'

theorem step [LinearOrder τ] (htables : TimerTables s) (h : TimerOrder s) (hstep : TimerStep s s') :
    TimerOrder s' := by
  cases hstep with
  | @register t e ht he hactive =>
    exact ⟨h.copied, h.numbers, h.begun, fun n t' due start hfired => h.firedBegun n t' due start
      ((List.mem_cons.mp hfired).resolve_left nofun), h.before, h.order⟩
  | takeId => exact ⟨h.copied, h.numbers, h.begun, h.firedBegun, h.before, h.order⟩
  | clear id =>
    exact ⟨h.copied, h.numbers, h.begun, fun n t' due start hfired => h.firedBegun n t' due start
      ((List.mem_cons.mp hfired).resolve_left nofun), h.before, h.order⟩
  | advanceClock now => exact ⟨h.copied, h.numbers, h.begun, h.firedBegun, h.before, h.order⟩
  | runTimers queuedTasksOnly =>
    refine ⟨fun run hrun => ?_, ?_, fun run hrun => ?_, fun n t due start hfired => ?_, fun run hrun id hid t ht => ?_,
      h.order⟩
    · rcases List.mem_cons.mp hrun with rfl | hrun
      · -- the copies are some of the callbacks, whose ids ascend
        have hsub : List.Sublist
            (((s.timers.zip s.timerSchedule).filter fun p => p.2.due s.nowMs queuedTasksOnly).map Prod.fst) s.timers := by
          refine (List.filter_sublist.map _).trans ?_
          rw [List.map_fst_zip htables.length_eq.le]
        exact (htables.parallel ▸ htables.ascending : (s.timers.map (·.id)).Pairwise (· < ·)).sublist (hsub.map _)
      · exact h.copied run hrun
    · refine List.pairwise_cons.mpr ⟨fun n hn => ?_, h.numbers⟩
      obtain ⟨run, hrun, rfl⟩ := List.mem_map.mp hn
      exact h.begun run hrun
    · rcases List.mem_cons.mp hrun with rfl | hrun
      · exact Nat.lt_succ_self _
      · exact (h.begun run hrun).trans (Nat.lt_succ_self _)
    · exact (h.firedBegun n t due start hfired).trans (Nat.lt_succ_self _)
    · rcases List.mem_cons.mp hrun with rfl | hrun
      · change id ∈ s.log.filterMap (firedIn s.runs) at hid
        rw [h.filterMap_firedIn_eq_nil le_rfl] at hid
        cases hid
      · exact h.before run hrun id hid t ht
  | skip hrunning hdue hq => exact h.pass hrunning hdue
  | @fire run t due outer q e hrunning hdue he hid hactive hq hspent =>
    have hrun : run ∈ s.running := hrunning ▸ List.mem_cons_self
    have hpass := h.pass (q := q) hrunning hdue
    have hnumbers := h.numbers
    rw [hrunning] at hnumbers
    refine ⟨hpass.copied, hpass.numbers, hpass.begun, fun n t' due' start hfired => ?_,
      fun run' hrun' id hid' t' ht' => ?_, fun n => ?_⟩
    · rcases List.mem_cons.mp hfired with heq | hfired
      · cases heq
        exact h.begun run hrun
      · exact h.firedBegun n t' due' start hfired
    · obtain ⟨event, hevent, hid'⟩ := List.mem_filterMap.mp hid'
      rcases List.mem_cons.mp hevent with rfl | hevent
      · rcases List.mem_cons.mp hrun' with rfl | hrun'
        · -- what is left in the run comes after what fires
          have hcopied := h.copied run hrun
          rw [hdue] at hcopied
          simp only [firedIn, if_true, Option.some.injEq] at hid'
          exact hid' ▸ (List.pairwise_cons.mp hcopied).1 t'.id (List.mem_map_of_mem ht')
        · have hne : run.number ≠ run'.number :=
            ((List.pairwise_cons.mp hnumbers).1 _ (List.mem_map_of_mem hrun')).ne'
          simp [firedIn, hne] at hid'
      · exact hpass.before run' hrun' id (List.mem_filterMap.mpr ⟨event, hevent, hid'⟩) t' ht'
    · by_cases hn : run.number = n
      · subst hn
        simp only [List.filterMap_cons, firedIn, if_true]
        exact List.pairwise_cons.mpr
          ⟨fun id hid' => h.before run hrun id hid' t (hdue ▸ List.mem_cons_self), h.order _⟩
      · simp only [List.filterMap_cons, firedIn, if_neg hn]
        exact h.order n
  | @finish run outer hrunning hdue =>
    have houter : ∀ run' ∈ outer, run' ∈ s.running := fun run' h => hrunning ▸ List.mem_cons_of_mem _ h
    have hnumbers := h.numbers
    rw [hrunning] at hnumbers
    exact ⟨fun run' hrun' => h.copied run' (houter run' hrun'), hnumbers.tail,
      fun run' hrun' => h.begun run' (houter run' hrun'), h.firedBegun,
      fun run' hrun' => h.before run' (houter run' hrun'), h.order⟩

end TimerOrder

/-! ## The deadlines -/

/-- Unless a run began within another, what a run copied has reached its deadline, and nothing fired before its own. -/
structure TimerReached [LinearOrder τ] (s : Timers ν τ) : Prop where
  single : s.nested = false → s.running.length ≤ 1
  copied : s.nested = false → ∀ run ∈ s.running, ∀ t ∈ run.due, ∀ e ∈ s.timerSchedule, e.id = t.id →
    e.cancelled = false → e.dueMs ≤ run.start
  fired : s.nested = false → ∀ n t due start, .fired n t due start ∈ s.log → ∀ d ∈ due, d ≤ start

namespace TimerReached

variable [LinearOrder τ]

theorem pass (horder : TimerOrder s) (h : TimerReached s) {run : TimerRun ν τ} {t : Timer ν} {due : List (Timer ν)}
    {outer : List (TimerRun ν τ)} {q : TimerQueue τ} (hrunning : s.running = run :: outer) (hdue : run.due = t :: due)
    (hq : Touched t.id s.timerSchedule q) :
    TimerReached { s with running := { run with due } :: outer, timerSchedule := q } := by
  have hrun : run ∈ s.running := hrunning ▸ List.mem_cons_self
  have hcopied := horder.copied run hrun
  rw [hdue] at hcopied
  refine ⟨fun hflat => ?_, fun hflat run' hrun' t' ht' e' he' hid hactive => ?_, h.fired⟩
  · have hsingle := h.single hflat
    rw [hrunning] at hsingle
    exact hsingle
  · have hsingle := h.single hflat
    rw [hrunning] at hsingle
    obtain rfl : outer = [] := List.eq_nil_of_length_eq_zero (Nat.le_zero.mp (Nat.le_of_succ_le_succ hsingle))
    rw [List.mem_singleton.mp hrun'] at ht' ⊢
    obtain ⟨e, he, hsame, -, -, hkept⟩ := hq.exists_of_mem he'
    -- the callbacks that are left are of other timers
    have hlt : t.id < t'.id := (List.pairwise_cons.mp hcopied).1 t'.id (List.mem_map_of_mem ht')
    obtain rfl := hkept (by omega)
    exact h.copied hflat run hrun t' (hdue ▸ List.mem_cons_of_mem _ ht') _ he hid hactive

theorem step (htables : TimerTables s) (hrecord : TimerRecord s) (horder : TimerOrder s) (h : TimerReached s)
    (hstep : TimerStep s s') : TimerReached s' := by
  cases hstep with
  | @register t e ht he hactive =>
    refine ⟨h.single, fun hflat run hrun t' ht' e' he' hid hactive' => ?_, fun hflat n t' due start hfired => ?_⟩
    · rcases List.mem_append.mp he' with he' | he'
      · exact h.copied hflat run hrun t' ht' e' he' hid hactive'
      · -- the new timer is in no copy
        obtain ⟨r, hr⟩ := hrecord.copied run hrun t' ht'
        have := hrecord.handed t' r hr
        rw [List.mem_singleton.mp he'] at hid
        omega
    · exact h.fired hflat n t' due start ((List.mem_cons.mp hfired).resolve_left nofun)
  | takeId => exact ⟨h.single, h.copied, h.fired⟩
  | clear id =>
    refine ⟨h.single, fun hflat run hrun t ht e' he' hid hactive => ?_, fun hflat n t due start hfired => ?_⟩
    · obtain ⟨e, he, rfl⟩ := List.mem_map.mp he'
      rw [TimerQueue.cancelled] at hid hactive ⊢
      split_ifs at hid hactive ⊢ with hsame
      exact h.copied hflat run hrun t ht e he hid hactive
    · exact h.fired hflat n t due start ((List.mem_cons.mp hfired).resolve_left nofun)
  | advanceClock now => exact ⟨h.single, h.copied, h.fired⟩
  | runTimers queuedTasksOnly =>
    have hnone : (s.nested || !s.running.isEmpty) = false → s.nested = false ∧ s.running = [] := by simp
    refine ⟨fun hflat => ?_, fun hflat run hrun t ht e he hid hactive => ?_, fun hflat => h.fired (hnone hflat).1⟩
    · simp [Timers.beginRun, (hnone hflat).2]
    · rw [Timers.beginRun, (hnone hflat).2, List.mem_singleton] at hrun
      subst hrun
      obtain ⟨p, hp, rfl⟩ := List.mem_map.mp ht
      obtain ⟨hp, hdue⟩ := List.mem_filter.mp hp
      obtain rfl := htables.unique he (List.of_mem_zip hp).2 (hid.trans (htables.id_eq_of_mem_zip hp))
      simp only [TimerEntry.due, Bool.and_eq_true, decide_eq_true_eq] at hdue
      exact hdue.1.2
  | skip hrunning hdue hq => exact h.pass horder hrunning hdue hq
  | @fire run t due outer q e hrunning hdue he hid hactive hq hspent =>
    have hpass := h.pass horder hrunning hdue hq
    refine ⟨hpass.single, hpass.copied, fun hflat n t' due' start hfired d hd => ?_⟩
    rcases List.mem_cons.mp hfired with heq | hfired
    · cases heq
      cases hd
      exact h.copied hflat run (hrunning ▸ List.mem_cons_self) t (hdue ▸ List.mem_cons_self) e he hid hactive
    · exact h.fired hflat n t' due' start hfired d hd
  | @finish run outer hrunning hdue =>
    have hnone : s.nested = false → outer = [] := fun hflat => by
      have hsingle := h.single hflat
      rw [hrunning] at hsingle
      exact List.eq_nil_of_length_eq_zero (Nat.le_zero.mp (Nat.le_of_succ_le_succ hsingle))
    refine ⟨fun hflat => ?_, fun hflat run' hrun' => ?_, h.fired⟩
    · rw [Timers.compact, hnone hflat]
      exact Nat.zero_le 1
    · rw [Timers.compact, hnone hflat] at hrun'
      cases hrun'

end TimerReached

/-! ## What a page can rely on -/

/-- The id that an event registers. -/
def registeredId : TimerEvent ν τ → Option ℕ
  | .registered t _ => some t.id
  | _ => none

theorem TimerRecord.registered_step [LinearOrder τ] (hrecord : TimerRecord s)
    (h : (s.log.filterMap registeredId).Pairwise (· > ·)) (hstep : TimerStep s s') :
    (s'.log.filterMap registeredId).Pairwise (· > ·) := by
  cases hstep with
  | @register t e ht he hactive =>
    refine List.pairwise_cons.mpr ⟨fun id hid => ?_, h⟩
    obtain ⟨event, hevent, hid⟩ := List.mem_filterMap.mp hid
    cases event with
    | registered t' r =>
      obtain rfl := Option.some.inj hid
      have := hrecord.handed t' r hevent
      omega
    | cleared id' => cases hid
    | fired n t' due start => cases hid
  | takeId => exact h
  | clear id => exact h
  | advanceClock now => exact h
  | runTimers queuedTasksOnly => exact h
  | skip hrunning hdue hq => exact h
  | fire hrunning hdue he hid hactive hq hspent => exact h
  | finish hrunning hdue => exact h

/-- What a page can rely on. -/
structure Orderly [LinearOrder τ] (s : Timers ν τ) : Prop where
  -- the callbacks are beside their deadlines, each as it was registered
  parallel : s.timers.map (·.id) = s.timerSchedule.map (·.id)
  kept : ∀ p ∈ s.timers.zip s.timerSchedule, .registered p.1 p.2.repeating ∈ s.log
  fired : ∀ n t due start, .fired n t due start ∈ s.log → ∃ r, .registered t r ∈ s.log
  -- no id is registered twice, and ids ascend, so that the order of ids is that of registration
  registered : (s.log.filterMap registeredId).Pairwise (· > ·)
  once : ∀ t, .registered t false ∈ s.log → (s.log.filterMap firedId).count t.id ≤ 1
  cleared : ∀ later id earlier, s.log = later ++ .cleared id :: earlier →
    (∃ t r, t.id = id ∧ .registered t r ∈ earlier) → id ∉ later.filterMap firedId
  -- a run fires in order of registration, a timer at most once
  order : ∀ n, (s.log.filterMap (firedIn n)).Pairwise (· > ·)
  reached : s.nested = false → ∀ n t due start, .fired n t due start ∈ s.log → ∀ d ∈ due, d ≤ start

/-- The invariants of the runs together. -/
structure TimerInvariant [LinearOrder τ] (s : Timers ν τ) : Prop where
  tables : TimerTables s
  record : TimerRecord s
  registered : (s.log.filterMap registeredId).Pairwise (· > ·)
  history : TimerHistory s
  order : TimerOrder s
  reached : TimerReached s

theorem TimerInvariant.start [LinearOrder τ] (now : τ) : TimerInvariant ({ nowMs := now } : Timers ν τ) where
  tables := ⟨rfl, .nil, nofun⟩
  record := ⟨nofun, nofun, nofun, nofun, nofun⟩
  registered := .nil
  history := ⟨nofun, nofun, fun later id earlier heq => by simp at heq⟩
  order := ⟨nofun, .nil, nofun, nofun, nofun, fun _ => .nil⟩
  reached := ⟨fun _ => Nat.zero_le 1, nofun, nofun⟩

theorem TimerInvariant.step [LinearOrder τ] (h : TimerInvariant s) (hstep : TimerStep s s') : TimerInvariant s' where
  tables := h.tables.step hstep
  record := h.record.step h.tables hstep
  registered := h.record.registered_step h.registered hstep
  history := h.history.step h.tables h.record hstep
  order := h.order.step h.tables hstep
  reached := h.reached.step h.tables h.record h.order hstep

/-- While ids are left, every interleaving of registrations, clearings and runs leaves the timers orderly. -/
theorem orderly_of_reachable [LinearOrder τ] [Add τ] [Zero τ] (h : (timerRuns ν τ).Reachable IdLeft s) :
    Orderly s := by
  have hall : TimerInvariant s := by
    refine h.invariant ?_ ?_
    · rintro _ ⟨now, rfl⟩
      exact .start now
    · intro s input s' hs hleft hstep
      exact hs.step (timerStep_of_step hs.tables hleft hstep)
  exact ⟨hall.tables.parallel, hall.record.kept, hall.record.fired, hall.registered, hall.history.once,
    fun later id earlier heq hearlier => (hall.history.cleared later id earlier heq hearlier).2, hall.order.order,
    hall.reached.fired⟩

theorem reachable_input [LinearOrder τ] [Add τ] [Zero τ] {allowed : Timers ν τ → TimerInput ν τ → Prop}
    (hs : (timerRuns ν τ).Reachable allowed s) (input : TimerInput ν τ) (hallowed : allowed s input)
    (h : s.step input = some s') : (timerRuns ν τ).Reachable allowed s' := hs.step hallowed h

/-- A timeout and an interval, the second of them cleared. -/
theorem orderly_of_reachable_cleared : ∃ s : Timers ℕ ℕ, s.log.length = 4 ∧ Orderly s := by
  have hstart : (timerRuns ℕ ℕ).Reachable IdLeft { nowMs := 0 } := .initial ⟨0, rfl⟩
  have htimeout := reachable_input hstart (.register 7 [] 0 5 false .page) (by norm_num [IdLeft, Timers.addTimer]) rfl
  have hinterval := reachable_input htimeout (.register 8 [] 0 5 true .page)
    (by norm_num [IdLeft, Timers.addTimer]) rfl
  have hlater := reachable_input hinterval (.advanceClock 10) trivial rfl
  have hbegun := reachable_input hlater (.runTimers false) trivial rfl
  have hfired := reachable_input hbegun (.next fun _ => true) trivial rfl
  have hcleared := reachable_input hfired (.clear 2) trivial rfl
  have hpassed := reachable_input hcleared (.next fun _ => true) trivial rfl
  have hdone := reachable_input hpassed .finish trivial rfl
  exact ⟨_, rfl, orderly_of_reachable hdone⟩

/-- The deadline of what an event fires in a run. -/
def deadlineIn (n : ℕ) : TimerEvent ν τ → Option τ
  | .fired m _ due _ => if m = n then due else none
  | _ => none

theorem reachable_takeIds [LinearOrder τ] [Add τ] [Zero τ] {allowed : Timers ν τ → TimerInput ν τ → Prop}
    (hallowed : ∀ s, allowed s .takeId) (hs : (timerRuns ν τ).Reachable allowed s) (n : ℕ) :
    (timerRuns ν τ).Reachable allowed { s with nextTimerId := (s.nextTimerId + (n + 1)) % 2 ^ 32 } := by
  induction n with
  | zero => exact hs.step (hallowed s) rfl
  | succ n ih =>
    refine ih.step (hallowed _) (congrArg some ?_)
    dsimp only
    rw [Nat.mod_add_mod, Nat.add_assoc s.nextTimerId]

/-- A run may fire in another order than that of deadlines, a run that began before another may fire an
interval whose next deadline has not been reached, and with an id that an interval still has a timeout
fires in two runs. -/
theorem not_by_deadline :
    ¬ (∀ s : Timers ℕ ℕ, (timerRuns ℕ ℕ).Reachable IdLeft s →
      ∀ n, (s.log.filterMap (deadlineIn n)).Pairwise (· ≥ ·)) ∧
    ¬ (∀ s : Timers ℕ ℕ, (timerRuns ℕ ℕ).Reachable IdLeft s →
      ∀ n t due start, .fired n t (some due) start ∈ s.log → due ≤ start) ∧
    ¬ ∀ s : Timers ℕ ℕ, (timerRuns ℕ ℕ).Reachable (fun _ _ => True) s →
      ∀ n m t due due' start start', .registered t false ∈ s.log → .fired n t due start ∈ s.log →
        .fired m t due' start' ∈ s.log → n = m := by
  have hstart : (timerRuns ℕ ℕ).Reachable IdLeft { nowMs := 0 } := .initial ⟨0, rfl⟩
  refine ⟨fun hall => ?_, fun hall => ?_, fun hall => ?_⟩
  · have hslow := reachable_input hstart (.register 7 [] 0 50 false .page) (by norm_num [IdLeft]) rfl
    have hfast := reachable_input hslow (.register 8 [] 0 5 false .page)
      (by norm_num [IdLeft, Timers.addTimer]) rfl
    have hlater := reachable_input hfast (.advanceClock 100) trivial rfl
    have hbegun := reachable_input hlater (.runTimers false) trivial rfl
    have hfirst := reachable_input hbegun (.next fun _ => true) trivial rfl
    have hsecond := reachable_input hfirst (.next fun _ => true) trivial rfl
    have horder := hall _ hsecond 0
    change List.Pairwise _ [5, 50] at horder
    simp at horder
  · have hinterval := reachable_input hstart (.register 7 [] 0 5 true .page) (by norm_num [IdLeft]) rfl
    have hlater := reachable_input hinterval (.advanceClock 10) trivial rfl
    have houter := reachable_input hlater (.runTimers false) trivial rfl
    have hinner := reachable_input houter (.runTimers false) trivial rfl
    have hfired := reachable_input hinner (.next fun _ => true) trivial rfl
    have hfinished := reachable_input hfired .finish trivial rfl
    have hagain := reachable_input hfinished (.next fun _ => true) trivial rfl
    have hreached := hall _ hagain 0 _ 15 10 List.mem_cons_self
    simp at hreached
  · have hfirst : (timerRuns ℕ ℕ).Reachable (fun _ _ => True) { nowMs := 0 } := .initial ⟨0, rfl⟩
    have hinterval := reachable_input hfirst (.register 7 [] 0 5 true .page) trivial rfl
    have htaken := reachable_takeIds (fun _ => trivial) hinterval (2 ^ 32 - 2)
    change (timerRuns ℕ ℕ).Reachable _ (Timers.mk 0 _ _ _ _ _ _ _) at htaken
    have htimeout := reachable_input htaken (.register 8 [] 0 5 false .page) trivial rfl
    have hlater := reachable_input htimeout (.advanceClock 10) trivial rfl
    have hbegun := reachable_input hlater (.runTimers false) trivial rfl
    have hone := reachable_input hbegun (.next fun _ => true) trivial rfl
    have htwo := reachable_input hone (.next fun _ => true) trivial rfl
    have hfinished := reachable_input htwo .finish trivial rfl
    have hmuch := reachable_input hfinished (.advanceClock 20) trivial rfl
    have hagain := reachable_input hmuch (.runTimers false) trivial rfl
    have hthree := reachable_input hagain (.next fun _ => true) trivial rfl
    have hfour := reachable_input hthree (.next fun _ => true) trivial rfl
    have hsame := hall _ hfour 0 1 ⟨1, 8, [], 0⟩ (some 15) (some 25) 10 20
      (.tail _ (.tail _ (.tail _ (.tail _ (.head _))))) (.tail _ (.tail _ (.head _))) (.head _)
    cases hsame

end CtBrowser.Shell
