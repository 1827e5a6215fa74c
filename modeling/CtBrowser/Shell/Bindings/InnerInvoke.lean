import CtBrowser.Shell.Bindings.Dispatch

/-!
# Inner Invoke

The listeners of the DOM standard: a visit of a dispatch works on a copy of the registrations
of its target, and a registration that was removed since is skipped. The registry finds the
listener of a turn by target, type, callback and phase instead. One that was removed and added
again in between is then found as the new registration, and otherwise the two agree.

## Main definitions

- `EventListenerList` — the registrations that are there, in the order they were added.
- `dueAsDom`, `dueByKey` — the two ways to find a registration again.
- `RunsOwn` — nothing that is still listed was removed and added again.

## Main results

- `tableAnswers_eq` — the registry finds listeners by their key, runs a `once` listener once,
  and does as the DOM says unless a listener was removed and added again.
- `tableAnswers_ne_dueAsDom` — there it does not.
-/

namespace CtBrowser.Shell

open Foundations Lockstep

/-! ## The listeners of the DOM -/

/-- What tells two listeners apart. -/
def Registration.key (r : Registration) : Text × Visit × CallbackId :=
  (r.type, ⟨r.target, r.capture⟩, r.callbackId)

/-- Whether a registration is the event handler of a target for a type. -/
def Registration.isHandler (r : Registration) (target : ListenerTarget) (type : Text) : Bool :=
  r.handler && r.target = target && r.type = type

/-- The registrations that are there, and how many were asked for. -/
structure EventListenerList where
  registered : List Registration
  made : ℕ
deriving DecidableEq, Repr

namespace EventListenerList

/-- Adds a registration, unless its key is taken. -/
def append (l : EventListenerList) (r : Registration) : EventListenerList where
  registered := if l.registered.any (·.key = r.key) then l.registered else l.registered ++ [r]
  made := l.made + 1

/-- Keeps the registrations that a test picks. -/
def keep (l : EventListenerList) (p : Registration → Bool) : EventListenerList :=
  { l with registered := l.registered.filter p }

/-- One edit. -/
def edit (l : EventListenerList) : ListenerEdit → EventListenerList
  | .addEventListener target type callback capture once passive abortSignal refused =>
    if refused then { l with made := l.made + 1 }
    else l.append ⟨l.made, abortSignal, target, type, .function callback, capture, once, passive,
      false⟩
  | .removeEventListener target type callback capture =>
    l.keep fun r => r.key ≠ (type, ⟨target, capture⟩, .function callback)
  | .abort signal => l.keep fun r => r.abortSignal ≠ some signal
  | .activateHandler target type passive =>
    if l.registered.any (·.isHandler target type) then l
    else l.append ⟨l.made, none, target, type, .handler l.made, false, false, passive, true⟩
  | .deactivateHandler target type => l.keep fun r => !r.isHandler target type

/-- The copy that a visit works on. -/
def clone (l : EventListenerList) (type : Text) (visit : Visit) : List Registration :=
  l.registered.filter fun r => r.type = type && r.target = visit.target && r.capture = visit.capture

/-- A `once` listener is removed as it runs. -/
def run (l : EventListenerList) (r : Registration) : EventListenerList :=
  if r.once then l.keep fun other => other.serial ≠ r.serial else l

end EventListenerList

/-- The same registration, if it was not removed. -/
def dueAsDom (registered : List Registration) (r : Registration) : Option Registration :=
  registered.find? fun other => other.serial = r.serial

/-- The registration that has the key now. -/
def dueByKey (registered : List Registration) (r : Registration) : Option Registration :=
  registered.find? fun other => other.key = r.key

/-- The listeners of the DOM, with a way to find a registration again. -/
def domOps (due : List Registration → Registration → Option Registration) :
    ListenerOps EventListenerList Registration where
  edit := .edit
  snapshot l := l.clone
  begin_ l _ _ r := (due l.registered r).map fun found => (found, l.run found)
  reap l := l
  lowersFlag := false

/-- The listeners of the registry. -/
def tableOps : ListenerOps ListenerTable CallbackId where
  edit := .edit
  snapshot s type visit := s.snapshot visit.target type visit.capture
  begin_ s type visit := s.begin_ visit.target type visit.capture
  reap := .reapSpentListeners
  lowersFlag := true

/-! ## Valid lists -/

/-- Serial numbers tell registrations apart, and so do keys. -/
structure EventListenerList.Valid (l : EventListenerList) : Prop where
  nodup : (l.registered.map Registration.serial).Nodup
  keys : (l.registered.map Registration.key).Nodup
  lt_made : ∀ r ∈ l.registered, r.serial < l.made

namespace EventListenerList

variable {l : EventListenerList}

theorem Valid.keep (h : l.Valid) (p : Registration → Bool) : (l.keep p).Valid where
  nodup := h.nodup.sublist (List.filter_sublist.map _)
  keys := h.keys.sublist (List.filter_sublist.map _)
  lt_made r hr := h.lt_made r (List.mem_of_mem_filter hr)

theorem Valid.more (h : l.Valid) : EventListenerList.Valid { l with made := l.made + 1 } :=
  ⟨h.nodup, h.keys, fun x hx => (h.lt_made x hx).trans (Nat.lt_succ_self _)⟩

theorem Valid.run (h : l.Valid) (r : Registration) : (l.run r).Valid := by
  rw [EventListenerList.run]
  split_ifs
  · exact h.keep _
  · exact h

theorem Valid.append (h : l.Valid) {r : Registration} (hr : r.serial = l.made) :
    (l.append r).Valid := by
  rw [EventListenerList.append]
  split_ifs with htaken
  · exact h.more
  · constructor
    · rw [List.map_append]
      refine h.nodup.append (List.nodup_singleton _) ?_
      -- every serial number so far is smaller
      rw [List.disjoint_left]
      rintro n hn hmade
      obtain ⟨x, hx, rfl⟩ := List.mem_map.mp hn
      have hlt := h.lt_made x hx
      have heq : x.serial = r.serial := List.mem_singleton.mp hmade
      omega
    · rw [List.map_append]
      refine h.keys.append (List.nodup_singleton _) ?_
      rw [List.disjoint_left]
      rintro k hk hkey
      obtain ⟨x, hx, rfl⟩ := List.mem_map.mp hk
      have heq : x.key = r.key := List.mem_singleton.mp hkey
      exact htaken (List.any_eq_true.mpr ⟨x, hx, by simpa using heq⟩)
    · intro x hx
      rcases List.mem_append.mp hx with hx | hx
      · exact (h.lt_made x hx).trans (Nat.lt_succ_self _)
      · rw [List.mem_singleton.mp hx, hr]
        exact Nat.lt_succ_self _

theorem Valid.edit (h : l.Valid) (e : ListenerEdit) : (l.edit e).Valid := by
  cases e with
  | addEventListener target type callback capture once passive abortSignal refused =>
    rw [EventListenerList.edit]
    split_ifs
    · exact h.more
    · exact h.append rfl
  | removeEventListener target type callback capture => exact h.keep _
  | abort signal => exact h.keep _
  | activateHandler target type passive =>
    rw [EventListenerList.edit]
    split_ifs
    · exact h
    · exact h.append rfl
  | deactivateHandler target type => exact h.keep _

end EventListenerList

/-! ## The registry as a list of registrations -/

/-- The registrations that are not spent. -/
def ListenerRegistry.live (entries : ListenerRegistry ListenerPayload) : List Registration :=
  (entries.filter fun current => !current.spent).map ListenerEntry.registration

namespace ListenerRegistry

variable {entries : ListenerRegistry ListenerPayload}

@[simp]
theorem live_cons_of_spent {c : ListenerEntry ListenerPayload} (h : c.spent = true) :
    live (c :: entries) = live entries := by
  simp [live, h]

@[simp]
theorem live_cons_of_not_spent {c : ListenerEntry ListenerPayload} (h : c.spent = false) :
    live (c :: entries) = c.registration :: live entries := by
  simp [live, h]

theorem live_eraseIf {p : ListenerEntry ListenerPayload → Bool} {q : Registration → Bool}
    (h : ∀ e, p e = !q e.registration) :
    live (entries.eraseIf p) = (live entries).filter q := by
  rw [live, eraseIf, live, List.filter_map, List.filter_filter, List.filter_filter]
  congr 1
  apply List.filter_congr
  intro e _
  rw [h e, Bool.not_not, Function.comp_apply, Bool.and_comm]

theorem live_reapSpent : live entries.reapSpent = live entries := by
  rw [live, reapSpent, eraseIf, List.filter_filter, live]
  simp only [Bool.and_self]

theorem snapshot_eq (target : ListenerTarget) (type : Text) (capture : Bool) :
    entries.snapshot target type capture = ((live entries).filter fun r =>
      r.type = type && r.target = target && r.capture = capture).map Registration.callbackId := by
  rw [snapshot, live, List.filter_map, List.filter_filter, List.map_map]
  congr 1
  apply List.filter_congr
  intro e _
  simp only [matches_, Function.comp_apply, ListenerEntry.registration]
  rw [Bool.and_comm, Bool.and_comm (decide (e.target = target)) (decide (e.type = type))]
  rfl

theorem callbackId_and_matches (current : ListenerEntry ListenerPayload)
    (target : ListenerTarget) (type : Text) (callbackId : CallbackId) (capture : Bool) :
    (decide (current.callbackId = callbackId) && matches_ current target type capture) =
      decide (current.registration.key = (type, ⟨target, capture⟩, callbackId)) := by
  rw [Bool.eq_iff_iff]
  simp only [matches_, Bool.and_eq_true, decide_eq_true_eq]
  simp only [Registration.key, ListenerEntry.registration, Prod.mk.injEq, Visit.mk.injEq]
  tauto

theorem live_add {made : ListenerEntry ListenerPayload} (hmade : made.spent = false) :
    live (entries.add made).2 =
      if (live entries).any (·.key = made.registration.key) then live entries
      else live entries ++ [made.registration] := by
  have hany : (entries.any fun current => !current.spent &&
      matches_ current made.target made.type made.capture &&
        current.callbackId = made.callbackId) =
      (live entries).any (·.key = made.registration.key) := by
    rw [live, List.any_map, List.any_filter]
    refine List.any_congr rfl fun e => ?_
    rw [Bool.and_assoc, Bool.and_comm (matches_ ..), callbackId_and_matches]
    rfl
  rw [add, if_neg (by simp [hmade]), hany]
  split_ifs
  · rfl
  · simp [live, hmade]

theorem hasHandler_eq (hlive : ∀ e ∈ entries, e.handler → e.spent = false)
    (target : ListenerTarget) (type : Text) :
    entries.hasHandler target type = (live entries).any (·.isHandler target type) := by
  rw [hasHandler, live, List.any_map, List.any_filter, Bool.eq_iff_iff, List.any_eq_true,
    List.any_eq_true]
  refine exists_congr fun e => and_congr_right fun he => ?_
  simp only [Registration.isHandler, Function.comp_apply, Bool.and_eq_true, Bool.not_eq_true']
  exact ⟨fun h => ⟨hlive e he h.1.1, h⟩, fun h => h.2⟩

/-- Looking a listener up in the registry is finding its key among the live entries, and a
`once` listener that is found is live no more. -/
theorem begin_eq (hhandlers : ∀ e ∈ entries, e.handler → e.once = false)
    (hnodup : ((live entries).map Registration.serial).Nodup) (target : ListenerTarget)
    (type : Text) (callbackId : CallbackId) (capture : Bool) :
    (begin_ target type callbackId capture entries).map
        (fun found => (found.1.registration, live found.2)) =
      ((live entries).find? (·.key = (type, ⟨target, capture⟩, callbackId))).map fun r =>
        (r, if r.once then (live entries).filter (·.serial ≠ r.serial) else live entries) := by
  induction entries with
  | nil => rfl
  | cons c rest ih =>
    have hrest : ∀ e ∈ rest, e.handler → e.once = false :=
      fun e he => hhandlers e (List.mem_cons_of_mem _ he)
    rw [begin_, Bool.and_assoc, callbackId_and_matches]
    cases hspent : c.spent with
    | true =>
      rw [live_cons_of_spent hspent] at hnodup ⊢
      rw [if_neg (by simp), Option.map_map, ← ih hrest hnodup]
      congr 1
      funext found
      simp [hspent]
    | false =>
      rw [live_cons_of_not_spent hspent] at hnodup ⊢
      obtain ⟨hfresh, hnodup⟩ := List.nodup_cons.mp hnodup
      have hne : ∀ r ∈ live rest, ¬ c.registration.serial = r.serial :=
        fun r hr heq => hfresh (heq ▸ List.mem_map_of_mem hr)
      by_cases hkey : c.registration.key = (type, ⟨target, capture⟩, callbackId)
      · rw [if_pos (by simpa using hkey), List.find?_cons_of_pos (by simpa using hkey)]
        simp only [Option.map_some, Option.some.injEq]
        cases honce : c.once with
        | false =>
          rw [if_neg (by simp), live_cons_of_not_spent hspent,
            if_neg (by simp [ListenerEntry.registration, honce])]
        | true =>
          have hhandler : c.handler = false := by
            by_contra hc
            have := hhandlers c List.mem_cons_self (by simpa using hc)
            simp [honce] at this
          rw [if_pos (by simp [hhandler]), live_cons_of_spent rfl,
            if_pos (by simp [ListenerEntry.registration, honce]), List.filter_cons_of_neg (by simp),
            List.filter_eq_self.mpr]
          · simp only [ListenerEntry.registration, honce]
          · exact fun r hr => by simpa using fun heq => hne r hr heq.symm
      · rw [if_neg (by simpa using hkey), List.find?_cons_of_neg (by simpa using hkey),
          Option.map_map]
        have hih := congrArg (Option.map fun found => (found.1, c.registration :: found.2))
          (ih hrest hnodup)
        rw [Option.map_map, Option.map_map] at hih
        have hleft : ∀ found : ListenerEntry ListenerPayload × ListenerRegistry ListenerPayload,
            (found.1.registration, live (c :: found.2)) =
              (found.1.registration, c.registration :: live found.2) :=
          fun found => by rw [live_cons_of_not_spent hspent]
        refine Eq.trans (Option.map_congr fun found _ => hleft found) (hih.trans ?_)
        refine Option.map_congr fun r hr => ?_
        have hmem := List.mem_of_find?_eq_some hr
        rw [Function.comp_apply]
        split_ifs
        · rw [List.filter_cons_of_pos (by simpa using hne r hmem)]
        · rfl

/-- A property that running a listener does not break holds of every entry after it ran. -/
theorem forall_mem_begin {P : ListenerEntry ListenerPayload → Prop}
    (hspend : ∀ e, P e → e.handler = false → P { e with spent := true })
    (hentries : ∀ e ∈ entries, P e) {target : ListenerTarget} {type : Text}
    {callbackId : CallbackId} {capture : Bool}
    {found : ListenerEntry ListenerPayload × ListenerRegistry ListenerPayload}
    (hfound : begin_ target type callbackId capture entries = some found) :
    ∀ e ∈ found.2, P e := by
  induction entries generalizing found with
  | nil => cases hfound
  | cons c rest ih =>
    obtain ⟨hc, hrest⟩ := List.forall_mem_cons.mp hentries
    rw [begin_] at hfound
    split_ifs at hfound with hmatch honce
    · obtain rfl := Option.some.inj hfound
      have hhandler : c.handler = false := by simpa using (Bool.and_eq_true_iff.mp honce).2
      exact List.forall_mem_cons.mpr ⟨hspend c hc hhandler, hrest⟩
    · obtain rfl := Option.some.inj hfound
      exact List.forall_mem_cons.mpr ⟨hc, hrest⟩
    · obtain ⟨later, hlater, rfl⟩ := Option.map_eq_some_iff.mp hfound
      exact List.forall_mem_cons.mpr ⟨hc, ih hrest hlater⟩

end ListenerRegistry

/-! ## The registry and the list -/

/-- The registry stands for a list of registrations. -/
structure ListenerTable.Tracks (s : ListenerTable) (t : EventListenerList) : Prop where
  live : s.listeners.live = t.registered
  made : s.made = t.made
  handlers : ∀ e ∈ s.listeners, e.handler → e.once = false ∧ e.spent = false
  valid : t.Valid

namespace ListenerTable.Tracks

variable {s : ListenerTable} {t : EventListenerList}

theorem eraseIf (h : s.Tracks t) {p : ListenerEntry ListenerPayload → Bool}
    {q : Registration → Bool} (hpq : ∀ e, p e = !q e.registration) :
    ListenerTable.Tracks { s with listeners := s.listeners.eraseIf p } (t.keep q) where
  live := by rw [ListenerRegistry.live_eraseIf hpq, h.live, EventListenerList.keep]
  made := h.made
  handlers e he := h.handlers e (List.mem_of_mem_filter he)
  valid := h.valid.keep q

theorem addListener (h : s.Tracks t) {made : ListenerEntry ListenerPayload}
    (hspent : made.spent = false) (hhandler : made.handler → made.once = false)
    (hserial : made.payload.serial = t.made) :
    (s.addListener made).Tracks (t.append made.registration) where
  live := by
    rw [ListenerTable.addListener, ListenerRegistry.live_add hspent, h.live,
      EventListenerList.append]
  made := congrArg (· + 1) h.made
  handlers e he := by
    rw [ListenerTable.addListener, ListenerRegistry.add] at he
    split_ifs at he
    · exact h.handlers e he
    · exact h.handlers e he
    · rcases List.mem_append.mp he with he | he
      · exact h.handlers e he
      · obtain rfl := List.mem_singleton.mp he
        exact fun hhere => ⟨hhandler hhere, hspent⟩
  valid := h.valid.append hserial

theorem addListener_refused (h : s.Tracks t) {made : ListenerEntry ListenerPayload}
    (hspent : made.spent = true) :
    (s.addListener made).Tracks { t with made := t.made + 1 } where
  live := by rw [ListenerTable.addListener, ListenerRegistry.add, if_pos hspent, h.live]
  made := congrArg (· + 1) h.made
  handlers e he := by
    rw [ListenerTable.addListener, ListenerRegistry.add, if_pos hspent] at he
    exact h.handlers e he
  valid := h.valid.more

theorem edit (h : s.Tracks t) (e : ListenerEdit) : (s.edit e).Tracks (t.edit e) := by
  obtain ⟨hlive, hmade, hhandlers, hvalid⟩ := id h
  cases e with
  | addEventListener target type callback capture once passive abortSignal refused =>
    rw [ListenerTable.edit, EventListenerList.edit]
    cases refused with
    | false =>
      rw [if_neg (by simp), ← hmade]
      exact h.addListener rfl (by simp) hmade
    | true => exact h.addListener_refused rfl
  | removeEventListener target type callback capture =>
    refine h.eraseIf fun e => ?_
    rw [ListenerRegistry.callbackId_and_matches]
    simp
  | abort signal =>
    refine h.eraseIf fun e => ?_
    rw [decide_not, Bool.not_not]
    rfl
  | activateHandler target type passive =>
    rw [ListenerTable.edit, EventListenerList.edit, ListenerTable.activateEventHandler,
      ListenerRegistry.hasHandler_eq (fun e he hh => (hhandlers e he hh).2), hlive]
    split_ifs
    · exact h
    · rw [← hmade]
      exact h.addListener rfl (by simp) hmade
  | deactivateHandler target type =>
    refine h.eraseIf fun e => ?_
    rw [Bool.not_not]
    rfl

theorem begin_ (h : s.Tracks t) {type : Text} {visit : Visit} {callbackId : CallbackId}
    {m : Registration} (hm : m.key = (type, visit, callbackId)) :
    Option.Rel (fun x y => x.1 = y.1 ∧ ListenerTable.Tracks x.2 y.2)
      (s.begin_ visit.target type visit.capture callbackId)
      ((dueByKey t.registered m).map fun found => (found, t.run found)) := by
  have hfound := ListenerRegistry.begin_eq (fun e he hh => (h.handlers e he hh).1)
    (h.live ▸ h.valid.nodup) visit.target type callbackId visit.capture
  rw [h.live, ← hm, ← dueByKey] at hfound
  rw [ListenerTable.begin_]
  cases hentry : s.listeners.begin_ visit.target type callbackId visit.capture with
  | none =>
    rw [hentry, Option.map_none, eq_comm, Option.map_eq_none_iff] at hfound
    rw [hfound]
    exact .none
  | some found =>
    rw [hentry, Option.map_some, eq_comm, Option.map_eq_some_iff] at hfound
    obtain ⟨r, hr, heq⟩ := hfound
    obtain ⟨rfl, hlive⟩ := Prod.mk.inj heq
    rw [hr]
    refine .some ⟨rfl, ?_, ?_, ?_, h.valid.run _⟩
    · simp only [EventListenerList.run]
      rw [← hlive]
      split_ifs <;> rfl
    · simp only [EventListenerList.run]
      split_ifs <;> exact h.made
    · refine ListenerRegistry.forall_mem_begin (fun e he hhandler => ?_) h.handlers hentry
      simp [hhandler]

end ListenerTable.Tracks

theorem simulates_tableOps : Simulates tableOps (domOps dueByKey) ListenerTable.Tracks
    fun _ _ type visit callbackId m => m.key = (type, visit, callbackId) where
  edit e h := h.edit e
  edit_listed _ _ hm := hm
  snapshot {s t} type visit h := by
    simp only [tableOps, domOps]
    rw [ListenerTable.snapshot, ListenerRegistry.snapshot_eq, h.live, EventListenerList.clone,
      List.forall₂_map_left_iff, List.forall₂_same]
    intro m hm
    have hpicked := (List.mem_filter.mp hm).2
    simp only [Bool.and_eq_true, decide_eq_true_eq] at hpicked
    obtain ⟨⟨htype, htarget⟩, hcapture⟩ := hpicked
    rw [Registration.key, htype, htarget, hcapture]
  begin_ h hm := h.begin_ hm
  begin_listed _ _ _ _ := id
  reap {s t} h := {
    live := ListenerRegistry.live_reapSpent.trans h.live
    made := h.made
    handlers := fun e he => h.handlers e (List.mem_of_mem_filter he)
    valid := h.valid }

/-! ## What a step does to the list -/

/-- What an act makes of the list, and the answer that comes with it. -/
inductive Outcome (l : EventListenerList) : EventListenerList → DispatchAnswer → Prop
  | same {answer : DispatchAnswer} (h : ∀ r, answer ≠ .invokes r) : Outcome l l answer
  | edits (e : ListenerEdit) : Outcome l (l.edit e) .done
  | runs {r : Registration} (hr : r ∈ l.registered) : Outcome l (l.run r) (.invokes r)

section Outcome

variable {due : List Registration → Registration → Option Registration}
  (hdue : ∀ registered m r, due registered m = some r → r ∈ registered)
  {s : DispatchState EventListenerList Registration}

include hdue

theorem runs_of_innerInvoke {event : ℕ} {type : Text} {visit : Visit} {queued : List Registration}
    {r : Registration} {l : EventListenerList} {rest : List Registration}
    (h : s.innerInvoke (domOps due) event type visit queued = some (r, l, rest)) :
    r ∈ s.listeners.registered ∧ l = s.listeners.run r := by
  induction queued with
  | nil => cases h
  | cons m queued ih =>
    rw [DispatchState.innerInvoke] at h
    split_ifs at h
    simp only [domOps] at h ih
    cases hm : due s.listeners.registered m with
    | none =>
      rw [hm] at h
      exact ih h
    | some found =>
      rw [hm] at h
      cases h
      exact ⟨hdue _ _ _ hm, rfl⟩

theorem runs_of_travel {event : ℕ} {type : Text} {visits : List Visit} {r : Registration}
    {l : EventListenerList} {d : RunningDispatch Registration}
    (h : s.travel (domOps due) event type visits = some (r, l, d)) :
    r ∈ s.listeners.registered ∧ l = s.listeners.run r := by
  induction visits with
  | nil => cases h
  | cons visit visits ih =>
    rw [DispatchState.travel] at h
    split_ifs at h
    split at h
    · exact ih h
    · next hfound =>
      cases h
      exact runs_of_innerInvoke hdue hfound

omit hdue in
theorem outcome_settle {event : ℕ} {outer : List (RunningDispatch Registration)}
    {x : Option (Registration × EventListenerList × RunningDispatch Registration)}
    (hx : ∀ r l d, x = some (r, l, d) → r ∈ s.listeners.registered ∧ l = s.listeners.run r) :
    Outcome s.listeners (s.settle (domOps due) event outer x).1.listeners
      (s.settle (domOps due) event outer x).2 := by
  cases x with
  | none =>
    have hreap : (s.finish (domOps due) event outer).listeners = s.listeners := ite_self _
    rw [DispatchState.settle, hreap]
    exact .same fun r => by simp
  | some found =>
    obtain ⟨r, l, d⟩ := found
    obtain ⟨hr, rfl⟩ := hx r l d rfl
    exact .runs hr

theorem outcome_step (act : DispatchAct) :
    Outcome s.listeners (s.step (domOps due) act).1.listeners (s.step (domOps due) act).2 := by
  cases act with
  | edit e => exact .edits e
  | stopPropagation event => exact .same fun r => by simp [DispatchState.step]
  | stopImmediatePropagation event => exact .same fun r => by simp [DispatchState.step]
  | initEvent event =>
    rw [DispatchState.step]
    split_ifs <;> exact .same fun r => by simp
  | dispatchEvent event type bubbles path =>
    rw [DispatchState.step, DispatchState.dispatchTo]
    split_ifs
    · exact .same fun r => by simp
    · exact outcome_settle (s := s.start (domOps due) event) fun r l d h => runs_of_travel hdue h
  | returns =>
    rw [DispatchState.step]
    split
    · exact .same fun r => by simp
    · next d outer _ =>
      refine outcome_settle fun r l d' h => ?_
      split at h
      · next hfound =>
        cases h
        exact runs_of_innerInvoke hdue hfound
      · exact runs_of_travel hdue h

end Outcome

/-! ## A `once` listener -/

/-- The serial numbers of the `once` listeners that are called. -/
def onceSerials (answers : List DispatchAnswer) : List ℕ :=
  answers.filterMap fun
    | .invokes r => if r.once then some r.serial else none
    | _ => none

@[simp]
theorem onceSerials_invokes (r : Registration) (later : List DispatchAnswer) :
    onceSerials (.invokes r :: later) =
      if r.once then r.serial :: onceSerials later else onceSerials later := by
  cases h : r.once <;> simp [onceSerials, h]

theorem Outcome.valid {l l' : EventListenerList} {answer : DispatchAnswer}
    (h : Outcome l l' answer) (hl : l.Valid) : l'.Valid := by
  cases h with
  | same => exact hl
  | edits e => exact hl.edit e
  | runs => exact hl.run _

namespace EventListenerList

variable {l : EventListenerList} {n : ℕ}

/-- The serial numbers of a list, and those to come. -/
def CanRun (l : EventListenerList) (n : ℕ) : Prop :=
  (∃ r ∈ l.registered, r.serial = n) ∨ l.made ≤ n

theorem canRun_of_keep {p : Registration → Bool} (h : (l.keep p).CanRun n) : l.CanRun n :=
  h.imp_left fun ⟨r, hr, hserial⟩ => ⟨r, List.mem_of_mem_filter hr, hserial⟩

theorem canRun_of_run {r : Registration} (h : (l.run r).CanRun n) : l.CanRun n := by
  rw [EventListenerList.run] at h
  split_ifs at h
  · exact canRun_of_keep h
  · exact h

theorem canRun_of_more (h : CanRun { l with made := l.made + 1 } n) : l.CanRun n :=
  h.imp_right (Nat.le_of_succ_le ·)

theorem canRun_of_append {r : Registration} (hr : r.serial = l.made) (h : (l.append r).CanRun n) :
    l.CanRun n := by
  rcases h with ⟨x, hx, rfl⟩ | h
  · rw [EventListenerList.append] at hx
    dsimp only at hx
    split_ifs at hx
    · exact .inl ⟨x, hx, rfl⟩
    · rcases List.mem_append.mp hx with hx | hx
      · exact .inl ⟨x, hx, rfl⟩
      · rw [List.mem_singleton.mp hx]
        exact .inr hr.ge
  · exact .inr (Nat.le_of_succ_le h)

theorem canRun_of_edit {e : ListenerEdit} (h : (l.edit e).CanRun n) : l.CanRun n := by
  cases e with
  | addEventListener target type callback capture once passive abortSignal refused =>
    rw [EventListenerList.edit] at h
    split_ifs at h
    · exact canRun_of_more h
    · exact canRun_of_append rfl h
  | removeEventListener target type callback capture => exact canRun_of_keep h
  | abort signal => exact canRun_of_keep h
  | activateHandler target type passive =>
    rw [EventListenerList.edit] at h
    split_ifs at h
    · exact h
    · exact canRun_of_append rfl h
  | deactivateHandler target type => exact canRun_of_keep h

theorem not_canRun_run (hl : l.Valid) {r : Registration} (hr : r ∈ l.registered)
    (honce : r.once = true) : ¬ (l.run r).CanRun r.serial := by
  rw [EventListenerList.run, if_pos honce]
  rintro (⟨x, hx, hserial⟩ | hmade)
  · simpa [hserial] using (List.mem_filter.mp hx).2
  · exact absurd (hl.lt_made r hr) (Nat.not_lt.mpr hmade)

end EventListenerList

/-- No `once` listener is called twice, and only those are called that can run. -/
theorem nodup_onceSerials {due : List Registration → Registration → Option Registration}
    (hdue : ∀ registered m r, due registered m = some r → r ∈ registered)
    {s : DispatchState EventListenerList Registration} (hs : s.listeners.Valid)
    (acts : List DispatchAct) :
    (onceSerials (answers (DispatchState.step (domOps due)) s acts)).Nodup ∧
      ∀ n ∈ onceSerials (answers (DispatchState.step (domOps due)) s acts),
        s.listeners.CanRun n := by
  induction acts generalizing s with
  | nil => exact ⟨List.nodup_nil, by simp [answers, onceSerials]⟩
  | cons act acts ih =>
    have houtcome := outcome_step hdue act (s := s)
    obtain ⟨hnodup, hcan⟩ := ih (houtcome.valid hs)
    rw [answers]
    generalize (s.step (domOps due) act).2 = answer at houtcome
    generalize (s.step (domOps due) act).1 = next at houtcome hnodup hcan
    generalize hl : s.listeners = l at houtcome hs
    generalize hl' : next.listeners = l' at houtcome hcan
    cases houtcome with
    | same hanswer =>
      cases answer with
      | invokes r => exact absurd rfl (hanswer r)
      | _ => exact ⟨hnodup, hcan⟩
    | edits e => exact ⟨hnodup, fun n hn => EventListenerList.canRun_of_edit (hcan n hn)⟩
    | @runs r hr =>
      have hlater : ∀ n ∈ onceSerials (answers (DispatchState.step (domOps due)) next acts),
          l.CanRun n := fun n hn => EventListenerList.canRun_of_run (hcan n hn)
      rw [onceSerials_invokes]
      split_ifs with honce
      · have hnot : r.serial ∉ onceSerials (answers (DispatchState.step (domOps due)) next acts) :=
          fun h => EventListenerList.not_canRun_run hs hr honce (hcan _ h)
        exact ⟨List.nodup_cons.mpr ⟨hnot, hnodup⟩,
          List.forall_mem_cons.mpr ⟨.inl ⟨r, hr, rfl⟩, hlater⟩⟩
      · exact ⟨hnodup, hlater⟩

/-! ## Nothing removed and added again -/

/-- A registration that is listed may be removed, but its serial number is not given again. -/
structure EventListenerList.Listed (l : EventListenerList) (m : Registration) : Prop where
  lt_made : m.serial < l.made
  eq_of_serial : ∀ r ∈ l.registered, r.serial = m.serial → r = m

namespace EventListenerList

variable {l : EventListenerList} {m : Registration}

theorem Listed.keep (h : l.Listed m) (p : Registration → Bool) : (l.keep p).Listed m :=
  ⟨h.lt_made, fun r hr => h.eq_of_serial r (List.mem_of_mem_filter hr)⟩

theorem Listed.run (h : l.Listed m) (r : Registration) : (l.run r).Listed m := by
  rw [EventListenerList.run]
  split_ifs
  · exact h.keep _
  · exact h

theorem Listed.more (h : l.Listed m) : Listed { l with made := l.made + 1 } m :=
  ⟨h.lt_made.trans (Nat.lt_succ_self _), h.eq_of_serial⟩

theorem Listed.append (h : l.Listed m) {r : Registration} (hr : r.serial = l.made) :
    (l.append r).Listed m := by
  refine ⟨h.lt_made.trans (Nat.lt_succ_self _), fun x hx hserial => ?_⟩
  rw [EventListenerList.append] at hx
  dsimp only at hx
  split_ifs at hx
  · exact h.eq_of_serial x hx hserial
  · rcases List.mem_append.mp hx with hx | hx
    · exact h.eq_of_serial x hx hserial
    · -- the number of the new one is past that of `m`
      have hlt := h.lt_made
      rw [List.mem_singleton.mp hx] at hserial
      omega

theorem Listed.edit (h : l.Listed m) (e : ListenerEdit) : (l.edit e).Listed m := by
  cases e with
  | addEventListener target type callback capture once passive abortSignal refused =>
    rw [EventListenerList.edit]
    split_ifs
    · exact h.more
    · exact h.append rfl
  | removeEventListener target type callback capture => exact h.keep _
  | abort signal => exact h.keep _
  | activateHandler target type passive =>
    rw [EventListenerList.edit]
    split_ifs
    · exact h
    · exact h.append rfl
  | deactivateHandler target type => exact h.keep _

theorem Valid.listed (h : l.Valid) (hm : m ∈ l.registered) : l.Listed m :=
  ⟨h.lt_made m hm, fun _ hr hserial => List.inj_on_of_nodup_map h.nodup hr hm hserial⟩

end EventListenerList

theorem simulates_self {due : List Registration → Registration → Option Registration} :
    Simulates (domOps due) (domOps due) (fun l l' => l = l' ∧ l.Valid)
      fun l _ _ _ m m' => m = m' ∧ l.Listed m where
  edit e h := ⟨congrArg (EventListenerList.edit · e) h.1, h.2.edit e⟩
  edit_listed e _ hm := ⟨hm.1, hm.2.edit e⟩
  snapshot {l l'} type visit h := by
    obtain ⟨rfl, hl⟩ := h
    exact List.forall₂_same.mpr fun m hm => ⟨rfl, hl.listed (List.mem_of_mem_filter hm)⟩
  begin_ {l l' type visit m m'} h hm := by
    obtain ⟨rfl, hl⟩ := h
    obtain ⟨rfl, hm⟩ := hm
    simp only [domOps]
    cases due l.registered m with
    | none => exact .none
    | some r => exact .some ⟨rfl, rfl, hl.run r⟩
  begin_listed _ _ hr _ _ _ _ _ hm := by
    obtain ⟨r, -, hrun⟩ := Option.map_eq_some_iff.mp hr
    obtain ⟨-, rfl⟩ := Prod.mk.inj hrun
    exact ⟨hm.1, hm.2.run r⟩
  reap h := h

/-- Nothing that is listed was removed and added again: what has its key is the registration
itself. -/
def RunsOwn (s : DispatchState EventListenerList Registration) : DispatchAct → Prop
  | .returns => ∀ d ∈ s.dispatches.head?, ∀ m ∈ d.queued,
    ∀ r ∈ dueByKey s.listeners.registered m, r = m
  | _ => True

instance (s : DispatchState EventListenerList Registration) :
    ∀ act, Decidable (RunsOwn s act)
  | .returns => inferInstanceAs (Decidable (∀ d ∈ s.dispatches.head?, ∀ m ∈ d.queued,
      ∀ r ∈ dueByKey s.listeners.registered m, r = m))
  | .edit _ | .stopPropagation _ | .stopImmediatePropagation _ | .initEvent _
  | .dispatchEvent .. => inferInstanceAs (Decidable True)

theorem EventListenerList.Listed.dueAsDom_eq {l : EventListenerList} {m : Registration}
    (h : l.Listed m) (hown : ∀ r ∈ dueByKey l.registered m, r = m) :
    dueByKey l.registered m = dueAsDom l.registered m := by
  cases hkey : dueByKey l.registered m with
  | none =>
    refine (List.find?_eq_none.mpr fun r hr => ?_).symm
    intro hserial
    obtain rfl := h.eq_of_serial r hr (by simpa using hserial)
    simpa using List.find?_eq_none.mp hkey r hr
  | some r =>
    obtain rfl := hown r hkey
    have hr : r ∈ l.registered := List.mem_of_find?_eq_some hkey
    cases hserial : dueAsDom l.registered r with
    | none => simpa using List.find?_eq_none.mp hserial r hr
    | some r' =>
      have hr' := List.find?_some hserial
      rw [h.eq_of_serial r' (List.mem_of_find?_eq_some hserial) (by simpa using hr')]

section RunsOwn

variable {s : DispatchState EventListenerList Registration}

theorem innerInvoke_dueAsDom {event : ℕ} {type : Text} {visit : Visit}
    {queued : List Registration} (hlisted : ∀ m ∈ queued, s.listeners.Listed m)
    (hown : ∀ m ∈ queued, ∀ r ∈ dueByKey s.listeners.registered m, r = m) :
    s.innerInvoke (domOps dueByKey) event type visit queued =
      s.innerInvoke (domOps dueAsDom) event type visit queued := by
  induction queued with
  | nil => rfl
  | cons m queued ih =>
    obtain ⟨hm, hlisted⟩ := List.forall_mem_cons.mp hlisted
    obtain ⟨hmown, hown⟩ := List.forall_mem_cons.mp hown
    rw [DispatchState.innerInvoke, DispatchState.innerInvoke, ih hlisted hown]
    simp only [domOps, hm.dueAsDom_eq hmown]

theorem travel_dueAsDom (hs : s.listeners.Valid) {event : ℕ} {type : Text}
    (visits : List Visit) :
    s.travel (domOps dueByKey) event type visits = s.travel (domOps dueAsDom) event type visits := by
  induction visits with
  | nil => rfl
  | cons visit visits ih =>
    have hsame := @innerInvoke_dueAsDom s event type visit (s.listeners.clone type visit)
      (fun m hm => hs.listed (List.mem_of_mem_filter hm)) fun m hm r hr => by
        have hkey := List.find?_some hr
        exact List.inj_on_of_nodup_map hs.keys (List.mem_of_find?_eq_some hr)
          (List.mem_of_mem_filter hm) (by simpa using hkey)
    rw [DispatchState.travel, DispatchState.travel, ih]
    simp only [domOps] at hsame ⊢
    rw [hsame]

theorem settle_dueAsDom (event : ℕ) (outer : List (RunningDispatch Registration))
    (x : Option (Registration × EventListenerList × RunningDispatch Registration)) :
    s.settle (domOps dueByKey) event outer x = s.settle (domOps dueAsDom) event outer x := by
  cases x <;> rfl

theorem step_dueAsDom (hs : s.listeners.Valid)
    (hlisted : ∀ d ∈ s.dispatches, ∀ m ∈ d.queued, s.listeners.Listed m) {act : DispatchAct}
    (hown : RunsOwn s act) :
    s.step (domOps dueByKey) act = s.step (domOps dueAsDom) act := by
  cases act with
  | dispatchEvent event type bubbles path =>
    have hstart : s.start (domOps dueByKey) event = s.start (domOps dueAsDom) event := rfl
    rw [DispatchState.step, DispatchState.step, DispatchState.dispatchTo, DispatchState.dispatchTo,
      hstart, settle_dueAsDom, travel_dueAsDom (s := s.start (domOps dueAsDom) event) hs]
  | returns =>
    rw [DispatchState.step, DispatchState.step]
    cases hd : s.dispatches with
    | nil => rfl
    | cons d outer =>
      have hmem : d ∈ s.dispatches := hd ▸ List.mem_cons_self
      have hhead : d ∈ s.dispatches.head? := by rw [hd]; rfl
      simp only [DispatchState.goOn]
      rw [settle_dueAsDom, travel_dueAsDom hs,
        innerInvoke_dueAsDom (hlisted d hmem) (hown d hhead)]
  | _ => rfl

theorem answers_dueAsDom (hs : s.Tracks (fun l l' => l = l' ∧ l.Valid)
      (fun l _ _ _ m m' => m = m' ∧ l.Listed m) s) {acts : List DispatchAct}
    (hown : Along (DispatchState.step (domOps dueByKey)) RunsOwn s acts) :
    answers (DispatchState.step (domOps dueByKey)) s acts =
      answers (DispatchState.step (domOps dueAsDom)) s acts := by
  induction acts generalizing s with
  | nil => rfl
  | cons act acts ih =>
    have hlisted : ∀ d ∈ s.dispatches, ∀ m ∈ d.queued, s.listeners.Listed m := by
      intro d hd m hm
      have hsame := (List.forall₂_same.mp hs.dispatches d hd).queued
      exact (List.forall₂_same.mp hsame m hm).2
    have hstep := step_dueAsDom hs.listeners.2 hlisted hown.1
    rw [answers, answers, ih (simulates_self.step hs act).2 hown.2, hstep]

end RunsOwn

/-! ## Every run -/

/-- A page and its dispatches, on the registry. -/
def tableAnswers (acts : List DispatchAct) : List DispatchAnswer :=
  answers (DispatchState.step tableOps) (.fresh .fresh) acts

/-- A page and its dispatches, on the list of the DOM. -/
def domAnswers (due : List Registration → Registration → Option Registration)
    (acts : List DispatchAct) : List DispatchAnswer :=
  answers (DispatchState.step (domOps due)) (.fresh ⟨[], 0⟩) acts

/-- The registry does what the DOM says, with listeners told apart by target, type, callback and
phase: what a visit listed runs unless it was removed, and one that was added again under its
key is there. Each `once` listener runs once, and the two agree when nothing that is listed was
added again. -/
theorem tableAnswers_eq (acts : List DispatchAct) :
    tableAnswers acts = domAnswers dueByKey acts ∧
      (onceSerials (tableAnswers acts)).Nodup ∧
      (Along (DispatchState.step (domOps dueByKey)) RunsOwn (.fresh ⟨[], 0⟩) acts →
        tableAnswers acts = domAnswers dueAsDom acts) := by
  have hvalid : EventListenerList.Valid ⟨[], 0⟩ := ⟨List.nodup_nil, List.nodup_nil, by simp⟩
  have htable : ListenerTable.Tracks .fresh ⟨[], 0⟩ :=
    ⟨rfl, rfl, by simp [ListenerTable.fresh], hvalid⟩
  have hkey : tableAnswers acts = domAnswers dueByKey acts :=
    simulates_tableOps.answers_eq (DispatchState.tracks_fresh htable) acts
  refine ⟨hkey, ?_, fun hown => ?_⟩
  · rw [hkey]
    exact (nodup_onceSerials (fun _ _ _ => List.mem_of_find?_eq_some) hvalid acts).1
  · rw [hkey]
    exact answers_dueAsDom (DispatchState.tracks_fresh ⟨rfl, hvalid⟩) hown

/-- A `once` listener that starts a dispatch of its own, which finds the other listener only. -/
def nested : List DispatchAct :=
  let target : ListenerTarget := ⟨.node, 1⟩
  let add (callback : ℕ) (once : Bool) : DispatchAct :=
    .edit (.addEventListener target (ascii "click") callback false once false none false)
  let dispatch (event : ℕ) : DispatchAct :=
    .dispatchEvent event (ascii "click") true [⟨target, true, false⟩]
  [add 0 true, add 1 false, dispatch 0, dispatch 1, .returns, .returns, .returns]

/-- Nothing that is listed was added again there. -/
theorem tableAnswers_eq_nested : tableAnswers nested = domAnswers dueAsDom nested :=
  (tableAnswers_eq nested).2.2 (by decide)

/-- A listener that is removed while another one runs, and added again. -/
def readded : List DispatchAct :=
  let target : ListenerTarget := ⟨.node, 1⟩
  let add (callback : ℕ) : DispatchAct :=
    .edit (.addEventListener target (ascii "click") callback false false false none false)
  [add 0, add 1, .dispatchEvent 0 (ascii "click") true [⟨target, true, false⟩],
    .edit (.removeEventListener target (ascii "click") 1 false), add 1, .returns]

/-- The registry calls it, the DOM does not. -/
theorem tableAnswers_ne_dueAsDom : ¬ ∀ acts, tableAnswers acts = domAnswers dueAsDom acts := by
  intro h
  have hne : tableAnswers readded ≠ domAnswers dueAsDom readded := by decide
  exact hne (h readded)

end CtBrowser.Shell
