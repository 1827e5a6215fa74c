import CtBrowser.Shell.Net.Url.BasicParse

/-!
# Runs of the Basic URL Parser

Every run ends: a turn leads to a later state, or to the next code point in the same state, so
the turns that the parser is given are never used up. What a run does can therefore be said one
turn at a time.

## Main definitions

- `State.rank` — the order of the states.
- `Parser.Runs` — what a run returns.

## Main results

- `Parser.exists_runs` — every run returns.
- `Parser.runs_of_go`, `Parser.runs_of_stop` — a run is a turn and the rest of the run.
- `Parser.Runs.invariant` — what every step preserves holds at the end.
-/

namespace CtBrowser.Shell.Url

/-- The order in which a run goes through the states; it never goes back. -/
def State.rank : State → ℕ
  | schemeStart => 0
  | scheme => 1
  | noScheme => 2
  | specialRelativeOrAuthority | pathOrAuthority => 3
  | relative => 4
  | relativeSlash | specialAuthoritySlashes => 5
  | specialAuthorityIgnoreSlashes => 6
  | authority => 7
  | host | hostname => 8
  | port | file => 9
  | fileSlash => 10
  | fileHost => 11
  | pathStart => 12
  | path | opaquePath => 13
  | query => 14
  | fragment => 15

theorem State.rank_le (st : State) : st.rank ≤ 15 := by cases st <;> decide

/-- Every way an outcome goes on has a property. -/
def Outcome.All (P : Parser → Prop) : Outcome → Prop
  | stop _ _ => True
  | go s => P s

/-- An outcome that stops is a failure. -/
def Outcome.OnlyFails : Outcome → Prop
  | stop ok _ => ok = false
  | go _ => True

namespace Parser

variable {env : Env} {s t : Parser} {c : Reading} {r : Bool × UrlRecord}

/-! ## Progress -/

/-- The pointer is not before the input, and an authority can be read again from its start. -/
structure Ready (s : Parser) : Prop where
  pointer : 0 ≤ s.p
  buffer : s.st.rank ≤ 7 → (s.buffer.length : ℤ) ≤ s.p

/-- What a code point leads to is a later state, or the same one with the next code point. -/
structure Progress (s s' : Parser) : Prop where
  pointer : 0 ≤ s'.p + 1
  buffer : s'.st.rank ≤ 7 → (s'.buffer.length : ℤ) ≤ s'.p + 1
  later : s.st.rank < s'.st.rank ∨ s'.st.rank = s.st.rank ∧ s'.p = s.p

theorem foldl_userinfo_eq (buffer : List ℕ) (t : Parser) :
    ∃ passwordTokenSeen username password, buffer.foldl userinfo t =
      { t with passwordTokenSeen, url := { t.url with username, password } } := by
  induction buffer generalizing t with
  | nil => exact ⟨_, _, _, rfl⟩
  | cons each buffer ih =>
    obtain ⟨seen, username, password, hone⟩ : ∃ passwordTokenSeen username password,
        userinfo t each = { t with passwordTokenSeen, url := { t.url with username, password } } := by
      unfold userinfo
      dsimp only
      split_ifs <;> exact ⟨_, _, _, rfl⟩
    obtain ⟨seen', username', password', hrest⟩ := ih (userinfo t each)
    refine ⟨seen', username', password', ?_⟩
    rw [List.foldl_cons, hrest, hone]

@[simp] theorem foldl_userinfo_p (buffer : List ℕ) (t : Parser) :
    (buffer.foldl userinfo t).p = t.p := by
  obtain ⟨_, _, _, heq⟩ := foldl_userinfo_eq buffer t
  rw [heq]

@[simp] theorem foldl_userinfo_st (buffer : List ℕ) (t : Parser) :
    (buffer.foldl userinfo t).st = t.st := by
  obtain ⟨_, _, _, heq⟩ := foldl_userinfo_eq buffer t
  rw [heq]

@[simp] theorem foldl_userinfo_insideBrackets (buffer : List ℕ) (t : Parser) :
    (buffer.foldl userinfo t).insideBrackets = t.insideBrackets := by
  obtain ⟨_, _, _, heq⟩ := foldl_userinfo_eq buffer t
  rw [heq]

@[simp] theorem foldl_userinfo_scheme (buffer : List ℕ) (t : Parser) :
    (buffer.foldl userinfo t).url.scheme = t.url.scheme := by
  obtain ⟨_, _, _, heq⟩ := foldl_userinfo_eq buffer t
  rw [heq]

theorem progress_step (h : s.Ready) : (s.step env).All (Progress s) := by
  obtain ⟨hp, hb⟩ := h
  unfold step
  cases hst : s.st <;> simp only [hst, State.rank] at hb <;>
    simp only [schemeStart, scheme, schemeEnd, schemeFail, noScheme, specialRelativeOrAuthority,
      pathOrAuthority, relative, relativeSlash, specialAuthoritySlashes,
      specialAuthorityIgnoreSlashes, authority, host, port, portEnd, file, fileSlash, fileHost,
      pathStart, path, opaquePath, query, fragment]
  -- a step only goes on to a later state, or stays where it is
  all_goals
    repeat' split
  all_goals first
    | exact trivial
    | (constructor <;> first | omega | (simp [hst, State.rank] <;> omega))

/-- How far a run is. -/
def potential (env : Env) (s : Parser) : ℕ := s.st.rank * (env.input.length + 2) + s.p.toNat

theorem ready_of_turn (h : s.Ready) (hturn : s.turn env = .go t) :
    t.Ready ∧ t.p ≤ env.input.length ∧ (s.p ≤ env.input.length → s.potential env < t.potential env) := by
  have hstep : (s.step env).All (Progress s) := progress_step h
  have hp := h.pointer
  rw [turn] at hturn
  split at hturn
  · cases hturn
  · next u hu =>
    rw [hu] at hstep
    obtain ⟨hpointer, hbuffer, hlater⟩ := hstep
    split_ifs at hturn with hend
    obtain rfl := Outcome.go.inj hturn
    refine ⟨⟨hpointer, hbuffer⟩, ?_, fun hle => ?_⟩
    · dsimp only
      omega
    · unfold potential
      dsimp only
      rcases hlater with hrank | ⟨hrank, hsame⟩
      · have hmul : (s.st.rank + 1) * (env.input.length + 2) ≤
            u.st.rank * (env.input.length + 2) := Nat.mul_le_mul_right _ hrank
        rw [Nat.add_mul, Nat.one_mul] at hmul
        omega
      · rw [hrank]
        omega

theorem isSome_run {fuel : ℕ} (h : s.Ready) (hle : s.p ≤ env.input.length)
    (hfuel : 16 * (env.input.length + 2) ≤ s.potential env + fuel) :
    (run env fuel s).isSome := by
  induction fuel generalizing s with
  | zero =>
    have hrank : s.st.rank * (env.input.length + 2) ≤ 15 * (env.input.length + 2) :=
      Nat.mul_le_mul_right _ s.st.rank_le
    have hpointer := h.pointer
    unfold potential at hfuel
    omega
  | succ fuel ih =>
    rw [run]
    split
    · rfl
    · next t hturn =>
      obtain ⟨hready, hend, hmore⟩ := ready_of_turn h hturn
      have hmore' := hmore hle
      exact ih hready hend (by omega)

/-! ## Runs -/

/-- What a run returns. -/
def Runs (env : Env) (s : Parser) (r : Bool × UrlRecord) : Prop := ∃ fuel, run env fuel s = some r

theorem run_add {fuel : ℕ} (h : run env fuel s = some r) (more : ℕ) :
    run env (fuel + more) s = some r := by
  induction fuel generalizing s with
  | zero => cases h
  | succ fuel ih =>
    rw [Nat.succ_add, run]
    rw [run] at h
    split at h
    · exact h
    · exact ih h

theorem Runs.unique {r' : Bool × UrlRecord} (h : Runs env s r) (h' : Runs env s r') : r = r' := by
  obtain ⟨n, hn⟩ := h
  obtain ⟨m, hm⟩ := h'
  have hsum := run_add hn m
  rw [Nat.add_comm, run_add hm n] at hsum
  exact (Option.some.inj hsum).symm

theorem exists_runs (env : Env) (st : State) (url : UrlRecord) :
    ∃ r, run env env.fuel { st, url } = some r := by
  refine Option.isSome_iff_exists.mp (isSome_run ⟨le_rfl, fun _ => le_rfl⟩ ?_ ?_)
  · exact Int.natCast_nonneg _
  · unfold Env.fuel
    omega

theorem basicParse_eq_iff {tables : UnicodeTables} {raw : Text} {base : Option UrlRecord}
    {url : UrlRecord} {override : Option State} :
    basicParse tables raw base url override = r ↔
      Runs (environment tables raw base override) { st := override.getD .schemeStart, url } r := by
  obtain ⟨r', hr'⟩ := exists_runs (environment tables raw base override)
    (override.getD .schemeStart) url
  have hparse : basicParse tables raw base url override = r' := by
    rw [basicParse, hr']
    rfl
  rw [hparse]
  exact ⟨fun h => h ▸ ⟨_, hr'⟩, fun h => Runs.unique ⟨_, hr'⟩ h⟩

theorem runs_of_go (h : s.turn env = .go t) : Runs env s r ↔ Runs env t r := by
  constructor
  · rintro ⟨fuel, hfuel⟩
    cases fuel with
    | zero => cases hfuel
    | succ fuel =>
      rw [run, h] at hfuel
      exact ⟨fuel, hfuel⟩
  · rintro ⟨fuel, hfuel⟩
    refine ⟨fuel + 1, ?_⟩
    rw [run, h]
    exact hfuel

theorem runs_of_stop {ok : Bool} {url : UrlRecord} (h : s.turn env = .stop ok url) :
    Runs env s r ↔ r = (ok, url) := by
  have hone : Runs env s (ok, url) := by
    refine ⟨1, ?_⟩
    rw [run, h]
  exact ⟨fun hr => hr.unique hone, fun hr => hr ▸ hone⟩

theorem ok_of_step (hoverride : env.override = none) {ok : Bool} {url : UrlRecord}
    (h : s.step env = .stop ok url) : ok = false := by
  have hnot : env.overriding = false := by rw [Env.overriding, hoverride]; rfl
  have hall : (s.step env).OnlyFails := by
    unfold step
    cases hst : s.st <;>
      simp only [schemeStart, scheme, schemeEnd, schemeFail, noScheme, specialRelativeOrAuthority,
        pathOrAuthority, relative, relativeSlash, specialAuthoritySlashes,
        specialAuthorityIgnoreSlashes, authority, host, port, portEnd, file, fileSlash, fileHost,
        pathStart, path, opaquePath, query, fragment, hnot, hoverride]
    all_goals
      repeat' split
    all_goals first | exact trivial | rfl | simp_all
  rw [h] at hall
  exact hall

theorem Runs.invariant {P : State → UrlRecord → Prop} (hoverride : env.override = none)
    (hgo : ∀ s : Parser, P s.st s.url → (s.step env).All fun t => P t.st t.url)
    (h : Runs env s r) (hs : P s.st s.url) (hok : r.1 = true) : ∃ st, P st r.2 := by
  obtain ⟨fuel, hfuel⟩ := h
  induction fuel generalizing s with
  | zero => cases hfuel
  | succ fuel ih =>
    rw [run, turn] at hfuel
    have ht := hgo s hs
    cases hstep : s.step env with
    | stop ok url =>
      rw [hstep] at hfuel
      obtain rfl := Option.some.inj hfuel
      exact absurd ((ok_of_step hoverride hstep).symm.trans hok) Bool.false_ne_true
    | go t =>
      rw [hstep] at ht hfuel
      dsimp only at hfuel
      split at hfuel
      · next hturn =>
        split_ifs at hturn
        obtain ⟨rfl, rfl⟩ := Outcome.stop.inj hturn
        obtain rfl := Option.some.inj hfuel
        exact ⟨_, ht⟩
      · next u hturn =>
        split_ifs at hturn
        obtain rfl := Outcome.go.inj hturn
        exact ih (s := { t with p := t.p + 1 }) ht hfuel

/-! ## Positions -/

theorem at'_length {before rest : List ℕ} (h : env.input = before ++ rest) :
    env.at' before.length = rest.head? := by
  have hpos : (0 : ℤ) ≤ before.length := Int.natCast_nonneg _
  rw [Env.at', if_pos hpos, Int.toNat_natCast, h, List.getElem?_append_right le_rfl, Nat.sub_self,
    List.head?_eq_getElem?]

/-- The parser at the next code point. -/
def advance (s : Parser) : Parser := { s with p := s.p + 1 }

@[simp] theorem advance_st : s.advance.st = s.st := rfl

@[simp] theorem advance_buffer : s.advance.buffer = s.buffer := rfl

@[simp] theorem advance_insideBrackets : s.advance.insideBrackets = s.insideBrackets := rfl

@[simp] theorem advance_atSignSeen : s.advance.atSignSeen = s.atSignSeen := rfl

@[simp] theorem advance_passwordTokenSeen : s.advance.passwordTokenSeen = s.passwordTokenSeen := rfl

@[simp] theorem advance_p : s.advance.p = s.p + 1 := rfl

@[simp] theorem advance_mk {st : State} {buffer : List ℕ} {a b d : Bool} {p : ℤ} {url : UrlRecord} :
    advance ⟨st, buffer, a, b, d, p, url⟩ = ⟨st, buffer, a, b, d, p + 1, url⟩ := rfl

@[simp] theorem advance_url : s.advance.url = s.url := rfl

theorem turn_of_step (h : s.step env = .go t) (hp : t.p < env.input.length) :
    s.turn env = .go t.advance := by
  rw [turn, h]
  exact if_neg (by omega)

theorem turn_of_step_end (h : s.step env = .go t) (hp : env.input.length ≤ t.p) :
    s.turn env = .stop true t.url := by
  rw [turn, h]
  exact if_pos hp

theorem turn_of_stop {ok : Bool} {url : UrlRecord} (h : s.step env = .stop ok url) :
    s.turn env = .stop ok url := by
  rw [turn, h]

end Parser

end CtBrowser.Shell.Url
