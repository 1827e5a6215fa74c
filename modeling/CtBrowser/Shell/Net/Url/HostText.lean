import CtBrowser.Shell.Net.Url.Runs

/-!
# The Host in a URL Text

Where the host stands in the text of an absolute URL with a special scheme, said about the text
alone, and that the parser gives exactly this piece to the host parser.

## Main definitions

- `hostText` — the host as it is written.

## Main results

- `parseHost_hostText` — the host of a parsed `http` or `https` URL is what the host parser makes
  of its text.
-/

namespace CtBrowser.Shell.Url

/-! ## The text -/

/-- A slash, either way. -/
def isSlash (c : ℕ) : Bool := c = '/'.toNat || c = '\\'.toNat

/-- A character that ends the authority of a URL with a special scheme. -/
def endsAuthority (c : ℕ) : Bool := isSlash c || c = '?'.toNat || c = '#'.toNat

/-- What stands between the slashes after the scheme and the path. -/
def authorityOf (input : List ℕ) : List ℕ :=
  (((input.dropWhile (· ≠ ':'.toNat)).drop 1).dropWhile isSlash).takeWhile (!endsAuthority ·)

/-- What stands after the last `@`. -/
def afterUserinfo (authority : List ℕ) : List ℕ :=
  (authority.reverse.takeWhile (· ≠ '@'.toNat)).reverse

/-- What stands before the first colon outside brackets. -/
def beforePort : Bool → List ℕ → List ℕ
  | _, [] => []
  | inside, c :: rest =>
    if c = ':'.toNat ∧ inside = false then []
    else
      c :: beforePort
        (if c = '['.toNat then true else if c = ']'.toNat then false else inside) rest

/-- The host in a URL text, as it is written. -/
def hostText (text : Text) : List ℕ :=
  beforePort false (afterUserinfo (authorityOf (codePoints (withoutNewlines (trimmed text)))))

theorem afterUserinfo_at (a b : List ℕ) : afterUserinfo (a ++ '@'.toNat :: b) = afterUserinfo b := by
  have htake (xs ys : List ℕ) : (xs ++ '@'.toNat :: ys).takeWhile (· ≠ '@'.toNat) =
      xs.takeWhile (· ≠ '@'.toNat) := by
    induction xs with
    | nil => exact List.takeWhile_cons_of_neg (by simp)
    | cons x xs ih =>
      rw [List.cons_append, List.takeWhile_cons, List.takeWhile_cons, ih]
  rw [afterUserinfo, List.reverse_append, List.reverse_cons, List.append_assoc,
    List.singleton_append, htake, afterUserinfo]

namespace Parser

variable {env : Env} {s t : Parser} {url : UrlRecord}

/-! ## What the pieces of a record keep -/

@[simp] theorem shortenPath_scheme (url : UrlRecord) : url.shortenPath.scheme = url.scheme := by
  unfold UrlRecord.shortenPath
  split
  · split_ifs <;> rfl
  · rfl

@[simp] theorem shortenPath_host (url : UrlRecord) : url.shortenPath.host = url.host := by
  unfold UrlRecord.shortenPath
  split
  · split_ifs <;> rfl
  · rfl

@[simp] theorem segmentEnd_scheme (s : Parser) (slash : Bool) :
    (s.segmentEnd slash).scheme = s.url.scheme := by
  unfold segmentEnd
  dsimp only
  split_ifs <;> first | rfl | exact shortenPath_scheme _

@[simp] theorem segmentEnd_host (s : Parser) (slash : Bool) :
    (s.segmentEnd slash).host = s.url.host := by
  unfold segmentEnd
  dsimp only
  split_ifs <;> first | rfl | exact shortenPath_host _

theorem scheme_of_hostRead (h : s.hostRead env = some url) : url.scheme = s.url.scheme := by
  obtain ⟨host, -, rfl⟩ := Option.map_eq_some_iff.mp h
  rfl

theorem frame_of_portRead (h : s.portRead = some url) :
    url.scheme = s.url.scheme ∧ url.host = s.url.host := by
  unfold portRead at h
  dsimp only at h
  split_ifs at h <;> obtain rfl := Option.some.inj h <;> exact ⟨rfl, rfl⟩

/-! ## The scheme -/

theorem not_runs_noScheme (hbase : env.base = none) (hst : s.st = .noScheme) : ¬ Runs env s (true, url) := by
  have hstep : s.step env = .stop false s.url := by
    simp only [step, hst, noScheme, hbase]
  rw [runs_of_stop (turn_of_stop hstep)]
  exact fun h => Bool.false_ne_true (Prod.mk.inj h).1.symm

variable (hbase : env.base = none) (hoverride : env.override = none)

include hbase hoverride

theorem not_runs_schemeFail (h : s.step env = s.schemeFail env) : ¬ Runs env s (true, url) := by
  have hnot : env.overriding = false := by rw [Env.overriding, hoverride]; rfl
  rw [schemeFail, hnot, if_neg Bool.false_ne_true] at h
  rw [runs_of_go (turn_of_step h (by dsimp only; omega))]
  exact not_runs_noScheme hbase rfl

/-- A run that succeeds reads a scheme up to a colon. -/
theorem scheme_of_runs {l rest : List ℕ} (hst : s.st = .scheme)
    (hp : s.p = l.length) (hinput : env.input = l ++ rest)
    (h : Runs env s (true, url)) :
    ∃ cs after, rest = cs ++ ':'.toNat :: after ∧ ':'.toNat ∉ cs ∧
      Runs env { s with buffer := s.buffer ++ cs.map lower, p := (l ++ cs).length }
        (true, url) := by
  induction rest generalizing l s with
  | nil =>
    have hread : env.at' s.p = none := by rw [hp, at'_length hinput]; rfl
    refine absurd h (not_runs_schemeFail hbase hoverride ?_)
    simp only [step, hst, hread, scheme]
  | cons c rest ih =>
    have hread : env.at' s.p = some c := by rw [hp, at'_length hinput]; rfl
    by_cases hchar : isAlpha c ∨ isDigit c ∨ c ∈ points "+-."
    · have hstep : s.step env = .go (s.push (lower c)) := by
        simp only [step, hst, hread, scheme, if_pos hchar]
      have hlt : (s.push (lower c)).p < env.input.length := by
        rw [hinput, List.length_append, List.length_cons]
        simp [hp]
      rw [runs_of_go (turn_of_step hstep hlt)] at h
      obtain ⟨cs, after, rfl, hcs, hruns⟩ := ih (l := l ++ [c]) (by simpa using hst)
        (by simp [hp]) (by simp [hinput]) h
      have hcolon : ':'.toNat ≠ c := by
        rintro rfl
        revert hchar
        decide
      refine ⟨c :: cs, after, rfl, List.not_mem_cons_of_ne_of_not_mem hcolon hcs, ?_⟩
      simpa using hruns
    · by_cases hcolon : c = ':'.toNat
      · subst hcolon
        refine ⟨[], rest, rfl, by simp, ?_⟩
        have hsame : { s with buffer := s.buffer ++ [].map lower, p := (l ++ []).length } =
            s := by
          rw [List.map_nil, List.append_nil, List.append_nil, ← hp]
        rwa [hsame]
      · refine absurd h (not_runs_schemeFail hbase hoverride ?_)
        simp only [step, hst, hread, scheme, if_neg hchar, if_neg hcolon]

/-- A run that succeeds comes to a colon after the scheme. -/
theorem colon_of_runs (h : Runs env { st := .schemeStart, url := {} } (true, url)) :
    ∃ cs after name, env.input = cs ++ ':'.toNat :: after ∧ ':'.toNat ∉ cs ∧
      Runs env { st := .scheme, buffer := name, p := cs.length, url := {} } (true, url) := by
  have hnot : env.overriding = false := by rw [Env.overriding, hoverride]; rfl
  have hread : env.at' 0 = env.input.head? := at'_length (List.nil_append env.input).symm
  have hfail (hstart : step env { st := .schemeStart, url := {} } =
      gotoAgain { st := .schemeStart, url := {} } .noScheme) : False := by
    rw [runs_of_go (turn_of_step hstart (by simp; omega))] at h
    exact not_runs_noScheme hbase rfl h
  cases hinput : env.input with
  | nil =>
    rw [hinput] at hread
    refine (hfail ?_).elim
    simp only [step, hread, List.head?_nil, schemeStart, hnot]
    rfl
  | cons c rest =>
    rw [hinput] at hread
    by_cases hc : isAlpha c
    · have hstep : step env { st := .schemeStart, url := {} } =
          .go { st := .scheme, buffer := [lower c], url := {} } := by
        simp only [step, hread, List.head?_cons, schemeStart, if_pos hc]
        rfl
      rw [runs_of_go (turn_of_step hstep (by rw [hinput]; simp))] at h
      obtain ⟨cs, after, rfl, hcs, hruns⟩ :=
        scheme_of_runs hbase hoverride (l := [c]) rfl rfl hinput h
      have hcolon : ':'.toNat ≠ c := by
        rintro rfl
        revert hc
        decide
      exact ⟨c :: cs, after, _, rfl, List.not_mem_cons_of_ne_of_not_mem hcolon hcs, hruns⟩
    · refine (hfail ?_).elim
      simp only [step, hread, List.head?_cons, schemeStart, if_neg hc, hnot]
      rfl

/-- Where the scheme is settled, and which states follow. -/
def SchemeSettled (name : Text) (st : State) (url : UrlRecord) : Prop :=
  url.scheme = name ∧ st ≠ .schemeStart ∧ st ≠ .scheme ∧ st ≠ .noScheme ∧ st ≠ .relative ∧
    st ≠ .specialRelativeOrAuthority ∧ (st = .file → name = ascii "file")

theorem schemeSettled_step {name : Text} (hs : SchemeSettled name s.st s.url) :
    (s.step env).All fun t => SchemeSettled name t.st t.url := by
  have hnot : env.overriding = false := by rw [Env.overriding, hoverride]; rfl
  unfold SchemeSettled at hs ⊢
  unfold step
  cases hst : s.st <;> simp only [hst] at hs <;>
    simp only [pathOrAuthority, relativeSlash, specialAuthoritySlashes,
      specialAuthorityIgnoreSlashes, authority, host, port, portEnd, file, fileSlash, fileHost,
      pathStart, path, opaquePath, query, fragment, hbase, hnot]
  all_goals
    repeat' split
  all_goals first
    | exact trivial
    | (simp_all [Outcome.All]; done)
    | (have hhost := scheme_of_hostRead ‹_›; simp_all [Outcome.All])
    | (have hport := (frame_of_portRead ‹_›).1; simp_all [Outcome.All])

/-- Where the host is settled, and which states follow. -/
def HostSettled (host : Option Text) (st : State) (url : UrlRecord) : Prop :=
  url.host = host ∧
    (st = .port ∨ st = .pathStart ∨ st = .path ∨ st = .query ∨ st = .fragment)

omit hbase in
theorem hostSettled_step {host : Option Text} (hs : HostSettled host s.st s.url) :
    (s.step env).All fun t => HostSettled host t.st t.url := by
  have hnot : env.overriding = false := by rw [Env.overriding, hoverride]; rfl
  unfold HostSettled at hs ⊢
  unfold step
  obtain ⟨hhost, hst | hst | hst | hst | hst⟩ := hs <;>
    simp only [hst, port, portEnd, pathStart, path, query, fragment, hnot]
  all_goals
    repeat' split
  all_goals first
    | exact trivial
    | (simp_all [Outcome.All]; done)
    | (have hport := (frame_of_portRead ‹_›).2; simp_all [Outcome.All])

/-! ## The authority -/

omit hbase hoverride in
/-- Slashes before an authority are skipped. -/
theorem runs_ignoreSlashes {l rest : List ℕ} {r : Bool × UrlRecord}
    (hst : s.st = .specialAuthorityIgnoreSlashes) (hp : s.p = l.length)
    (hinput : env.input = l ++ rest) :
    Runs env s r ↔ Runs env
      { s with st := .authority, p := (l ++ rest.takeWhile isSlash).length } r := by
  have hlength : env.input.length = l.length + rest.length := by
    rw [hinput, List.length_append]
  induction rest generalizing l s with
  | nil =>
    have hread : env.at' s.p = none := by rw [hp, at'_length hinput]; rfl
    have hstep : s.step env = s.gotoAgain .authority := by
      simp [step, hst, hread, specialAuthorityIgnoreSlashes]
    rw [runs_of_go (turn_of_step hstep (by simp [hlength, hp]))]
    simp [hp]
  | cons c rest ih =>
    have hread : env.at' s.p = some c := by rw [hp, at'_length hinput]; rfl
    by_cases hc : isSlash c
    · have hchar : c = '/'.toNat ∨ c = '\\'.toNat := by simpa [isSlash] using hc
      have hstep : s.step env = .go s := by
        simp only [step, hst, hread, specialAuthorityIgnoreSlashes, Reading.Is, Option.some.injEq,
          if_pos hchar]
      have hnext := ih (s := s.advance) (l := l ++ [c]) hst (by simp [hp])
        (by simp [hinput]) (by simp [hlength]; omega)
      rw [List.takeWhile_cons_of_pos hc]
      refine (runs_of_go (turn_of_step hstep (by simp [hlength, hp]))).trans (hnext.trans ?_)
      simp
    · have hchar : ¬ (c = '/'.toNat ∨ c = '\\'.toNat) := by simpa [isSlash] using hc
      have hstep : s.step env = s.gotoAgain .authority := by
        simp only [step, hst, hread, specialAuthorityIgnoreSlashes, Reading.Is, Option.some.injEq,
          if_neg hchar]
      rw [runs_of_go (turn_of_step hstep (by simp [hlength, hp]; omega)),
        List.takeWhile_cons_of_neg hc]
      simp [hp]

omit hbase hoverride in
/-- The slashes after the colon of a special scheme are skipped, one, two or more of them. -/
theorem runs_slashes {l rest : List ℕ} {r : Bool × UrlRecord}
    (hst : s.st = .specialAuthoritySlashes) (hp : s.p = l.length)
    (hinput : env.input = l ++ rest) :
    Runs env s r ↔ Runs env
      { s with st := .authority, p := (l ++ rest.takeWhile isSlash).length } r := by
  have hlength : env.input.length = l.length + rest.length := by
    rw [hinput, List.length_append]
  by_cases htwo : (env.at' s.p).Is '/' ∧ env.remainingStartsWith s.p '/'
  · have hstep : s.step env =
        .go { s with st := .specialAuthorityIgnoreSlashes, p := s.p + 1 } := by
      simp only [step, hst, specialAuthoritySlashes, if_pos htwo]
    obtain ⟨hone, hnext⟩ := htwo
    rw [hp, at'_length hinput] at hone
    obtain ⟨rest, rfl⟩ : ∃ tail, rest = '/'.toNat :: tail := by
      cases rest with
      | nil => cases hone
      | cons c tail => exact ⟨tail, by rw [Option.some.inj hone]⟩
    have hnext' : rest.head? = some '/'.toNat := by
      have hread := of_decide_eq_true hnext
      have hpos : s.p + 1 = ((l ++ ['/'.toNat]).length : ℤ) := by simp [hp]
      have hat : env.at' ((l ++ ['/'.toNat]).length : ℤ) = rest.head? :=
        at'_length (by simp [hinput])
      rwa [hpos, hat] at hread
    obtain ⟨rest, rfl⟩ : ∃ tail, rest = '/'.toNat :: tail := by
      cases rest with
      | nil => cases hnext'
      | cons c tail => exact ⟨tail, by rw [Option.some.inj hnext']⟩
    have htwo : env.input = (l ++ ['/'.toNat, '/'.toNat]) ++ rest := by simp [hinput]
    rw [runs_of_go (turn_of_step hstep (by simp [hlength, hp])),
      runs_ignoreSlashes rfl (by simp [hp]; ring) htwo]
    simp [isSlash]
  · have hstep : s.step env = s.gotoAgain .specialAuthorityIgnoreSlashes := by
      simp only [step, hst, specialAuthoritySlashes, if_neg htwo]
    rw [runs_of_go (turn_of_step hstep (by simp [hlength, hp])),
      runs_ignoreSlashes rfl (by simp [hp]) hinput]
    rfl

/-- What may follow an authority. -/
def EndsThere (tail : List ℕ) : Prop := ∀ c ∈ tail.head?, endsAuthority c

omit hbase hoverride in
theorem isEnd_of_endsThere {tail : List ℕ} (h : EndsThere tail) : isEnd true tail.head? := by
  cases tail with
  | nil => exact .inl rfl
  | cons c tail =>
    have hc := h c rfl
    simp only [endsAuthority, isSlash, Bool.or_eq_true, decide_eq_true_eq] at hc
    simp only [isEnd, List.head?_cons, Reading.Is, Option.some.injEq]
    tauto

omit hbase hoverride in
theorem not_isEnd {c : ℕ} (h : endsAuthority c = false) : ¬ isEnd true (some c) := by
  simp only [endsAuthority, isSlash, Bool.or_eq_false_iff, decide_eq_false_iff_not] at h
  simp only [isEnd, Reading.Is, Option.some.injEq]
  tauto

omit hbase hoverride in
/-- The host starts after the last `@` of the authority. -/
theorem host_of_authority {l rest tail : List ℕ} {r : Bool × UrlRecord}
    (hst : s.st = .authority) (hp : s.p = (l ++ s.buffer).length)
    (hinput : env.input = l ++ s.buffer ++ (rest ++ tail)) (hbuffer : '@'.toNat ∉ s.buffer)
    (hspecial : s.url.isSpecial = true) (hrest : ∀ c ∈ rest, endsAuthority c = false)
    (htail : EndsThere tail) (hok : r.1 = true) (h : Runs env s r) :
    ∃ k t, Runs env t r ∧ t.st = .host ∧ t.buffer = [] ∧
      t.insideBrackets = s.insideBrackets ∧ t.url.scheme = s.url.scheme ∧
      t.p = k.length ∧ env.input = k ++ (afterUserinfo (s.buffer ++ rest) ++ tail) := by
  induction rest generalizing l s with
  | nil =>
    have hlength : env.input.length = l.length + s.buffer.length + tail.length := by
      rw [hinput]
      simp only [List.length_append, List.length_nil, Nat.zero_add]
    have hread : env.at' s.p = tail.head? := by rw [hp, at'_length hinput, List.nil_append]
    have hend : isEnd s.url.isSpecial (env.at' s.p) := by
      rw [hspecial, hread]
      exact isEnd_of_endsThere htail
    have hat : ¬ (env.at' s.p).Is '@' := by
      intro hat
      rw [hat] at hend
      revert hend
      rw [hspecial]
      decide
    have hstep : s.step env = if s.atSignSeen ∧ s.buffer = [] then .stop false s.url
        else .go { s with p := s.p - (s.buffer.length + 1), buffer := [], st := .host } := by
      simp only [step, hst, authority, if_neg hat, if_pos hend]
    split_ifs at hstep with hempty
    · rw [runs_of_stop (turn_of_stop hstep)] at h
      rw [h] at hok
      cases hok
    · rw [runs_of_go (turn_of_step hstep (by simp [hlength, hp]; omega))] at h
      refine ⟨l, _, h, rfl, rfl, rfl, rfl, by simp [hp]; ring, ?_⟩
      have hall : s.buffer.reverse.takeWhile (· ≠ '@'.toNat) = s.buffer.reverse := by
        have hpos : ∀ c ∈ s.buffer.reverse, decide (c ≠ '@'.toNat) = true := fun c hc =>
          decide_eq_true fun heq => hbuffer (heq ▸ List.mem_reverse.mp hc)
        have happend : (s.buffer.reverse ++ []).takeWhile (· ≠ '@'.toNat) =
            s.buffer.reverse ++ [] := List.takeWhile_append_of_pos hpos
        rwa [List.append_nil] at happend
      rw [List.append_nil, afterUserinfo, hall, List.reverse_reverse, hinput]
      simp
  | cons c rest ih =>
    have hlength : env.input.length =
        l.length + s.buffer.length + (rest.length + 1 + tail.length) := by
      rw [hinput]
      simp only [List.length_append, List.length_cons]
    have hread : env.at' s.p = some c := by rw [hp, at'_length hinput]; rfl
    have hnot : ¬ isEnd s.url.isSpecial (some c) := by
      rw [hspecial]
      exact not_isEnd (hrest c (List.mem_cons_self ..))
    have hrest' : ∀ x ∈ rest, endsAuthority x = false := fun x hx =>
      hrest x (List.mem_cons_of_mem _ hx)
    by_cases hat : c = '@'.toNat
    · subst hat
      obtain ⟨t, hstep, hts⟩ : ∃ t, s.step env = .go t ∧ t.st = .authority ∧ t.buffer = [] ∧
          t.p = s.p ∧ t.insideBrackets = s.insideBrackets ∧ t.url.scheme = s.url.scheme := by
        simp only [step, hst, hread, authority, Reading.Is, if_true]
        exact ⟨_, rfl, by simp⟩
      obtain ⟨htst, htbuffer, htp, htinside, htscheme⟩ := hts
      rw [runs_of_go (turn_of_step hstep (by simp [htp, hlength, hp]; omega))] at h
      obtain ⟨k, u, hruns, hust, hub, hui, hus, hup, huinput⟩ := ih (s := t.advance)
        (l := l ++ s.buffer ++ ['@'.toNat]) htst (by simp [htp, htbuffer, hp]; ring)
        (by simp [htbuffer, hinput]) (by simp [htbuffer])
        (by simpa [UrlRecord.isSpecial, htscheme] using hspecial) hrest' h
      refine ⟨k, u, hruns, hust, hub, hui.trans htinside, hus.trans htscheme, hup, ?_⟩
      rw [huinput, advance_buffer, htbuffer, List.nil_append, afterUserinfo_at]
    · have hstep : s.step env = .go (s.push c) := by
        simp only [step, hst, hread, authority, Reading.Is, Option.some.injEq, if_neg hat,
          if_neg hnot]
      rw [runs_of_go (turn_of_step hstep (by simp [hlength, hp]; omega))] at h
      have hbuffer' : '@'.toNat ∉ (s.push c).buffer := by
        simp only [push, List.mem_append, List.mem_singleton, not_or]
        exact ⟨hbuffer, fun heq => hat heq.symm⟩
      obtain ⟨k, u, hruns, hust, hub, hui, hus, hup, huinput⟩ := ih (s := (s.push c).advance)
        (l := l) hst (by simp [hp]; ring) (by simp [hinput]) hbuffer' hspecial hrest' h
      refine ⟨k, u, hruns, hust, hub, hui, hus, hup, ?_⟩
      rw [huinput]
      simp

omit hbase hoverride in
theorem settled_of_hostRead {st : State} {p : ℤ} {r : Bool × UrlRecord}
    (hst : st = .port ∨ st = .pathStart) (hspecial : s.url.isSpecial = true)
    (hnone : s.hostRead env = none → s.step env = .stop false s.url)
    (hsome : ∀ url, s.hostRead env = some url →
      s.step env = .go { s with url, buffer := [], st, p })
    (hp : p < env.input.length) (hok : r.1 = true) (h : Runs env s r) :
    ∃ t host, Runs env t r ∧ HostSettled (some host) t.st t.url ∧
      parseHost env.tables s.buffer false = some host := by
  have hhost : s.hostRead env =
      (parseHost env.tables s.buffer false).map fun host => { s.url with host := some host } := by
    rw [hostRead, hspecial, Bool.not_true]
  cases hparse : parseHost env.tables s.buffer false with
  | none =>
    rw [hparse] at hhost
    rw [runs_of_stop (turn_of_stop (hnone hhost))] at h
    rw [h] at hok
    cases hok
  | some host =>
    rw [hparse] at hhost
    rw [runs_of_go (turn_of_step (hsome _ hhost) hp)] at h
    refine ⟨_, host, h, ⟨rfl, ?_⟩, rfl⟩
    rcases hst with rfl | rfl <;> simp

omit hbase in
/-- The host is read up to the port or the end of the authority, and given to the host parser. -/
theorem host_of_runs {l rest tail : List ℕ} {r : Bool × UrlRecord} (hst : s.st = .host)
    (hp : s.p = l.length) (hinput : env.input = l ++ (rest ++ tail))
    (hspecial : s.url.isSpecial = true) (hrest : ∀ c ∈ rest, endsAuthority c = false)
    (htail : EndsThere tail) (hok : r.1 = true) (h : Runs env s r) :
    ∃ t host, Runs env t r ∧ HostSettled (some host) t.st t.url ∧
      parseHost env.tables (s.buffer ++ beforePort s.insideBrackets rest) false = some host := by
  have hnot : ¬ env.overriding = true := by
    rw [Env.overriding, hoverride]
    exact Bool.false_ne_true
  have hnofile : ¬ (env.overriding = true ∧ s.url.scheme = ascii "file") := fun h => hnot h.1
  have hempty (hstep : s.step env = .stop false s.url) : False := by
    rw [runs_of_stop (turn_of_stop hstep)] at h
    rw [h] at hok
    cases hok
  induction rest generalizing l s with
  | nil =>
    have hread : env.at' s.p = tail.head? := by rw [hp, at'_length hinput, List.nil_append]
    have hend : isEnd s.url.isSpecial (env.at' s.p) := by
      rw [hspecial, hread]
      exact isEnd_of_endsThere htail
    have hcolon : ¬ ((env.at' s.p).Is ':' ∧ (!s.insideBrackets) = true) := by
      rintro ⟨hcolon, -⟩
      rw [hcolon, hspecial] at hend
      revert hend
      decide
    have hkeep : ¬ (env.overriding = true ∧ s.buffer = [] ∧
        (s.url.hasCredentials || s.url.port.isSome) = true) := fun h => hnot h.1
    by_cases hnil : s.url.isSpecial = true ∧ s.buffer = []
    · refine (hempty ?_).elim
      simp only [step, hst, host, if_neg hnofile, if_neg hcolon, if_pos hend, if_pos hnil]
    rw [beforePort, List.append_nil]
    refine settled_of_hostRead (.inr rfl) hspecial (fun hnone => ?_) (fun url hsome => ?_)
      (?_ : s.p - 1 < env.input.length) hok h
    · simp only [step, hst, host, if_neg hnofile, if_neg hcolon, if_pos hend, if_neg hnil,
        if_neg hkeep, hnone]
    · simp only [step, hst, host, if_neg hnofile, if_neg hcolon, if_pos hend, if_neg hnil,
        if_neg hkeep, hsome, if_neg hnot]
    · rw [hp, hinput, List.length_append]
      omega
  | cons c rest ih =>
    have hlt : s.p < env.input.length := by
      rw [hp, hinput, List.length_append, List.cons_append, List.length_cons]
      omega
    have hread : env.at' s.p = some c := by rw [hp, at'_length hinput]; rfl
    by_cases hcolon : c = ':'.toNat ∧ s.insideBrackets = false
    · have hcolon' : (env.at' s.p).Is ':' ∧ (!s.insideBrackets) = true := by
        rw [hread, hcolon.1, hcolon.2]
        exact ⟨rfl, rfl⟩
      have hhostname : ¬ env.override = some .hostname := by
        rw [hoverride]
        exact (Option.some_ne_none _).symm
      by_cases hnil : s.buffer = []
      · refine (hempty ?_).elim
        simp only [step, hst, host, if_neg hnofile, if_pos hcolon', if_pos hnil]
      rw [beforePort, if_pos hcolon, List.append_nil]
      refine settled_of_hostRead (.inl rfl) hspecial (fun hnone => ?_) (fun url hsome => ?_) hlt
        hok h
      · simp only [step, hst, host, if_neg hnofile, if_pos hcolon', if_neg hnil,
          if_neg hhostname, hnone]
      · simp only [step, hst, host, if_neg hnofile, if_pos hcolon', if_neg hnil,
          if_neg hhostname, hsome]
    · have hcolon' : ¬ (Reading.Is (some c) ':' ∧ (!s.insideBrackets) = true) := by
        rintro ⟨hc, hinside⟩
        exact hcolon ⟨Option.some.inj hc, by simpa using hinside⟩
      have hend : ¬ isEnd s.url.isSpecial (some c) := by
        rw [hspecial]
        exact not_isEnd (hrest c (List.mem_cons_self ..))
      generalize hinside : (if c = '['.toNat then true else if c = ']'.toNat then false
        else s.insideBrackets) = inside
      have hstep : s.step env = .go { s.push c with insideBrackets := inside } := by
        simp only [step, hst, host, if_neg hnofile, hread, if_neg hcolon', if_neg hend, hinside]
      rw [runs_of_go (turn_of_step hstep hlt)] at h
      obtain ⟨t, host, hruns, hsettled, hparse⟩ := ih
        (s := advance { s.push c with insideBrackets := inside }) (l := l ++ [c]) hst
        (by simp [hp]) (by simp [hinput]) hspecial
        (fun x hx => hrest x (List.mem_cons_of_mem _ hx)) h hnofile
        (fun hstop => by
          rw [runs_of_stop (turn_of_stop hstop)] at h
          rw [h] at hok
          cases hok)
      refine ⟨t, host, hruns, hsettled, ?_⟩
      rw [beforePort, if_neg hcolon, hinside, ← hparse]
      simp

/-- After the colon of a scheme the run goes on, and the scheme is settled. -/
theorem scheme_of_colon {name : List ℕ} {l after : List ℕ}
    (hinput : env.input = l ++ ':'.toNat :: after)
    (h : Runs env { st := .scheme, buffer := name, p := l.length, url := {} } (true, url)) :
    url.scheme = utf8Of name ∧ (url.isSpecial = true → url.scheme ≠ ascii "file" →
      Runs env
        { st := .specialAuthoritySlashes
          p := (l ++ [':'.toNat]).length
          url := { scheme := url.scheme } } (true, url)) := by
  have hnot : ¬ env.overriding = true := by
    rw [Env.overriding, hoverride]
    exact Bool.false_ne_true
  have hread : env.at' l.length = some ':'.toNat := at'_length hinput
  have hlength : env.input.length = l.length + (after.length + 1) := by
    rw [hinput, List.length_append, List.length_cons]
  have hnochar : ¬ (isAlpha ':'.toNat ∨ isDigit ':'.toNat ∨ ':'.toNat ∈ points "+-.") := by decide
  generalize hs : ({ st := .scheme, buffer := name, p := l.length, url := {} } : Parser) = s
    at h
  have hstep : s.step env = s.schemeEnd env := by
    subst hs
    simp only [step, hread, scheme, if_neg hnochar, if_true]
  have hgoes : ∃ t, s.schemeEnd env = .go t ∧ t.p < env.input.length ∧
      SchemeSettled (utf8Of name) t.st t.url := by
    subst hs
    simp only [schemeEnd, if_neg hnot, hbase]
    split_ifs with hfile hnobase hspecial hslash
    · exact ⟨_, rfl, by simp [hlength], by simp [SchemeSettled, hfile]⟩
    · cases hnobase.2
    · exact ⟨_, rfl, by simp [hlength], by simp [SchemeSettled]⟩
    · refine ⟨_, rfl, ?_, by simp [SchemeSettled]⟩
      have hnext := of_decide_eq_true hslash
      cases after with
      | nil =>
        have hend : env.at' ((l ++ [':'.toNat]).length : ℤ) = none :=
          at'_length (hinput.trans (List.append_nil _).symm)
        rw [List.length_append, List.length_singleton, Nat.cast_add, Nat.cast_one] at hend
        rw [hend] at hnext
        cases hnext
      | cons c after => simp [hlength]
    · exact ⟨_, rfl, by simp [hlength], by simp [SchemeSettled]⟩
  obtain ⟨t, hgo, hlt, hsettled⟩ := hgoes
  rw [hgo] at hstep
  rw [runs_of_go (turn_of_step hstep hlt)] at h
  have hscheme : url.scheme = utf8Of name := by
    obtain ⟨st, hst⟩ := h.invariant (P := SchemeSettled (utf8Of name)) hoverride
      (fun s hs => schemeSettled_step hbase hoverride hs) hsettled rfl
    exact hst.1
  refine ⟨hscheme, fun hspecial hfile => ?_⟩
  have hends : s.schemeEnd env =
      .go { st := .specialAuthoritySlashes, p := l.length, url := { scheme := url.scheme } } := by
    rw [hscheme] at hfile
    have hspecial' : specialScheme (utf8Of name) = true := by
      rwa [UrlRecord.isSpecial, hscheme] at hspecial
    subst hs
    simp only [schemeEnd, if_neg hnot, if_neg hfile, hbase, Option.any_none, UrlRecord.isSpecial,
      hspecial', Bool.false_eq_true, and_false, if_false, if_true, hscheme]
    rfl
  rw [hgo] at hends
  obtain rfl := Outcome.go.inj hends
  simpa using h

end Parser

/-! ## The whole text -/

/-- The host of a parsed URL with a special scheme other than `file` is what the host parser
makes of its text. -/
theorem parseHost_hostText {tables : UnicodeTables} {text : Text} {url : UrlRecord}
    (h : basicParse tables text none {} none = (true, url)) (hspecial : url.isSpecial = true)
    (hfile : url.scheme ≠ ascii "file") :
    ∃ host, url.host = some host ∧ parseHost tables (hostText text) false = some host := by
  have hruns := Parser.basicParse_eq_iff.mp h
  generalize henv : environment tables text none none = env at hruns
  have hbase : env.base = none := by rw [← henv]; rfl
  have hoverride : env.override = none := by rw [← henv]; rfl
  have htext : codePoints (withoutNewlines (trimmed text)) = env.input := by rw [← henv]; rfl
  have htables : tables = env.tables := by rw [← henv]; rfl
  obtain ⟨cs, after, name, hinput, hcs, hruns⟩ := Parser.colon_of_runs hbase hoverride hruns
  have hslashes := (Parser.scheme_of_colon hbase hoverride hinput hruns).2 hspecial hfile
  -- the authority and what follows it
  have hafter : env.input = (cs ++ [':'.toNat]) ++ after := by rw [hinput]; simp
  rw [Parser.runs_slashes rfl rfl hafter] at hslashes
  have hauthority : authorityOf env.input =
      (after.dropWhile isSlash).takeWhile (!endsAuthority ·) := by
    have hscheme : env.input.dropWhile (· ≠ ':'.toNat) = ':'.toNat :: after := by
      have hall : ∀ c ∈ cs, decide (c ≠ ':'.toNat) = true := fun c hc =>
        decide_eq_true fun heq => hcs (heq ▸ hc)
      rw [hinput, List.dropWhile_append_of_pos hall, List.dropWhile_cons_of_neg (by simp)]
    rw [authorityOf, hscheme, List.drop_one, List.tail_cons]
  have hsplit : env.input = cs ++ [':'.toNat] ++ after.takeWhile isSlash ++ [] ++
      (authorityOf env.input ++ (after.dropWhile isSlash).dropWhile (!endsAuthority ·)) := by
    rw [hauthority, List.takeWhile_append_dropWhile, List.append_nil, List.append_assoc _ _ (_),
      List.takeWhile_append_dropWhile, hafter]
  have hrest : ∀ c ∈ authorityOf env.input, endsAuthority c = false := by
    intro c hc
    rw [hauthority] at hc
    simpa using List.all_eq_true.mp List.all_takeWhile c hc
  have htail : Parser.EndsThere ((after.dropWhile isSlash).dropWhile (!endsAuthority ·)) := by
    intro c hc
    have hnot := List.head?_dropWhile_not (!endsAuthority ·) (after.dropWhile isSlash)
    rw [hc] at hnot
    simpa using hnot
  have hspecial' : ({ scheme := url.scheme } : UrlRecord).isSpecial = true := hspecial
  obtain ⟨l, t, hruns, hst, hbuffer, hinside, hscheme, hp, hinput'⟩ :=
    Parser.host_of_authority rfl (by rw [List.append_nil]) hsplit (by simp) hspecial' hrest htail
      rfl hslashes
  rw [List.nil_append] at hinput'
  have hrest' : ∀ c ∈ afterUserinfo (authorityOf env.input), endsAuthority c = false := by
    intro c hc
    refine hrest c (List.mem_reverse.mp ?_)
    exact List.takeWhile_subset _ (List.mem_reverse.mp hc)
  have hspecial'' : t.url.isSpecial = true := by
    rw [UrlRecord.isSpecial, hscheme]
    exact hspecial
  obtain ⟨u, host, hruns, hsettled, hparse⟩ :=
    Parser.host_of_runs hoverride hst hp hinput' hspecial'' hrest' htail rfl hruns
  rw [hbuffer, hinside, List.nil_append] at hparse
  refine ⟨host, ?_, ?_⟩
  · obtain ⟨st, hst⟩ := hruns.invariant (P := Parser.HostSettled (some host)) hoverride
      (fun s hs => Parser.hostSettled_step hoverride hs) hsettled rfl
    exact hst.1
  · rw [hostText, htext, htables]
    exact hparse

end CtBrowser.Shell.Url
