import CtBrowser.Style.Css.Boolean

/-!
# Where the parser of conditions is right

The engine's evaluation of a range against the grammar's. The groups that the parser comes to are required
to be `GroupSound`: each holds an `<any-value>`, so that counting brackets finds its end, and if the range
cuts it off it does not end with a bracket that closes another.

## Main results

- `booleanExpression_eq_exprValue` — the value is that of the grammar, missing when the range is no
  condition.
-/

namespace CtBrowser.Style.Css.Boolean

/-! ## Reading components -/

/-- What the tokens from a place on are read as. -/
inductive Reads : Option TokenType → ℕ → List CssToken → Contents → Prop
  | done {want i} : Reads want i [] ⟨[], i, false, []⟩
  | close {want i t rest} (h : want = some t.type) : Reads want i (t :: rest) ⟨[], i, true, rest⟩
  | token {want i t rest r} (hwant : want ≠ some t.type) (hopen : closerOf t = none)
      (hrest : Reads want (i + 1) rest r) : Reads want i (t :: rest) (r.cons (.token t))
  | block {want i t rest closer inner r} (hwant : want ≠ some t.type) (hopen : closerOf t = some closer)
      (hin : Reads (some closer) (i + 1) rest inner)
      (hout : Reads want (if inner.closed then inner.last + 1 else inner.last) inner.rest r) :
      Reads want i (t :: rest) (r.cons (.block t inner.components (i + 1) inner.last inner.closed))

variable {s : TokenStream} {tests : Tests} {want : Option TokenType} {i stop : ℕ} {t : CssToken}
  {ts rest : List CssToken} {cs : List Component} {r : Contents}

theorem Reads.length_rest (h : Reads want i ts r) : r.rest.length ≤ ts.length := by
  induction h with
  | done => exact le_rfl
  | close => simp
  | token _ _ _ ih => exact ih.trans (Nat.le_succ _)
  | block _ _ _ _ ihin ihout => exact (ihout.trans ihin).trans (Nat.le_succ _)

theorem reads_readComponents {fuel : ℕ} (h : ts.length ≤ fuel) : Reads want i ts (readComponents fuel want i ts) := by
  induction fuel generalizing want i ts with
  | zero =>
    obtain rfl := List.length_eq_zero_iff.mp (Nat.le_zero.mp h)
    exact .done
  | succ fuel ih =>
    rcases ts with _ | ⟨t, rest⟩
    · exact .done
    have hlen : rest.length ≤ fuel := Nat.le_of_succ_le_succ h
    rw [readComponents]
    by_cases hwant : want = some t.type
    · rw [if_pos hwant]
      exact .close hwant
    rw [if_neg hwant]
    rcases hopen : closerOf t with _ | closer
    · exact .token hwant hopen (ih hlen)
    · have hin : Reads (some closer) (i + 1) rest (readComponents fuel (some closer) (i + 1) rest) := ih hlen
      exact .block hwant hopen hin (ih (hin.length_rest.trans hlen))

theorem Reads.of_nil (h : Reads want i [] r) : r = ⟨[], i, false, []⟩ := by
  cases h
  rfl

theorem Reads.rest_of_open (h : Reads want i ts r) (hopen : r.closed = false) : r.rest = [] := by
  induction h with
  | done => rfl
  | close => cases hopen
  | token _ _ _ ih => exact ih hopen
  | block _ _ _ _ _ ih => exact ih hopen

theorem Reads.exists_of_closed (h : Reads want i ts r) (hclosed : r.closed = true) :
    ∃ taken t, want = some t.type ∧ ts = taken ++ t :: r.rest ∧ r.last = i + taken.length ∧
      ∀ rest', Reads want i (taken ++ t :: rest') { r with rest := rest' } := by
  induction h with
  | done => cases hclosed
  | close h => exact ⟨[], _, h, rfl, rfl, fun rest' => .close h⟩
  | @token want i t rest r hwant hopen _ ih =>
    obtain ⟨taken, closer, hcloser, rfl, hlast, hreads⟩ := ih hclosed
    refine ⟨t :: taken, closer, hcloser, rfl, ?_, fun rest' => .token hwant hopen (hreads rest')⟩
    rw [Contents.cons, hlast, List.length_cons]
    omega
  | @block want i t rest closer inner r hwant hopen hin hout ihin ihout =>
    obtain ⟨takenOut, closer', hcloser, hout', hlastOut, hreadsOut⟩ := ihout hclosed
    have hinner : inner.closed = true := by
      by_contra hnot
      rw [Bool.not_eq_true] at hnot
      rw [hin.rest_of_open hnot] at hout'
      simp at hout'
    obtain ⟨takenIn, t', -, rfl, hlastIn, hreadsIn⟩ := ihin hinner
    rw [if_pos hinner] at hlastOut hreadsOut
    refine ⟨t :: (takenIn ++ t' :: takenOut), closer', hcloser, ?_, ?_, fun rest' => ?_⟩
    · rw [hout']
      simp [Contents.cons]
    · rw [Contents.cons, hlastOut, hlastIn]
      simp
      omega
    · have hreads := hreadsIn (takenOut ++ closer' :: rest')
      have hblock := Reads.block hwant hopen hreads (by rw [if_pos hinner]; exact hreadsOut rest')
      simpa [Contents.cons] using hblock

/-- What is read up to the bracket, or to the end, is read alone too. -/
theorem Reads.alone (h : Reads want i ts r) :
    ∃ taken, r.last = i + taken.length ∧ Reads none i taken ⟨r.components, r.last, false, []⟩ ∧
      (r.closed = false → taken = ts) ∧
      (r.closed = true → ∃ t, want = some t.type ∧ ts = taken ++ t :: r.rest) := by
  induction h with
  | done => exact ⟨[], rfl, .done, fun _ => rfl, by simp⟩
  | close h => exact ⟨[], rfl, .done, by simp, fun _ => ⟨_, h, rfl⟩⟩
  | @token want i t rest r hwant hopen _ ih =>
    obtain ⟨taken, hlast, hreads, hfalse, htrue⟩ := ih
    refine ⟨t :: taken, ?_, .token (by simp) hopen hreads, fun h => by rw [hfalse h], fun h => ?_⟩
    · rw [Contents.cons, hlast, List.length_cons]
      omega
    · obtain ⟨t', ht', rfl⟩ := htrue h
      exact ⟨t', ht', rfl⟩
  | @block want i t rest closer inner r hwant hopen hin hout ihin ihout =>
    obtain ⟨takenOut, hlastOut, hreadsOut, hfalseOut, htrueOut⟩ := ihout
    rcases hinner : inner.closed with _ | _
    · -- the block is not closed, so nothing follows it
      have hnil := hin.rest_of_open hinner
      rw [hnil] at hout
      have hr := hout.of_nil
      rw [hinner] at hr
      subst hr
      obtain ⟨takenIn, hlastIn, -, hfalseIn, -⟩ := ihin
      obtain rfl := hfalseIn hinner
      refine ⟨t :: takenIn, ?_, ?_, fun _ => rfl, by simp [Contents.cons]⟩
      · simp only [Contents.cons, Bool.false_eq_true, if_false, List.length_cons]
        omega
      · have hinnerEq : inner = ⟨inner.components, inner.last, false, []⟩ := by
          rw [← hinner, ← hnil]
        have hreads : Reads none inner.last [] ⟨[], inner.last, false, []⟩ := .done
        have hblock : Reads none i (t :: takenIn) _ :=
          .block (by simp) hopen hin (by rw [hinner, hnil]; exact hreads)
        simpa [Contents.cons, hinner] using hblock
    · obtain ⟨takenIn, t', ht', rfl, hlastIn, hreadsIn⟩ := hin.exists_of_closed hinner
      rw [hinner, if_pos rfl] at hlastOut hreadsOut
      refine ⟨t :: (takenIn ++ t' :: takenOut), ?_, ?_, fun h => ?_, fun h => ?_⟩
      · rw [Contents.cons, hlastOut, hlastIn]
        simp
        omega
      · have hreads := hreadsIn takenOut
        have hblock : Reads none i (t :: (takenIn ++ t' :: takenOut)) _ :=
          .block (by simp) hopen hreads (by rw [if_pos hinner]; exact hreadsOut)
        simpa [Contents.cons, hinner] using hblock
      · rw [hfalseOut h]
      · obtain ⟨t'', ht'', hrest⟩ := htrueOut h
        refine ⟨t'', ht'', ?_⟩
        rw [hrest]
        simp [Contents.cons]

theorem Reads.of_none (h : Reads none i ts r) : r = ⟨r.components, i + ts.length, false, []⟩ := by
  have hopen : r.closed = false := by
    rcases hc : r.closed with _ | _
    · rfl
    · obtain ⟨_, _, hnone, -⟩ := h.exists_of_closed hc
      cases hnone
  obtain ⟨taken, hlast, -, hfalse, -⟩ := h.alone
  rw [hfalse hopen] at hlast
  rw [← hlast, ← hopen, ← h.rest_of_open hopen]

theorem Reads.blocks_closed (h : Reads want i ts r) (hclosed : r.closed = true) {opener : CssToken}
    {contents : List Component} {first last : ℕ} {closed : Bool}
    (hmem : Component.block opener contents first last closed ∈ r.components) : closed = true := by
  induction h with
  | done => cases hclosed
  | close => cases hmem
  | token _ _ _ ih => exact ih hclosed (by simpa [Contents.cons] using hmem)
  | @block want i t rest closer inner r hwant hopen hin hout ihin ihout =>
    rcases List.mem_cons.mp hmem with heq | hmem
    · have hclosedEq : closed = inner.closed := by injection heq
      rw [hclosedEq]
      by_contra hnot
      rw [Bool.not_eq_true] at hnot
      rw [hin.rest_of_open hnot] at hout
      rw [Contents.cons, hout.of_nil] at hclosed
      cases hclosed
    · exact ihout hclosed hmem

theorem Reads.last_of_open (h : Reads want i ts r) {opener : CssToken} {contents : List Component} {first last : ℕ}
    (hmem : Component.block opener contents first last false ∈ r.components) : last = r.last ∧ i < first := by
  induction h with
  | done => cases hmem
  | close => cases hmem
  | token _ _ _ ih =>
    obtain ⟨hlast, hfirst⟩ := ih (by simpa [Contents.cons] using hmem)
    exact ⟨hlast, by omega⟩
  | @block want i t rest closer inner r hwant hopen hin hout ihin ihout =>
    rcases List.mem_cons.mp hmem with heq | hmem
    · injection heq with _ _ hfirst hlast hclosed
      rw [hin.rest_of_open hclosed.symm, if_neg (by simp [← hclosed])] at hout
      rw [Contents.cons, hout.of_nil]
      exact ⟨hlast, by omega⟩
    · obtain ⟨hlast, hfirst⟩ := ihout hmem
      refine ⟨hlast, ?_⟩
      obtain ⟨taken, hinLast, -⟩ := hin.alone
      split_ifs at hfirst <;> omega

/-! ## Counting brackets -/

theorem opens_of_closerOf {closer : TokenType} (h : closerOf t = some closer) :
    t.type ≠ .eof ∧ opens t = true ∧ (closer = .closeParen ∨ closer = .closeSquare ∨ closer = .closeCurly) := by
  unfold closerOf at h
  split_ifs at h with hparen hsquare hcurly
  · rcases hparen with hparen | hparen <;> simp_all [opens]
  · simp_all [opens]
  · simp_all [opens]

theorem not_opens_of_closerOf (h : closerOf t = none) : opens t = false := by
  unfold closerOf at h
  split_ifs at h with hparen hsquare hcurly
  rw [not_or] at hparen
  simp [opens, hparen.1, hparen.2, hsquare, hcurly]

/-- A bracket that is one of the three. -/
def IsCloser (want : Option TokenType) : Prop :=
  ∀ type, want = some type → type = .closeParen ∨ type = .closeSquare ∨ type = .closeCurly

theorem closes_of_want (hwant : IsCloser want) (h : want = some t.type) :
    t.type ≠ .eof ∧ opens t = false ∧ closes t = true := by
  rcases hwant _ h with heq | heq | heq <;> simp [opens, closes, heq]

theorem le_blockEnd {fallback m : ℕ} (hm : m ≤ fallback) (ts : List CssToken) {i : ℕ} (hi : m ≤ i) (depth : ℤ) :
    m ≤ blockEnd fallback ts i depth := by
  induction ts generalizing i depth with
  | nil => exact hm
  | cons t rest ih =>
    rw [blockEnd]
    split_ifs
    · exact hi
    · exact ih (by omega) _
    · omega
    · exact ih (by omega) _
    · exact ih (by omega) _

/-- Through an `<any-value>` the count comes back to where it was. -/
theorem Reads.blockEnd_eq (h : Reads want i ts r) (hwant : IsCloser want) (hany : isAnyValue r.components = true)
    (fallback : ℕ) {depth : ℤ} (hdepth : 1 ≤ depth) (beyond : List CssToken) :
    (r.closed = true → blockEnd fallback (ts ++ beyond) i depth =
      if depth = 1 then r.last + 1 else blockEnd fallback (r.rest ++ beyond) (r.last + 1) (depth - 1)) ∧
    (r.closed = false → ∃ depth', 1 ≤ depth' ∧
      blockEnd fallback (ts ++ beyond) i depth = blockEnd fallback beyond r.last depth') := by
  induction h generalizing depth with
  | done => exact ⟨by simp, fun _ => ⟨depth, hdepth, rfl⟩⟩
  | close h =>
    obtain ⟨heof, hopens, hcloses⟩ := closes_of_want hwant h
    refine ⟨fun _ => ?_, by simp⟩
    rw [List.cons_append, blockEnd, if_neg heof, if_neg (by simp [hopens]), if_pos hcloses]
    by_cases hone : depth = 1
    · rw [if_pos (by omega), if_pos hone]
    · rw [if_neg (by omega), if_neg hone]
  | @token want i t rest r _ hopen _ ih =>
    rw [Contents.cons, isAnyValue, Bool.and_eq_true, isAnyComponent, isAnyToken] at hany
    obtain ⟨htoken, hrest⟩ := hany
    simp only [Bool.and_eq_true, Bool.not_eq_true', decide_eq_true_eq] at htoken
    obtain ⟨⟨⟨hcloses, -⟩, -⟩, heof⟩ := htoken
    have hstep : blockEnd fallback (t :: rest ++ beyond) i depth = blockEnd fallback (rest ++ beyond) (i + 1) depth := by
      rw [List.cons_append, blockEnd, if_neg (by simpa using heof), if_neg (by simp [not_opens_of_closerOf hopen]),
        if_neg (by simp [hcloses])]
    rw [hstep]
    exact ih hwant hrest hdepth
  | @block want i t rest closer inner r _ hopen hin hout ihin ihout =>
    rw [Contents.cons, isAnyValue, Bool.and_eq_true, isAnyComponent] at hany
    obtain ⟨hinner, hrest⟩ := hany
    obtain ⟨heof, hopens, hcloser⟩ := opens_of_closerOf hopen
    have hstep : blockEnd fallback (t :: rest ++ beyond) i depth = blockEnd fallback (rest ++ beyond) (i + 1) (depth + 1) := by
      rw [List.cons_append, blockEnd, if_neg heof, if_pos hopens]
    have hisCloser : IsCloser (some closer) := by
      intro type htype
      rwa [← Option.some_inj.mp htype]
    obtain ⟨hclosed, hnotClosed⟩ := ihin hisCloser hinner (by omega : 1 ≤ depth + 1)
    rw [hstep]
    rcases hc : inner.closed with _ | _
    · -- the block runs to the end, and so does the count
      obtain ⟨depth', hdepth', heq⟩ := hnotClosed hc
      rw [hin.rest_of_open hc, if_neg (by simp [hc])] at hout
      rw [Contents.cons, hout.of_nil]
      exact ⟨by simp, fun _ => ⟨depth', hdepth', heq⟩⟩
    · rw [hclosed hc, if_neg (by omega), add_sub_cancel_right]
      rw [hc, if_pos rfl] at ihout
      exact ihout hwant hrest hdepth

/-! ## Standing in a range -/

/-- The tokens from a place to the end of the range, and the components they are. -/
structure Stand (s : TokenStream) (i stop : ℕ) (ts : List CssToken) (cs : List Component) : Prop where
  beyond : ∃ beyond, s.tokens.drop i = ts ++ beyond
  stop_eq : stop = i + ts.length
  inside : stop < s.tokens.length
  reads : Reads none i ts ⟨cs, stop, false, []⟩

theorem Stand.components_nil (h : Stand s i stop [] cs) : cs = [] ∧ stop = i := by
  have hr := h.reads.of_nil
  rw [Contents.mk.injEq] at hr
  exact ⟨hr.1, hr.2.1⟩

theorem Stand.getElem? (h : Stand s i stop (t :: rest) cs) : s.tokens[i]? = some t ∧ i < stop := by
  obtain ⟨beyond, hbeyond⟩ := h.beyond
  refine ⟨?_, by rw [h.stop_eq]; simp⟩
  have hget := congrArg (·[0]?) hbeyond
  simpa using hget

theorem Stand.tokenIs (h : Stand s i stop (t :: rest) cs) (p : CssToken → Bool) : tokenIs s p i = p t := by
  rw [Boolean.tokenIs, h.getElem?.1]
  rfl

theorem Stand.drop_succ (h : Stand s i stop (t :: rest) cs) : ∃ beyond, s.tokens.drop (i + 1) = rest ++ beyond := by
  obtain ⟨beyond, hbeyond⟩ := h.beyond
  refine ⟨beyond, ?_⟩
  have hdrop := congrArg (List.drop 1) hbeyond
  rwa [List.drop_drop] at hdrop

theorem Stand.next (h : Stand s i stop (t :: rest) cs) (hopen : closerOf t = none) :
    ∃ cs', cs = .token t :: cs' ∧ Stand s (i + 1) stop rest cs' := by
  have hreads := h.reads
  have hstop := h.stop_eq
  generalize hr : (⟨cs, stop, false, []⟩ : Contents) = r at hreads
  cases hreads with
  | close hwant => cases hwant
  | block _ hopen' => rw [hopen] at hopen'; cases hopen'
  | @token _ _ _ _ r' _ _ hrest =>
    rw [Contents.cons, Contents.mk.injEq] at hr
    obtain ⟨rfl, hlast, hclosed, hnil⟩ := hr
    refine ⟨r'.components, rfl, h.drop_succ, ?_, h.inside, ?_⟩
    · rw [hstop, List.length_cons]
      omega
    · rwa [hlast, hclosed, hnil]

/-- At a block: what is in it, and what comes after it. -/
theorem Stand.block (h : Stand s i stop (t :: rest) cs) {closer : TokenType} (hopen : closerOf t = some closer) :
    ∃ inner cs', cs = .block t inner.components (i + 1) inner.last inner.closed :: cs' ∧
      Reads (some closer) (i + 1) rest inner ∧
      Stand s (if inner.closed then inner.last + 1 else inner.last) stop inner.rest cs' := by
  obtain ⟨beyond, hbeyond⟩ := h.drop_succ
  have hreads := h.reads
  have hstop := h.stop_eq
  generalize hr : (⟨cs, stop, false, []⟩ : Contents) = r at hreads
  cases hreads with
  | close hwant => cases hwant
  | token _ hopen' => rw [hopen] at hopen'; cases hopen'
  | @block _ _ _ _ closer' inner r' _ hopen' hin hout =>
    obtain rfl : closer = closer' := Option.some_injective _ (hopen.symm.trans hopen')
    rw [Contents.cons, Contents.mk.injEq] at hr
    obtain ⟨rfl, hlast, hclosed, hnil⟩ := hr
    refine ⟨inner, r'.components, rfl, hin, ⟨?_, ?_, h.inside, by rwa [hlast, hclosed, hnil]⟩⟩
    · rcases hc : inner.closed with _ | _
      · obtain ⟨taken, hinLast, -, hfalse, -⟩ := hin.alone
        obtain rfl := hfalse hc
        refine ⟨beyond, ?_⟩
        rw [hin.rest_of_open hc, if_neg (by simp), hinLast, ← List.drop_drop, hbeyond, List.drop_left, List.nil_append]
      · obtain ⟨taken, closerToken, -, hrest, hinLast, -⟩ := hin.exists_of_closed hc
        refine ⟨beyond, ?_⟩
        have hnext : inner.last + 1 = i + 1 + (taken.length + 1) := by omega
        rw [if_pos rfl, hnext, ← List.drop_drop, hbeyond, hrest, List.append_assoc, List.cons_append,
          List.drop_append]
        simp
    · have hout' := hout.of_none
      have hlast' := congrArg Contents.last hout'
      rw [← hlast] at hlast'
      exact hlast'

theorem isAnyComponent_of_mem (h : isAnyValue cs = true) {c : Component} (hc : c ∈ cs) : isAnyComponent c = true := by
  induction cs with
  | nil => cases hc
  | cons d cs ih =>
    rw [isAnyValue, Bool.and_eq_true] at h
    rcases List.mem_cons.mp hc with rfl | hc
    · exact h.1
    · exact ih h.2 hc

theorem Reads.groupSound {inner : Contents} (h : Reads want (i + 1) rest inner)
    (hany : isAnyValue inner.components = true)
    (hend : inner.closed = true ∨ inner.last ≤ i + 1 ∨ tokenIs s (·.type = .closeParen) (inner.last - 1) = false) :
    ∀ c ∈ inner.components, GroupSound s c := by
  rintro (token | ⟨opener, contents, first, last, closed⟩) hmem
  · trivial
  intro _
  have hcomponent := isAnyComponent_of_mem hany hmem
  rw [isAnyComponent] at hcomponent
  refine ⟨hcomponent, ?_⟩
  rcases hc : closed with _ | _
  · subst hc
    right
    rcases hinner : inner.closed with _ | _
    · -- both run to the end of the range
      obtain ⟨hlastEq, hfirst⟩ := h.last_of_open hmem
      rcases hend with hclosed | hshort | hnot
      · rw [hinner] at hclosed
        cases hclosed
      · left
        omega
      · right
        rwa [hlastEq]
    · exact absurd (h.blocks_closed hinner hmem) (by simp)
  · exact .inl rfl

theorem Stand.content (h : Stand s i stop (t :: rest) cs) {inner : Contents} {cs' : List Component}
    (hin : Reads want (i + 1) rest inner)
    (hafter : Stand s (if inner.closed then inner.last + 1 else inner.last) stop inner.rest cs') :
    ∃ taken, Stand s (i + 1) inner.last taken inner.components ∧ taken.length ≤ rest.length := by
  obtain ⟨beyond, hbeyond⟩ := h.drop_succ
  obtain ⟨taken, hlast, halone, hfalse, htrue⟩ := hin.alone
  have hle : inner.last ≤ stop := by
    have := hafter.stop_eq
    split_ifs at this <;> omega
  refine ⟨taken, ⟨?_, hlast, lt_of_le_of_lt hle h.inside, halone⟩, ?_⟩
  · rcases hc : inner.closed with _ | _
    · exact ⟨beyond, by rw [hfalse hc, hbeyond]⟩
    · obtain ⟨closerToken, -, hrest⟩ := htrue hc
      exact ⟨closerToken :: (inner.rest ++ beyond), by rw [hbeyond, hrest]; simp⟩
  · rcases hc : inner.closed with _ | _
    · rw [hfalse hc]
    · obtain ⟨closerToken, -, hrest⟩ := htrue hc
      rw [hrest]
      simp

theorem tokenItem_eq_space : tokenItem s t = .space ↔ isSpace t = true := by
  rw [tokenItem]
  split_ifs with h <;> simp [h]

theorem item_eq_space (c : Component) : item s tests c = .space ↔ isSpaceComponent c = true := by
  rcases c with t | ⟨opener, contents, first, last, closed⟩
  · rw [item, tokenItem_eq_space, isSpaceComponent]
  · rw [item, blockItem, isSpaceComponent]
    split_ifs <;> simp

theorem filter_items (cs : List Component) : (items s tests cs).filter (· ≠ .space) = items s tests (visible cs) := by
  induction cs with
  | nil => rfl
  | cons c cs ih =>
    rw [items, visible]
    by_cases hspace : isSpaceComponent c = true
    · rw [List.filter_cons_of_neg (by simp [item_eq_space, hspace]), List.filter_cons_of_neg (by simp [hspace]), ih,
        visible]
    · rw [List.filter_cons_of_pos (by simp [item_eq_space, hspace]), List.filter_cons_of_pos (by simp [hspace]), ih,
        items, visible]

theorem closerOf_of_type (h : opens t = false) : closerOf t = none := by
  rw [opens] at h
  simp only [Bool.or_eq_false_iff, decide_eq_false_iff_not] at h
  obtain ⟨⟨⟨hfunction, hparen⟩, hsquare⟩, hcurly⟩ := h
  simp [closerOf, hfunction, hparen, hsquare, hcurly]

theorem Stand.range_eq (h : Stand s i stop ts cs) : (s.tokens.drop i).take (stop - i) = ts := by
  obtain ⟨beyond, hbeyond⟩ := h.beyond
  rw [hbeyond, h.stop_eq, Nat.add_sub_cancel_left, List.take_left]

theorem Stand.skip (h : Stand s i stop ts cs) :
    ∃ ts' cs', Stand s (skipWs s i stop) stop ts' cs' ∧ visible cs = visible cs' ∧ ts'.length ≤ ts.length ∧
      ∀ t ∈ ts'.head?, isSpace t = false := by
  rw [skipWs, h.range_eq]
  induction ts generalizing i cs with
  | nil => exact ⟨[], cs, h, rfl, le_rfl, by simp⟩
  | cons t rest ih =>
    by_cases hspace : isSpace t = true
    · have htype : t.type = .whitespace := by simpa [isSpace] using hspace
      obtain ⟨cs', rfl, hnext⟩ := h.next (closerOf_of_type (by simp [opens, htype]))
      obtain ⟨ts', cs'', hstand, hvisible, hlen, hhead⟩ := ih hnext
      refine ⟨ts', cs'', ?_, ?_, hlen.trans (Nat.le_succ _), hhead⟩
      · rw [List.takeWhile_cons_of_pos hspace, List.length_cons]
        rwa [show i + ((rest.takeWhile isSpace).length + 1) = i + 1 + (rest.takeWhile isSpace).length by omega]
      · rw [← hvisible, visible, List.filter_cons_of_neg (by simp [isSpaceComponent, hspace]), visible]
    · rw [List.takeWhile_cons_of_neg hspace]
      exact ⟨t :: rest, cs, h, rfl, le_rfl, by simpa using hspace⟩

theorem Stand.visible_cons (h : Stand s i stop (t :: rest) cs) (hspace : isSpace t = false) :
    ∃ c cs', cs = c :: cs' ∧ visible cs = c :: visible cs' ∧
      (closerOf t = none → c = .token t ∧ Stand s (i + 1) stop rest cs') ∧
      (closerOf t ≠ none → ∃ contents first last closed, c = .block t contents first last closed) := by
  rcases hopen : closerOf t with _ | closer
  · obtain ⟨cs', rfl, hnext⟩ := h.next hopen
    refine ⟨.token t, cs', rfl, ?_, fun _ => ⟨rfl, hnext⟩, by simp⟩
    rw [visible, List.filter_cons_of_pos (by simp [isSpaceComponent, hspace]), visible]
  · obtain ⟨inner, cs', rfl, -⟩ := h.block hopen
    exact ⟨_, cs', rfl, by rw [visible, List.filter_cons_of_pos (by simp [isSpaceComponent]), visible], by simp,
      fun _ => ⟨_, _, _, _, rfl⟩⟩

/-! ## Groups -/

theorem group_of_le (fuel : ℕ) (h : stop ≤ i) : group s tests fuel i stop = none := by
  cases fuel with
  | zero => rfl
  | succ fuel =>
    have hskip : stop ≤ skipWs s i stop := h.trans (Nat.le_add_right _ _)
    simp only [group, if_pos hskip]

/-- What the parser makes of the next group: its answer, and where it leaves off. -/
def GroupRead (s : TokenStream) (tests : Tests) (fuel i stop : ℕ) (ts : List CssToken) (cs : List Component) : Prop :=
  (∃ g next ts' c cs', group s tests fuel i stop = some (g, next) ∧ Stand s next stop ts' cs' ∧
    ts'.length < ts.length ∧ visible cs = c :: visible cs' ∧ isGroup c = true ∧ item s tests c = .group (some g)) ∨
  group s tests fuel i stop = none ∧ ∀ c ∈ (visible cs).head?, ∀ g, item s tests c ≠ .group (some g)

theorem joinedGroups_subset (isAnd : Option Bool) (cs : List Component) : joinedGroups s isAnd cs ⊆ cs := by
  induction isAnd, cs using joinedGroups.induct s with
  | case1 isAnd t c rest hword =>
    rw [joinedGroups, if_pos hword]
    exact List.nil_subset _
  | case2 isAnd t c rest hword ih =>
    rw [joinedGroups, if_neg hword]
    refine List.cons_subset.mpr ⟨by simp, ?_⟩
    split_ifs
    · exact fun d hd => List.mem_cons_of_mem _ (List.mem_cons_of_mem _ (ih hd))
    · exact List.nil_subset _
  | case3 cs isAnd hcs =>
    rw [joinedGroups.eq_def]
    split
    · exact absurd rfl (hcs _ _ _)
    · exact List.nil_subset _

theorem groupsOf_subset (cs : List Component) : groupsOf s cs ⊆ cs := by
  intro d hd
  unfold groupsOf at hd
  split at hd
  · split_ifs at hd
    · obtain rfl := List.mem_singleton.mp hd
      simp
    · cases hd
  · rcases List.mem_cons.mp hd with rfl | hd
    · simp
    · split_ifs at hd
      · exact List.mem_cons_of_mem _ (joinedGroups_subset _ _ hd)
      · cases hd
  · cases hd

theorem groupsSound_of_forall (h : ∀ c ∈ cs, GroupSound s c) : GroupsSound s cs :=
  fun c hc => h c (List.mem_of_mem_filter (groupsOf_subset _ hc))

/-- What the parser is to compute of a range, when it has fuel. -/
def ExpressionRead (s : TokenStream) (tests : Tests) (fuel : ℕ) : Prop :=
  ∀ i stop ts cs, Stand s i stop ts cs → GroupsSound s cs → 2 * ts.length + 2 ≤ fuel →
    expression s tests fuel i stop = exprValue (items s tests cs)

/-- The end of a sound group and of its arguments, as the parser finds them. -/
theorem Stand.group_end (h : Stand s i stop (t :: rest) cs) (hgroup : t.type = .function ∨ t.type = .openParen)
    {inner : Contents} {cs' : List Component} (hin : Reads (some .closeParen) (i + 1) rest inner)
    (hafter : Stand s (if inner.closed then inner.last + 1 else inner.last) stop inner.rest cs')
    (hany : isAnyValue inner.components = true)
    (hend : inner.closed = true ∨ inner.last ≤ i + 1 ∨ Boolean.tokenIs s (·.type = .closeParen) (inner.last - 1) = false) :
    let close := min (endOfBlock s i) stop
    close = (if inner.closed then inner.last + 1 else inner.last) ∧
      (if i + 1 < close ∧ Boolean.tokenIs s (·.type = .closeParen) (close - 1) then close - 1 else close) = inner.last := by
  obtain ⟨beyond, hbeyond⟩ := h.beyond
  obtain ⟨heof, hopens, -⟩ := opens_of_closerOf (if_pos hgroup : closerOf t = some .closeParen)
  have hisCloser : IsCloser (some .closeParen) := fun type htype => .inl (Option.some_inj.mp htype).symm
  have hcount := hin.blockEnd_eq hisCloser hany (s.tokens.length - 1) (le_refl (1 : ℤ)) beyond
  have hblock : endOfBlock s i = blockEnd (s.tokens.length - 1) (rest ++ beyond) (i + 1) 1 := by
    rw [endOfBlock, hbeyond, List.cons_append, blockEnd, if_neg heof, if_pos hopens, zero_add]
  have hstop := hafter.stop_eq
  obtain ⟨taken, hlast, -⟩ := hin.alone
  have hinside := h.inside
  intro close
  rcases hc : inner.closed with _ | _
  · -- cut off by the end of the range
    obtain ⟨depth', -, hdepth'⟩ := hcount.2 hc
    rw [hin.rest_of_open hc] at hstop
    simp only [hc, Bool.false_eq_true, if_false, List.length_nil, add_zero] at hstop
    have hle : stop ≤ endOfBlock s i := by
      rw [hblock, hdepth']
      exact le_blockEnd (by omega) beyond (by omega) depth'
    have hclose : close = inner.last := by
      rw [← hstop]
      exact min_eq_right hle
    rw [hclose]
    refine ⟨by simp, if_neg ?_⟩
    rintro ⟨hlt, htoken⟩
    rw [hc] at hend
    rcases hend with hend | hend | hend
    · cases hend
    · omega
    · rw [hend] at htoken
      cases htoken
  · have hcountClosed := hcount.1 hc
    rw [if_pos rfl] at hcountClosed
    simp only [hc, if_true] at hstop
    have hclose : close = inner.last + 1 := by
      have hblockEq : endOfBlock s i = inner.last + 1 := hblock.trans hcountClosed
      change min (endOfBlock s i) stop = _
      rw [hblockEq]
      exact min_eq_left (by omega)
    rw [hclose]
    refine ⟨by simp, ?_⟩
    -- the bracket is where the contents end
    obtain ⟨taken', closerToken, htype, hrest, hlast', -⟩ := hin.exists_of_closed hc
    have hget : s.tokens[inner.last]? = some closerToken := by
      have hdrop : s.tokens.drop (i + 1) = taken' ++ closerToken :: (inner.rest ++ beyond) := by
        have hdrop := congrArg (List.drop 1) hbeyond
        rw [List.drop_drop] at hdrop
        rw [hdrop, hrest]
        simp
      have hget := congrArg (·[taken'.length]?) hdrop
      rw [hlast']
      simpa using hget
    rw [if_pos, Nat.add_sub_cancel]
    refine ⟨by omega, ?_⟩
    rw [Nat.add_sub_cancel, Boolean.tokenIs, hget]
    rw [Option.some_inj] at htype
    simp [← htype]

/-- The parser reads a group as the grammar does, and evaluates it. -/
theorem groupRead (fuel : ℕ) (hexpr : ExpressionRead s tests fuel) (h : Stand s i stop ts cs)
    (hsound : ∀ c ∈ (visible cs).head?, GroupSound s c) (hfuel : 2 * ts.length + 1 ≤ fuel + 1) :
    GroupRead s tests (fuel + 1) i stop ts cs := by
  obtain ⟨ts', cs', hskip, hvisible, hlen, hhead⟩ := h.skip
  rw [hvisible] at hsound
  rw [GroupRead, hvisible]
  rcases ts' with _ | ⟨t, rest⟩
  · obtain ⟨rfl, hstop⟩ := hskip.components_nil
    refine .inr ⟨?_, by simp [visible]⟩
    simp only [group]
    rw [if_pos hstop.le]
  have hspace : isSpace t = false := hhead t rfl
  obtain ⟨hget, hlt⟩ := hskip.getElem?
  by_cases hgroup : t.type = .function ∨ t.type = .openParen
  · have hopen : closerOf t = some .closeParen := if_pos hgroup
    obtain ⟨inner, cs'', rfl, hin, hafter⟩ := hskip.block hopen
    rw [visible, List.filter_cons_of_pos (by simp [isSpaceComponent])] at hsound ⊢
    obtain ⟨hany, hend⟩ := hsound _ rfl hgroup
    obtain ⟨hclose, hlast⟩ := hskip.group_end hgroup hin hafter hany hend
    obtain ⟨taken, hcontent, htaken⟩ := hskip.content hin hafter
    rw [List.length_cons] at hlen
    have hinner : expression s tests fuel (skipWs s i stop + 1) inner.last = exprValue (items s tests inner.components) :=
      hexpr _ _ _ _ hcontent (groupsSound_of_forall (hin.groupSound hany hend)) (by omega)
    have hrestLen : inner.rest.length < ts.length := lt_of_le_of_lt hin.length_rest (by omega)
    -- the answer of the group, on both sides
    have hitem : item s tests (.block t inner.components (skipWs s i stop + 1) inner.last inner.closed) = .group
        (if t.type = .function then tests.test (textOf s t).dropLast (skipWs s i stop + 1) inner.last
          else (exprValue (items s tests inner.components)).or (tests.enclosed (skipWs s i stop + 1) inner.last)) := by
      rw [item, if_pos hany, blockItem]
      split_ifs with hfunction hparen
      · rfl
      · rfl
      · exact absurd (hgroup.resolve_left hfunction) hparen
    have hresult : group s tests (fuel + 1) i stop = (if t.type = .function then
        tests.test (textOf s t).dropLast (skipWs s i stop + 1) inner.last
          else (exprValue (items s tests inner.components)).or (tests.enclosed (skipWs s i stop + 1) inner.last)).map
        fun g => (g, if inner.closed then inner.last + 1 else inner.last) := by
      simp only [group]
      rw [if_neg (by omega), hget]
      simp only
      rw [if_neg (by tauto), hlast, hclose, hinner]
    rw [hresult]
    generalize (if t.type = .function then tests.test (textOf s t).dropLast (skipWs s i stop + 1) inner.last
      else (exprValue (items s tests inner.components)).or (tests.enclosed (skipWs s i stop + 1) inner.last)) = answer at hitem ⊢
    rcases answer with _ | g
    · refine .inr ⟨rfl, fun c hc => ?_⟩
      rw [← Option.some_inj.mp hc, hitem]
      simp
    · exact .inl ⟨g, _, inner.rest, _, cs'', rfl, hafter, hrestLen, rfl, by simpa [isGroup] using hgroup, hitem⟩
  · refine .inr ⟨?_, fun c hc g => ?_⟩
    · simp only [group]
      rw [if_neg (by omega), hget]
      simp only
      rw [if_pos (by tauto)]
    · obtain ⟨c', cs'', -, hcons, htoken, hblock⟩ := hskip.visible_cons hspace
      rw [hcons] at hc
      obtain rfl : c' = c := Option.some_inj.mp hc
      rw [not_or] at hgroup
      by_cases hopen : closerOf t = none
      · rw [(htoken hopen).1, item, tokenItem]
        split_ifs <;> simp
      · obtain ⟨contents, first, last, closed, rfl⟩ := hblock hopen
        rw [item, blockItem, if_neg hgroup.1, if_neg hgroup.2]
        simp

/-! ## Words -/

theorem of_named {want : Text} (h : named s want t = true) :
    t.type = .ident ∧ (textOf s t).map asciiLower = want.map asciiLower := by
  simpa [named, asciiIequals] using h

theorem of_ident (h : t.type = .ident) : closerOf t = none ∧ isSpace t = false := by
  simp [closerOf, isSpace, h]

theorem not_named_of_named {want other : Text} (h : named s want t = true)
    (hne : want.map asciiLower ≠ other.map asciiLower) : named s other t = false := by
  rcases hother : named s other t with _ | _
  · rfl
  · exact absurd ((of_named h).2.symm.trans (of_named hother).2) hne

/-- The word `and` or the word `or`. -/
def joinItem (isAnd : Bool) : Item := if isAnd then .and else .or

theorem tokenItem_of_joinWord {b : Bool} (h : joinWord s t = some b) : closerOf t = none ∧ tokenItem s t = joinItem b := by
  rw [joinWord] at h
  split_ifs at h with hand hor
  · obtain rfl := Option.some_inj.mp h
    obtain ⟨hopen, hspace⟩ := of_ident (of_named hand).1
    have hnot : named s (ascii "not") t = false := not_named_of_named hand (by decide)
    exact ⟨hopen, by simp [tokenItem, hspace, hnot, hand, joinItem]⟩
  · obtain rfl := Option.some_inj.mp h
    obtain ⟨hopen, hspace⟩ := of_ident (of_named hor).1
    have hnot : named s (ascii "not") t = false := not_named_of_named hor (by decide)
    exact ⟨hopen, by simp [tokenItem, hspace, hnot, hand, hor, joinItem]⟩

theorem tokenItem_of_joinWord_eq_none (h : joinWord s t = none) (b : Bool) : tokenItem s t ≠ joinItem b := by
  rw [joinWord] at h
  split_ifs at h with hand hor
  rw [tokenItem]
  cases b <;> split_ifs <;> simp [joinItem]

/-! ## Groups that are joined -/

/-- The value of groups joined to those before: by `and`, by `or`, or by whichever comes. -/
def joinedValue (isAnd : Option Bool) (result : Truth) (l : List Item) : Option Truth :=
  ((if isAnd = some false then none else chain .and l).map (·.foldl Truth.both result)).or
    ((if isAnd = some true then none else chain .or l).map (·.foldl Truth.either result))

variable {isAnd : Option Bool} {result : Truth} {l : List Item}

theorem joinedValue_nil : joinedValue isAnd result [] = some result := by
  rcases isAnd with _ | _ | _ <;> rfl

theorem joinedValue_cons (b : Bool) (g : Truth) :
    joinedValue isAnd result (joinItem b :: .group (some g) :: l) =
      if isAnd.any (· ≠ b) then none
      else joinedValue (some b) (if b then result.both g else result.either g) l := by
  rcases isAnd with _ | _ | _ <;> cases b <;> simp [joinedValue, joinItem, chain, Function.comp_def]

theorem chain_eq_none_of_ne {word x : Item} (h : x ≠ word) : chain word (x :: l) = none := by
  rw [chain.eq_def]
  split
  · rename_i heq
    cases heq
  · rename_i heq
    obtain ⟨rfl, -⟩ := List.cons.inj heq
    exact if_neg h
  · rfl

theorem chain_eq_none_of_not_group {word x : Item} (h : ∀ y ∈ l.head?, ∀ g, y ≠ .group (some g)) :
    chain word (x :: l) = none := by
  rw [chain.eq_def]
  split
  · rename_i heq
    cases heq
  · rename_i g rest heq
    obtain ⟨-, rfl⟩ := List.cons.inj heq
    exact absurd rfl (h _ rfl g)
  · rfl

theorem joinedValue_eq_none_of_ne {x : Item} (h : ∀ b, x ≠ joinItem b) : joinedValue isAnd result (x :: l) = none := by
  have hand : chain .and (x :: l) = none := chain_eq_none_of_ne (h true)
  have hor : chain .or (x :: l) = none := chain_eq_none_of_ne (h false)
  simp [joinedValue, hand, hor]

theorem joinedValue_eq_none_of_not_group {x : Item} (h : ∀ y ∈ l.head?, ∀ g, y ≠ .group (some g)) :
    joinedValue isAnd result (x :: l) = none := by
  rw [joinedValue, chain_eq_none_of_not_group h, chain_eq_none_of_not_group h]
  simp

theorem joinedValue_eq_none_of_other {b : Bool} (h : isAnd.any (· ≠ b) = true) :
    joinedValue isAnd result (joinItem b :: l) = none := by
  rcases isAnd with _ | _ | _ <;> cases b <;> simp_all [joinedValue, joinItem, chain_eq_none_of_ne]

theorem head?_items (cs : List Component) : (items s tests cs).head? = cs.head?.map (item s tests) := by
  cases cs <;> rfl

/-- What the parser is to make of groups, when it has fuel. -/
def GroupsRead (s : TokenStream) (tests : Tests) (fuel : ℕ) : Prop :=
  ∀ i stop ts cs, Stand s i stop ts cs → (∀ c ∈ (visible cs).head?, GroupSound s c) → 2 * ts.length + 1 ≤ fuel →
    GroupRead s tests fuel i stop ts cs

def JoinedRead (s : TokenStream) (tests : Tests) (fuel : ℕ) : Prop :=
  ∀ i stop ts cs isAnd result, Stand s i stop ts cs → (∀ c ∈ joinedGroups s isAnd (visible cs), GroupSound s c) →
    2 * ts.length + 1 ≤ fuel →
    joined s tests fuel isAnd result i stop = joinedValue isAnd result (items s tests (visible cs))

/-- One word and its group, and the rest. -/
theorem joinedRead_succ (fuel : ℕ) (hgroup : GroupsRead s tests fuel) (hjoined : JoinedRead s tests fuel) :
    JoinedRead s tests (fuel + 1) := by
  intro i stop ts cs isAnd result h hsound hfuel
  obtain ⟨ts', cs', hskip, hvisible, hlen, hhead⟩ := h.skip
  rw [hvisible] at hsound ⊢
  simp only [joined]
  rcases ts' with _ | ⟨t, rest⟩
  · obtain ⟨rfl, hstop⟩ := hskip.components_nil
    rw [if_pos hstop.le, visible, List.filter_nil, items, joinedValue_nil]
  obtain ⟨-, hlt⟩ := hskip.getElem?
  obtain ⟨c, cs'', -, hcons, htoken, hblock⟩ := hskip.visible_cons (hhead t rfl)
  rw [List.length_cons] at hlen
  rw [if_neg (by omega), hskip.tokenIs, hskip.tokenIs, hcons, items]
  rw [hcons] at hsound
  rcases hword : joinWord s t with _ | b
  · -- neither word
    have hwords : named s (ascii "and") t = false ∧ named s (ascii "or") t = false := by
      rw [joinWord] at hword
      split_ifs at hword with hand hor
      simp [hand, hor]
    rw [if_pos (by simp [hwords]), joinedValue_eq_none_of_ne]
    intro b
    by_cases hopen : closerOf t = none
    · rw [(htoken hopen).1, item]
      exact tokenItem_of_joinWord_eq_none hword b
    · obtain ⟨contents, first, last, closed, rfl⟩ := hblock hopen
      rw [item, blockItem]
      cases b <;> split_ifs <;> simp [joinItem]
  · obtain ⟨hopen, hitem⟩ := tokenItem_of_joinWord hword
    obtain ⟨rfl, hnext⟩ := htoken hopen
    have hwords : named s (ascii "and") t = b ∧ (b = false → named s (ascii "or") t = true) := by
      rw [joinWord] at hword
      split_ifs at hword with hand hor <;> obtain rfl := Option.some_inj.mp hword <;> simp_all
    rw [item, hitem, hwords.1, if_neg (by cases b <;> simp_all)]
    by_cases hany : isAnd.any (· ≠ b) = true
    · rw [if_pos hany, joinedValue_eq_none_of_other hany]
    rw [if_neg hany]
    have hgroups : ∀ c cs₀, visible cs'' = c :: cs₀ →
        GroupSound s c ∧ (isGroup c = true → ∀ d ∈ joinedGroups s (some b) cs₀, GroupSound s d) := by
      intro c cs₀ hc
      rw [hc, joinedGroups, if_neg (by rcases isAnd with _ | _ | _ <;> cases b <;> simp_all), hword] at hsound
      refine ⟨hsound c List.mem_cons_self, fun hgroup d hd => hsound d ?_⟩
      rw [if_pos hgroup]
      exact List.mem_cons_of_mem _ hd
    have hheadSound : ∀ c ∈ (visible cs'').head?, GroupSound s c := by
      intro c hc
      obtain ⟨cs₀, hcs₀⟩ := List.head?_eq_some_iff.mp hc
      exact (hgroups c cs₀ hcs₀).1
    rcases hgroup _ _ _ _ hnext hheadSound (by omega) with
      ⟨g, next, ts'', c, cs₀, hread, hstand, hshort, hvisible', hisGroup, hitem'⟩ | ⟨hread, hnot⟩
    · rw [hread, hvisible', items, hitem', joinedValue_cons, if_neg hany]
      exact hjoined _ _ _ _ _ _ hstand ((hgroups c _ hvisible').2 hisGroup) (by omega)
    · rw [hread, joinedValue_eq_none_of_not_group]
      intro y hy g
      rw [head?_items] at hy
      obtain ⟨c, hc, rfl⟩ := Option.mem_map.mp hy
      exact hnot c hc g

/-! ## Expressions -/

theorem tokenItem_of_named_not (h : named s (ascii "not") t = true) : tokenItem s t = .not := by
  simp [tokenItem, (of_ident (of_named h).1).2, h]

theorem tokenItem_ne_not (h : named s (ascii "not") t = false) : tokenItem s t ≠ .not := by
  simp only [tokenItem, h, Bool.false_eq_true, if_false]
  split_ifs <;> simp

variable {l' : List Item}

theorem exprValue_group {g : Truth} (h : l.filter (· ≠ .space) = .group (some g) :: l') :
    exprValue l = joinedValue none g l' := by
  rw [exprValue, h]
  simp [joinedValue]

theorem exprValue_not_group {g : Truth} (h : l.filter (· ≠ .space) = [.not, .group (some g)]) :
    exprValue l = some g.negate := by
  rw [exprValue, h]
  rfl

theorem exprValue_eq_none (h : l.filter (· ≠ .space) = l') (hnot : ∀ g, l' ≠ [.not, .group (some g)])
    (hgroup : ∀ g rest, l' ≠ .group (some g) :: rest) : exprValue l = none := by
  rw [exprValue, h]
  split
  · rename_i g
    rcases g with _ | g
    · rfl
    · exact absurd rfl (hnot g)
  · exact absurd rfl (hgroup _ _)
  · rfl

theorem Stand.skipWs_lt (h : Stand s i stop ts cs) : skipWs s i stop < stop ↔ visible cs ≠ [] := by
  obtain ⟨ts', cs', hskip, hvisible, -, hhead⟩ := h.skip
  rw [hvisible]
  rcases ts' with _ | ⟨t, rest⟩
  · obtain ⟨rfl, hstop⟩ := hskip.components_nil
    simp [visible, ← hstop]
  · obtain ⟨c, cs'', -, hcons, -⟩ := hskip.visible_cons (hhead t rfl)
    simp [hcons, hskip.getElem?.2]

theorem items_eq_nil : items s tests cs = [] ↔ cs = [] := by
  cases cs <;> simp [items]

theorem groupsOf_block {opener : CssToken} {contents : List Component} {first last : ℕ} {closed : Bool} :
    groupsOf s (.block opener contents first last closed :: cs) = .block opener contents first last closed ::
      if isGroup (.block opener contents first last closed) then joinedGroups s none cs else [] := by
  simp [groupsOf]

/-- A whole range. -/
theorem expressionRead_succ (fuel : ℕ) (hgroup : GroupsRead s tests fuel) (hjoined : JoinedRead s tests fuel) :
    ExpressionRead s tests (fuel + 1) := by
  intro i stop ts cs h hsound hfuel
  obtain ⟨ts', cs', hskip, hvisible, hlen, hhead⟩ := h.skip
  have hfilter : (items s tests cs).filter (· ≠ .space) = items s tests (visible cs) := filter_items cs
  rw [GroupsSound, hvisible] at hsound
  rw [hvisible] at hfilter
  simp only [expression]
  rcases ts' with _ | ⟨t, rest⟩
  · -- nothing but white space
    obtain ⟨rfl, hstop⟩ := hskip.components_nil
    rw [exprValue_eq_none hfilter (by simp [visible, items]) (by simp [visible, items]), group_of_le fuel (by omega),
      group_of_le fuel (by omega)]
    split_ifs <;> rfl
  obtain ⟨c, cs'', hcs, hcons, htoken, hblock⟩ := hskip.visible_cons (hhead t rfl)
  rw [List.length_cons] at hlen
  rw [hcons, items] at hfilter
  rw [hcons] at hsound
  rw [hskip.tokenIs]
  by_cases hnot : named s (ascii "not") t = true
  · obtain ⟨rfl, hnext⟩ := htoken (of_ident (of_named hnot).1).1
    rw [item, tokenItem_of_named_not hnot] at hfilter
    have hheadSound : ∀ c ∈ (visible cs'').head?, GroupSound s c := by
      intro c hc
      obtain ⟨cs₀, hcs₀⟩ := List.head?_eq_some_iff.mp hc
      refine hsound c ?_
      rw [hcs₀, groupsOf, if_pos hnot]
      exact List.mem_singleton_self c
    rw [if_pos hnot]
    rcases hgroup _ _ _ _ hnext hheadSound (by omega) with
      ⟨g, next, ts'', c, cs₀, hread, hstand, -, hvisible', -, hitem⟩ | ⟨hread, hnone⟩
    · rw [hread]
      rw [hvisible', items, hitem] at hfilter
      simp only
      by_cases hrest : visible cs₀ = []
      · rw [if_neg (by simp [hstand.skipWs_lt, hrest]), exprValue_not_group (by rw [hfilter, hrest, items])]
      · rw [if_pos (hstand.skipWs_lt.mpr hrest), exprValue_eq_none hfilter (by simp [items_eq_nil, hrest]) (by simp)]
    · rw [hread, exprValue_eq_none hfilter _ (by simp)]
      intro g heq
      have hhead' := congrArg List.head? (List.cons.inj heq).2
      rw [head?_items] at hhead'
      obtain ⟨c, hc, hitem⟩ := Option.map_eq_some_iff.mp hhead'
      exact hnone c hc g hitem
  · have hheadSound : ∀ c ∈ (visible cs').head?, GroupSound s c := by
      intro d hd
      rw [hcons] at hd
      obtain rfl := Option.some_inj.mp hd
      by_cases hopen : closerOf t = none
      · rw [(htoken hopen).1]
        trivial
      · obtain ⟨contents, first, last, closed, rfl⟩ := hblock hopen
        exact hsound _ (by rw [groupsOf_block]; exact List.mem_cons_self)
    rw [if_neg hnot]
    rcases hgroup _ _ _ _ hskip hheadSound (by rw [List.length_cons]; omega) with
      ⟨g, next, ts'', c', cs₀, hread, hstand, hshort, hvisible', hisGroup, hitem⟩ | ⟨hread, hnone⟩
    · rw [hcons] at hvisible'
      obtain ⟨rfl, hrest⟩ := List.cons.inj hvisible'
      rw [hitem, hrest] at hfilter
      rw [List.length_cons] at hshort
      rw [hread, exprValue_group hfilter]
      refine hjoined _ _ _ _ _ _ hstand (fun d hd => hsound d ?_) (by omega)
      rcases c with _ | ⟨opener, contents, first, last, closed⟩
      · cases hisGroup
      · rw [groupsOf_block, if_pos hisGroup, hrest]
        exact List.mem_cons_of_mem _ hd
    · rw [hread, exprValue_eq_none hfilter]
      · intro g heq
        obtain ⟨hitem, -⟩ := List.cons.inj heq
        by_cases hopen : closerOf t = none
        · rw [(htoken hopen).1, item] at hitem
          exact tokenItem_ne_not (by simpa using hnot) hitem
        · obtain ⟨contents, first, last, closed, rfl⟩ := hblock hopen
          rw [item, blockItem] at hitem
          split_ifs at hitem
      · intro g rest' heq
        exact hnone c (by rw [hcons]; rfl) g (List.cons.inj heq).1

theorem reads_all (fuel : ℕ) : GroupsRead s tests fuel ∧ JoinedRead s tests fuel ∧ ExpressionRead s tests fuel := by
  induction fuel with
  | zero => exact ⟨fun _ _ _ _ _ _ h => by omega, fun _ _ _ _ _ _ _ _ h => by omega, fun _ _ _ _ _ _ h => by omega⟩
  | succ fuel ih =>
    obtain ⟨hgroup, hjoined, hexpr⟩ := ih
    exact ⟨fun _ _ _ _ h hsound hfuel => groupRead fuel hexpr h hsound hfuel, joinedRead_succ fuel hgroup hjoined,
      expressionRead_succ fuel hgroup hjoined⟩

theorem stand_componentsOf {start : ℕ} (hstart : start ≤ stop) (hstop : stop < s.tokens.length) :
    Stand s start stop (range s start stop) (componentsOf s start stop) := by
  have hlen : (range s start stop).length = stop - start := by
    rw [range, List.length_take, List.length_drop]
    omega
  have hreads : Reads none start (range s start stop) (readComponents (stop - start) none start (range s start stop)) :=
    reads_readComponents hlen.le
  have hall := hreads.of_none
  rw [hlen, Nat.add_sub_cancel' hstart] at hall
  refine ⟨⟨(s.tokens.drop start).drop (stop - start), by rw [range, List.take_append_drop]⟩, by omega, hstop, ?_⟩
  rw [componentsOf, ← hall]
  exact hreads

theorem booleanExpression_of_lt {start : ℕ} (h : stop < start) : booleanExpression s tests start stop = none := by
  have hskip : start ≤ skipWs s start stop := Nat.le_add_right _ _
  simp only [booleanExpression, expression]
  rw [group_of_le _ (by omega), group_of_le _ (by omega)]
  split_ifs <;> rfl

/-- Where the groups that it comes to are sound, the engine's value of a range is the grammar's. -/
theorem booleanExpression_eq_exprValue (s : TokenStream) (tests : Tests) (start stop : ℕ)
    (hstop : stop < s.tokens.length) (hsound : GroupsSound s (componentsOf s start stop)) :
    booleanExpression s tests start stop = exprValue (items s tests (componentsOf s start stop)) := by
  rcases Nat.lt_or_ge stop start with hlt | hstart
  · rw [booleanExpression_of_lt hlt, componentsOf, Nat.sub_eq_zero_of_le hlt.le]
    rfl
  · have hstand := stand_componentsOf hstart hstop
    have hlen := hstand.stop_eq
    exact (reads_all _).2.2 _ _ _ _ hstand hsound (by omega)

/-- A token of one byte of the pool, or of more. -/
def slice (type : TokenType) (text length : ℕ) : CssToken := ⟨type, 0, 0, text, length, 0⟩

/-- `not (a)`. -/
def negation : TokenStream :=
  ⟨ascii "not (a)", [slice .ident 0 3, slice .whitespace 3 1, slice .openParen 4 1, slice .ident 5 1,
    slice .closeParen 6 1, slice .eof 7 0], 7⟩

/-- `(a] or (b)`. -/
def mismatched : TokenStream :=
  ⟨ascii "(a] or (b)", [slice .openParen 0 1, slice .ident 1 1, slice .closeSquare 2 1, slice .whitespace 3 1,
    slice .ident 4 2, slice .whitespace 6 1, slice .openParen 7 1, slice .ident 8 1, slice .closeParen 9 1,
    slice .eof 10 0], 10⟩

/-- Every test and every group holds. -/
def allYes : Tests := ⟨fun _ _ _ => some .yes, fun _ _ => some .yes⟩

theorem booleanExpression_negation :
    booleanExpression negation allYes 0 5 = exprValue (items negation allYes (componentsOf negation 0 5)) := by
  refine booleanExpression_eq_exprValue negation allYes 0 5 (by decide) fun c hc => ?_
  rcases List.mem_cons.mp hc with rfl | hc
  · exact fun _ => ⟨rfl, .inl rfl⟩
  · cases hc

/-- The bracket of another kind ends the first group for the parser, and not for the grammar, to which all
this is one group with a stray bracket. -/
theorem booleanExpression_mismatched :
    booleanExpression mismatched allYes 0 9 = some .yes ∧
      exprValue (items mismatched allYes (componentsOf mismatched 0 9)) = none := by
  constructor <;> rfl

end CtBrowser.Style.Css.Boolean
