import CtBrowser.Foundations.WrittenScan
import CtBrowser.Script.ProgramImage.Write

/-!
# Reading the Parts of an Image

Each part of the reader of program images against the part of the writer. It takes exactly what is
written, unless it fails, and fails where only a beginning of that is left, as long as the counts and
lengths that are written are those of the program.

## Main definitions

- `TextsFit`, `FunctionFits`, `CountsFit` — every text and table of a program has a 32-bit count.

## Main results

- `readImageHeader_iff` — the header of an image is that of the prefix it begins with.
- `reads_opening`, `reads_tables`, `reads_function` — the parts are read.
-/

namespace CtBrowser.Script.ProgramImage

open Foundations Foundations.Scan

instance : Remaining SourceBytes UInt8 := ⟨fun s => s.bytes.drop s.pos⟩

/-! ## Numbers and texts -/

@[simp]
theorem length_littleBytes (size v : ℕ) : (littleBytes size v).length = size := by
  induction size generalizing v with
  | zero => rfl
  | succ size ih => rw [littleBytes, List.length_cons, ih]

theorem littleEndian_littleBytes {size v : ℕ} (h : v < 2 ^ (8 * size)) : littleEndian (littleBytes size v) = v := by
  induction size generalizing v with
  | zero => exact (Nat.lt_one_iff.mp h).symm
  | succ size ih =>
    have hrest : v / 2 ^ 8 < 2 ^ (8 * size) := by
      rw [Nat.div_lt_iff_lt_mul (by norm_num), ← pow_add]
      exact h
    rw [littleBytes, littleEndian, ih hrest, UInt8.toNat_ofNat']
    exact Nat.mod_add_div v (2 ^ 8)

theorem littleEndian_lt (w : List UInt8) : littleEndian w < 2 ^ (8 * w.length) := by
  induction w with
  | nil => exact Nat.one_pos
  | cons b w ih =>
    have hb := b.toNat_lt
    rw [littleEndian, List.length_cons, Nat.mul_succ, pow_add]
    omega

theorem littleBytes_littleEndian (w : List UInt8) : littleBytes w.length (littleEndian w) = w := by
  induction w with
  | nil => rfl
  | cons b w ih =>
    have hrest : (b.toNat + 2 ^ 8 * littleEndian w) / 2 ^ 8 = littleEndian w := by
      have hb := b.toNat_lt
      omega
    have hfirst : UInt8.ofNat (b.toNat + 2 ^ 8 * littleEndian w) = b := by
      rw [← UInt8.toNat_inj, UInt8.toNat_ofNat', Nat.add_mul_mod_self_left, Nat.mod_eq_of_lt b.toNat_lt]
    rw [List.length_cons, littleEndian, littleBytes, hfirst, hrest, ih]

/-! ## Reading a field -/

theorem run_taken {n : ℕ} {s : SourceBytes} (h : (s.need n).1 = true) :
    (taken n).run s = (some ((s.bytes.drop s.pos).take n), { s with pos := s.pos + n }) := by
  obtain ⟨-, -, ht⟩ := SourceBytes.need_eq_true h
  have hstep : s.need n = (true, s) := Prod.ext h ht
  rw [taken]
  simp only [hstep]

theorem bad_taken {n : ℕ} {s : SourceBytes} (h : (s.need n).1 = false) : Failing.bad ((taken n).run s).2 = true := by
  rcases hstep : s.need n with ⟨ok, t⟩
  have hbad := SourceBytes.bad_need h
  rw [hstep] at h hbad
  obtain rfl : ok = false := h
  simpa [taken, hstep, Failing.bad] using hbad

theorem runs_taken {w : List UInt8} {n : ℕ} (hw : n = w.length) (hne : w ≠ []) : Runs (taken n) w w := by
  subst hw
  intro s more hs hrest
  change s.bytes.drop s.pos = w ++ more at hrest
  have hpos := List.length_pos_of_ne_nil hne
  have hlength : w.length + more.length = s.bytes.length - s.pos := by
    rw [← List.length_append, ← hrest, List.length_drop]
  have hgood : s.bad = false := hs
  have hneed : (s.need w.length).1 = true := by
    rw [SourceBytes.need, hgood, if_neg Bool.false_ne_true, if_neg (by omega)]
  have hrun := run_taken hneed
  rw [hrest, List.take_left] at hrun
  refine ⟨_, hrun, hs, ?_⟩
  simp [Remaining.rest, ← List.drop_drop, hrest]

theorem takes_taken (n : ℕ) : Takes (taken n) fun a w => a = w ∧ w.length = n := by
  intro s hs
  cases hneed : (s.need n).1 with
  | false =>
    rw [bad_taken hneed] at hs
    cases hs
  | true =>
    obtain ⟨hgood, hlength, -⟩ := SourceBytes.need_eq_true hneed
    rw [run_taken hneed]
    refine ⟨hgood, _, (s.bytes.drop s.pos).take n, rfl, ⟨rfl, ?_⟩, ?_⟩
    · rw [List.length_take, List.length_drop]
      omega
    · exact ((List.drop_drop ..).symm ▸ List.take_append_drop n (s.bytes.drop s.pos)).symm

section Primitives

variable {c : Prop}

theorem reads_taken {w : List UInt8} {n : ℕ} (hw : c → n = w.length) : Reads c (taken n) w (· = w) := by
  refine ⟨(ensures_taken n).sticky, fun hc s more hs hrest => ?_, fun hc s left hs hrest hleft => bad_taken ?_⟩
  · cases hneed : (s.need n).1 with
    | false => exact .inl (bad_taken hneed)
    | true =>
      change s.bytes.drop s.pos = w ++ more at hrest
      obtain rfl := hw hc
      rw [run_taken hneed]
      refine .inr ⟨w, ?_, rfl, ?_⟩
      · simp [hrest]
      · simp [Remaining.rest, ← List.drop_drop, hrest]
  · by_contra hneed
    obtain ⟨-, hlength, -⟩ := SourceBytes.need_eq_true (by simpa using hneed)
    have hcount : w.length = (s.bytes.drop s.pos).length + left.length := by
      rw [hrest, List.length_append]
      rfl
    have hpos := List.length_pos_of_ne_nil hleft
    have hlength' := hw hc
    rw [List.length_drop] at hcount
    omega

theorem reads_little {size v : ℕ} (h : v < 2 ^ (8 * size)) : Reads c (little size) (littleBytes size v) (· = v) :=
  (reads_taken fun _ => (length_littleBytes size v).symm).map _ fun _ hw => hw ▸ littleEndian_littleBytes h

theorem reads_u8 (v : UInt8) : Reads c u8 (writeU8 v) (· = v) :=
  (reads_little v.toNat_lt).map _ fun _ hn => hn ▸ UInt8.ofNat_toNat

theorem reads_u16 (v : UInt16) : Reads c u16 (writeU16 v) (· = v) :=
  (reads_little v.toNat_lt).map _ fun _ hn => hn ▸ UInt16.ofNat_toNat

theorem reads_u32 (v : UInt32) : Reads c u32 (writeU32 v) (· = v) :=
  (reads_little v.toNat_lt).map _ fun _ hn => hn ▸ UInt32.ofNat_toNat

theorem reads_u64 (v : UInt64) : Reads c u64 (writeU64 v) (· = v) :=
  (reads_little v.toNat_lt).map _ fun _ hn => hn ▸ UInt64.ofNat_toNat

theorem reads_count {n : ℕ} (h : n < 2 ^ 32) : Reads c u32 (writeCount n) (·.toNat = n) :=
  (reads_u32 _).mono (fun hc => hc) fun v hv => by rw [hv, UInt32.toNat_ofNat', Nat.mod_eq_of_lt h]

theorem reads_text {s : Text} (h : s.length < 2 ^ 32) : Reads c text (writeText s) fun _ => True :=
  (reads_count h).bind fun _ => (reads_taken And.right).mono (fun hc => hc) fun _ _ => trivial

theorem reads_needs (n : ℕ) : Reads c (needs n) ([] : List UInt8) (· = true) := by
  refine ⟨(ensures_needs n).sticky, fun _ s more hs hrest => ?_,
    fun _ s left hs hrest hleft => absurd (List.append_eq_nil_iff.mp hrest.symm).2 hleft⟩
  cases hok : (s.need n).1 with
  | false => exact .inl (SourceBytes.bad_need hok)
  | true =>
    obtain ⟨-, -, ht⟩ := SourceBytes.need_eq_true hok
    exact .inr ⟨true, congrArg some hok, rfl, by rw [needs, ht]; exact hrest⟩

theorem reads_refuse {α : Type} {Q : α → Prop} (reason : String) (w : List UInt8) : Reads c (refuse reason) w Q :=
  .of_bad fun s => SourceBytes.bad_fail s reason

end Primitives

/-! ## The tables of the program -/

section Tables

variable {c : Prop} {γ α : Type} {write : γ → List UInt8} {item : ℕ → Reader α} {items : List γ}

theorem reads_counted {n : ℕ} (size : ℕ) (reason : String) (hn : c → n = items.length)
    (hitem : ∀ c i, ∀ x ∈ items, Reads c (item i) (write x) fun _ => True) :
    Reads c (do
      if (← needs size) then
        Scan.forEach item 0 n
      else
        failWith reason
        return []) (items.flatMap write) fun _ => True := by
  refine Reads.nil_bind (reads_needs _) fun ok => .ite ?_ ?_
  · exact Reads.forEach (fun hc => hn hc.1.1) (hitem _) 0
  · exact .of_bad fun s => SourceBytes.bad_fail s reason

/-- A list of texts with a 32-bit count and 32-bit lengths. -/
def TextsFit (texts : List Text) : Prop := texts.length < 2 ^ 32 ∧ ∀ s ∈ texts, s.length < 2 ^ 32

theorem reads_pool {pool : List Text} (h : TextsFit pool) (what : String) :
    Reads c (readPool what) (writeList writeText pool) fun _ => True :=
  (reads_count h.1).bind fun _ => reads_counted _ _ And.right fun _ _ s hs => reads_text (h.2 s hs)

theorem reads_list {texts : List Text} (h : TextsFit texts) (what : String) :
    Reads c (readList what) (writeList writeText texts) fun _ => True :=
  (reads_count h.1).bind fun _ => reads_counted _ _ And.right fun _ _ s hs => reads_text (h.2 s hs)

/-- Re-exports with a 32-bit count and 32-bit lengths. -/
def ReexportsFit (reexports : List Reexport) : Prop :=
  reexports.length < 2 ^ 32 ∧ ∀ r ∈ reexports,
    r.exported.length < 2 ^ 32 ∧ r.source.length < 2 ^ 32 ∧ r.origin.length < 2 ^ 32

theorem reads_reexports {reexports : List Reexport} (h : ReexportsFit reexports) :
    Reads c readReexports (writeList writeReexport reexports) fun _ => True :=
  (reads_count h.1).bind fun _ => reads_counted _ _ And.right fun _ _ r hr =>
    (reads_text (h.2 r hr).1).bind fun _ => (reads_text (h.2 r hr).2.1).bind fun _ =>
      (reads_text (h.2 r hr).2.2).bind_nil fun _ => .pure fun _ => trivial

end Tables

/-- What an option keeps of a function's source. -/
abbrev kept {α : Type} (option : ImageOption) (l : List α) : List α := if option = .keepSource then l else []

/-- The texts and tables of a function have 32-bit counts. -/
structure FunctionFits (option : ImageOption) (fn : FunctionProto) : Prop where
  module : fn.module.length < 2 ^ 32
  name : fn.name.length < 2 ^ 32
  inferredName : fn.inferredName.length < 2 ^ 32
  code : fn.code.length < 2 ^ 32
  constants : fn.constants.length < 2 ^ 32
  strings : fn.strings.length < 2 ^ 32
  names : fn.names.length < 2 ^ 32
  upvalues : fn.upvalues.length < 2 ^ 32
  locals : fn.locals.length < 2 ^ 32
  codeOffsets : (kept option fn.codeOffsets).length < 2 ^ 32
  rethrows : (kept option fn.rethrows).length < 2 ^ 32

/-- Every text and table of a program has a 32-bit count. -/
structure CountsFit (option : ImageOption) (program : Program) : Prop where
  names : TextsFit (internNames program.functions)
  strings : TextsFit (internStrings program.functions)
  imports : TextsFit program.imports
  exports : TextsFit program.exports
  reexports : ReexportsFit program.reexports
  hoistedVars : TextsFit program.hoistedVars
  lexicalNames : TextsFit program.lexicalNames
  functionNames : TextsFit program.functionNames
  annexBNames : TextsFit program.annexBNames
  source : (kept option program.source).length < 2 ^ 32
  functions : ∀ fn ∈ program.functions, FunctionFits option fn

/-! ## The prefix -/

section Prefix

theorem length_pos_littleBytes {size : ℕ} (h : 0 < size) (v : ℕ) : littleBytes size v ≠ [] := by
  refine List.ne_nil_of_length_pos ?_
  rwa [length_littleBytes]

theorem runs_little {size v : ℕ} (hsize : 0 < size) (h : v < 2 ^ (8 * size)) :
    Runs (little size) (littleBytes size v) v := by
  have hrun := (runs_taken (length_littleBytes size v).symm (length_pos_littleBytes hsize v)).map littleEndian
  rwa [littleEndian_littleBytes h] at hrun

theorem runs_u8 (v : UInt8) : Runs u8 (writeU8 v) v := by
  have hrun := (@runs_little 1 _ Nat.one_pos v.toNat_lt).map UInt8.ofNat
  rwa [UInt8.ofNat_toNat] at hrun

theorem runs_u32 (v : UInt32) : Runs u32 (writeU32 v) v := by
  have hrun := (@runs_little 4 _ (by norm_num) v.toNat_lt).map UInt32.ofNat
  rwa [UInt32.ofNat_toNat] at hrun

theorem runs_u64 (v : UInt64) : Runs u64 (writeU64 v) v := by
  have hrun := (@runs_little 8 _ (by norm_num) v.toNat_lt).map UInt64.ofNat
  rwa [UInt64.ofNat_toNat] at hrun

theorem takes_little (size : ℕ) : Takes (little size) fun v w => v < 2 ^ (8 * size) ∧ w = littleBytes size v := by
  refine (takes_taken size).map _ fun a w h => ?_
  obtain ⟨rfl, rfl⟩ := h
  exact ⟨littleEndian_lt a, (littleBytes_littleEndian a).symm⟩

theorem takes_u8 : Takes u8 fun v w => w = writeU8 v := by
  refine (takes_little 1).map _ fun n w h => ?_
  rw [h.2, writeU8, UInt8.toNat_ofNat', Nat.mod_eq_of_lt h.1]

theorem takes_u32 : Takes u32 fun v w => w = writeU32 v := by
  refine (takes_little 4).map _ fun n w h => ?_
  rw [h.2, writeU32, UInt32.toNat_ofNat', Nat.mod_eq_of_lt h.1]

theorem takes_u64 : Takes u64 fun v w => w = writeU64 v := by
  refine (takes_little 8).map _ fun n w h => ?_
  rw [h.2, writeU64, UInt64.toNat_ofNat', Nat.mod_eq_of_lt h.1]

theorem runs_prefix (fingerprint : UInt64) (head : Prefix) :
    Runs (readPrefix fingerprint) (writePrefix fingerprint head.sourceHash head.option head.kind) (.ok head) := by
  refine (runs_u32 _).bind ?_
  rw [if_neg (by decide)]
  refine (runs_u32 _).bind ?_
  rw [if_neg (by decide)]
  refine (runs_u64 _).bind ?_
  rw [if_neg (not_not_intro rfl)]
  refine (runs_u32 _).bind ?_
  rw [if_neg (by cases head.option <;> decide)]
  refine (runs_u8 _).bind ?_
  rw [if_neg (by cases head.kind <;> decide)]
  refine List.append_nil (writeU64 head.sourceHash) ▸ (runs_u64 _).bind fun s more hs hrest => ⟨s, ?_, hs, hrest⟩
  have hgood : s.bad = false := hs
  obtain ⟨option, kind, sourceHash⟩ := head
  cases option <;> cases kind <;> simp [hgood, optionWord, kindByte]

/-- A prefix that is accepted is one that is written. -/
theorem takes_prefix (fingerprint : UInt64) : Takes (readPrefix fingerprint) fun r w =>
    ∀ head, r = .ok head → w = writePrefix fingerprint head.sourceHash head.option head.kind := by
  refine takes_u32.bind fun magic' => .ite (fun _ => .pure nofun) fun hmagic => ?_
  refine takes_u32.bind fun version => .ite (fun _ => .pure nofun) fun hversion => ?_
  refine takes_u64.bind fun fingerprint' => .ite (fun _ => .pure nofun) fun hfingerprint => ?_
  refine takes_u32.bind fun option => .ite (fun _ => .pure nofun) fun hoption => ?_
  refine takes_u8.bind fun kind => .ite (fun _ => .pure nofun) fun hkind => ?_
  refine takes_u64.bind fun sourceHash s hs => ?_
  have hgood : s.bad = false := by
    cases hbad : s.bad with
    | false => rfl
    | true => simp [hbad, Failing.bad] at hs
  simp only [hgood]
  refine ⟨hgood, _, [], rfl, ?_, rfl⟩
  rintro w₆ rfl w₅ rfl w₄ rfl w₃ rfl w₂ rfl w₁ rfl head heq
  obtain rfl := Except.ok.inj heq
  have hmagic' : magic' = UInt32.ofNat magic := by
    rw [← of_not_not hmagic, UInt32.ofNat_toNat]
  have hversion' : version = UInt32.ofNat formatVersion := by
    rw [← of_not_not hversion, UInt32.ofNat_toNat]
  have hoption' : option = optionWord (if option.toNat = 0 then .keepSource else .dropSource) := by
    rw [← UInt32.toNat_inj]
    split_ifs with hzero
    · exact hzero
    · have hone : (optionWord .dropSource).toNat = 1 := rfl
      omega
  have hkind' : kind = kindByte (if kind.toNat = 0 then .classic else .module_) := by
    rw [← UInt8.toNat_inj]
    split_ifs with hzero
    · exact hzero
    · have hone : (kindByte .module_).toNat = 1 := rfl
      omega
  rw [writePrefix, ← hoption', ← hkind', hmagic', hversion', of_not_not hfingerprint, List.append_nil]

/-- Only a prefix whose reads all succeeded is accepted. -/
def OkIsGood (p : Reader (Except String Prefix)) : Prop := ∀ s head t, p.run s = (some (.ok head), t) → t.bad = false

theorem OkIsGood.bind {α : Type} {p : Reader α} {f : α → Reader (Except String Prefix)} (hf : ∀ a, OkIsGood (f a)) :
    OkIsGood (p >>= f) := by
  intro s head t h
  rw [run_bind] at h
  rcases hstep : p.run s with ⟨_ | a, u⟩ <;> rw [hstep] at h
  · cases h
  · exact hf a u head t h

theorem OkIsGood.ite {b : Prop} [Decidable b] {why : String} {p : Reader (Except String Prefix)} (hp : OkIsGood p) :
    OkIsGood (if b then pure (.error why) else p) := by
  split_ifs
  · intro s head t h
    cases h
  · exact hp

theorem okIsGood_readPrefix (fingerprint : UInt64) : OkIsGood (readPrefix fingerprint) := by
  refine .bind fun _ => .ite (.bind fun _ => .ite (.bind fun _ => .ite (.bind fun _ => .ite (.bind fun _ => .ite
    (.bind fun sourceHash s head t h => ?_)))))
  cases hbad : s.bad with
  | true => simp [hbad] at h
  | false =>
    simp only [hbad] at h
    rw [← (Prod.mk.inj h).2]
    exact hbad

/-- The header of an image is that of the prefix that it begins with. -/
theorem readImageHeader_iff {fingerprint : UInt64} {bytes : List UInt8} {head : Prefix} :
    readImageHeader fingerprint bytes = some head ↔
      ∃ more, bytes = writePrefix fingerprint head.sourceHash head.option head.kind ++ more := by
  constructor
  · intro h
    rw [readImageHeader] at h
    rcases hrun : (readPrefix fingerprint).run { bytes } with ⟨_ | _ | head', t⟩ <;> rw [hrun] at h
    · cases h
    · cases h
    · obtain rfl := Option.some.inj h
      have hgood : t.bad = false := okIsGood_readPrefix _ _ _ _ hrun
      obtain ⟨-, r, w, hr, hw, hrest⟩ := takes_prefix fingerprint { bytes } (by rw [hrun]; exact hgood)
      rw [hrun] at hr hrest
      obtain rfl := hw head' (Option.some.inj hr).symm
      exact ⟨_, hrest⟩
  · rintro ⟨more, rfl⟩
    obtain ⟨t, hrun, -⟩ := runs_prefix fingerprint head
      { bytes := writePrefix fingerprint head.sourceHash head.option head.kind ++ more } more rfl rfl
    rw [readImageHeader, hrun]

end Prefix

section Functions

variable {c : Prop}

theorem reads_openingEnd (head : Prefix) :
    Reads c (⟨fun s => if s.bad then (some (.error s.why), s) else (some (.ok head), s)⟩ :
      Reader (Except String Prefix)) ([] : List UInt8) fun _ => True := by
  refine ⟨fun s hs => ?_, fun _ s more hs hrest => .inr ?_, fun _ s left _ hrest hleft => ?_⟩
  · dsimp only
    split_ifs <;> exact hs
  · have hgood : s.bad = false := hs
    exact ⟨.ok head, by simp [hgood], trivial, by simpa [hgood] using hrest⟩
  · exact absurd (List.append_eq_nil_iff.mp hrest.symm).2 hleft

theorem reads_opening (fingerprint sourceHash : UInt64) (option : ImageOption) (kind : ScriptKind) :
    Reads c (readPrefix fingerprint) (writePrefix fingerprint sourceHash option kind) fun _ => True := by
  refine (reads_u32 _).bind fun magic' => .ite (.of_not .pure ?_) ?_
  · rintro ⟨⟨-, rfl⟩, hne⟩
    exact hne rfl
  refine (reads_u32 _).bind fun version => .ite (.of_not .pure ?_) ?_
  · rintro ⟨⟨-, rfl⟩, hne⟩
    exact hne rfl
  refine (reads_u64 _).bind fun fingerprint' => .ite (.of_not .pure ?_) ?_
  · rintro ⟨⟨-, rfl⟩, hne⟩
    exact hne rfl
  refine (reads_u32 _).bind fun option' => .ite (.of_not .pure ?_) ?_
  · rintro ⟨⟨-, rfl⟩, hlarge⟩
    cases option <;> exact absurd hlarge (by decide)
  refine (reads_u8 _).bind fun kindByte' => .ite (.of_not .pure ?_) ?_
  · rintro ⟨⟨-, rfl⟩, hlarge⟩
    cases kind <;> exact absurd hlarge (by decide)
  exact (reads_u64 _).bind_nil fun sourceHash' => reads_openingEnd _

theorem reads_tables {option : ImageOption} {program : Program} (h : CountsFit option program)
    (hcount : program.functions.length < 2 ^ 32) (kind : ScriptKind) :
    Reads c (readTables kind) (writeTables option program) (·.functionCount = program.functions.length) :=
  (reads_pool h.names _).bind fun _ => (reads_pool h.strings _).bind fun _ => (reads_list h.imports _).bind fun _ =>
  (reads_list h.exports _).bind fun _ => (reads_reexports h.reexports).bind fun _ =>
  (reads_list h.hoistedVars _).bind fun _ => (reads_list h.lexicalNames _).bind fun _ =>
  (reads_list h.functionNames _).bind fun _ => (reads_list h.annexBNames _).bind fun _ =>
  (reads_text h.source).bind fun _ => (reads_count hcount).bind_nil fun _ => .pure And.right

/-! ## Functions -/

variable {γ α : Type} {write : γ → List UInt8} {item : ℕ → Reader α} {items : List γ}

theorem reads_table {n : ℕ} (size fi : ℕ) (reason : String) (hn : c → n = items.length)
    (hitem : ∀ c i, ∀ x ∈ items, Reads c (item i) (write x) fun _ => True) :
    Reads c (do
      if (← needs size) then
        let xs ← Scan.forEach item 0 n
        Scan.stopIfBad
        return xs
      else
        refuseIn fi reason) (items.flatMap write) fun _ => True := by
  refine Reads.nil_bind (reads_needs _) fun ok => .ite ?_ (reads_refuse _ _)
  exact (Reads.forEach (fun hc => hn hc.1.1) (hitem _) 0).bind_nil fun _ => Reads.stopIfBad.nil_bind fun _ =>
    .pure fun _ => trivial

theorem reads_header (fi : ℕ) {option : ImageOption} {fn : FunctionProto} (h : FunctionFits option fn) :
    Reads c (readHeader fi) (writeHeader fn) fun _ => True := by
  refine (reads_text h.module).bind fun _ => (reads_text h.name).bind fun _ => (reads_text h.inferredName).bind fun _ =>
    (reads_u16 _).bind fun _ => (reads_u16 _).bind fun _ => (reads_u16 _).bind fun _ => (reads_u8 _).bind fun _ =>
    (reads_u8 _).bind fun _ => ?_
  exact .ite (reads_refuse _ _) ((reads_u32 _).bind fun _ => (reads_u32 _).bind_nil fun _ =>
    .ite (reads_refuse _ _) (.pure fun _ => trivial))

theorem reads_instruction (fi : ℕ) (one : Instruction) :
    Reads c (readInstruction fi) (writeInstruction one) fun _ => True := by
  refine (reads_u8 _).bind fun raw => ?_
  split
  · exact reads_refuse _ _
  · exact (reads_u16 _).bind fun _ => (reads_u16 _).bind fun _ => (reads_u16 _).bind_nil fun _ => .pure fun _ => trivial

theorem reads_code (fi : ℕ) {code : List Instruction} (h : code.length < 2 ^ 32) :
    Reads c (readCode fi) (writeList writeInstruction code) fun _ => True := by
  refine (reads_count h).bind fun n => Reads.nil_bind (reads_needs _) fun ok => .ite ?_ (reads_refuse _ _)
  refine .ite (reads_refuse _ _) ?_
  exact (Reads.forEach (fun hc => hc.1.1.1.2) (fun _ one _ => reads_instruction fi one) 0).bind_nil fun _ =>
    Reads.stopIfBad.nil_bind fun _ => .pure fun _ => trivial

theorem reads_constants (fi : ℕ) {constants : List Value} (h : constants.length < 2 ^ 32) :
    Reads c (readConstants fi) (writeList (fun v => writeU64 v.bits) constants) fun _ => True := by
  refine (reads_count h).bind fun n => reads_table _ _ _ And.right fun _ i v _ => (reads_u64 _).bind_nil fun bits => ?_
  split
  · exact reads_refuse _ _
  · exact .pure fun _ => trivial

theorem reads_indices (fi : ℕ) (pool pool' : List Text) (what : String) {texts : List Text}
    (h : texts.length < 2 ^ 32) :
    Reads c (readIndices fi pool what) (writeList (fun s => writeU32 (poolIndex pool' s)) texts) fun _ => True := by
  refine (reads_count h).bind fun n => reads_table _ _ _ And.right fun _ i s _ => (reads_u32 _).bind_nil fun id => ?_
  split
  · exact reads_refuse _ _
  · exact .pure fun _ => trivial

theorem reads_upvalues (fi : ℕ) {upvalues : List UpvalueDesc} (h : upvalues.length < 2 ^ 32) :
    Reads c (readUpvalues fi) (writeList writeUpvalue upvalues) fun _ => True :=
  (reads_count h).bind fun _ => reads_table _ _ _ And.right fun _ _ _ _ => (reads_u8 _).bind fun _ =>
    .ite (reads_refuse _ _) ((reads_u16 _).bind_nil fun _ => .pure fun _ => trivial)

theorem reads_locals (fi : ℕ) (names names' : List Text) (frameSize codeSize : ℕ) {locals : List LocalDesc}
    (h : locals.length < 2 ^ 32) :
    Reads c (readLocals fi names frameSize codeSize) (writeList (writeLocal names') locals) fun _ => True := by
  refine (reads_count h).bind fun n => reads_table _ _ _ And.right fun _ i d _ => (reads_u32 _).bind fun id => ?_
  split
  · exact reads_refuse _ _
  · exact (reads_u16 _).bind fun _ => (reads_u32 _).bind fun _ => (reads_u32 _).bind fun _ =>
      (reads_u8 _).bind_nil fun _ => .ite (reads_refuse _ _) (.ite (reads_refuse _ _) (.ite (reads_refuse _ _)
        (.pure fun _ => trivial)))

theorem reads_offsets (fi codeSize : ℕ) {offsets : List UInt32} (h : offsets.length < 2 ^ 32) :
    Reads c (readOffsets fi codeSize) (writeList writeU32 offsets) fun _ => True := by
  refine (reads_count h).bind fun n => .ite (reads_refuse _ _) ?_
  refine Reads.nil_bind (reads_needs _) fun ok => .ite ?_ (reads_refuse _ _)
  exact Reads.forEach (fun hc => hc.1.1.1.2) (fun _ v _ => (reads_u32 v).mono (fun hc => hc) fun _ _ => trivial) 0

theorem reads_rethrows (fi : ℕ) {rethrows : List UInt32} (h : rethrows.length < 2 ^ 32) :
    Reads c (readRethrows fi) (writeList writeU32 rethrows) fun _ => True :=
  (reads_count h).bind fun _ => reads_table _ _ _ And.right fun _ _ v _ =>
    (reads_u32 v).mono (fun hc => hc) fun _ _ => trivial

theorem reads_function (names strings names' strings' : List Text) (fi : ℕ) {option : ImageOption} {fn : FunctionProto}
    (h : FunctionFits option fn) :
    Reads c (readFunction names strings fi) (writeFunction option names' strings' fn) fun _ => True :=
  (reads_header fi h).bind fun _ => (reads_code fi h.code).bind fun _ => (reads_constants fi h.constants).bind fun _ =>
  (reads_indices fi _ _ _ h.strings).bind fun _ => (reads_indices fi _ _ _ h.names).bind fun _ =>
  (reads_upvalues fi h.upvalues).bind fun _ => (reads_locals fi _ _ _ _ h.locals).bind fun _ =>
  (reads_offsets fi _ h.codeOffsets).bind fun _ => (reads_rethrows fi h.rethrows).bind_nil fun _ =>
    .pure fun _ => trivial

end Functions

end CtBrowser.Script.ProgramImage
