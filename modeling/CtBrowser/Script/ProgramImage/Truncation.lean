import CtBrowser.Script.ProgramImage.WrittenParts

/-!
# Images That Were Cut Short

The header reader and the loader agree on every byte string, the cursor stays inside it, and every
beginning of an image is refused if all texts and tables of its program have 32-bit counts. A text of
2^32 bytes has the length of an empty one, and its image may begin with that of another program.

## Main definitions

- `HeaderAgrees` — what the header reader and the loader have in common.
- `StaysInside` — the cursor is inside the bytes behind every part.

## Main results

- `images_refused` — every beginning of an image is refused.
- `image_accepted_short` — but not with a string of 2^32 bytes.
-/

namespace CtBrowser.Script.ProgramImage

open Foundations Foundations.Scan

/-! ## The cursor -/

/-- The cursor is inside the bytes of an image. -/
def Inside (bytes : List UInt8) (s : SourceBytes) : Prop := s.bytes = bytes ∧ s.pos ≤ bytes.length

section Inside

variable {bytes : List UInt8}

theorem Inside.fail {s : SourceBytes} (h : Inside bytes s) (reason : String) : Inside bytes (s.fail reason) := by
  rw [SourceBytes.fail]
  split_ifs
  · exact h
  · exact h

theorem Inside.need {s : SourceBytes} (h : Inside bytes s) (n : ℕ) : Inside bytes (s.need n).2 := by
  rw [SourceBytes.need]
  split_ifs
  · exact h
  · exact h.fail _
  · exact h

theorem inside_needs (n : ℕ) : Keeps (Inside bytes) (needs n) := fun _ h => h.need n

theorem inside_failWith (reason : String) : Keeps (Inside bytes) (failWith reason) := fun _ h => h.fail reason

theorem inside_refuse {α : Type} (reason : String) : Keeps (Inside bytes) (refuse reason : Reader α) :=
  fun _ h => h.fail reason

theorem inside_taken (n : ℕ) : Keeps (Inside bytes) (taken n) := by
  intro s h
  cases hneed : (s.need n).1 with
  | false =>
    have hinside := h.need n
    rcases hstep : s.need n with ⟨ok, t⟩
    rw [hstep] at hneed hinside
    obtain rfl : ok = false := hneed
    simpa [taken, hstep] using hinside
  | true =>
    obtain ⟨-, hlength, -⟩ := SourceBytes.need_eq_true hneed
    rw [run_taken hneed]
    exact ⟨h.1, h.1 ▸ hlength⟩

theorem inside_little (size : ℕ) : Keeps (Inside bytes) (little size) := (inside_taken size).map _

theorem inside_u8 : Keeps (Inside bytes) u8 := (inside_little 1).map _

theorem inside_u16 : Keeps (Inside bytes) u16 := (inside_little 2).map _

theorem inside_u32 : Keeps (Inside bytes) u32 := (inside_little 4).map _

theorem inside_u64 : Keeps (Inside bytes) u64 := (inside_little 8).map _

theorem inside_text : Keeps (Inside bytes) text := inside_u32.bind fun n => inside_taken n.toNat

theorem inside_prefix (fingerprint : UInt64) : Keeps (Inside bytes) (readPrefix fingerprint) := by
  refine inside_u32.bind fun _ => .ite .pure (inside_u32.bind fun _ => .ite .pure (inside_u64.bind fun _ => .ite .pure
    (inside_u32.bind fun _ => .ite .pure (inside_u8.bind fun _ => .ite .pure (inside_u64.bind fun _ s h => ?_)))))
  dsimp only
  split_ifs <;> exact h

theorem inside_counted {α : Type} {item : ℕ → Reader α} (hitem : ∀ i, Keeps (Inside bytes) (item i)) (n size : ℕ)
    (reason : String) : Keeps (Inside bytes) (do
      if (← needs size) then
        Scan.forEach item 0 n
      else
        failWith reason
        return []) :=
  (inside_needs _).bind fun _ => .ite (.forEach hitem _ _) ((inside_failWith _).bind fun _ => .pure)

theorem inside_pool (what : String) : Keeps (Inside bytes) (readPool what) :=
  inside_u32.bind fun _ => inside_counted (fun _ => inside_text) _ _ _

theorem inside_list (what : String) : Keeps (Inside bytes) (readList what) :=
  inside_u32.bind fun _ => inside_counted (fun _ => inside_text) _ _ _

theorem inside_reexports : Keeps (Inside bytes) readReexports :=
  inside_u32.bind fun _ => inside_counted (fun _ => inside_text.bind fun _ => inside_text.bind fun _ =>
    inside_text.bind fun _ => .pure) _ _ _

theorem inside_tables (kind : ScriptKind) : Keeps (Inside bytes) (readTables kind) :=
  (inside_pool _).bind fun _ => (inside_pool _).bind fun _ => (inside_list _).bind fun _ =>
  (inside_list _).bind fun _ => inside_reexports.bind fun _ => (inside_list _).bind fun _ =>
  (inside_list _).bind fun _ => (inside_list _).bind fun _ => (inside_list _).bind fun _ =>
  inside_text.bind fun _ => inside_u32.bind fun _ => .pure

theorem inside_table {α : Type} {item : ℕ → Reader α} (hitem : ∀ i, Keeps (Inside bytes) (item i)) (n size fi : ℕ)
    (reason : String) : Keeps (Inside bytes) (do
      if (← needs size) then
        let xs ← Scan.forEach item 0 n
        Scan.stopIfBad
        return xs
      else
        refuseIn fi reason) :=
  (inside_needs _).bind fun _ => .ite ((Keeps.forEach hitem _ _).bind fun _ => Keeps.stopIfBad.bind fun _ => .pure)
    (inside_refuse _)

theorem inside_header (fi : ℕ) : Keeps (Inside bytes) (readHeader fi) := by
  refine inside_text.bind fun _ => inside_text.bind fun _ => inside_text.bind fun _ => inside_u16.bind fun _ =>
    inside_u16.bind fun _ => inside_u16.bind fun _ => inside_u8.bind fun _ => inside_u8.bind fun _ => ?_
  exact .ite (inside_refuse _) (inside_u32.bind fun _ => inside_u32.bind fun _ => .ite (inside_refuse _) .pure)

theorem inside_instruction (fi : ℕ) : Keeps (Inside bytes) (readInstruction fi) := by
  refine inside_u8.bind fun raw => ?_
  split
  · exact inside_refuse _
  · exact inside_u16.bind fun _ => inside_u16.bind fun _ => inside_u16.bind fun _ => .pure

theorem inside_code (fi : ℕ) : Keeps (Inside bytes) (readCode fi) :=
  inside_u32.bind fun _ => (inside_needs _).bind fun _ => .ite (.ite (inside_refuse _)
    ((Keeps.forEach (fun _ => inside_instruction fi) _ _).bind fun _ => Keeps.stopIfBad.bind fun _ => .pure))
    (inside_refuse _)

theorem inside_constants (fi : ℕ) : Keeps (Inside bytes) (readConstants fi) := by
  refine inside_u32.bind fun _ => inside_table (fun i => inside_u64.bind fun bits => ?_) _ _ _ _
  split
  · exact inside_refuse _
  · exact .pure

theorem inside_indices (fi : ℕ) (pool : List Text) (what : String) :
    Keeps (Inside bytes) (readIndices fi pool what) := by
  refine inside_u32.bind fun _ => inside_table (fun i => inside_u32.bind fun id => ?_) _ _ _ _
  split
  · exact inside_refuse _
  · exact .pure

theorem inside_upvalues (fi : ℕ) : Keeps (Inside bytes) (readUpvalues fi) :=
  inside_u32.bind fun _ => inside_table (fun _ => inside_u8.bind fun _ => .ite (inside_refuse _)
    (inside_u16.bind fun _ => .pure)) _ _ _ _

theorem inside_locals (fi : ℕ) (names : List Text) (frameSize codeSize : ℕ) :
    Keeps (Inside bytes) (readLocals fi names frameSize codeSize) := by
  refine inside_u32.bind fun _ => inside_table (fun i => inside_u32.bind fun id => ?_) _ _ _ _
  split
  · exact inside_refuse _
  · exact inside_u16.bind fun _ => inside_u32.bind fun _ => inside_u32.bind fun _ => inside_u8.bind fun _ =>
      .ite (inside_refuse _) (.ite (inside_refuse _) (.ite (inside_refuse _) .pure))

theorem inside_offsets (fi codeSize : ℕ) : Keeps (Inside bytes) (readOffsets fi codeSize) :=
  inside_u32.bind fun _ => .ite (inside_refuse _) ((inside_needs _).bind fun _ =>
    .ite (.forEach (fun _ => inside_u32) _ _) (inside_refuse _))

theorem inside_function (names strings : List Text) (fi : ℕ) :
    Keeps (Inside bytes) (readFunction names strings fi) :=
  (inside_header fi).bind fun _ => (inside_code fi).bind fun _ => (inside_constants fi).bind fun _ =>
  (inside_indices fi _ _).bind fun _ => (inside_indices fi _ _).bind fun _ => (inside_upvalues fi).bind fun _ =>
  (inside_locals fi _ _ _).bind fun _ => (inside_offsets fi _).bind fun _ =>
  (inside_u32.bind fun _ => inside_table (fun _ => inside_u32) _ _ _ _).bind fun _ => .pure

end Inside

/-! ## Images -/

/-- The header reader accepts the prefixes that are written and no others; the loader uses their kind and hash,
and accepts no image whose header is not accepted. -/
structure HeaderAgrees (fingerprint : UInt64) (bytes : List UInt8) : Prop where
  accepted : ∀ head, readImageHeader fingerprint bytes = some head ↔
    ∃ more, bytes = writePrefix fingerprint head.sourceHash head.option head.kind ++ more
  kind : ∀ head expectSourceHash expectKind, readImageHeader fingerprint bytes = some head →
    (loadImage fingerprint bytes expectSourceHash expectKind).kind = head.kind
  sourceHash : ∀ head expectSourceHash, readImageHeader fingerprint bytes = some head →
    (loadImage fingerprint bytes expectSourceHash head.kind).sourceHash = head.sourceHash
  refused : ∀ expectSourceHash expectKind, readImageHeader fingerprint bytes = none →
    (loadImage fingerprint bytes expectSourceHash expectKind).ok = false

theorem loadFunctions_kind (tables : Tables) (s : SourceBytes) (out : LoadResult) :
    (loadFunctions tables s out).kind = out.kind ∧ (loadFunctions tables s out).sourceHash = out.sourceHash := by
  rw [loadFunctions]
  split_ifs
  · exact ⟨rfl, rfl⟩
  · exact ⟨rfl, rfl⟩
  · exact ⟨rfl, rfl⟩
  · split
    · split_ifs
      · exact ⟨rfl, rfl⟩
      · split <;> exact ⟨rfl, rfl⟩
    · exact ⟨rfl, rfl⟩

theorem exists_run_of_header {fingerprint : UInt64} {bytes : List UInt8} {head : Prefix}
    (h : readImageHeader fingerprint bytes = some head) :
    ∃ s, (readPrefix fingerprint).run { bytes } = (some (.ok head), s) := by
  rw [readImageHeader] at h
  rcases hrun : (readPrefix fingerprint).run { bytes } with ⟨_ | _ | head', s⟩ <;> rw [hrun] at h
  · cases h
  · cases h
  · obtain rfl := Option.some.inj h
    exact ⟨s, rfl⟩

theorem headerAgrees (fingerprint : UInt64) (bytes : List UInt8) : HeaderAgrees fingerprint bytes where
  accepted head := readImageHeader_iff
  kind head expectSourceHash expectKind h := by
    obtain ⟨s, hrun⟩ := exists_run_of_header h
    rw [loadImage, hrun]
    dsimp only
    split_ifs
    · rfl
    · rfl
    · rfl
    · rcases htables : (readTables head.kind).run s with ⟨_ | tables, t⟩
      · rfl
      · exact (loadFunctions_kind tables t _).1
  sourceHash head expectSourceHash h := by
    obtain ⟨s, hrun⟩ := exists_run_of_header h
    rw [loadImage, hrun]
    dsimp only
    rw [if_neg (not_not_intro rfl)]
    split_ifs
    · rfl
    · rcases htables : (readTables head.kind).run s with ⟨_ | tables, t⟩
      · rfl
      · exact (loadFunctions_kind tables t _).2
  refused expectSourceHash expectKind h := by
    rw [readImageHeader] at h
    rw [loadImage]
    rcases hrun : (readPrefix fingerprint).run { bytes } with ⟨_ | _ | head, s⟩
    · rfl
    · rfl
    · rw [hrun] at h
      cases h

/-- The cursor is inside the bytes behind the prefix, the tables and the functions, whatever they say. -/
def StaysInside (fingerprint : UInt64) (bytes : List UInt8) : Prop :=
  ∀ kind names strings n,
    let head := ((readPrefix fingerprint).run { bytes }).2
    let tables := ((readTables kind).run head).2
    let functions := ((Scan.forEach (readFunction names strings) 0 n).run tables).2
    Inside bytes head ∧ Inside bytes tables ∧ Inside bytes functions

theorem staysInside (fingerprint : UInt64) (bytes : List UInt8) : StaysInside fingerprint bytes := by
  intro kind names strings n head tables functions
  have hhead : Inside bytes head := inside_prefix fingerprint { bytes } ⟨rfl, Nat.zero_le _⟩
  have htables : Inside bytes tables := inside_tables kind head hhead
  exact ⟨hhead, htables, Keeps.forEach (inside_function names strings) 0 n tables htables⟩

theorem eq_of_writeImage {fingerprint : UInt64} {sourceHash : Text → UInt64} {program : Program}
    {compilerError : String} {option : ImageOption} {w : List UInt8}
    (h : writeImage fingerprint sourceHash program compilerError option = .ok w) :
    program.functions.length < 2 ^ 32 ∧
      w = writePrefix fingerprint (sourceHash program.source) option program.kind ++
        (writeTables option program ++ program.functions.flatMap
          (writeFunction option (internNames program.functions) (internStrings program.functions))) := by
  rw [writeImage] at h
  split_ifs at h with hok hempty hcount
  cases hconstants : constantFailure program.functions with
  | some why =>
    rw [hconstants] at h
    cases h
  | none =>
    rw [hconstants] at h
    exact ⟨by omega, (Except.ok.inj h).symm⟩

theorem loadFunctions_cut {option : ImageOption} {names strings : List Text} {functions : List FunctionProto}
    (hfits : ∀ fn ∈ functions, FunctionFits option fn) {tables : Tables} {s : SourceBytes} {out : LoadResult}
    (hout : out.ok = false) (hcount : s.bad = false → tables.functionCount = functions.length)
    {left : List UInt8} (hleft : left ≠ [])
    (hrest : s.bad = false → functions.flatMap (writeFunction option names strings) = Remaining.rest s ++ left) :
    (loadFunctions tables s out).ok = false := by
  rw [loadFunctions]
  split_ifs with hbad hzero hneed
  · exact hout
  · exact hout
  · exact hout
  · have hgood : s.bad = false := Bool.eq_false_of_not_eq_true hbad
    have hcut := (Reads.forEach (c := True) (n := tables.functionCount) (fun _ => hcount hgood) (fun i fn hfn =>
      reads_function tables.names tables.strings names strings i (hfits fn hfn)) 0).cut trivial s left hgood
      (hrest hgood) hleft
    rcases hrun : (Scan.forEach (readFunction tables.names tables.strings) 0 tables.functionCount).run s with
      ⟨_ | xs, t⟩
    · exact hout
    · rw [hrun] at hcut
      have hbad' : t.bad = true := hcut
      dsimp only
      rw [if_pos hbad']
      exact hout

/-- An image that was cut short is refused. -/
theorem loadImage_cut {fingerprint : UInt64} {sourceHash : Text → UInt64} {program : Program} {compilerError : String}
    {option : ImageOption} (h : CountsFit option program) {bytes left : List UInt8}
    (hw : writeImage fingerprint sourceHash program compilerError option = .ok (bytes ++ left)) (hleft : left ≠ [])
    (expectSourceHash : Option UInt64) (expectKind : ScriptKind) :
    (loadImage fingerprint bytes expectSourceHash expectKind).ok = false := by
  obtain ⟨hcount, heq⟩ := eq_of_writeImage hw
  have hhead := (reads_opening fingerprint (sourceHash program.source) option program.kind).advance
    (s := { bytes }) rfl heq.symm
  rw [loadImage]
  rcases hrun : (readPrefix fingerprint).run { bytes } with ⟨_ | _ | head, s⟩
  · rfl
  · rfl
  rw [hrun] at hhead
  dsimp only
  split_ifs
  · rfl
  · rfl
  · rfl
  have hgood : s.bad = false := okIsGood_readPrefix _ _ _ _ hrun
  obtain ⟨-, -, -, hrest⟩ := hhead.resolve_left (by simpa [Failing.bad] using hgood)
  have htables := (reads_tables h hcount head.kind).advance (s := s) hgood hrest
  rcases hrun' : (readTables head.kind).run s with ⟨_ | tables, t⟩
  · rfl
  rw [hrun'] at htables
  have hfunctions : t.bad = false → tables.functionCount = program.functions.length ∧
      program.functions.flatMap (writeFunction option (internNames program.functions)
        (internStrings program.functions)) = Remaining.rest t ++ left := by
    intro ht
    obtain ⟨a, ha, hfunctions, hrest'⟩ := htables.resolve_left (by simpa [Failing.bad] using ht)
    obtain rfl := Option.some.inj ha
    exact ⟨hfunctions, hrest'⟩
  refine loadFunctions_cut h.functions ?_ (fun ht => (hfunctions ht).1) hleft fun ht => (hfunctions ht).2
  rfl

/-- Where every text and table has a 32-bit count, every beginning of an image is refused; the header reader and the
loader agree, and the cursor stays inside the bytes, whatever they are. -/
theorem images_refused {fingerprint : UInt64} {sourceHash : Text → UInt64} {program : Program} {compilerError : String}
    {option : ImageOption} {w : List UInt8} (h : CountsFit option program)
    (hw : writeImage fingerprint sourceHash program compilerError option = .ok w) :
    (∀ n < w.length, ∀ expectSourceHash expectKind,
      (loadImage fingerprint (w.take n) expectSourceHash expectKind).ok = false) ∧
    ∀ bytes, HeaderAgrees fingerprint bytes ∧ StaysInside fingerprint bytes := by
  refine ⟨fun n hn expectSourceHash expectKind => ?_, fun bytes => ⟨headerAgrees _ _, staysInside _ _⟩⟩
  have hleft : w.drop n ≠ [] := fun hnil => absurd (List.drop_eq_nil_iff.mp hnil) (Nat.not_le_of_lt hn)
  exact loadImage_cut h (by rw [hw, List.take_append_drop]) hleft _ _

/-- A program of one function, with one string. -/
def programOf (s : Text) : Program := { functions := [{ code := [{ code := .retUndef }], strings := [s] }] }

/-- What an image of such a program has before its string. -/
def beforeString : List UInt8 := writePrefix 0 0 .keepSource .classic ++ (writeList writeText [] ++ writeCount 1)

/-- What such an image has behind its string. -/
def behindString : List UInt8 :=
  writeList writeText [] ++ (writeList writeText [] ++ (writeList writeReexport [] ++ (writeList writeText [] ++
    (writeList writeText [] ++ (writeList writeText [] ++ (writeList writeText [] ++ (writeText [] ++ (writeCount 1 ++
    writeFunction .keepSource [] [[]] { code := [{ code := .retUndef }], strings := [[]] }))))))))

theorem writeImage_programOf (s : Text) : writeImage 0 (fun _ => 0) (programOf s) "" .keepSource =
    .ok (beforeString ++ (writeText s ++ behindString)) := by
  have hstrings : internStrings (programOf s).functions = [s] := by simp [internStrings, intern, programOf]
  have hindex : poolIndex [s] s = poolIndex [[]] [] := by simp [poolIndex]
  have hfunction : writeFunction .keepSource [] [s] { code := [{ code := .retUndef }], strings := [s] } =
      writeFunction .keepSource [] [[]] { code := [{ code := .retUndef }], strings := [[]] } := by
    simp [writeFunction, writeHeader, writeList, arrowByte, generatorByte, hindex]
  have hlist : writeList writeText [s] = writeCount 1 ++ writeText s := by
    rw [writeList, List.flatMap_singleton, List.length_singleton]
  have htables : writeTables .keepSource (programOf s) = writeList writeText [] ++ (writeCount 1 ++ (writeText s ++
      (writeList writeText [] ++ (writeList writeText [] ++ (writeList writeReexport [] ++ (writeList writeText [] ++
        (writeList writeText [] ++ (writeList writeText [] ++ (writeList writeText [] ++
          (writeText [] ++ writeCount 1)))))))))) := by
    rw [writeTables, hstrings, hlist, List.append_assoc]
    rfl
  have himage : writeImage 0 (fun _ => 0) (programOf s) "" .keepSource =
      .ok (writePrefix 0 0 .keepSource .classic ++ (writeTables .keepSource (programOf s) ++
        (programOf s).functions.flatMap (writeFunction .keepSource [] (internStrings (programOf s).functions)))) := rfl
  rw [himage, hstrings, htables, programOf, List.flatMap_singleton, hfunction, beforeString, behindString]
  simp only [List.append_assoc]

/-- A program with one empty string. -/
theorem images_refused_empty :
    let w := beforeString ++ (writeText [] ++ behindString)
    (∀ n < w.length, ∀ expectSourceHash expectKind, (loadImage 0 (w.take n) expectSourceHash expectKind).ok = false) ∧
      ∀ bytes, HeaderAgrees 0 bytes ∧ StaysInside 0 bytes := by
  have htexts : TextsFit [] := ⟨by norm_num, nofun⟩
  have hstrings : internStrings (programOf []).functions = [[]] := rfl
  have hcounts : CountsFit .keepSource (programOf []) :=
    { names := htexts, strings := by rw [hstrings]; exact ⟨by norm_num, by simp⟩
      imports := htexts, exports := htexts, reexports := ⟨by norm_num [programOf], nofun⟩, hoistedVars := htexts
      lexicalNames := htexts, functionNames := htexts, annexBNames := htexts, source := by norm_num [programOf]
      functions := by
        intro fn hfn
        rw [List.mem_singleton.mp hfn]
        constructor <;> norm_num }
  exact images_refused hcounts (writeImage_programOf [])

/-- A string of 2^32 bytes that begins with the rest of an image. -/
def longString : Text := behindString ++ List.replicate (2 ^ 32 - behindString.length) 0

/-- The image of a program with a string of 2^32 bytes begins with that of a program with an empty one. -/
theorem image_accepted_short : ∃ program w n, writeImage 0 (fun _ => 0) program "" .keepSource = .ok w ∧ n < w.length ∧
    (loadImage 0 (w.take n) none .classic).ok = true := by
  have hfacts : (0 < behindString.length ∧ behindString.length ≤ 2 ^ 32) ∧
      (loadImage 0 (beforeString ++ (writeText [] ++ behindString)) none .classic).ok = true := by decide
  obtain ⟨⟨hpos, hle⟩, hshort⟩ := hfacts
  have hlength : longString.length = 2 ^ 32 := by
    rw [longString, List.length_append, List.length_replicate]
    omega
  have htext : writeText longString = writeText [] ++ longString := by
    rw [writeText, hlength]
    rfl
  have himage : beforeString ++ (writeText longString ++ behindString) =
      (beforeString ++ (writeText [] ++ behindString)) ++
        (List.replicate (2 ^ 32 - behindString.length) 0 ++ behindString) := by
    rw [htext, longString]
    simp only [List.append_assoc]
  refine ⟨programOf longString, _, (beforeString ++ (writeText [] ++ behindString)).length, writeImage_programOf _,
    ?_, ?_⟩
  · have hback : 0 < (List.replicate (2 ^ 32 - behindString.length) (0 : UInt8) ++ behindString).length := by
      rw [List.length_append]
      omega
    rw [himage]
    exact (Nat.lt_add_of_pos_right hback).trans_eq List.length_append.symm
  · rw [himage, List.take_left]
    exact hshort

end CtBrowser.Script.ProgramImage
