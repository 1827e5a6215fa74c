import CtBrowser.Foundations.Scan
import CtBrowser.Script.Bytecode

/-!
# The Image Reader's Byte Source

The cursor over the bytes of a program image. Every read is bounds-checked; the first
failure records its reason, and later reads return zero. The fixed prefix of an image is
read here because both the header reader and the loader need it.

## Main definitions

- `SourceBytes` — the cursor, `fail` and `need` its checks.
- `u8`, `u16`, `u32`, `u64`, `text` — the primitive reads.
- `readPrefix`, `readImageHeader` — the fixed prefix.
-/

namespace CtBrowser.Script.ProgramImage

open CtBrowser.Foundations

/-- The image's first word. -/
def magic : ℕ := 0x43544243

/-- The image format version this build reads. -/
def formatVersion : ℕ := 8

/-- A cursor over the image bytes. -/
structure SourceBytes where
  -- the image
  bytes : List UInt8
  -- the next byte to read
  pos : ℕ := 0
  -- whether a read or a check failed
  bad : Bool := false
  -- why the first failure happened
  why : String := ""

/-- A reader of image fields. -/
abbrev Reader (α : Type) : Type := Scan SourceBytes α

instance : Failing SourceBytes := ⟨SourceBytes.bad⟩

namespace SourceBytes

/-- Record a failure, unless one is recorded already. -/
def fail (s : SourceBytes) (reason : String) : SourceBytes :=
  if s.bad then s else { s with bad := true, why := reason }

/-- Whether `n` more bytes may be read; if they may not, that is a failure. -/
def need (n : ℕ) (s : SourceBytes) : Bool × SourceBytes :=
  if s.bad then (false, s)
  else if s.pos + n > s.bytes.length then
    (false, s.fail "the image ends in the middle of a value")
  else (true, s)

@[simp]
theorem bad_fail (s : SourceBytes) (reason : String) : (s.fail reason).bad = true := by
  by_cases h : s.bad = true <;> simp [fail, h]

theorem need_eq_true {n : ℕ} {s : SourceBytes} (h : (s.need n).1 = true) :
    s.bad = false ∧ s.pos + n ≤ s.bytes.length ∧ (s.need n).2 = s := by
  unfold need at h ⊢
  split_ifs at h ⊢ with hbad hlen
  exact ⟨by simpa using hbad, by omega, rfl⟩

theorem bad_need {n : ℕ} {s : SourceBytes} (h : (s.need n).1 = false) :
    (s.need n).2.bad = true := by
  unfold need at h ⊢
  split_ifs at h ⊢ with hbad hlen
  · exact hbad
  · simp

end SourceBytes

/-- The number whose little-endian digits are the given bytes. -/
def littleEndian : List UInt8 → ℕ
  | [] => 0
  | b :: bs => b.toNat + 2 ^ 8 * littleEndian bs

/-- Whether `n` more bytes may be read. -/
def needs (n : ℕ) : Reader Bool := ⟨fun s => (some (s.need n).1, (s.need n).2)⟩

/-- Record a failure and go on. -/
def failWith (reason : String) : Reader Unit := ⟨fun s => (some (), s.fail reason)⟩

/-- Record a failure and leave. -/
def refuse {α : Type} (reason : String) : Reader α := ⟨fun s => (none, s.fail reason)⟩

/-- The next `n` bytes, or none of them when they are not there. -/
def taken (n : ℕ) : Reader (List UInt8) := ⟨fun s =>
  match s.need n with
  | (false, t) => (some [], t)
  | (true, t) => (some ((t.bytes.drop t.pos).take n), { t with pos := t.pos + n })⟩

/-- Read one little-endian number of `size` bytes, or zero. -/
def little (size : ℕ) : Reader ℕ := littleEndian <$> taken size

/-- Read one byte. -/
def u8 : Reader UInt8 := UInt8.ofNat <$> little 1

/-- Read one 16-bit number. -/
def u16 : Reader UInt16 := UInt16.ofNat <$> little 2

/-- Read one 32-bit number. -/
def u32 : Reader UInt32 := UInt32.ofNat <$> little 4

/-- Read one 64-bit number. -/
def u64 : Reader UInt64 := UInt64.ofNat <$> little 8

/-- Read a length-prefixed text, or the empty one. -/
def text : Reader Text := do
  let n ← u32
  taken n.toNat

section Ensures

theorem ensures_needs (n : ℕ) : Scan.Ensures (needs n) (fun ok => ok = true) := by
  intro s hs
  cases hok : (s.need n).1 with
  | false => simp [needs, Failing.bad, SourceBytes.bad_need hok] at hs
  | true => exact ⟨(SourceBytes.need_eq_true hok).1, true, by simp [needs, hok], rfl⟩

theorem ensures_refuse {α : Type} (reason : String) (Q : α → Prop) :
    Scan.Ensures (refuse reason) Q :=
  Scan.Ensures.of_bad fun s => SourceBytes.bad_fail s reason

theorem ensures_taken (n : ℕ) : Scan.Ensures (taken n) (fun _ => True) := by
  intro s hs
  dsimp only [taken] at hs ⊢
  rcases hneed : s.need n with ⟨_ | _, t⟩
  · have hbad := SourceBytes.bad_need (s := s) (n := n) (by rw [hneed])
    rw [hneed] at hs hbad
    exact absurd hs (by simpa [Failing.bad] using hbad)
  · have hok := SourceBytes.need_eq_true (s := s) (n := n) (by rw [hneed])
    exact ⟨hok.1, _, rfl, trivial⟩

theorem ensures_map {α β : Type} {p : Reader α} (f : α → β)
    (hp : Scan.Ensures p (fun _ => True)) : Scan.Ensures (f <$> p) (fun _ => True) :=
  hp.bind fun _ => Scan.Ensures.pure fun _ => trivial

theorem ensures_little (size : ℕ) : Scan.Ensures (little size) (fun _ => True) :=
  ensures_map _ (ensures_taken size)

theorem ensures_u8 : Scan.Ensures u8 (fun _ => True) := ensures_map _ (ensures_little 1)

theorem ensures_u16 : Scan.Ensures u16 (fun _ => True) := ensures_map _ (ensures_little 2)

theorem ensures_u32 : Scan.Ensures u32 (fun _ => True) := ensures_map _ (ensures_little 4)

theorem ensures_u64 : Scan.Ensures u64 (fun _ => True) := ensures_map _ (ensures_little 8)

theorem ensures_text : Scan.Ensures text (fun _ => True) :=
  ensures_u32.bind fun n => (ensures_taken n.toNat).mono fun _ _ _ => trivial

end Ensures

/-- Whether an image keeps its source text. -/
inductive ImageOption
  | keepSource | dropSource
deriving DecidableEq, Repr

/-- What the fixed prefix of an image says after its magic, version and fingerprint. -/
structure Prefix where
  -- whether the image keeps its source text
  option : ImageOption := .keepSource
  -- the kind of script
  kind : ScriptKind := .classic
  -- the hash of the source the image was built from
  sourceHash : UInt64 := 0
deriving DecidableEq, Repr

/-- Read the fixed prefix, or say why it is not one this build accepts. -/
def readPrefix (fingerprint : UInt64) : Reader (Except String Prefix) := do
  if (← u32).toNat ≠ magic then
    return .error "not a ctbrowser program image"
  let v ← u32
  if v.toNat ≠ formatVersion then
    return .error ("image format version " ++ toString v.toNat ++ ", this build reads " ++
      toString formatVersion)
  if (← u64) ≠ fingerprint then
    return .error ("image was written by a different engine build - opcode numbering, value " ++
      "layout, instruction layout, or what the compiler EMITS for a given source has " ++
      "changed since it was written")
  let option ← u32
  if option.toNat > 1 then
    return .error ("unknown image option " ++ toString option.toNat)
  let kindByte ← u8
  if kindByte.toNat > 1 then
    return .error ("unknown script kind " ++ toString kindByte.toNat)
  let sourceHash ← u64
  ⟨fun s =>
    if s.bad then (some (.error s.why), s)
    else (some (.ok
      { option := if option.toNat = 0 then .keepSource else .dropSource
        kind := if kindByte.toNat = 0 then .classic else .module_
        sourceHash }), s)⟩

/-- The header of an image, or nothing when the prefix is not acceptable. -/
def readImageHeader (fingerprint : UInt64) (bytes : List UInt8) : Option Prefix :=
  match ((readPrefix fingerprint).run { bytes }).1 with
  | some (.ok head) => some head
  | _ => none

end CtBrowser.Script.ProgramImage
