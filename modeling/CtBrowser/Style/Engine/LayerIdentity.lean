import CtBrowser.Style.Engine.LayerNames

/-!
# The identity and the order of layers

With the identifiers that sheets spell without escapes, names as text tell layers apart as their identifiers
do: a name is split where it was joined, and no identifier looks like an anonymous part. So the tables of
the parser and of the engine are the codes of the table of first appearances, numbers agree, and the ranks
are the order of layers.

## Main results

- `dotPrefixes_joined`, `joined_inj` — names are joined and split again.
- `follows_parseRules` — the parser's table of a sheet.
- `addSheets_eq` — the engine's table.
- `layers_of_plain` — layers are shared and ordered as they should be.
-/

namespace CtBrowser.Style.LayerNames

open Foundations.FirstAppearance

/-! ## Names as text -/

/-- The texts of a name's parts, joined with dots. -/
def joined (f : Segment → Text) (name : LayerName) : Text := [dot].intercalate (name.map f)

/-- A coding of parts that can be told apart after they are joined. -/
structure Coding (ok : Segment → Prop) (f : Segment → Text) : Prop where
  ne_nil : ∀ x, ok x → f x ≠ []
  no_dot : ∀ x, ok x → dot ∉ f x
  inj : ∀ x y, ok x → ok y → f x = f y → x = y

/-- All parts of a name are coded. -/
def AllOk (ok : Segment → Prop) (name : LayerName) : Prop := ∀ x ∈ name, ok x

variable {ok : Segment → Prop} {f : Segment → Text} {name a b : LayerName}

theorem joined_cons {x : Segment} (h : name ≠ []) : joined f (x :: name) = f x ++ dot :: joined f name := by
  rw [joined, List.map_cons, List.intercalate_cons_of_ne_nil (by simpa using h), joined]
  simp

theorem joined_singleton (x : Segment) : joined f [x] = f x := by simp [joined]

theorem joined_append (ha : a ≠ []) (hb : b ≠ []) : joined f (a ++ b) = joined f a ++ dot :: joined f b := by
  induction a with
  | nil => exact absurd rfl ha
  | cons x a ih =>
    rcases a with _ | ⟨y, a⟩
    · rw [List.singleton_append, joined_cons hb, joined_singleton]
    · have hrest := ih (List.cons_ne_nil y a)
      rw [List.cons_append, joined_cons (by simp), hrest, joined_cons (List.cons_ne_nil y a)]
      simp

theorem joined_ne_nil (hf : Coding ok f) (hok : AllOk ok name) (h : name ≠ []) : joined f name ≠ [] := by
  rcases name with _ | ⟨x, name⟩
  · exact absurd rfl h
  · have hx := hf.ne_nil x (hok x List.mem_cons_self)
    rcases name with _ | ⟨y, name⟩
    · rwa [joined_singleton]
    · rw [joined_cons (by simp)]
      simp

theorem splitOn_joined (hf : Coding ok f) (hok : AllOk ok name) (h : name ≠ []) :
    (joined f name).splitOn dot = name.map f := by
  refine List.splitOn_intercalate dot (fun part hpart => ?_) (by simpa using h)
  obtain ⟨x, hx, rfl⟩ := List.mem_map.mp hpart
  exact hf.no_dot x (hok x hx)

theorem joined_inj (hf : Coding ok f) (ha : AllOk ok a) (hb : AllOk ok b) (h : joined f a = joined f b) : a = b := by
  by_cases hnilA : a = []
  · subst hnilA
    by_contra hne
    exact joined_ne_nil hf hb (Ne.symm hne) h.symm
  by_cases hnilB : b = []
  · subst hnilB
    exact absurd h (joined_ne_nil hf ha hnilA)
  have hmap : a.map f = b.map f := by rw [← splitOn_joined hf ha hnilA, h, splitOn_joined hf hb hnilB]
  clear h hnilA hnilB
  induction a generalizing b with
  | nil => exact (List.map_eq_nil_iff.mp hmap.symm).symm
  | cons x a ih =>
    rcases b with _ | ⟨y, b⟩
    · cases hmap
    · obtain ⟨hxy, hrest⟩ := List.cons.inj hmap
      rw [hf.inj x y (ha x List.mem_cons_self) (hb y List.mem_cons_self) hxy,
        ih (fun z hz => ha z (List.mem_cons_of_mem _ hz)) (fun z hz => hb z (List.mem_cons_of_mem _ hz)) hrest]

/-! ## Prefixes -/

theorem dotPrefixes_append {part : Text} (h : dot ∉ part) (before rest : Text) :
    dotPrefixes before (part ++ rest) = dotPrefixes (before ++ part) rest := by
  induction part generalizing before with
  | nil => simp
  | cons c part ih =>
    rw [List.mem_cons, not_or] at h
    rw [List.cons_append, dotPrefixes, if_neg (Ne.symm h.1), ih h.2, List.append_assoc, List.singleton_append]

theorem withOuter_cons (x : Segment) (name : LayerName) : withOuter (x :: name) = name.inits.map (x :: ·) := by
  simp [withOuter]

theorem inits_eq_cons (name : LayerName) : name.inits = [] :: withOuter name := by
  rcases name with _ | ⟨x, name⟩
  · rfl
  · rw [withOuter_cons, List.inits_cons]

theorem mem_withOuter : a ∈ withOuter name ↔ a <+: name ∧ a ≠ [] := by
  rcases name with _ | ⟨x, name⟩
  · simp [withOuter]
  · rw [withOuter_cons, List.mem_map]
    constructor
    · rintro ⟨rest, hrest, rfl⟩
      exact ⟨List.prefix_cons_inj x |>.mpr ((List.mem_inits _ _).mp hrest), by simp⟩
    · rintro ⟨hpre, hne⟩
      rcases a with _ | ⟨y, a⟩
      · exact absurd rfl hne
      · obtain ⟨rfl, hrest⟩ := List.cons_prefix_cons.mp hpre
        exact ⟨a, (List.mem_inits _ _).mpr hrest, rfl⟩

/-- The prefixes of a joined name are the joined prefixes. -/
theorem dotPrefixes_joined (hf : Coding ok f) (hok : AllOk ok name) (h : name ≠ []) (before : Text) :
    dotPrefixes before (joined f name) = (withOuter name).map fun outer => before ++ joined f outer := by
  induction name generalizing before with
  | nil => exact absurd rfl h
  | cons x name ih =>
    have hdot := hf.no_dot x (hok x List.mem_cons_self)
    rw [withOuter_cons, inits_eq_cons, List.map_cons, List.map_cons, joined_singleton]
    rcases name with _ | ⟨y, name⟩
    · rw [joined_singleton, ← List.append_nil (f x), dotPrefixes_append hdot]
      simp [dotPrefixes, withOuter]
    · rw [joined_cons (by simp), dotPrefixes_append hdot, dotPrefixes, if_pos rfl,
        ih (fun z hz => hok z (List.mem_cons_of_mem _ hz)) (by simp), List.map_map]
      congr 1
      refine List.map_congr_left fun outer houter => ?_
      rw [Function.comp_apply, joined_cons (mem_withOuter.mp houter).2]
      simp

/-! ## The two codings -/

theorem toNat_lt_of_mem_toDigits {n : ℕ} {c : Char} (h : c ∈ Nat.toDigits 10 n) : 48 ≤ c.toNat ∧ c.toNat < 58 := by
  have hdigit := Nat.isDigit_of_mem_toDigits (by omega) (by omega) h
  rw [Char.isDigit_iff_toNat] at hdigit
  have hzero : '0'.toNat = 48 := rfl
  have hnine : '9'.toNat = 57 := rfl
  omega

theorem decimalText_injective : Function.Injective decimalText := by
  intro m n h
  have hback (k : ℕ) : (decimalText k).map (fun b => Char.ofNat b.toNat) = Nat.toDigits 10 k := by
    rw [decimalText, List.map_map]
    refine (List.map_congr_left fun c hc => ?_).trans (List.map_id _)
    have hlt := toNat_lt_of_mem_toDigits hc
    rw [Function.comp_apply, toNat_byte (by omega), Char.ofNat_toNat, id]
  have hchars : Nat.toDigits 10 m = Nat.toDigits 10 n := by rw [← hback m, h, hback]
  rw [← Nat.ofDigitChars_ten_toDigits (n := m), hchars, Nat.ofDigitChars_ten_toDigits]

theorem not_mem_decimalText {c : UInt8} (n : ℕ) (h : c.toNat < 48 ∨ 58 ≤ c.toNat) : c ∉ decimalText n := by
  intro hc
  obtain ⟨d, hd, rfl⟩ := List.mem_map.mp hc
  have hlt := toNat_lt_of_mem_toDigits hd
  rw [toNat_byte (by omega)] at h
  omega

def segmentText (anonymous : ℕ → ℕ → Text) : Segment → Text
  | .named text => text
  | .anonymous serial number => anonymous serial number

/-- The text of a part in a sheet, and in the engine. -/
def sheetText : Segment → Text := segmentText fun _ number => anonymousMark :: decimalText number

def engineText : Segment → Text :=
  segmentText fun serial number => anonymousMark :: decimalText serial ++ ascii "_" ++ decimalText number

/-- A plain identifier, or an anonymous part of some sheet. -/
def PlainPart (serial : ℕ → Prop) : Segment → Prop
  | .named text => PlainIdent text
  | .anonymous s _ => serial s

theorem coding_segmentText {serial : ℕ → Prop} {anonymous : ℕ → ℕ → Text}
    (hmark : ∀ s n, (anonymous s n).head? = some anonymousMark) (hdot : ∀ s n, dot ∉ anonymous s n)
    (hinj : ∀ s n s' n', serial s → serial s' → anonymous s n = anonymous s' n' → s = s' ∧ n = n') :
    Coding (PlainPart serial) (segmentText anonymous) where
  ne_nil x hx := by
    rcases x with text | ⟨s, n⟩
    · exact hx.1
    · intro hnil
      have hhead := hmark s n
      rw [segmentText] at hnil
      rw [hnil] at hhead
      cases hhead
  no_dot x hx := by
    rcases x with text | ⟨s, n⟩
    · exact hx.2.1
    · exact hdot s n
  inj x y hx hy h := by
    rcases x with text | ⟨s, n⟩ <;> rcases y with text' | ⟨s', n'⟩
    · exact congrArg _ h
    · have hhead := hmark s' n'
      rw [segmentText, segmentText] at h
      rw [← h] at hhead
      exact absurd hhead hx.2.2
    · have hhead := hmark s n
      rw [segmentText, segmentText] at h
      rw [h] at hhead
      exact absurd hhead hy.2.2
    · obtain ⟨rfl, rfl⟩ := hinj s n s' n' hx hy h
      rfl

theorem coding_sheetText (serial : ℕ) : Coding (PlainPart (· = serial)) sheetText := by
  refine coding_segmentText (fun _ _ => rfl) (fun _ n => ?_) fun s n s' n' hs hs' h => ?_
  · rw [List.mem_cons, not_or]
    exact ⟨by decide, not_mem_decimalText n (by decide)⟩
  · exact ⟨hs.trans hs'.symm, decimalText_injective (List.cons.inj h).2⟩

theorem coding_engineText : Coding (PlainPart fun _ => True) engineText := by
  refine coding_segmentText (fun _ _ => rfl) (fun s n => ?_) fun s n s' n' _ _ h => ?_
  · have hs : dot ∉ decimalText s := not_mem_decimalText s (by decide)
    have hn : dot ∉ decimalText n := not_mem_decimalText n (by decide)
    have hmark : dot ≠ anonymousMark := by decide
    have hline : dot ∉ ascii "_" := by decide
    simp [hs, hn, hmark, hline]
  · obtain ⟨-, hrest⟩ := List.cons.inj h
    have hline (k : ℕ) : (0x5F : UInt8) ∉ decimalText k := not_mem_decimalText k (by decide)
    have hunderscore : ascii "_" = [0x5F] := by decide
    have happend : decimalText s ++ 0x5F :: decimalText n = decimalText s' ++ 0x5F :: decimalText n' := by
      simpa [hunderscore] using hrest
    obtain ⟨hserial, -, hnumber⟩ := (List.append_cons_inj_of_notMem (hline s) (hline n)).mp happend
    exact ⟨decimalText_injective hserial, decimalText_injective hnumber⟩

/-! ## Names as they are written -/

theorem nameText_of_identifiersOf {run : List NameToken} {texts : List Text} (h : identifiersOf run = some texts) :
    nameText true run = some ([dot].intercalate texts) ∧ run.length % 2 = 1 ∧ texts ≠ [] := by
  induction run using identifiersOf.induct generalizing texts with
  | case1 text =>
    obtain rfl := Option.some_inj.mp h
    simp [nameText]
  | case2 text rest ih =>
    rw [identifiersOf, if_pos rfl] at h
    obtain ⟨texts, htexts, rfl⟩ := Option.map_eq_some_iff.mp h
    obtain ⟨htext, hodd, hne⟩ := ih htexts
    refine ⟨?_, by simp only [List.length_cons]; omega, by simp⟩
    rw [nameText, nameText, if_pos rfl, htext, List.intercalate_cons_of_ne_nil hne]
    simp
  | case3 text point rest hpoint =>
    rw [identifiersOf, if_neg hpoint] at h
    cases h
  | case4 run hone htwo =>
    rw [identifiersOf.eq_3 _ hone htwo] at h
    cases h

theorem nameText_of_none {run : List NameToken} (h : identifiersOf run = none) :
    nameText true run = none ∨ run.length % 2 = 0 := by
  induction run using identifiersOf.induct with
  | case1 text => cases h
  | case2 text rest ih =>
    rw [identifiersOf, if_pos rfl, Option.map_eq_none_iff] at h
    rcases ih h with hnone | heven
    · left
      rw [nameText, nameText, if_pos rfl, hnone]
      rfl
    · right
      simp only [List.length_cons]
      omega
  | case3 text point rest hpoint =>
    left
    rw [nameText, nameText, if_neg hpoint]
    rfl
  | case4 run hone htwo =>
    rcases run with _ | ⟨t, run⟩
    · exact .inr rfl
    left
    rcases t with text | text | _
    · rcases run with _ | ⟨t, run⟩
      · exact absurd rfl (hone text)
      · rcases t with text' | point | _
        · rfl
        · exact absurd rfl (htwo text point run)
        · rfl
    · rfl
    · rfl

theorem layerNameOf_of_none {run : List NameToken} (h : identifiersOf run = none) : layerNameOf run = none := by
  rw [layerNameOf]
  rcases nameText_of_none h with hnone | heven
  · rw [hnone]
    rfl
  · rw [Option.filter_eq_none_iff]
    simp [heven]

theorem joined_named (texts : List Text) : joined sheetText (texts.map .named) = [dot].intercalate texts := by
  rw [joined, List.map_map]
  exact congrArg _ (List.map_id texts)

theorem layerNameOf_of_identifiersOf {serial : ℕ} {run : List NameToken} {texts : List Text}
    (h : identifiersOf run = some texts) (hok : AllOk (PlainPart (· = serial)) (texts.map .named)) :
    layerNameOf run = some (joined sheetText (texts.map .named)) := by
  obtain ⟨htext, hodd, hne⟩ := nameText_of_identifiersOf h
  have hjoined := joined_ne_nil (coding_sheetText serial) hok (by simpa using hne)
  rw [joined_named] at hjoined ⊢
  rw [layerNameOf, htext]
  simp [hjoined, hodd]

/-! ## A sheet -/

/-- The layers of mentions in order of first appearance. -/
def appear (names : List LayerName) : List LayerName := enterAll [] (names.flatMap withOuter)

theorem appear_concat (names : List LayerName) (name : LayerName) :
    appear (names ++ [name]) = enterAll (appear names) (withOuter name) := by
  rw [appear, List.flatMap_append, enterAll_append, List.flatMap_singleton, appear]

theorem mem_appear {names : List LayerName} : a ∈ appear names ↔ ∃ name ∈ names, a <+: name ∧ a ≠ [] := by
  rw [appear, mem_enterAll, List.mem_flatMap]
  simp [mem_withOuter]

theorem AllOk.of_shorter (h : AllOk ok b) (hpre : a <+: b) : AllOk ok a := fun x hx => h x (hpre.subset hx)

/-- The parser's layers are the codes of what was mentioned. -/
structure Follows (serial : ℕ) (p : LayerParser) (m : Mentioned) : Prop where
  ok : ∀ name ∈ m.names, AllOk (PlainPart (· = serial)) name
  around_ok : AllOk (PlainPart (· = serial)) m.around
  layers : p.layers = (appear m.names).map (joined sheetText)
  layerPrefix : p.layerPrefix = joined sheetText m.around
  anonymous : p.anonymousLayers = m.anonymous
  mentions : p.mentions = m.names.map fun name => (appear m.names).idxOf name + 1
  ne_nil : ∀ name ∈ m.names, name ≠ []

variable {serial : ℕ} {p : LayerParser} {m : Mentioned}

theorem Follows.appear_ok (h : Follows serial p m) : ∀ name ∈ appear m.names, AllOk (PlainPart (· = serial)) name := by
  intro name hname
  obtain ⟨long, hlong, hpre, -⟩ := mem_appear.mp hname
  exact (h.ok long hlong).of_shorter hpre

/-- One more mention. -/
theorem Follows.add (h : Follows serial p m) (hok : AllOk (PlainPart (· = serial)) name) (hne : name ≠ []) :
    Follows serial (declareLayer p (joined sheetText name)) (m.add name) ∧
      (declareLayer p (joined sheetText name)).lastName = joined sheetText (m.around ++ name) := by
  have hcoding := coding_sheetText serial
  have hfullOk : AllOk (PlainPart (· = serial)) (m.around ++ name) := by
    intro x hx
    rcases List.mem_append.mp hx with hx | hx
    · exact h.around_ok x hx
    · exact hok x hx
  have hfullNe : m.around ++ name ≠ [] := by simp [hne]
  have hfull : (if p.layerPrefix = [] then joined sheetText name else p.layerPrefix ++ dot :: joined sheetText name) =
      joined sheetText (m.around ++ name) := by
    rw [h.layerPrefix]
    by_cases haround : m.around = []
    · rw [haround, List.nil_append]
      exact if_pos rfl
    · rw [if_neg (joined_ne_nil hcoding h.around_ok haround), joined_append haround hne]
  have hprefixes : dotPrefixes [] (joined sheetText (m.around ++ name)) =
      (withOuter (m.around ++ name)).map (joined sheetText) := by
    rw [dotPrefixes_joined hcoding hfullOk hfullNe]
    simp
  have houterOk : ∀ outer ∈ withOuter (m.around ++ name), AllOk (PlainPart (· = serial)) outer :=
    fun outer houter => hfullOk.of_shorter (mem_withOuter.mp houter).1
  have hlayers : enterAll p.layers (dotPrefixes [] (joined sheetText (m.around ++ name))) =
      (appear (m.names ++ [m.around ++ name])).map (joined sheetText) := by
    rw [hprefixes, h.layers, appear_concat]
    exact enterAll_map (fun x y hx hy => joined_inj hcoding hx hy) h.appear_ok houterOk
  have happearOk : ∀ y ∈ appear (m.names ++ [m.around ++ name]), AllOk (PlainPart (· = serial)) y := by
    intro y hy
    rw [appear_concat, mem_enterAll] at hy
    exact hy.elim (h.appear_ok y) (houterOk y)
  have hmem : m.around ++ name ∈ appear (m.names ++ [m.around ++ name]) :=
    mem_appear.mpr ⟨_, by simp, List.prefix_rfl, hfullNe⟩
  have hidx : ((appear (m.names ++ [m.around ++ name])).map (joined sheetText)).idxOf
      (joined sheetText (m.around ++ name)) = (appear (m.names ++ [m.around ++ name])).idxOf (m.around ++ name) :=
    idxOf_map fun y hy heq => joined_inj hcoding (happearOk y hy) hfullOk heq
  have hdeclare : declareLayer p (joined sheetText name) =
      { p with
        layers := (appear (m.names ++ [m.around ++ name])).map (joined sheetText)
        mentions := p.mentions ++ [(appear (m.names ++ [m.around ++ name])).idxOf (m.around ++ name) + 1] } := by
    rw [declareLayer, hfull, hlayers, hidx]
  rw [hdeclare]
  refine ⟨⟨?_, h.around_ok, rfl, h.layerPrefix, h.anonymous, ?_, ?_⟩, ?_⟩
  · intro n hn
    rcases List.mem_append.mp hn with hn | hn
    · exact h.ok n hn
    · rwa [List.mem_singleton.mp hn]
  · change p.mentions ++ _ = (m.names ++ [m.around ++ name]).map _
    rw [List.map_append, h.mentions]
    congr 1
    refine List.map_congr_left fun n hn => ?_
    rw [Mentioned.add, appear_concat, idxOf_enterAll (mem_appear.mpr ⟨n, hn, List.prefix_rfl, h.ne_nil n hn⟩)]
  · intro n hn
    rcases List.mem_append.mp hn with hn | hn
    · exact h.ne_nil n hn
    · rwa [List.mem_singleton.mp hn]
  · rw [LayerParser.lastName]
    have hlt := List.idxOf_lt_length_of_mem hmem
    simp [hlt]

theorem foldl_add (names : List (List Text)) (m : Mentioned) :
    names.foldl (fun m name => m.add (name.map .named)) m =
      { m with names := m.names ++ names.map fun name => m.around ++ name.map .named } := by
  induction names generalizing m with
  | nil => simp
  | cons name names ih =>
    rw [List.foldl_cons, ih]
    simp [Mentioned.add]

mutual

theorem names_prefix_identify (serial : ℕ) (rule : LayerRule) (m : Mentioned) :
    m.names <+: (rule.identify serial m).names := by
  cases rule with
  | statement names =>
    rw [LayerRule.identify]
    split
    · exact List.prefix_rfl
    · rw [foldl_add]
      exact List.prefix_append _ _
  | block run contents =>
    rw [LayerRule.identify]
    simp only
    split
    · exact List.prefix_rfl
    · refine List.IsPrefix.trans ?_ (names_prefix_identifyRules serial contents _)
      exact List.prefix_append _ _

theorem names_prefix_identifyRules (serial : ℕ) (rules : List LayerRule) (m : Mentioned) :
    m.names <+: (identifyRules serial rules m).names := by
  cases rules with
  | nil => exact List.prefix_rfl
  | cons rule rest =>
    rw [identifyRules]
    exact (names_prefix_identify serial rule m).trans (names_prefix_identifyRules serial rest _)

end

theorem allOk_named {around : LayerName} {texts : List Text} (h : PlainName (around ++ texts.map .named)) :
    AllOk (PlainPart (· = serial)) (texts.map .named) := by
  intro x hx
  obtain ⟨text, htext, rfl⟩ := List.mem_map.mp hx
  exact h text (List.mem_append_right _ hx)

theorem mapM_layerNameOf_of_none {names : List (List NameToken)} (h : names.mapM identifiersOf = none) :
    names.mapM layerNameOf = none := by
  induction names with
  | nil => cases h
  | cons run names ih =>
    rw [List.mapM_cons] at h ⊢
    rcases hrun : identifiersOf run with _ | texts
    · rw [layerNameOf_of_none hrun]
      rfl
    · rw [hrun] at h
      rcases hrest : names.mapM identifiersOf with _ | rest
      · rw [ih hrest]
        cases layerNameOf run <;> rfl
      · rw [hrest] at h
        cases h

theorem mapM_layerNameOf {names : List (List NameToken)} {texts : List (List Text)}
    (h : names.mapM identifiersOf = some texts)
    (hok : ∀ name ∈ texts, AllOk (PlainPart (· = serial)) (name.map .named)) :
    names.mapM layerNameOf = some (texts.map fun name => joined sheetText (name.map .named)) ∧ ∀ name ∈ texts, name ≠ [] := by
  induction names generalizing texts with
  | nil =>
    obtain rfl := Option.some_inj.mp h
    exact ⟨rfl, by simp⟩
  | cons run names ih =>
    rw [List.mapM_cons] at h ⊢
    rcases hrun : identifiersOf run with _ | name
    · rw [hrun] at h
      cases h
    rcases hrest : names.mapM identifiersOf with _ | rest
    · rw [hrun, hrest] at h
      cases h
    rw [hrun, hrest] at h
    obtain rfl : name :: rest = texts := Option.some_inj.mp h
    obtain ⟨hnames, hne⟩ := ih hrest fun n hn => hok n (List.mem_cons_of_mem _ hn)
    rw [layerNameOf_of_identifiersOf hrun (hok name List.mem_cons_self), hnames]
    refine ⟨rfl, fun n hn => ?_⟩
    rcases List.mem_cons.mp hn with rfl | hn
    · exact (nameText_of_identifiersOf hrun).2.2
    · exact hne n hn

theorem Follows.foldl_add (h : Follows serial p m) {texts : List (List Text)}
    (hok : ∀ name ∈ texts, AllOk (PlainPart (· = serial)) (name.map .named)) (hne : ∀ name ∈ texts, name ≠ []) :
    Follows serial ((texts.map fun name => joined sheetText (name.map .named)).foldl declareLayer p)
      (texts.foldl (fun m name => m.add (name.map .named)) m) := by
  induction texts generalizing p m with
  | nil => exact h
  | cons name texts ih =>
    have hadd := (h.add (hok name List.mem_cons_self) (by simpa using hne name List.mem_cons_self)).1
    exact ih hadd (fun n hn => hok n (List.mem_cons_of_mem _ hn)) fun n hn => hne n (List.mem_cons_of_mem _ hn)

mutual

theorem follows_parse (rule : LayerRule) {p : LayerParser} {m : Mentioned} (h : Follows serial p m)
    (hplain : ∀ name ∈ (rule.identify serial m).names, PlainName name) :
    Follows serial (rule.parse p) (rule.identify serial m) := by
  cases rule with
  | statement names =>
    rw [LayerRule.parse]
    rw [LayerRule.identify] at hplain ⊢
    rcases htexts : names.mapM identifiersOf with _ | texts
    · rw [mapM_layerNameOf_of_none htexts]
      exact h
    · rw [htexts] at hplain
      simp only [LayerNames.foldl_add] at hplain
      have hok : ∀ name ∈ texts, AllOk (PlainPart (· = serial)) (name.map .named) := fun name hname =>
        allOk_named (hplain _ (List.mem_append_right _ (List.mem_map_of_mem hname)))
      obtain ⟨hnames, hne⟩ := mapM_layerNameOf htexts hok
      rw [hnames]
      exact h.foldl_add hok hne
  | block run contents =>
    rw [LayerRule.parse]
    rw [LayerRule.identify] at hplain ⊢
    by_cases hrun : run = []
    · simp only [hrun, if_true] at hplain ⊢
      have hnumber : p.anonymousLayers + 1 = m.anonymous + 1 := by rw [h.anonymous]
      have hname : anonymousMark :: decimalText (p.anonymousLayers + 1) =
          joined sheetText [.anonymous serial (m.anonymous + 1)] := by
        rw [joined_singleton, hnumber]
        rfl
      rw [hname]
      have hbefore : Follows serial { p with anonymousLayers := p.anonymousLayers + 1 }
          { m with anonymous := m.anonymous + 1 } :=
        ⟨h.ok, h.around_ok, h.layers, h.layerPrefix, hnumber, h.mentions, h.ne_nil⟩
      exact follows_block contents h hbefore rfl (by intro x hx; rw [List.mem_singleton.mp hx]; rfl) (by simp) hplain
    · simp only [if_neg hrun] at hplain ⊢
      rcases htexts : identifiersOf run with _ | texts
      · rw [layerNameOf_of_none htexts]
        exact h
      · rw [htexts] at hplain
        simp only [Option.map_some] at hplain ⊢
        have hmem : m.around ++ texts.map .named ∈
            (identifyRules serial contents { Mentioned.add { m with anonymous := m.anonymous } (texts.map .named) with
              around := m.around ++ texts.map .named }).names :=
          (names_prefix_identifyRules serial contents _).subset (by simp [Mentioned.add])
        have hok : AllOk (PlainPart (· = serial)) (texts.map .named) := allOk_named (hplain _ hmem)
        rw [layerNameOf_of_identifiersOf htexts hok]
        exact follows_block contents h h rfl hok (by simpa using (nameText_of_identifiersOf htexts).2.2) hplain

theorem follows_block (contents : List LayerRule) {p p' : LayerParser} {m m' : Mentioned} {name : LayerName}
    (h : Follows serial p m) (h' : Follows serial p' m') (haround : m'.around = m.around)
    (hok : AllOk (PlainPart (· = serial)) name) (hne : name ≠ [])
    (hplain : ∀ n ∈ (identifyRules serial contents { m'.add name with around := m.around ++ name }).names, PlainName n) :
    Follows serial
      { parseRules contents { declareLayer p' (joined sheetText name) with
          layerPrefix := (declareLayer p' (joined sheetText name)).lastName } with layerPrefix := p.layerPrefix }
      { identifyRules serial contents { m'.add name with around := m.around ++ name } with around := m.around } := by
  obtain ⟨hadd, hlast⟩ := h'.add hok hne
  have haroundOk : AllOk (PlainPart (· = serial)) (m.around ++ name) := by
    intro x hx
    rcases List.mem_append.mp hx with hx | hx
    · exact h.around_ok x hx
    · exact hok x hx
  have hinside : Follows serial
      { declareLayer p' (joined sheetText name) with layerPrefix := (declareLayer p' (joined sheetText name)).lastName }
      { m'.add name with around := m.around ++ name } :=
    ⟨hadd.ok, haroundOk, hadd.layers, by rw [hlast, haround], hadd.anonymous, hadd.mentions, hadd.ne_nil⟩
  have hrules := follows_parseRules contents hinside hplain
  exact ⟨hrules.ok, h.around_ok, hrules.layers, h.layerPrefix, hrules.anonymous, hrules.mentions, hrules.ne_nil⟩

theorem follows_parseRules (rules : List LayerRule) {p : LayerParser} {m : Mentioned} (h : Follows serial p m)
    (hplain : ∀ name ∈ (identifyRules serial rules m).names, PlainName name) :
    Follows serial (parseRules rules p) (identifyRules serial rules m) := by
  cases rules with
  | nil => exact h
  | cons rule rest =>
    rw [parseRules]
    rw [identifyRules] at hplain ⊢
    have hrule := follows_parse rule h fun name hname =>
      hplain name ((names_prefix_identifyRules serial rest _).subset hname)
    exact follows_parseRules rest hrule hplain

end

theorem follows_parseSheet (serial : ℕ) {sheet : List LayerRule}
    (hplain : ∀ name ∈ (identifyRules serial sheet ⟨[], 0, []⟩).names, PlainName name) :
    Follows serial (parseSheet sheet) (identifyRules serial sheet ⟨[], 0, []⟩) :=
  follows_parseRules sheet ⟨by simp, by simp [AllOk], rfl, rfl, rfl, rfl, by simp⟩ hplain

/-! ## The engine -/

theorem engineText_eq {x : Segment} (h : PlainPart (· = serial) x) :
    (if (sheetText x).head? = some anonymousMark then
      anonymousMark :: decimalText serial ++ ascii "_" ++ (sheetText x).tail else sheetText x) = engineText x := by
  rcases x with text | ⟨s, n⟩
  · exact if_neg h.2.2
  · obtain rfl : s = serial := h
    exact if_pos rfl

/-- The engine's name for a sheet's layer. -/
theorem engineName_joined (h : AllOk (PlainPart (· = serial)) name) (hne : name ≠ []) :
    engineName serial (joined sheetText name) = joined engineText name := by
  rw [engineName, splitOn_joined (coding_sheetText serial) h hne]
  -- once there is some text each part comes after a dot
  have hrest : ∀ (rest : LayerName), AllOk (PlainPart (· = serial)) rest → rest ≠ [] → ∀ out : Text, out ≠ [] →
      (rest.map sheetText).foldl (fun out part => (if out = [] then out else out ++ [dot]) ++
        if part.head? = some anonymousMark then
          anonymousMark :: decimalText serial ++ ascii "_" ++ part.tail else part) out =
        out ++ dot :: joined engineText rest := by
    intro rest
    induction rest with
    | nil => exact fun _ hnil => absurd rfl hnil
    | cons x rest ih =>
      intro hok _ out hout
      rw [List.map_cons, List.foldl_cons, if_neg hout, engineText_eq (hok x List.mem_cons_self)]
      rcases rest with _ | ⟨y, rest⟩
      · simp [joined_singleton]
      · rw [ih (fun z hz => hok z (List.mem_cons_of_mem _ hz)) (by simp) _ (by simp),
          joined_cons (List.cons_ne_nil y rest)]
        simp
  rcases name with _ | ⟨x, name⟩
  · exact absurd rfl hne
  rw [List.map_cons, List.foldl_cons, if_pos rfl, engineText_eq (h x List.mem_cons_self), List.nil_append]
  rcases name with _ | ⟨y, name⟩
  · rw [joined_singleton]
    rfl
  · have htext : engineText x ≠ [] := by
      have hx := h x List.mem_cons_self
      refine coding_engineText.ne_nil x ?_
      rcases x with text | ⟨s, n⟩
      · exact hx
      · trivial
    rw [hrest _ (fun z hz => h z (List.mem_cons_of_mem _ hz)) (by simp) _ htext,
      joined_cons (List.cons_ne_nil y name)]

variable {sheets : List (List LayerRule)}

theorem identities_concat (sheets : List (List LayerRule)) (sheet : List LayerRule) :
    identities (sheets ++ [sheet]) =
      identities sheets ++ (identifyRules (sheets.length + 1) sheet ⟨[], 0, []⟩).names := by
  rw [identities, List.zipIdx_append, List.flatMap_append]
  simp [identities]

theorem firstAppearances_concat (sheets : List (List LayerRule)) (sheet : List LayerRule) :
    firstAppearances (sheets ++ [sheet]) = enterAll (firstAppearances sheets)
      ((identifyRules (sheets.length + 1) sheet ⟨[], 0, []⟩).names.flatMap withOuter) := by
  rw [firstAppearances, identities_concat, List.flatMap_append, enterAll_append, firstAppearances]

theorem addSheets_concat (sheets : List (List LayerRule)) (sheet : List LayerRule) :
    addSheets (sheets ++ [sheet]) =
      (((addSheets sheets).1.addSheet sheet).1, (addSheets sheets).2 ++ ((addSheets sheets).1.addSheet sheet).2) := by
  rw [addSheets, List.foldl_append, List.foldl_cons, List.foldl_nil, addSheets]

theorem mem_firstAppearances :
    a ∈ firstAppearances sheets ↔ a = [] ∨ ∃ name ∈ identities sheets, a <+: name ∧ a ≠ [] := by
  rw [firstAppearances, mem_enterAll, List.mem_singleton, List.mem_flatMap]
  simp [mem_withOuter]

theorem nodup_firstAppearances (sheets : List (List LayerRule)) : (firstAppearances sheets).Nodup :=
  nodup_enterAll (List.nodup_singleton _)

theorem PlainName.allOk (h : PlainName name) : AllOk (PlainPart fun _ => True) name := by
  rintro (text | ⟨s, n⟩) hx
  · exact h text hx
  · trivial

theorem PlainName.of_shorter (h : PlainName b) (hpre : a <+: b) : PlainName a :=
  fun text htext => h text (hpre.subset htext)

theorem plainName_of_mem (hplain : ∀ name ∈ identities sheets, PlainName name) (h : a ∈ firstAppearances sheets) :
    PlainName a := by
  rcases mem_firstAppearances.mp h with rfl | ⟨name, hname, hpre, -⟩
  · simp [PlainName]
  · exact (hplain name hname).of_shorter hpre

theorem ne_nil_of_mem_identities (hplain : ∀ name ∈ identities sheets, PlainName name) (h : a ∈ identities sheets) :
    a ≠ [] := by
  induction sheets using List.reverseRecOn with
  | nil => cases h
  | append_singleton sheets sheet ih =>
    rw [identities_concat] at hplain h
    rcases List.mem_append.mp h with h | h
    · exact ih (fun name hname => hplain name (List.mem_append_left _ hname)) h
    · exact (follows_parseSheet (sheets.length + 1) fun name hname =>
        hplain name (List.mem_append_right _ hname)).ne_nil a h

theorem mem_firstAppearances_of_mem (hplain : ∀ name ∈ identities sheets, PlainName name) (h : a ∈ identities sheets) :
    a ∈ firstAppearances sheets :=
  mem_firstAppearances.mpr (.inr ⟨a, h, List.prefix_rfl, ne_nil_of_mem_identities hplain h⟩)

/-- The engine's table is that of first appearances, and its numbers are places there. -/
theorem addSheets_eq (hplain : ∀ name ∈ identities sheets, PlainName name) :
    (addSheets sheets).1.layerNames = (firstAppearances sheets).map (joined engineText) ∧
    (addSheets sheets).1.layerRank = rerank ((firstAppearances sheets).map (joined engineText)) ∧
    (addSheets sheets).1.sheetSerial = sheets.length ∧
    (addSheets sheets).2 = (identities sheets).map fun name => (firstAppearances sheets).idxOf name % 2 ^ 16 := by
  induction sheets using List.reverseRecOn with
  | nil => exact ⟨rfl, rfl, rfl, rfl⟩
  | append_singleton sheets sheet ih =>
    have hplain' := hplain
    rw [identities_concat] at hplain
    have hplainOld : ∀ name ∈ identities sheets, PlainName name :=
      fun name hname => hplain name (List.mem_append_left _ hname)
    obtain ⟨hnames, hrank, hserial, hmentions⟩ := ih hplainOld
    have hsheet := follows_parseSheet (sheets.length + 1) fun name hname => hplain name (List.mem_append_right _ hname)
    have hplainNew : ∀ name ∈ appear (identifyRules (sheets.length + 1) sheet ⟨[], 0, []⟩).names,
        AllOk (PlainPart fun _ => True) name := by
      intro name hname
      obtain ⟨long, hlong, hpre, -⟩ := mem_appear.mp hname
      exact ((hplain long (List.mem_append_right _ hlong)).of_shorter hpre).allOk
    have happear := firstAppearances_concat sheets sheet
    have hmentionsNew := identities_concat sheets sheet
    generalize identifyRules (sheets.length + 1) sheet ⟨[], 0, []⟩ = m at hsheet hplainNew happear hmentionsNew hplain
    have hlayers : (parseSheet sheet).layers.map (engineName (sheets.length + 1)) =
        (appear m.names).map (joined engineText) := by
      rw [hsheet.layers, List.map_map]
      exact List.map_congr_left fun name hname =>
        engineName_joined (hsheet.appear_ok name hname) (mem_appear.mp hname).choose_spec.2.2
    have htable : enterAll (addSheets sheets).1.layerNames ((appear m.names).map (joined engineText)) =
        (firstAppearances (sheets ++ [sheet])).map (joined engineText) := by
      rw [hnames, happear, enterAll_map (fun x y hx hy => joined_inj coding_engineText hx hy)
        (fun name hname => (plainName_of_mem hplainOld hname).allOk) hplainNew, appear, enterAll_enterAll_nil]
    rw [addSheets_concat, LayerTable.addSheet]
    simp only [hserial, hlayers, htable]
    refine ⟨trivial, ?_, by simp, ?_⟩
    · split_ifs with hnil
      · rw [hsheet.layers, List.map_eq_nil_iff, appear] at hnil
        rw [hrank, happear, ← enterAll_enterAll_nil, hnil]
        rfl
      · rfl
    · rw [hmentions, hmentionsNew, List.map_append, hsheet.mentions, List.map_map]
      congr 1
      · refine List.map_congr_left fun name hname => ?_
        rw [happear, idxOf_enterAll (mem_firstAppearances_of_mem hplainOld hname)]
      · refine List.map_congr_left fun name hname => ?_
        have hne := hsheet.ne_nil name hname
        have hlt := List.idxOf_lt_length_of_mem (mem_appear.mpr ⟨name, hname, List.prefix_rfl, hne⟩)
        have hmem : name ∈ identities (sheets ++ [sheet]) := by
          rw [hmentionsNew]
          exact List.mem_append_right _ hname
        rw [Function.comp_apply, Nat.add_sub_cancel, List.getD_eq_getElem?_getD, List.getElem?_map,
          List.getElem?_eq_getElem hlt, List.getElem_idxOf, Option.map_some, Option.getD_some,
          idxOf_map fun y hy heq => joined_inj coding_engineText (plainName_of_mem hplain' hy).allOk
            (hplain' name hmem).allOk heq]

/-! ## Ranks -/

/-- Comparing the places of layers and of those they lie in is the order of layers. -/
theorem pathBefore_iff {firsts : List LayerName} (outer : LayerName) {a b : LayerName}
    (ha : ∀ p ∈ withOuter a, outer ++ p ∈ firsts) :
    pathBefore ((withOuter a).map fun p => firsts.idxOf (outer ++ p))
        ((withOuter b).map fun p => firsts.idxOf (outer ++ p)) = true ↔
      (b <+: a ∧ a ≠ b) ∨ ∃ mid x y restA restB, a = mid ++ x :: restA ∧ b = mid ++ y :: restB ∧
        firsts.idxOf (outer ++ mid ++ [x]) < firsts.idxOf (outer ++ mid ++ [y]) := by
  induction a generalizing outer b with
  | nil => simp [withOuter, pathBefore]
  | cons x a ih =>
    rcases b with _ | ⟨y, b⟩
    · rw [withOuter_cons, inits_eq_cons]
      simp [withOuter, pathBefore]
    rw [withOuter_cons, inits_eq_cons, withOuter_cons, inits_eq_cons]
    simp only [List.map_cons, List.map_map, pathBefore]
    have hx : outer ++ [x] ∈ firsts := ha [x] (mem_withOuter.mpr ⟨⟨a, rfl⟩, by simp⟩)
    by_cases hxy : x = y
    · subst hxy
      have hinner : ∀ p ∈ withOuter a, outer ++ [x] ++ p ∈ firsts := by
        intro p hp
        rw [List.append_assoc]
        exact ha _ (mem_withOuter.mpr ⟨List.prefix_cons_inj x |>.mpr (mem_withOuter.mp hp).1, by simp⟩)
      have hrest := @ih (outer ++ [x]) b hinner
      simp only [List.append_assoc, List.singleton_append] at hrest
      rw [if_pos rfl]
      simp only [Function.comp_def]
      rw [hrest]
      constructor
      · rintro (⟨hpre, hne⟩ | ⟨mid, x', y', restA, restB, rfl, rfl, hlt⟩)
        · exact .inl ⟨List.prefix_cons_inj x |>.mpr hpre, by simpa using hne⟩
        · exact .inr ⟨x :: mid, x', y', restA, restB, rfl, rfl, by simpa using hlt⟩
      · rintro (⟨hpre, hne⟩ | ⟨mid, x', y', restA, restB, hA, hB, hlt⟩)
        · exact .inl ⟨List.prefix_cons_inj x |>.mp hpre, by simpa using hne⟩
        · rcases mid with _ | ⟨z, mid⟩
          · rw [List.nil_append] at hA hB
            rw [← (List.cons.inj hA).1, ← (List.cons.inj hB).1] at hlt
            exact absurd hlt (lt_irrefl _)
          · obtain ⟨rfl, rfl⟩ := List.cons.inj hA
            obtain ⟨-, rfl⟩ := List.cons.inj hB
            exact .inr ⟨mid, x', y', restA, restB, rfl, rfl, by simpa using hlt⟩
    · have hidx : firsts.idxOf (outer ++ [x]) ≠ firsts.idxOf (outer ++ [y]) := by
        intro heq
        have hsame := (List.idxOf_inj hx).mp heq
        exact hxy (by simpa using hsame)
      rw [if_neg hidx, decide_eq_true_eq]
      constructor
      · exact fun hlt => .inr ⟨[], x, y, a, b, rfl, rfl, by simpa using hlt⟩
      · rintro (⟨hpre, -⟩ | ⟨mid, x', y', restA, restB, hA, hB, hlt⟩)
        · exact absurd (List.cons_prefix_cons.mp hpre).1 (Ne.symm hxy)
        · rcases mid with _ | ⟨z, mid⟩
          · rw [List.nil_append] at hA hB
            rw [← (List.cons.inj hA).1, ← (List.cons.inj hB).1] at hlt
            simpa using hlt
          · exact absurd ((List.cons.inj hA).1.trans (List.cons.inj hB).1.symm) hxy

theorem layerBefore_iff_precedes (h : a ∈ firstAppearances sheets) :
    layerBefore (firstAppearances sheets) a b = true ↔ Precedes (firstAppearances sheets) a b := by
  have hmem : ∀ p ∈ withOuter a, [] ++ p ∈ firstAppearances sheets := by
    intro p hp
    obtain ⟨hpre, hne⟩ := mem_withOuter.mp hp
    rcases mem_firstAppearances.mp h with rfl | ⟨name, hname, hlong, -⟩
    · exact absurd (List.prefix_nil.mp hpre) hne
    · exact mem_firstAppearances.mpr (.inr ⟨name, hname, hpre.trans hlong, hne⟩)
  have hpath := @pathBefore_iff (firstAppearances sheets) [] a b hmem
  simp only [List.nil_append] at hpath
  exact hpath

variable {T : List LayerName}

theorem pathOf_map (hplain : ∀ name ∈ T, PlainName name) (hclosed : ∀ name ∈ T, ∀ p ∈ withOuter name, p ∈ T)
    {i : ℕ} (hi : i < T.length) (hne : T[i] ≠ []) :
    pathOf (T.map (joined engineText)) i = layerPath T T[i] := by
  have hmem := List.getElem_mem hi
  have hpart : (T.map (joined engineText)).getD i [] = joined engineText T[i] := by
    rw [List.getD_eq_getElem?_getD, List.getElem?_map, List.getElem?_eq_getElem hi]
    rfl
  rw [pathOf, hpart, dotPrefixes_joined coding_engineText (hplain _ hmem).allOk hne, List.map_map, layerPath]
  refine List.map_congr_left fun p hp => ?_
  rw [Function.comp_apply, List.nil_append]
  exact idxOf_map fun y hy heq => joined_inj coding_engineText (hplain y hy).allOk
    (hplain p (hclosed _ hmem p hp)).allOk heq

theorem getD_of_lt {l : List LayerName} {i : ℕ} (hi : i < l.length) : l.getD i [] = l[i] := by simp [hi]

/-- The rank of a layer is its place in the order of layers. -/
theorem getD_rerank (hnodup : ([] :: T).Nodup) (hplain : ∀ name ∈ [] :: T, PlainName name)
    (hclosed : ∀ name ∈ [] :: T, ∀ p ∈ withOuter name, p ∈ [] :: T) (h : a ∈ T) :
    (rerank (([] :: T).map (joined engineText))).getD (([] :: T).idxOf a) lastRank =
      (layerOrder ([] :: T)).idxOf a := by
  have hne : ∀ name ∈ T, name ≠ [] := fun name hname heq => (List.nodup_cons.mp hnodup).1 (heq ▸ hname)
  have hlt := List.idxOf_lt_length_of_mem h
  have hidx : ([] :: T).idxOf a = T.idxOf a + 1 := List.idxOf_cons_ne _ (Ne.symm (hne a h))
  -- the layer at a place
  let at_ (i : ℕ) : LayerName := ([] :: T).getD i []
  have hat (i : ℕ) (hi : i ∈ List.range' 1 T.length) : ∃ hi : i < ([] :: T).length, at_ i = ([] :: T)[i] ∧ at_ i ≠ [] := by
    obtain ⟨hpos, hle⟩ := List.mem_range'_1.mp hi
    have hi : i < ([] :: T).length := by
      rw [List.length_cons]
      omega
    have hget : at_ i = ([] :: T)[i] := getD_of_lt hi
    refine ⟨hi, hget, ?_⟩
    obtain ⟨k, rfl⟩ : ∃ k, i = k + 1 := ⟨i - 1, by omega⟩
    rw [hget, List.getElem_cons_succ]
    exact hne _ (List.getElem_mem _)
  have hmap : (List.range' 1 T.length).map at_ = T := by
    refine List.ext_getElem (by simp) fun k hk hk' => ?_
    rw [List.getElem_map, List.getElem_range']
    change ([] :: T).getD (1 + 1 * k) [] = _
    rw [one_mul, add_comm, List.getD_cons_succ, getD_of_lt hk']
  have hlength : (([] :: T).map (joined engineText)).length - 1 = T.length := by simp
  have hsort : (order (([] :: T).map (joined engineText))).map at_ = layerOrder ([] :: T) := by
    rw [order, hlength, List.map_insertionSort _ (fun a b => (!layerBefore ([] :: T) b a) = true) at_, hmap, layerOrder,
      List.tail_cons]
    intro i hi j hj
    obtain ⟨hi, hgetI, hneI⟩ := hat i hi
    obtain ⟨hj, hgetJ, hneJ⟩ := hat j hj
    rw [hgetI] at hneI ⊢
    rw [hgetJ] at hneJ ⊢
    rw [pathOf_map hplain hclosed hi hneI, pathOf_map hplain hclosed hj hneJ, layerBefore]
  have hself : at_ (T.idxOf a + 1) = a := by
    change ([] :: T).getD (T.idxOf a + 1) [] = a
    rw [List.getD_cons_succ, getD_of_lt hlt, List.getElem_idxOf]
  have hplace : ∀ i ∈ List.range' 1 T.length, at_ i = at_ (T.idxOf a + 1) → i = T.idxOf a + 1 := by
    intro i hi heq
    obtain ⟨hlen, hget, -⟩ := hat i hi
    rw [hself, hget] at heq
    have hplace : ([] :: T).idxOf ([] :: T)[i] = i := hnodup.idxOf_getElem i hlen
    rw [heq, hidx] at hplace
    exact hplace.symm
  have hmem : ∀ i ∈ order (([] :: T).map (joined engineText)), i ∈ List.range' 1 T.length := by
    intro i hi
    rw [order, hlength] at hi
    exact (List.perm_insertionSort _ _).mem_iff.mp hi
  have hcode : ((order (([] :: T).map (joined engineText))).map at_).idxOf (at_ (T.idxOf a + 1)) =
      (order (([] :: T).map (joined engineText))).idxOf (T.idxOf a + 1) :=
    idxOf_map fun i hi heq => hplace i (hmem i hi) heq
  rw [hidx, rerank, List.getD_cons_succ, hlength, List.getD_eq_getElem?_getD, List.getElem?_map,
    List.getElem?_range' (by omega), Option.map_some, Option.getD_some, one_mul, add_comm 1, ← hcode, hsort, hself]

/-- The layers that sheets mention with the engine's numbers for them, after no layer. -/
def mentionsOf (sheets : List (List LayerRule)) : List (LayerName × ℕ) :=
  ([], 0) :: (identities sheets).zip (addSheets sheets).2

theorem mentionsOf_eq (hplain : ∀ name ∈ identities sheets, PlainName name)
    (hcount : (firstAppearances sheets).length ≤ 2 ^ 16) {i : ℕ} (h : (a, i) ∈ mentionsOf sheets) :
    a ∈ firstAppearances sheets ∧ i = (firstAppearances sheets).idxOf a := by
  obtain ⟨-, -, -, hmentions⟩ := addSheets_eq hplain
  have hnil : ([] : LayerName) ∈ firstAppearances sheets := mem_firstAppearances.mpr (.inl rfl)
  obtain ⟨rest, hrest⟩ : ∃ rest, firstAppearances sheets = [] :: rest := by
    obtain ⟨new, hnew⟩ := prefix_enterAll [[]] ((identities sheets).flatMap withOuter)
    exact ⟨new, hnew.symm⟩
  rw [mentionsOf, hmentions] at h
  rcases List.mem_cons.mp h with heq | h
  · cases heq
    refine ⟨hnil, ?_⟩
    rw [hrest, List.idxOf_cons_self]
  · rw [List.zip_map_right] at h
    obtain ⟨⟨b, b'⟩, hzip, heq⟩ := List.mem_map.mp h
    obtain ⟨n, hn, hget⟩ := List.getElem_of_mem hzip
    rw [List.getElem_zip] at hget
    obtain rfl : b = b' := by
      cases hget
      rfl
    cases heq
    have hmem := mem_firstAppearances_of_mem hplain (List.of_mem_zip hzip).1
    exact ⟨hmem, Nat.mod_eq_of_lt ((List.idxOf_lt_length_of_mem hmem).trans_le hcount)⟩

theorem not_precedes_nil {firsts : List LayerName} : ¬ Precedes firsts [] b := by
  rintro (⟨hpre, hne⟩ | ⟨outer, x, y, restA, restB, hA, -⟩)
  · exact hne (List.prefix_nil.mp hpre).symm
  · simp at hA

theorem precedes_nil {firsts : List LayerName} (h : a ≠ []) : Precedes firsts a [] := .inl ⟨List.nil_prefix, h⟩

theorem rankOf_firstAppearances (hplain : ∀ name ∈ identities sheets, PlainName name) (h : a ∈ firstAppearances sheets) :
    (addSheets sheets).1.rankOf ((firstAppearances sheets).idxOf a) =
      if a = [] then lastRank else (layerOrder (firstAppearances sheets)).idxOf a := by
  obtain ⟨-, hrank, -⟩ := addSheets_eq hplain
  obtain ⟨rest, hrest⟩ : ∃ rest, firstAppearances sheets = [] :: rest := by
    obtain ⟨new, hnew⟩ := prefix_enterAll [[]] ((identities sheets).flatMap withOuter)
    exact ⟨new, hnew.symm⟩
  have hnodup := nodup_firstAppearances sheets
  have hplainT : ∀ name ∈ firstAppearances sheets, PlainName name := fun name => plainName_of_mem hplain
  have hclosed : ∀ name ∈ firstAppearances sheets, ∀ p ∈ withOuter name, p ∈ firstAppearances sheets := by
    intro name hname p hp
    obtain ⟨hpre, hne⟩ := mem_withOuter.mp hp
    rcases mem_firstAppearances.mp hname with rfl | ⟨long, hlong, hlongPrefix, -⟩
    · exact absurd (List.prefix_nil.mp hpre) hne
    · exact mem_firstAppearances.mpr (.inr ⟨long, hlong, hpre.trans hlongPrefix, hne⟩)
  rw [LayerTable.rankOf, hrank]
  rw [hrest] at h hnodup hplainT hclosed ⊢
  split_ifs with hnil
  · rw [hnil, List.idxOf_cons_self]
    rfl
  · exact getD_rerank hnodup hplainT hclosed ((List.mem_cons.mp h).resolve_left hnil)

/-- Where no identifier in the name of a layer holds a dot or starts with U+0001, and the layers have numbers of
16 bits, mentions share a layer as they name the same identifiers, anonymous blocks are shared with none, and
ranks are in the order of layers. -/
theorem layers_of_plain (sheets : List (List LayerRule)) (hplain : ∀ name ∈ identities sheets, PlainName name)
    (hcount : (firstAppearances sheets).length ≤ 2 ^ 16) :
    (identities sheets).length = (addSheets sheets).2.length ∧
    ∀ a i b j, (a, i) ∈ mentionsOf sheets → (b, j) ∈ mentionsOf sheets →
      (i = j ↔ a = b) ∧
      ((addSheets sheets).1.rankOf i < (addSheets sheets).1.rankOf j ↔ Precedes (firstAppearances sheets) a b) := by
  refine ⟨by rw [(addSheets_eq hplain).2.2.2, List.length_map], fun a i b j ha hb => ?_⟩
  obtain ⟨hmemA, rfl⟩ := mentionsOf_eq hplain hcount ha
  obtain ⟨hmemB, rfl⟩ := mentionsOf_eq hplain hcount hb
  refine ⟨List.idxOf_inj hmemA, ?_⟩
  obtain ⟨rest, hrest⟩ : ∃ rest, firstAppearances sheets = [] :: rest := by
    obtain ⟨new, hnew⟩ := prefix_enterAll [[]] ((identities sheets).flatMap withOuter)
    exact ⟨new, hnew.symm⟩
  have htail {name : LayerName} (hname : name ∈ firstAppearances sheets) (hne : name ≠ []) :
      name ∈ (firstAppearances sheets).tail := by
    rw [hrest] at hname ⊢
    exact (List.mem_cons.mp hname).resolve_left hne
  have hlast {name : LayerName} (hname : name ∈ firstAppearances sheets) (hne : name ≠ []) :
      (layerOrder (firstAppearances sheets)).idxOf name < lastRank := by
    have hmem : name ∈ layerOrder (firstAppearances sheets) :=
      (List.perm_insertionSort _ _).mem_iff.mpr (htail hname hne)
    have hlt := List.idxOf_lt_length_of_mem hmem
    have hlength : (layerOrder (firstAppearances sheets)).length = (firstAppearances sheets).length - 1 := by
      rw [layerOrder, List.length_insertionSort, List.length_tail]
    have hbound : (2 : ℕ) ^ 16 < lastRank := by decide
    omega
  rw [rankOf_firstAppearances hplain hmemA, rankOf_firstAppearances hplain hmemB]
  by_cases hanil : a = []
  · subst hanil
    rw [if_pos rfl]
    refine iff_of_false ?_ not_precedes_nil
    split_ifs with hbnil
    · exact lt_irrefl _
    · exact (hlast hmemB hbnil).le.not_gt
  · rw [if_neg hanil]
    by_cases hbnil : b = []
    · subst hbnil
      rw [if_pos rfl]
      exact iff_of_true (hlast hmemA hanil) (precedes_nil hanil)
    · rw [if_neg hbnil, idxOf_layerOrder_lt (htail hmemA hanil) (htail hmemB hbnil)]
      exact layerBefore_iff_precedes hmemA

/-- `@layer a.b, c; @layer { @layer a; }`, and a sheet `@layer c { @layer { } }`. -/
def someSheets : List (List LayerRule) :=
  [[.statement [[.ident (ascii "a"), .delim (ascii "."), .ident (ascii "b")], [.ident (ascii "c")]],
      .block [] [.statement [[.ident (ascii "a")]]]],
    [.block [.ident (ascii "c")] [.block [] []]]]

theorem layers_of_someSheets :
    (identities someSheets).length = (addSheets someSheets).2.length ∧
    ∀ a i b j, (a, i) ∈ mentionsOf someSheets → (b, j) ∈ mentionsOf someSheets →
      (i = j ↔ a = b) ∧
      ((addSheets someSheets).1.rankOf i < (addSheets someSheets).1.rankOf j ↔
        Precedes (firstAppearances someSheets) a b) := by
  refine layers_of_plain someSheets (fun name hname text htext => ?_) (by decide)
  have htexts : text ∈ [ascii "a", ascii "b", ascii "c"] := by
    have hall : (identities someSheets).all (·.all fun x =>
        x ∈ [Segment.named (ascii "a"), .named (ascii "b"), .named (ascii "c"), .anonymous 1 1, .anonymous 2 1]) = true := by
      decide
    have hmem := List.all_eq_true.mp (List.all_eq_true.mp hall name hname) _ htext
    simpa using hmem
  simp only [List.mem_cons, List.not_mem_nil, or_false] at htexts
  rcases htexts with rfl | rfl | rfl <;> exact ⟨by decide, by decide, by decide⟩

/-- An anonymous block is shared with an identifier that escapes spell, `@layer { } @layer \1 1 { }`, and so
are `@layer a\.b` and `@layer a.b`. -/
theorem not_layers_of_sheets :
    ¬ (∀ (sheets : List (List LayerRule)) (a b : LayerName) (i j : ℕ), (a, i) ∈ mentionsOf sheets →
      (b, j) ∈ mentionsOf sheets → (i = j ↔ a = b)) ∧
    (addSheets [[.statement [[.ident (ascii "a.b")], [.ident (ascii "a"), .delim (ascii "."), .ident (ascii "b")]]]]).2 =
      [2, 2] := by
  refine ⟨fun h => ?_, by decide⟩
  have hsame := h [[.block [] [], .block [.ident (anonymousMark :: ascii "1")] []]] [.anonymous 1 1]
    [.named (anonymousMark :: ascii "1")] 1 1 (by decide) (by decide)
  exact absurd (hsame.mp rfl) (by decide)

end CtBrowser.Style.LayerNames
