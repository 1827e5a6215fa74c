import CtBrowser.Core.Text
import CtBrowser.Foundations.StableOrder

/-!
# Sheets in the Style Engine

What the engine keeps of the sheets it is given. A parsed sheet names its layers and lists its
rules; adding it merges the layers into the engine's table by name, ranks the table anew, and
files one rule for every pair of a selector and a declaration, in the bucket of the
selector's rightmost compound.

A declaration is known by its sheet and its number there, a selector by its sheet, its rule
and its place in the rule's list; they stand for the indices into the engine's vectors.

## Main definitions

- `Stylesheet` — what the parser hands over.
- `Engine.addSheet` — how the engine files a sheet.
- `rerankLayers` — the order of the layers.

## Main results

- `index_addSheets` — what the buckets hold after any sheets have been added.
-/

namespace CtBrowser.Style

open Foundations.StableOrder

/-- An interned string. -/
abbrev Atom := ℕ

/-- Who a sheet comes from. -/
inductive Origin
  | userAgent
  | author
deriving DecidableEq, Repr

/-- A part of a layer's name. A sheet numbers its anonymous layers; the engine adds the serial
of the sheet, which is 0 until then. -/
inductive Segment
  | named (name : Text)
  | anonymous (serial number : ℕ)
deriving DecidableEq, Repr

/-- The name of a layer, the outermost part first; the empty name is no layer. -/
abbrev LayerName := List Segment

/-- What filing and sorting read of a compiled selector: the name tests of its rightmost
compound, and its specificity. -/
structure SheetSelector where
  id : Option Atom
  classes : List Atom
  tag : Option Atom
  tagExact : Option Atom
  spec : ℕ
  neverMatches : Bool
deriving DecidableEq, Repr

/-- One declaration of a sheet. -/
structure RawDeclaration where
  -- counted over the whole sheet
  order : ℕ
  important : Bool
deriving DecidableEq, Repr

/-- One rule of a sheet; `layer` counts the sheet's layers from 1, and 0 is none. -/
structure RawRule where
  selectors : List SheetSelector
  declarations : List RawDeclaration
  layer : ℕ
deriving DecidableEq, Repr

/-- A parsed sheet. -/
structure Stylesheet where
  layers : List LayerName
  rules : List RawRule
  -- a layer is declared with the layers it lies in
  closed : ∀ name ∈ layers, ∀ outer ∈ name.inits, outer ≠ [] → outer ∈ layers
  layer_le : ∀ rule ∈ rules, rule.layer ≤ layers.length
  numbered : ((rules.flatMap RawRule.declarations).map RawDeclaration.order).Pairwise (· < ·)

/-- The sheets in the order they are added, with their origins. -/
abbrev Sheets := List (Origin × Stylesheet)

/-! ### Filing -/

/-- The place of a selector: its sheet, its rule there, and its place in the rule's list. -/
structure SelectorPlace where
  sheet : ℕ
  rule : ℕ
  alternative : ℕ
deriving DecidableEq, Repr

/-- The place of a declaration: its sheet and its number there. -/
structure DeclarationPlace where
  sheet : ℕ
  number : ℕ
deriving DecidableEq, Repr

/-- A selector and a declaration of its rule, as the sheet has them. -/
structure Filed where
  selector : SelectorPlace
  compiled : SheetSelector
  layerName : LayerName
  order : ℕ
  origin : Origin
  important : Bool
deriving DecidableEq, Repr

/-- A rule as the engine files it. `layer` is the index of its layer in the engine's table,
`proximity` how far its scoping root is, 0xFFFF when it has none. -/
structure Rule extends Filed where
  layer : ℕ
  proximity : ℕ
deriving DecidableEq, Repr

/-- The declaration a rule is about. -/
def Filed.declaration (f : Filed) : DeclarationPlace := ⟨f.selector.sheet, f.order⟩

/-- What rules are filed under. -/
inductive BucketKey
  | byId (id : Atom)
  | byClass (name : Atom)
  | byTag (tag : Atom)
  | universal
deriving DecidableEq, Repr

/-- The buckets of a selector: by id, else by the first class, else by tag in both spellings,
else the universal one. -/
def SheetSelector.buckets (sel : SheetSelector) : List BucketKey :=
  match sel.id, sel.classes, sel.tag with
  | some id, _, _ => [.byId id]
  | none, name :: _, _ => [.byClass name]
  | none, [], some tag =>
    .byTag tag :: (sel.tagExact.toList.filter (· ≠ tag)).map BucketKey.byTag
  | none, [], none => [.universal]

/-- The rules filed under each key, the oldest first. -/
abbrev RuleIndex := BucketKey → List Rule

/-- A rule goes to the end of every bucket of its selector. -/
def RuleIndex.add (index : RuleIndex) (r : Rule) : RuleIndex := fun key =>
  if key ∈ r.compiled.buckets then index key ++ [r] else index key

/-! ### Layers -/

/-- An anonymous part of a name is made unique to its sheet. -/
def Segment.inSheet (serial : ℕ) : Segment → Segment
  | .named name => .named name
  | .anonymous _ number => .anonymous serial number

/-- The engine's name for a layer of a sheet. -/
def LayerName.inSheet (serial : ℕ) (name : LayerName) : LayerName := name.map (Segment.inSheet serial)

/-- A sheet's layers join the table, those that are there already keeping their place. -/
def mergeLayers (serial : ℕ) (names : List LayerName) (layers : List LayerName) : List LayerName :=
  layers.foldl
    (fun names name =>
      if LayerName.inSheet serial name ∈ names then names
      else names ++ [LayerName.inSheet serial name]) names

/-- The indices of a layer and of those it lies in, the outermost first. -/
def layerPath (names : List LayerName) (name : LayerName) : List ℕ :=
  name.inits.tail.map names.idxOf

/-- One path of indices comes before another: at the first difference, or as the longer one
when there is none. -/
def pathBefore : List ℕ → List ℕ → Bool
  | a :: as, b :: bs => if a = b then pathBefore as bs else a < b
  | _ :: _, [] => true
  | [], _ => false

/-- A layer comes before another in the order of a table of names. -/
def layerBefore (names : List LayerName) (a b : LayerName) : Bool :=
  pathBefore (layerPath names a) (layerPath names b)

/-- The rank of rules in no layer, which no other reaches. -/
def unlayeredRank : WithTop ℕ := ⊤

/-- The layers of a table, in order. -/
def layerOrder (names : List LayerName) : List LayerName :=
  names.tail.insertionSort fun a b => !layerBefore names b a

/-- The rank of every entry of a table: its place in the order, and for no layer the last. -/
def rerankLayers (names : List LayerName) : List (WithTop ℕ) :=
  unlayeredRank :: names.tail.map fun name => ((layerOrder names).idxOf name : WithTop ℕ)

/-! ### Adding a sheet -/

/-- What of the engine the cascade uses. -/
structure Engine where
  -- entry 0 is no layer
  layerNames : List LayerName
  layerRank : List (WithTop ℕ)
  sheetSerial : ℕ
  index : RuleIndex

/-- An engine without sheets. -/
def Engine.new : Engine := ⟨[[]], [unlayeredRank], 0, fun _ => []⟩

/-- The engine's name for the layer of a rule. -/
def Stylesheet.layerNameOf (sheet : Stylesheet) (serial : ℕ) (raw : RawRule) : LayerName :=
  if raw.layer = 0 then [] else (sheet.layers[raw.layer - 1]?.getD []).map (Segment.inSheet serial)

/-- Every pair of a selector that can match and a declaration of its rule. -/
def Stylesheet.declared (sheet : Stylesheet) (serial : ℕ) (origin : Origin) : List Filed :=
  sheet.rules.zipIdx.flatMap fun raw => raw.1.selectors.zipIdx.flatMap fun sel =>
    if sel.1.neverMatches then []
    else raw.1.declarations.map fun d =>
      ⟨⟨serial, raw.2, sel.2⟩, sel.1, sheet.layerNameOf serial raw.1, d.order, origin, d.important⟩

/-- The rule filed for a selector and a declaration; the index of a layer has 16 bits. -/
def Filed.toRuleIn (names : List LayerName) (f : Filed) : Rule :=
  ⟨f, names.idxOf f.layerName % 2 ^ 16, 0xFFFF⟩

/-- A sheet is added: its layers are merged and ranked, and its rules filed. -/
def Engine.addSheet (e : Engine) (origin : Origin) (sheet : Stylesheet) : Engine :=
  let serial := e.sheetSerial + 1
  let names := mergeLayers serial e.layerNames sheet.layers
  ⟨names, if sheet.layers = [] then e.layerRank else rerankLayers names, serial,
    ((sheet.declared serial origin).map (Filed.toRuleIn names)).foldl RuleIndex.add e.index⟩

/-- The engine after a sequence of sheets. -/
def Engine.addSheets (sheets : Sheets) : Engine :=
  sheets.foldl (fun e s => e.addSheet s.1 s.2) .new

/-- The rank of a layer. -/
def Engine.rankOf (e : Engine) (layer : ℕ) : WithTop ℕ := e.layerRank[layer]?.getD unlayeredRank

/-! ### What the engine holds -/

/-- The layers that the sheets of some origins declare, in order of first appearance. -/
def layersOf (of : Origin → Bool) (sheets : Sheets) : List LayerName :=
  sheets.zipIdx.foldl
    (fun names s => if of s.1.1 then mergeLayers (s.2 + 1) names s.1.2.layers else names) [[]]

/-- The layers of all sheets. -/
abbrev allLayers (sheets : Sheets) : List LayerName := layersOf (fun _ => true) sheets

/-- Every pair of a selector and a declaration of its rule, over all sheets in order. -/
def declaredIn (sheets : Sheets) : List Filed :=
  sheets.zipIdx.flatMap fun s => s.1.2.declared (s.2 + 1) s.1.1

theorem addSheets_concat (sheets : Sheets) (s : Origin × Stylesheet) :
    Engine.addSheets (sheets ++ [s]) = (Engine.addSheets sheets).addSheet s.1 s.2 := by
  rw [Engine.addSheets, List.foldl_append, List.foldl_cons, List.foldl_nil, Engine.addSheets]

theorem layersOf_concat (of : Origin → Bool) (sheets : Sheets) (s : Origin × Stylesheet) :
    layersOf of (sheets ++ [s]) = if of s.1 then
      mergeLayers (sheets.length + 1) (layersOf of sheets) s.2.layers else layersOf of sheets := by
  rw [layersOf, List.zipIdx_append, List.foldl_append]
  simp [layersOf]

theorem declaredIn_concat (sheets : Sheets) (s : Origin × Stylesheet) :
    declaredIn (sheets ++ [s]) = declaredIn sheets ++ s.2.declared (sheets.length + 1) s.1 := by
  rw [declaredIn, List.zipIdx_append, List.flatMap_append]
  simp [declaredIn]

theorem allLayers_concat (sheets : Sheets) (s : Origin × Stylesheet) :
    allLayers (sheets ++ [s]) =
      mergeLayers (sheets.length + 1) (allLayers sheets) s.2.layers := by
  rw [allLayers, layersOf_concat, if_pos rfl]

theorem sheetSerial_addSheets (sheets : Sheets) :
    (Engine.addSheets sheets).sheetSerial = sheets.length := by
  induction sheets using List.reverseRecOn with
  | nil => rfl
  | append_singleton sheets s ih =>
    rw [addSheets_concat, Engine.addSheet, ih, List.length_append, List.length_singleton]

theorem layerNames_addSheets (sheets : Sheets) :
    (Engine.addSheets sheets).layerNames = allLayers sheets := by
  induction sheets using List.reverseRecOn with
  | nil => rfl
  | append_singleton sheets s ih =>
    rw [addSheets_concat, allLayers_concat, Engine.addSheet, ih, sheetSerial_addSheets]

theorem layerRank_addSheets (sheets : Sheets) :
    (Engine.addSheets sheets).layerRank = rerankLayers (allLayers sheets) := by
  induction sheets using List.reverseRecOn with
  | nil => rfl
  | append_singleton sheets s ih =>
    have hnames := layerNames_addSheets (sheets ++ [s])
    rw [addSheets_concat] at hnames ⊢
    rw [← hnames, Engine.addSheet]
    dsimp only
    split
    · next hnone => rw [hnone, ih, layerNames_addSheets, mergeLayers, List.foldl_nil]
    · rfl

theorem foldl_add (rules : List Rule) (index : RuleIndex) (key : BucketKey) :
    rules.foldl RuleIndex.add index key =
      index key ++ rules.filter fun r => key ∈ r.compiled.buckets := by
  induction rules generalizing index with
  | nil => simp
  | cons r rules ih =>
    rw [List.foldl_cons, ih, RuleIndex.add]
    by_cases hkey : key ∈ r.compiled.buckets <;> simp [hkey]

theorem prefix_mergeLayers (serial : ℕ) (names layers : List LayerName) :
    names <+: mergeLayers serial names layers := by
  induction layers generalizing names with
  | nil => exact List.prefix_rfl
  | cons name layers ih =>
    rw [mergeLayers, List.foldl_cons]
    refine List.IsPrefix.trans ?_ (ih _)
    split
    · exact List.prefix_rfl
    · exact List.prefix_append ..

theorem mem_mergeLayers (serial : ℕ) (names : List LayerName) {layers : List LayerName}
    {name : LayerName} (h : name ∈ layers) :
    LayerName.inSheet serial name ∈ mergeLayers serial names layers := by
  induction layers generalizing names with
  | nil => cases h
  | cons first layers ih =>
    rcases List.mem_cons.mp h with rfl | hrest
    · apply (prefix_mergeLayers serial _ layers).subset
      dsimp only
      split
      · assumption
      · simp
    · exact ih _ hrest

theorem layerNameOf_mem {sheet : Stylesheet} {raw : RawRule} (hraw : raw ∈ sheet.rules)
    (serial : ℕ) {names : List LayerName} (hnone : [] ∈ names) :
    sheet.layerNameOf serial raw ∈ mergeLayers serial names sheet.layers := by
  rw [Stylesheet.layerNameOf]
  split
  · exact (prefix_mergeLayers ..).subset hnone
  · next hlayer =>
    have hlt : raw.layer - 1 < sheet.layers.length := by
      have := sheet.layer_le raw hraw
      omega
    rw [List.getElem?_eq_getElem hlt, Option.getD_some]
    exact mem_mergeLayers serial names (List.getElem_mem hlt)

theorem mem_declared {sheet : Stylesheet} {serial : ℕ} {origin : Origin} {f : Filed} :
    f ∈ sheet.declared serial origin ↔
      ∃ raw sel d, sheet.rules[f.selector.rule]? = some raw ∧
        raw.selectors[f.selector.alternative]? = some sel ∧ sel.neverMatches = false ∧
        d ∈ raw.declarations ∧
        f = ⟨⟨serial, f.selector.rule, f.selector.alternative⟩, sel, sheet.layerNameOf serial raw,
          d.order, origin, d.important⟩ := by
  simp only [Stylesheet.declared, List.mem_flatMap, List.mem_zipIdx_iff_getElem?]
  constructor
  · rintro ⟨raw, hraw, sel, hsel, hf⟩
    split at hf
    · cases hf
    · next hnever =>
      obtain ⟨d, hd, rfl⟩ := List.mem_map.mp hf
      exact ⟨raw.1, sel.1, d, hraw, hsel, by simpa using hnever, hd, rfl⟩
  · rintro ⟨raw, sel, d, hraw, hsel, hnever, hd, hf⟩
    refine ⟨(raw, _), hraw, (sel, _), hsel, ?_⟩
    rw [hnever, if_neg Bool.false_ne_true]
    exact List.mem_map.mpr ⟨d, hd, hf.symm⟩

theorem nodup_layersOf (of : Origin → Bool) (sheets : Sheets) : (layersOf of sheets).Nodup := by
  have hmerge : ∀ (serial : ℕ) (layers names : List LayerName), names.Nodup →
      (mergeLayers serial names layers).Nodup := by
    intro serial layers
    induction layers with
    | nil => exact fun _ hnames => hnames
    | cons first layers ih =>
      intro names hnames
      apply ih
      dsimp only
      split
      · exact hnames
      · next hfresh =>
        refine List.nodup_append.mpr ⟨hnames, List.nodup_singleton _, ?_⟩
        rintro a ha b hb rfl
        exact hfresh (List.mem_singleton.mp hb ▸ ha)
  induction sheets using List.reverseRecOn with
  | nil => exact List.nodup_singleton _
  | append_singleton sheets s ih =>
    rw [layersOf_concat]
    split
    · exact hmerge _ _ _ ih
    · exact ih

theorem nil_mem_layersOf (of : Origin → Bool) (sheets : Sheets) : [] ∈ layersOf of sheets := by
  induction sheets using List.reverseRecOn with
  | nil => exact List.mem_singleton.mpr rfl
  | append_singleton sheets s ih =>
    rw [layersOf_concat]
    split
    · exact (prefix_mergeLayers ..).subset ih
    · exact ih

theorem layerName_mem {sheets : Sheets} {f : Filed} (hf : f ∈ declaredIn sheets) :
    f.layerName ∈ allLayers sheets := by
  induction sheets using List.reverseRecOn with
  | nil => cases hf
  | append_singleton sheets s ih =>
    rw [allLayers_concat]
    rw [declaredIn_concat] at hf
    rcases List.mem_append.mp hf with hold | hnew
    · exact (prefix_mergeLayers ..).subset (ih hold)
    · obtain ⟨raw, sel, d, hraw, -, -, -, heq⟩ := mem_declared.mp hnew
      rw [heq]
      exact layerNameOf_mem (List.mem_of_getElem? hraw) _ (nil_mem_layersOf _ sheets)

theorem toRuleIn_of_later {names later : List LayerName} (h : names <+: later) {f : Filed}
    (hf : f.layerName ∈ names) : f.toRuleIn later = f.toRuleIn names := by
  obtain ⟨new, rfl⟩ := h
  rw [Filed.toRuleIn, Filed.toRuleIn, List.idxOf_append_of_mem hf]

/-- After any sheets, a bucket holds the rules of all the pairs that belong there, in the order
of the sheets, each with the index its layer has in the whole table. -/
theorem index_addSheets (sheets : Sheets) (key : BucketKey) :
    (Engine.addSheets sheets).index key =
      ((declaredIn sheets).filter fun f => key ∈ f.compiled.buckets).map
        (Filed.toRuleIn (allLayers sheets)) := by
  induction sheets using List.reverseRecOn with
  | nil => rfl
  | append_singleton sheets s ih =>
    have hprefix : allLayers sheets <+:
        mergeLayers (sheets.length + 1) (allLayers sheets) s.2.layers :=
      prefix_mergeLayers ..
    rw [addSheets_concat, allLayers_concat, declaredIn_concat, Engine.addSheet]
    dsimp only
    rw [foldl_add, ih, List.filter_append, List.map_append, sheetSerial_addSheets,
      layerNames_addSheets, List.filter_map]
    congr 1
    refine List.map_congr_left fun f hf => ?_
    exact (toRuleIn_of_later hprefix (layerName_mem (List.mem_filter.mp hf).1)).symm

end CtBrowser.Style
