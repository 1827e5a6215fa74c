import CtBrowser.Dom.Document
import CtBrowser.Dom.Tokenizer.Token

/-!
# Element Families of the Tree Builder

The entries of the stack of open elements and of the list of active formatting elements, and
the families of tags that the insertion modes ask about.

## Main definitions

- `Entry` — an element on the stack of open elements.
- `Formatting` — an entry of the list of active formatting elements.
- `isSpecial`, `isScopeBoundary` — what stops a walk down the stack.
-/

namespace CtBrowser.Dom

/-! ## Families of tags -/

/-- The formatting elements. -/
def isFormattingElement (tag : Text) : Bool :=
  oneOf tag ["a", "b", "big", "code", "em", "font", "i", "nobr", "s", "small", "strike", "strong",
    "tt", "u"]

/-- The special HTML elements. -/
def isSpecialElement (tag : Text) : Bool :=
  oneOf tag ["address", "applet", "area", "article", "aside", "base", "basefont", "bgsound",
    "blockquote", "body", "br", "button", "caption", "center", "col", "colgroup", "dd", "details",
    "dir", "div", "dl", "dt", "embed", "fieldset", "figcaption", "figure", "footer", "form",
    "frame", "frameset", "h1", "h2", "h3", "h4", "h5", "h6", "head", "header", "hgroup", "hr",
    "html", "iframe", "img", "input", "keygen", "li", "link", "listing", "main", "marquee",
    "menu", "meta", "nav", "noembed", "noframes", "noscript", "object", "ol", "p", "param",
    "plaintext", "pre", "script", "search", "section", "select", "source", "style", "summary",
    "table", "tbody", "td", "template", "textarea", "tfoot", "th", "thead", "title", "tr",
    "track", "ul", "wbr", "xmp"]

/-- The content model a tag switches the tokenizer into. -/
def contentModelFor (tag : Text) : ContentModel :=
  if oneOf tag ["title", "textarea"] then .rcdata
  else if oneOf tag ["style", "xmp", "iframe", "noembed", "noframes", "noscript"] then .rawtext
  else if tag = ascii "script" then .script
  else if tag = ascii "plaintext" then .plaintext
  else .data

/-- MathML is the only other vocabulary the parser makes. -/
def isMathml (ns : NodeNs) : Bool := ns = .other

/-- The SVG elements whose children are HTML. -/
def isHtmlIntegrationPoint (tag : Text) : Bool := oneOf tag ["foreignObject", "desc", "title"]

/-- The MathML elements whose children are HTML. -/
def isMathmlTextIntegrationPoint (tag : Text) : Bool := oneOf tag ["mi", "mo", "mn", "ms", "mtext"]

/-- The start tags that break out of foreign content. -/
def breaksOutOfForeignContent (tag : Text) : Bool :=
  oneOf tag ["b", "big", "blockquote", "body", "br", "center", "code", "dd", "div", "dl", "dt",
    "em", "embed", "h1", "h2", "h3", "h4", "h5", "h6", "head", "hr", "i", "img", "li", "listing",
    "menu", "meta", "nobr", "ol", "p", "pre", "ruby", "s", "small", "span", "strong", "strike",
    "sub", "sup", "table", "tt", "u", "ul", "var"]

/-- The heading tags. -/
def isHeading (tag : Text) : Bool := oneOf tag ["h1", "h2", "h3", "h4", "h5", "h6"]

/-- The table section tags. -/
def isTableSection (tag : Text) : Bool := oneOf tag ["tbody", "tfoot", "thead"]

/-- The names SVG spells in mixed case, by their lowercase form. -/
def svgTags : List (String × String) :=
  [("altglyph", "altGlyph"), ("altglyphdef", "altGlyphDef"), ("altglyphitem", "altGlyphItem"),
    ("animatecolor", "animateColor"), ("animatemotion", "animateMotion"),
    ("animatetransform", "animateTransform"), ("clippath", "clipPath"), ("feblend", "feBlend"),
    ("fecolormatrix", "feColorMatrix"), ("fecomponenttransfer", "feComponentTransfer"),
    ("fecomposite", "feComposite"), ("feconvolvematrix", "feConvolveMatrix"),
    ("fediffuselighting", "feDiffuseLighting"), ("fedisplacementmap", "feDisplacementMap"),
    ("fedistantlight", "feDistantLight"), ("fedropshadow", "feDropShadow"),
    ("feflood", "feFlood"), ("fefunca", "feFuncA"), ("fefuncb", "feFuncB"),
    ("fefuncg", "feFuncG"), ("fefuncr", "feFuncR"), ("fegaussianblur", "feGaussianBlur"),
    ("feimage", "feImage"), ("femerge", "feMerge"), ("femergenode", "feMergeNode"),
    ("femorphology", "feMorphology"), ("feoffset", "feOffset"), ("fepointlight", "fePointLight"),
    ("fespecularlighting", "feSpecularLighting"), ("fespotlight", "feSpotLight"),
    ("fetile", "feTile"), ("feturbulence", "feTurbulence"), ("foreignobject", "foreignObject"),
    ("glyphref", "glyphRef"), ("lineargradient", "linearGradient"),
    ("radialgradient", "radialGradient"), ("textpath", "textPath")]

/-- The name SVG gives a lowercased tag. -/
def adjustSvgTag (lower : Text) : Text :=
  match svgTags.find? fun row => ascii row.1 == lower with
  | some row => ascii row.2
  | none => lower

/-! ## Entries -/

/-- One element on the stack of open elements. -/
structure Entry where
  id : NodeId
  tag : Text
  ns : NodeNs := .html
  -- decided when the element is pushed, when its attributes are at hand
  htmlIntegrationPoint : Bool := false
deriving DecidableEq, Repr

/-- A formatting element remembered so that it can be opened again. -/
structure Formatting where
  id : NodeId := 0
  tag : Text := []
  attributes : List TokenAttribute := []
  -- a scope boundary rather than an element
  marker : Bool := false
deriving DecidableEq, Repr

/-- The entry of an element made for a tag. -/
def makeEntry (id : NodeId) (tag : Text) (ns : NodeNs) (attributes : List TokenAttribute) : Entry :=
  let integration :=
    if ns = .svg then isHtmlIntegrationPoint tag
    else if isMathml ns && tag == ascii "annotation-xml" then
      match attributes.find? fun a => a.name == ascii "encoding" with
      | some a => asciiIequals a.value (ascii "text/html") ||
          asciiIequals a.value (ascii "application/xhtml+xml")
      | none => false
    else false
  ⟨id, tag, ns, integration⟩

namespace Entry

/-- Whether the entry is the HTML element of the name. -/
def isHtml (e : Entry) (name : String) : Bool := e.ns = .html && e.tag == ascii name

/-- Whether the entry is an HTML element of one of the names. -/
def isHtmlOneOf (e : Entry) (names : List String) : Bool := e.ns = .html && oneOf e.tag names

/-- Whether the entry is an `svg` element. -/
def isSvg (e : Entry) : Bool := e.ns = .svg && e.tag == ascii "svg"

/-- The special elements, the integration points of both foreign vocabularies among them. -/
def isSpecial (e : Entry) : Bool :=
  match e.ns with
  | .html => isSpecialElement e.tag
  | .svg => isHtmlIntegrationPoint e.tag
  | .other => isMathmlTextIntegrationPoint e.tag || e.tag == ascii "annotation-xml"

end Entry

/-- The scopes an element can be in. -/
inductive Scope
  | default
  | listItem
  | button
  | table
deriving DecidableEq, Repr

/-- Whether an entry ends the walk down the stack for a scope. -/
def isScopeBoundary (e : Entry) (which : Scope) : Bool :=
  if e.ns ≠ .html then which != .table && e.isSpecial
  else
    let others := oneOf e.tag ["applet", "caption", "html", "table", "td", "th", "marquee",
      "object", "select", "template"]
    match which with
    | .table => oneOf e.tag ["html", "table", "template"]
    | .listItem => oneOf e.tag ["ol", "ul"] || others
    | .button => e.tag == ascii "button" || others
    | .default => others

end CtBrowser.Dom
