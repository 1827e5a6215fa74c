import CtBrowser.Shell.Net.Url.Record

/-!
# The Basic URL Parser

The state machine of the URL standard. It reads one code point at a time, may step back, and
builds a record; a setter starts it in the middle, on a record that exists.

## Main definitions

- `State`, `Parser` — the states, and the variables of a run.
- `Parser.step` — what one code point does, one definition for each state.
- `Parser.run`, `basicParse` — the loop.
-/

namespace CtBrowser.Shell.Url

/-- The states of the parser. -/
inductive State
  | schemeStart | scheme | noScheme | specialRelativeOrAuthority | pathOrAuthority | relative
  | relativeSlash | specialAuthoritySlashes | specialAuthorityIgnoreSlashes | authority | host
  | hostname | port | file | fileSlash | fileHost | pathStart | path | opaquePath | query | fragment
deriving DecidableEq, Repr

/-- What stays the same during a run. -/
structure Env where
  tables : UnicodeTables
  base : Option UrlRecord
  input : List ℕ
  -- the state a setter starts in
  override : Option State

/-- The variables of a run. -/
structure Parser where
  st : State
  buffer : List ℕ := []
  atSignSeen : Bool := false
  insideBrackets : Bool := false
  passwordTokenSeen : Bool := false
  p : ℤ := 0
  url : UrlRecord
deriving DecidableEq, Repr

/-- What a code point leads to: the end, or more. -/
inductive Outcome
  | stop (ok : Bool) (url : UrlRecord)
  | go (s : Parser)
deriving DecidableEq, Repr

namespace Env

variable (env : Env)

/-- The code point at the pointer. -/
def at' (p : ℤ) : Reading := if 0 ≤ p then env.input[p.toNat]? else none

/-- Whether the code point after the pointer is the character `x`. -/
def remainingStartsWith (p : ℤ) (x : Char) : Bool := env.at' (p + 1) = some x.toNat

/-- What is left from the pointer on. -/
def fromPointer (p : ℤ) : List ℕ := env.input.drop p.toNat

/-- Whether a setter runs the parser. -/
def overriding : Bool := env.override.isSome

end Env

/-- The end of an authority or a path segment. -/
def isEnd (special : Bool) (c : Reading) : Prop :=
  c = none ∨ c.Is '/' ∨ c.Is '?' ∨ c.Is '#' ∨ special = true ∧ c.Is '\\'

instance (special : Bool) (c : Reading) : Decidable (isEnd special c) :=
  inferInstanceAs (Decidable (_ ∨ _))

namespace Parser

/-- Go to a state. -/
@[simp] def goto (s : Parser) (st : State) : Outcome := .go { s with st }

/-- Go to a state and read the same code point again. -/
@[simp] def gotoAgain (s : Parser) (st : State) : Outcome := .go { s with st, p := s.p - 1 }

/-- Add a code point to the buffer. -/
@[simp] def push (s : Parser) (c : ℕ) : Parser := { s with buffer := s.buffer ++ [c] }

/-- Start an empty query. -/
@[simp] def startQuery (s : Parser) : Outcome :=
  .go { s with st := .query, url := { s.url with query := some [] } }

/-- Start an empty fragment. -/
@[simp] def startFragment (s : Parser) : Outcome :=
  .go { s with st := .fragment, url := { s.url with fragment := some [] } }

/-- Copy the authority of the base. -/
@[simp] def copyAuthority (s : Parser) (base : UrlRecord) : Parser :=
  { s with
    url := { s.url with
      username := base.username, password := base.password, host := base.host
      port := base.port } }

variable (env : Env) (s : Parser) (c : Reading)

/-! ## Schemes -/

def schemeStart : Outcome :=
  match c with
  | some x =>
    if isAlpha x then .go { s.push (lower x) with st := .scheme }
    else if env.overriding then .stop false s.url else s.gotoAgain .noScheme
  | none => if env.overriding then .stop false s.url else s.gotoAgain .noScheme

/-- Whether a setter must keep the scheme. -/
def keepsScheme (scheme : Text) : Bool :=
  specialScheme s.url.scheme != specialScheme scheme ||
    ((s.url.hasCredentials || s.url.port.isSome) && scheme = ascii "file") ||
    (s.url.scheme = ascii "file" && s.url.host = some [])

/-- The scheme was read. -/
def schemeEnd : Outcome :=
  let scheme := utf8Of s.buffer
  if env.overriding then
    if s.keepsScheme scheme then .stop true s.url
    else
      let port := if s.url.port.isSome ∧ s.url.port = defaultPort scheme then none else s.url.port
      .stop true { s.url with scheme, port }
  else
    let s := { s with buffer := [], url := { s.url with scheme } }
    if scheme = ascii "file" then s.goto .file
    else if s.url.isSpecial ∧ env.base.any (·.scheme = scheme) then
      s.goto .specialRelativeOrAuthority
    else if s.url.isSpecial then s.goto .specialAuthoritySlashes
    else if env.remainingStartsWith s.p '/' then
      .go { s with st := .pathOrAuthority, p := s.p + 1 }
    else
      .go { s with st := .opaquePath, url := { s.url with opaquePath := true, path := [[]] } }

/-- The code point cannot be in a scheme: start over without one. -/
def schemeFail : Outcome :=
  if env.overriding then .stop false s.url
  else .go { s with buffer := [], st := .noScheme, p := -1 }

def scheme : Outcome :=
  match c with
  | some x =>
    if isAlpha x ∨ isDigit x ∨ x ∈ points "+-." then .go (s.push (lower x))
    else if x = ':'.toNat then s.schemeEnd env
    else s.schemeFail env
  | none => s.schemeFail env

def noScheme : Outcome :=
  match env.base with
  | none => .stop false s.url
  | some base =>
    if base.opaquePath then
      if c.Is '#' then
        .go { s with
          st := .fragment
          url := { s.url with
            scheme := base.scheme, path := base.path, opaquePath := true, query := base.query
            fragment := some [] } }
      else .stop false s.url
    else if base.scheme ≠ ascii "file" then s.gotoAgain .relative
    else s.gotoAgain .file

/-! ## Relative references -/

def specialRelativeOrAuthority : Outcome :=
  if c.Is '/' ∧ env.remainingStartsWith s.p '/' then
    .go { s with st := .specialAuthorityIgnoreSlashes, p := s.p + 1 }
  else s.gotoAgain .relative

def pathOrAuthority : Outcome :=
  if c.Is '/' then s.goto .authority else s.gotoAgain .path

def relative : Outcome :=
  match env.base with
  | none => .stop false s.url
  | some base =>
    let s := { s with url := { s.url with scheme := base.scheme } }
    if c.Is '/' ∨ s.url.isSpecial ∧ c.Is '\\' then s.goto .relativeSlash
    else
      let s := s.copyAuthority base
      let s := { s with
        url := { s.url with
          path := base.path, opaquePath := base.opaquePath, query := base.query } }
      if c.Is '?' then s.startQuery
      else if c.Is '#' then s.startFragment
      else if c = none then .go s
      else gotoAgain { s with url := { s.url with query := none }.shortenPath } .path

def relativeSlash : Outcome :=
  if s.url.isSpecial ∧ (c.Is '/' ∨ c.Is '\\') then s.goto .specialAuthorityIgnoreSlashes
  else if c.Is '/' then s.goto .authority
  else
    match env.base with
    | none => .stop false s.url
    | some base => (s.copyAuthority base).gotoAgain .path

/-! ## Authorities -/

def specialAuthoritySlashes : Outcome :=
  if c.Is '/' ∧ env.remainingStartsWith s.p '/' then
    .go { s with st := .specialAuthorityIgnoreSlashes, p := s.p + 1 }
  else s.gotoAgain .specialAuthorityIgnoreSlashes

def specialAuthorityIgnoreSlashes : Outcome :=
  if c.Is '/' ∨ c.Is '\\' then .go s else s.gotoAgain .authority

/-- One code point of the userinfo: the first colon ends the username. -/
def userinfo (s : Parser) (each : ℕ) : Parser :=
  if each = ':'.toNat ∧ !s.passwordTokenSeen then { s with passwordTokenSeen := true }
  else
    let encoded := percentEncodeOne each .userinfo
    if s.passwordTokenSeen then { s with url := { s.url with password := s.url.password ++ encoded } }
    else { s with url := { s.url with username := s.url.username ++ encoded } }

def authority : Outcome :=
  if c.Is '@' then
    let buffer := if s.atSignSeen then points "%40" ++ s.buffer else s.buffer
    .go { buffer.foldl userinfo { s with atSignSeen := true } with buffer := [] }
  else if isEnd s.url.isSpecial c then
    if s.atSignSeen ∧ s.buffer = [] then .stop false s.url
    else .go { s with p := s.p - (s.buffer.length + 1), buffer := [], st := .host }
  else
    match c with
    | some x => .go (s.push x)
    | none => .go s

/-- The buffer is a host. -/
def hostRead : Option UrlRecord :=
  (parseHost env.tables s.buffer (!s.url.isSpecial)).map fun host =>
    { s.url with host := some host }

def host : Outcome :=
  if env.overriding ∧ s.url.scheme = ascii "file" then s.gotoAgain .fileHost
  else if c.Is ':' ∧ !s.insideBrackets then
    if s.buffer = [] then .stop false s.url
    else if env.override = some .hostname then .stop true s.url
    else
      match s.hostRead env with
      | none => .stop false s.url
      | some url => .go { s with url, buffer := [], st := .port }
  else if isEnd s.url.isSpecial c then
    if s.url.isSpecial ∧ s.buffer = [] then .stop false s.url
    else if env.overriding ∧ s.buffer = [] ∧ (s.url.hasCredentials || s.url.port.isSome) then
      .stop true s.url
    else
      match s.hostRead env with
      | none => .stop false s.url
      | some url =>
        if env.overriding then .stop true url
        else .go { s with url, buffer := [], st := .pathStart, p := s.p - 1 }
  else
    match c with
    | some x =>
      let insideBrackets :=
        if x = '['.toNat then true else if x = ']'.toNat then false else s.insideBrackets
      .go { s.push x with insideBrackets }
    | none => .go s

/-- The value of port digits, saturated above the largest port. -/
def portValue (digits : List ℕ) : ℕ :=
  digits.foldl (fun port d => min (port * 10 + (d - '0'.toNat)) 70000) 0

/-- The record with the port in the buffer. -/
def portRead : Option UrlRecord :=
  if s.buffer = [] then some s.url
  else
    let port := portValue s.buffer
    if 65535 < port then none
    else
      let value := port.toUInt16
      some { s.url with port := if defaultPort s.url.scheme = some value then none else some value }

/-- The end of the port. -/
def portEnd : Outcome :=
  match s.portRead with
  | none => .stop false s.url
  | some url =>
    if env.overriding then .stop true url
    else .go { s with url, buffer := [], st := .pathStart, p := s.p - 1 }

def port : Outcome :=
  match c with
  | some x =>
    if isDigit x then .go (s.push x)
    else if isEnd s.url.isSpecial c ∨ env.overriding then s.portEnd env
    else .stop false s.url
  | none => s.portEnd env

/-! ## Files -/

def file : Outcome :=
  let s := { s with url := { s.url with scheme := ascii "file", host := some [] } }
  if c.Is '/' ∨ c.Is '\\' then s.goto .fileSlash
  else
    match env.base with
    | none => s.gotoAgain .path
    | some base =>
      if base.scheme = ascii "file" then
        let s := { s with
          url := { s.url with
            host := base.host, path := base.path, opaquePath := base.opaquePath
            query := base.query } }
        if c.Is '?' then s.startQuery
        else if c.Is '#' then s.startFragment
        else if c = none then .go s
        else
          let url := { s.url with query := none }
          let url :=
            if startsWithWindowsDriveLetter (env.fromPointer s.p) then { url with path := [] }
            else url.shortenPath
          gotoAgain { s with url } .path
      else s.gotoAgain .path

def fileSlash : Outcome :=
  if c.Is '/' ∨ c.Is '\\' then s.goto .fileHost
  else
    match env.base with
    | none => s.gotoAgain .path
    | some base =>
      if base.scheme = ascii "file" then
        let drive := base.path.take 1
        let path :=
          if !startsWithWindowsDriveLetter (env.fromPointer s.p) &&
              drive.any normalizedWindowsDriveLetter then
            s.url.path ++ drive
          else s.url.path
        gotoAgain { s with url := { s.url with host := base.host, path } } .path
      else s.gotoAgain .path

def fileHost : Outcome :=
  if isEnd true c then
    if !env.overriding ∧ windowsDriveLetter s.buffer then s.gotoAgain .path
    else if s.buffer = [] then
      let url := { s.url with host := some [] }
      if env.overriding then .stop true url else gotoAgain { s with url } .pathStart
    else
      match parseHost env.tables s.buffer (!s.url.isSpecial) with
      | none => .stop false s.url
      | some host =>
        let url := { s.url with host := some (if host = ascii "localhost" then [] else host) }
        if env.overriding then .stop true url
        else gotoAgain { s with url, buffer := [] } .pathStart
  else
    match c with
    | some x => .go (s.push x)
    | none => .go s

/-! ## Paths -/

def pathStart : Outcome :=
  if s.url.isSpecial then
    if c.Is '/' ∨ c.Is '\\' then s.goto .path else s.gotoAgain .path
  else if !env.overriding ∧ c.Is '?' then s.startQuery
  else if !env.overriding ∧ c.Is '#' then s.startFragment
  else if c ≠ none then
    if c.Is '/' then s.goto .path else s.gotoAgain .path
  else if env.overriding ∧ s.url.host = none then
    .go { s with url := { s.url with path := s.url.path ++ [[]] } }
  else .go s

/-- The segment in the buffer goes to the path; `slash` says whether one follows it. -/
def segmentEnd (slash : Bool) : UrlRecord :=
  let url := s.url
  let segment := utf8Of s.buffer
  if doubleDot segment then
    if slash then url.shortenPath
    else { url.shortenPath with path := url.shortenPath.path ++ [[]] }
  else if singleDot segment then
    if slash then url else { url with path := url.path ++ [[]] }
  else
    let kept :=
      if url.scheme = ascii "file" ∧ url.path = [] ∧ windowsDriveLetter s.buffer then
        segment.set 1 (byte ':'.toNat)
      else segment
    { url with path := url.path ++ [kept] }

def path : Outcome :=
  let slash : Bool := c.Is '/' || s.url.isSpecial && c.Is '\\'
  if c = none ∨ slash ∨ !env.overriding ∧ (c.Is '?' ∨ c.Is '#') then
    let s := { s with url := s.segmentEnd slash, buffer := [] }
    if c.Is '?' then s.startQuery
    else if c.Is '#' then s.startFragment
    else .go s
  else
    match c with
    | some x =>
      .go { s with buffer := s.buffer ++ codes (percentEncodeOne x .path) }
    | none => .go s

/-- Append to the only segment of an opaque path. -/
@[simp] def appendOpaque (text : Text) : Outcome :=
  .go { s with url := { s.url with path := s.url.path.modifyHead (· ++ text) } }

def opaquePath : Outcome :=
  match c with
  | some x =>
    if x = '?'.toNat then s.startQuery
    else if x = '#'.toNat then s.startFragment
    else if x = ' '.toNat then
      if env.remainingStartsWith s.p '?' ∨ env.remainingStartsWith s.p '#' then
        s.appendOpaque (ascii "%20")
      else s.appendOpaque (ascii " ")
    else s.appendOpaque (percentEncodeOne x .c0)
  | none => .go s

/-! ## Queries and fragments -/

def query : Outcome :=
  if !env.overriding ∧ c.Is '#' ∨ c = none then
    let set := if s.url.isSpecial then EncodeSet.specialQuery else .query
    let url := { s.url with query := s.url.query.map (· ++ percentEncode s.buffer set) }
    let s := { s with url, buffer := [] }
    if c.Is '#' then s.startFragment else .go s
  else
    match c with
    | some x => .go (s.push x)
    | none => .go s

def fragment : Outcome :=
  match c with
  | some x =>
    let fragment := s.url.fragment.map (· ++ percentEncodeOne x .fragment)
    .go { s with url := { s.url with fragment } }
  | none => .go s

/-! ## The loop -/

/-- What one code point does. -/
def step : Outcome :=
  let c := env.at' s.p
  match s.st with
  | .schemeStart => s.schemeStart env c
  | .scheme => s.scheme env c
  | .noScheme => s.noScheme env c
  | .specialRelativeOrAuthority => s.specialRelativeOrAuthority env c
  | .pathOrAuthority => s.pathOrAuthority c
  | .relative => s.relative env c
  | .relativeSlash => s.relativeSlash env c
  | .specialAuthoritySlashes => s.specialAuthoritySlashes env c
  | .specialAuthorityIgnoreSlashes => s.specialAuthorityIgnoreSlashes c
  | .authority => s.authority c
  | .host | .hostname => s.host env c
  | .port => s.port env c
  | .file => s.file env c
  | .fileSlash => s.fileSlash env c
  | .fileHost => s.fileHost env c
  | .pathStart => s.pathStart env c
  | .path => s.path env c
  | .opaquePath => s.opaquePath env c
  | .query => s.query env c
  | .fragment => s.fragment c

/-- What one code point does, and the step to the next one: the run ends past the input. -/
def turn : Outcome :=
  match s.step env with
  | .stop ok url => .stop ok url
  | .go s => if env.input.length ≤ s.p then .stop true s.url else .go { s with p := s.p + 1 }

/-- At most `fuel` turns. -/
def run : ℕ → Parser → Option (Bool × UrlRecord)
  | 0, _ => none
  | fuel + 1, s =>
    match s.turn env with
    | .stop ok url => some (ok, url)
    | .go s => run fuel s

end Parser

/-- Tabs and newlines go from anywhere. -/
def withoutNewlines (raw : Text) : Text :=
  raw.filter fun c => c ≠ byte '\t'.toNat && c ≠ byte '\n'.toNat && c ≠ byte '\r'.toNat

/-- Leading and trailing controls and spaces go. -/
def trimmed (raw : Text) : Text :=
  ((raw.dropWhile (·.toNat ≤ 0x20)).reverse.dropWhile (·.toNat ≤ 0x20)).reverse

/-- What a run of the parser is about. -/
def environment (tables : UnicodeTables) (raw : Text) (base : Option UrlRecord)
    (override : Option State) : Env where
  tables
  base
  override
  input := codePoints (withoutNewlines (if override.isSome then raw else trimmed raw))

/-- More turns than any run takes. -/
def Env.fuel (env : Env) : ℕ := 22 * (env.input.length + 2)

/-- The basic URL parser: whether it succeeded, and the record it leaves. -/
def basicParse (tables : UnicodeTables) (raw : Text) (base : Option UrlRecord) (url : UrlRecord)
    (override : Option State) : Bool × UrlRecord :=
  let env := environment tables raw base override
  (Parser.run env env.fuel { st := override.getD .schemeStart, url }).getD (false, url)

end CtBrowser.Shell.Url
