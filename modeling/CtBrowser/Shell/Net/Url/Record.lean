import CtBrowser.Shell.Net.Url.Host

/-!
# URL Records

The record a URL parses to, its serialisation, and the tests on path segments that the parser
shares with nothing else.

## Main definitions

- `UrlRecord` — the components of a URL.
- `UrlRecord.serialize` — the text of a record.
- `UrlRecord.shortenPath` — drop the last segment of a path.
-/

namespace CtBrowser.Shell.Url

/-- The components of a URL. -/
structure UrlRecord where
  scheme : Text := []
  username : Text := []
  password : Text := []
  -- no host differs from an empty one
  host : Option Text := none
  -- no port when it is the scheme's default
  port : Option UInt16 := none
  -- a single entry when the path is opaque
  path : List Text := []
  opaquePath : Bool := false
  query : Option Text := none
  fragment : Option Text := none
deriving DecidableEq, Repr

namespace UrlRecord

variable (url : UrlRecord)

def isSpecial : Bool := specialScheme url.scheme

def hasCredentials : Bool := url.username ≠ [] || url.password ≠ []

def cannotHaveCredentialsOrPort : Bool :=
  url.host = none || url.host = some [] || url.scheme = ascii "file"

/-- The host, and the port when it is not the default. -/
def hostAndPort : Text :=
  match url.host with
  | none => []
  | some host =>
    match url.port with
    | some port => host ++ ascii ":" ++ decimalText port.toNat
    | none => host

/-- The path, with a slash before every segment unless it is opaque. -/
def pathname : Text :=
  if url.opaquePath then url.path.headD []
  else url.path.flatMap fun segment => byte '/'.toNat :: segment

/-- What stands between the scheme and the path. A path that starts with two slashes would read
back as an authority, so `/.` stands before it. -/
def authorityText : Text :=
  if url.host.isSome then
    ascii "//" ++
      (if url.hasCredentials then
        url.username ++ (if url.password ≠ [] then ascii ":" ++ url.password else []) ++ ascii "@"
      else []) ++ url.hostAndPort
  else if !url.opaquePath ∧ 1 < url.path.length ∧ url.path.head? = some [] then ascii "/."
  else []

/-- The text of a record. -/
def serialize : Text :=
  url.scheme ++ ascii ":" ++ url.authorityText ++ url.pathname ++
    (match url.query with
      | some query => ascii "?" ++ query
      | none => []) ++
    (match url.fragment with
      | some fragment => ascii "#" ++ fragment
      | none => [])

end UrlRecord

/-! ## Path segments -/

/-- A Windows drive letter: an ASCII letter, then `:` or `|`. -/
def windowsDriveLetter (s : List ℕ) : Bool :=
  match s with
  | [a, b] => isAlpha a && (b = ':'.toNat || b = '|'.toNat)
  | _ => false

/-- A Windows drive letter whose second character is `:`. -/
def normalizedWindowsDriveLetter (s : Text) : Bool :=
  match s with
  | [a, b] => isAlpha a.toNat && b = byte ':'.toNat
  | _ => false

/-- A drive letter before the end, a slash, a query or a fragment. -/
def startsWithWindowsDriveLetter (s : List ℕ) : Bool :=
  windowsDriveLetter (s.take 2) && (s.drop 2).head?.all (· ∈ points "/\\?#")

/-- `.` or its escape. -/
def singleDot (s : Text) : Bool := s = ascii "." || asciiIequals s (ascii "%2e")

/-- `..` with either dot possibly escaped. -/
def doubleDot (s : Text) : Bool :=
  s = ascii ".." || asciiIequals s (ascii ".%2e") || asciiIequals s (ascii "%2e.") ||
    asciiIequals s (ascii "%2e%2e")

/-- Drop the last segment, except a lone drive letter of a `file:` URL. -/
def UrlRecord.shortenPath (url : UrlRecord) : UrlRecord :=
  match url.path with
  | [segment] =>
    if url.scheme = ascii "file" ∧ normalizedWindowsDriveLetter segment then url
    else { url with path := [] }
  | path => { url with path := path.dropLast }

end CtBrowser.Shell.Url
