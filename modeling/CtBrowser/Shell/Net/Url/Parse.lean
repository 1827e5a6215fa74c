import CtBrowser.Shell.Net.Url.BasicParse

/-!
# Parsing and Setting URLs

The public URL API: parsing with an optional base, the setters, and the fetch view of a URL.

## Main definitions

- `parseUrl`, `parseUrlWith` — the parser, with a base record or a base text.
- `UrlPart`, `setUrlPart` — the setters.
- `parseAbsolute` — what a fetch needs of a URL.
-/

namespace CtBrowser.Shell.Url

/-- Parse a URL against an optional base. -/
def parseUrl (tables : UnicodeTables) (input : Text) (base : Option UrlRecord) : Option UrlRecord :=
  let parsed := basicParse tables input base {} none
  if parsed.1 then some parsed.2 else none

/-- Parse a URL against a base text. -/
def parseUrlWith (tables : UnicodeTables) (input base : Text) : Option UrlRecord :=
  (parseUrl tables base none).bind fun base => parseUrl tables input (some base)

/-- The parts a setter sets. -/
inductive UrlPart
  | href | protocol | username | password | host | hostname | port | pathname | search | hash
deriving DecidableEq, Repr

/-- Without a first character. -/
def withoutFirst (c : Char) (value : Text) : Text :=
  if value.head? = some (byte c.toNat) then value.drop 1 else value

/-- Set a part of a record, and whether the value was accepted. The parser runs in place, so what
it changed before it failed stays changed. -/
def setUrlPart (tables : UnicodeTables) (url : UrlRecord) (part : UrlPart) (value : Text) :
    Bool × UrlRecord :=
  let withOverride (text : Text) (url : UrlRecord) (override : State) : Bool × UrlRecord :=
    (true, (basicParse tables text none url (some override)).2)
  match part with
  | .href =>
    match parseUrl tables value none with
    | none => (false, url)
    | some parsed => (true, parsed)
  | .protocol => withOverride (value ++ ascii ":") url .schemeStart
  | .username =>
    if url.cannotHaveCredentialsOrPort then (true, url)
    else (true, { url with username := percentEncode (codePoints value) .userinfo })
  | .password =>
    if url.cannotHaveCredentialsOrPort then (true, url)
    else (true, { url with password := percentEncode (codePoints value) .userinfo })
  | .host => if url.opaquePath then (true, url) else withOverride value url .host
  | .hostname => if url.opaquePath then (true, url) else withOverride value url .hostname
  | .port =>
    if url.cannotHaveCredentialsOrPort then (true, url)
    else if value = [] then (true, { url with port := none })
    else withOverride value url .port
  | .pathname =>
    if url.opaquePath then (true, url) else withOverride value { url with path := [] } .pathStart
  | .search =>
    if value = [] then (true, { url with query := none })
    else withOverride (withoutFirst '?' value) { url with query := some [] } .query
  | .hash =>
    if value = [] then (true, { url with fragment := none })
    else withOverride (withoutFirst '#' value) { url with fragment := some [] } .fragment

/-! ## Fetching -/

/-- What a fetch needs of a URL. -/
structure FetchUrl where
  scheme : Text := []
  -- without the brackets of an IPv6 address
  host : Text := []
  port : Text := []
  target : Text := ascii "/"
  authority : Text := []
  valid : Bool := false
deriving DecidableEq, Repr

/-- The fetch view of an absolute `http` or `https` URL; not valid for anything else. -/
def parseAbsolute (tables : UnicodeTables) (text : Text) : FetchUrl :=
  match parseUrl tables text none with
  | none => {}
  | some url =>
    if url.scheme ≠ ascii "http" ∧ url.scheme ≠ ascii "https" then {}
    else
      match url.host with
      | none => {}
      | some host =>
        if host = [] then {}
        else
          { scheme := url.scheme
            host :=
              if 2 < host.length ∧ host.head? = some (byte '['.toNat) then
                (host.drop 1).take (host.length - 2)
              else host
            port :=
              match url.port with
              | some port => decimalText port.toNat
              | none => if url.scheme = ascii "https" then ascii "443" else ascii "80"
            target :=
              url.pathname ++
                match url.query with
                | some query => ascii "?" ++ query
                | none => []
            authority := url.hostAndPort
            valid := true }

end CtBrowser.Shell.Url
