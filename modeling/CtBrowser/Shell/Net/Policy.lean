import CtBrowser.Shell.Net.Url.Host

/-!
# Fetch Policy

Where a page may reach over the network: the schemes, the hosts, and whether private addresses.
The policy reads addresses with parsers of its own.

## Main definitions

- `Policy.parseIpv4`, `Policy.parseIpv6` — address literals.
- `privateIpv4`, `privateIpv6`, `isPrivateAddress` — the ranges that are no public peer.
- `checkRequest` — why a request is refused.
-/

namespace CtBrowser.Shell

open Url (isDigit hexDigits hexNumber)

/-- What a page's network requests may reach. -/
structure FetchPolicy where
  schemes : List Text := [ascii "https"]
  -- no entry: any public host
  hosts : List Text := []
  allowPrivateAddresses : Bool := false
deriving DecidableEq, Repr

namespace Policy

/-! ## Address literals -/

/-- One decimal octet of at most three digits, and what follows it. -/
def octet (text : List ℕ) : Option (ℕ × List ℕ) :=
  let digits := (text.take 3).takeWhile fun c => isDigit c
  let value := digits.foldl (fun value c => value * 10 + (c - '0'.toNat)) 0
  if digits = [] ∨ 255 < value then none else some (value, text.drop digits.length)

/-- The octets after the first one, each after a dot. -/
def octetsAfter : ℕ → List ℕ → Option (List ℕ)
  | 0, text => if text = [] then some [] else none
  | left + 1, text => do
    if text.head? ≠ some '.'.toNat then none
    else
      let (value, rest) ← octet (text.drop 1)
      return value :: (← octetsAfter left rest)

/-- Four decimal octets. -/
def parseIpv4 (text : List ℕ) : Option (List ℕ) := do
  let (value, rest) ← octet text
  return value :: (← octetsAfter 3 rest)

/-- What is left of a text with an IPv4 address at its end. -/
def onlyIpv4Left (text : List ℕ) : Bool :=
  text.contains '.'.toNat && !text.contains ':'.toNat

/-- The loop over the groups, at most `limit` of them: the groups read so far and the place of
the double colon. -/
def groups : ℕ → List ℕ → Option ℕ → List ℕ → Option (List ℕ × Option ℕ)
  | _, out, gap, [] => some (out, gap)
  | 0, _, _, _ :: _ => none
  | limit + 1, out, gap, c :: rest =>
    if out.length = 8 then none
    else if onlyIpv4Left (c :: rest) then
      match parseIpv4 (c :: rest) with
      | some [a, b, c, d] =>
        if 6 < out.length then none else some (out ++ [a <<< 8 ||| b, c <<< 8 ||| d], gap)
      | _ => none
    else
      let digits := hexDigits (c :: rest)
      if digits = [] then none
      else
        let out := out ++ [hexNumber digits]
        match (c :: rest).drop digits.length with
        | [] => some (out, gap)
        | d :: after =>
          if d ≠ ':'.toNat then none
          else if after.head? = some ':'.toNat then
            if gap.isSome then none else groups limit out (some out.length) (after.drop 1)
          else if after = [] then none
          else groups limit out gap after

/-- The eight groups: those after the double colon move to the end, over zeros. -/
def withGap (out : List ℕ) : Option ℕ → Option (List ℕ)
  | some gap =>
    if out.length = 8 then none
    else some (out.take gap ++ List.replicate (8 - out.length) 0 ++ out.drop gap)
  | none => if out.length = 8 then some out else none

/-- Eight hex groups, a double colon for a run of zeros, and an IPv4 address at the end. -/
def parseIpv6 (text : List ℕ) : Option (List ℕ) := do
  let (out, gap) ←
    if text.take 2 = points "::" then groups text.length [] (some 0) (text.drop 2)
    else groups text.length [] none text
  withGap out gap

/-! ## Private ranges -/

/-- Whether an IPv4 address is not a public peer: loopback, link-local, the private ranges,
carrier-grade NAT, and everything from 224/8 up. -/
def privateIpv4 (a : List ℕ) : Bool :=
  let a0 := a.getD 0 0
  let a1 := a.getD 1 0
  a0 = 0 || a0 = 10 || a0 = 127 || (a0 = 169 && a1 = 254) || (a0 = 172 && a1 &&& 0xF0 = 16) ||
    (a0 = 192 && a1 = 168) || (a0 = 100 && a1 &&& 0xC0 = 64) || 224 ≤ a0

/-- Whether an IPv6 address is not a public peer. Addresses that carry an IPv4 address in their
low 32 bits are judged by that. -/
def privateIpv6 (g : List ℕ) : Bool :=
  let g0 := g.getD 0 0
  let g5 := g.getD 5 0
  let g6 := g.getD 6 0
  let g7 := g.getD 7 0
  if g0 = 0 ∧ g.getD 1 0 = 0 ∧ g.getD 2 0 = 0 ∧ g.getD 3 0 = 0 ∧ g.getD 4 0 = 0 ∧
      (g5 = 0 ∨ g5 = 0xFFFF) then
    if g5 = 0 ∧ g6 = 0 ∧ g7 ≤ 1 then true
    else privateIpv4 [g6 >>> 8, g6 &&& 0xFF, g7 >>> 8, g7 &&& 0xFF]
  else
    g0 &&& 0xFE00 = 0xFC00 || g0 &&& 0xFFC0 = 0xFE80 || g0 &&& 0xFFC0 = 0xFEC0 ||
      g0 &&& 0xFF00 = 0xFF00

/-- Whether a literal is an address in a range no public page may reach; a name is none. -/
def isPrivateAddress (ip : Text) : Bool :=
  let ip := codes ip
  let ip :=
    if 2 < ip.length ∧ ip.head? = some '['.toNat ∧ ip.getLast? = some ']'.toNat then
      (ip.drop 1).dropLast
    else ip
  -- a zone index names an interface
  let ip := ip.takeWhile (· ≠ '%'.toNat)
  match parseIpv4 ip with
  | some v4 => privateIpv4 v4
  | none =>
    match parseIpv6 ip with
    | some v6 => privateIpv6 v6
    | none => false

/-! ## Requests -/

/-- Whether a host is the one an entry names, or a subdomain of a `*.` entry. -/
def hostMatches (host allowed : Text) : Bool :=
  if allowed.take 2 = ascii "*." then
    let suffix := allowed.drop 1
    suffix.length < host.length && asciiIequals (host.drop (host.length - suffix.length)) suffix
  else asciiIequals allowed host

/-- `localhost` and its subdomains are loopback by definition. -/
def loopbackName (host : Text) : Bool :=
  asciiIequals host (ascii "localhost") ||
    (10 < host.length && asciiIequals (host.drop (host.length - 10)) (ascii ".localhost"))

end Policy

open Policy

/-- Why a request is refused, or nothing when the policy allows it. -/
def checkRequest (scheme host : Text) (policy : FetchPolicy) : Option Text :=
  if !policy.schemes.any (asciiIequals · scheme) then
    some (ascii "the fetch policy does not allow " ++ scheme ++ ascii ":")
  else if policy.hosts ≠ [] ∧ !policy.hosts.any (hostMatches host) then
    some (ascii "the fetch policy does not allow host " ++ host)
  else if !policy.allowPrivateAddresses && (loopbackName host || isPrivateAddress host) then
    some (ascii "the fetch policy does not allow private address " ++ host)
  else none

end CtBrowser.Shell
