import CtBrowser.Shell.Net.PolicyAddress
import CtBrowser.Shell.Net.Url.HostText
import CtBrowser.Shell.Net.Url.Parse

/-!
# No Spelling Evades the Policy

Two address parsers meet in a fetch: the host parser of URLs normalises the spelling of an
address and serialises it, and the fetch policy reads that text again. Whatever way an address is
spelled in a URL, the policy judges the address it denotes.

## Main definitions

- `Address`, `Denotes` — addresses, and the host texts that denote one.

## Main results

- `host_of_denotes` — the host a fetch gets from a URL whose host denotes an address.
- `checkRequest_parseAbsolute` — the policy refuses exactly the private addresses.
-/

namespace CtBrowser.Shell

open CtBrowser.Foundations
open Policy Url

/-- A numeric address. -/
inductive Address
  | v4 (value : ℕ)
  | v6 (groups : List ℕ)
deriving DecidableEq, Repr

namespace Address

/-- Whether an address lies in one of the private ranges. -/
def isPrivate : Address → Bool
  | v4 value => privateIpv4 (octets value)
  | v6 groups => privateIpv6 groups

/-- The text a fetch passes on for an address. -/
def text : Address → Text
  | v4 value => serializeIpv4 value
  | v6 groups => ipv6Text groups

end Address

/-- The host text denotes an address: an IPv6 address in brackets, or an IPv4 address in what
percent-decoding and the Unicode mapping make of the text. -/
inductive Denotes (tables : UnicodeTables) : List ℕ → Address → Prop
  | ipv4 {host : List ℕ} {domain : Text} {value : ℕ} (hbracket : host.head? ≠ some '['.toNat)
      (hdomain : hostAscii tables host = some domain) (htext : Ipv4Text (codePoints domain) value) :
      Denotes tables host (.v4 value)
  | ipv6 {cs groups : List ℕ} (htext : Ipv6Text cs groups) :
      Denotes tables ('['.toNat :: (cs ++ [']'.toNat])) (.v6 groups)

/-- The host parser takes the text for an address: it is in brackets, or its domain ends in a
number. -/
def IsAddress (tables : UnicodeTables) (host : List ℕ) : Prop :=
  host.head? = some '['.toNat ∨
    ∃ domain, hostAscii tables host = some domain ∧ endsInANumber (codePoints domain) = true

variable {tables : UnicodeTables} {host : List ℕ} {out : Text} {address : Address}

/-! ## Hosts -/

/-- What the host parser makes of a text that denotes an address. -/
theorem host_of_denotes (h : Denotes tables host address)
    (hparse : parseHost tables host false = some out) :
    out = match address with
      | .v4 value => serializeIpv4 value
      | .v6 groups => ascii "[" ++ ipv6Text groups ++ ascii "]" := by
  cases h with
  | @ipv4 _ domain value hbracket hdomain htext =>
    rw [parseHost, if_neg hbracket, if_neg Bool.false_ne_true, hdomain, Option.bind_eq_bind,
      Option.bind_some] at hparse
    dsimp only at hparse
    rw [if_pos (endsInANumber_of_text htext)] at hparse
    split_ifs at hparse
    rw [parseIpv4_eq_some_iff.mpr ⟨value, htext, rfl⟩] at hparse
    exact (Option.some.inj hparse).symm
  | @ipv6 cs groups htext =>
    have hlast : ('['.toNat :: (cs ++ [']'.toNat])).getLast? = some ']'.toNat := by
      rw [← List.cons_append, List.getLast?_concat]
    have hinner : (('['.toNat :: (cs ++ [']'.toNat])).drop 1).dropLast = cs := by
      rw [List.drop_one, List.tail_cons, List.dropLast_concat]
    rw [parseHost, if_pos List.head?_cons, if_pos hlast, hinner, Url.parseIpv6,
      ipv6Address_eq_some_iff.mpr htext] at hparse
    exact (Option.some.inj hparse).symm

theorem exists_denotes (h : IsAddress tables host) (hparse : parseHost tables host false = some out) :
    ∃ address, Denotes tables host address := by
  by_cases hbracket : host.head? = some '['.toNat
  · rw [parseHost, if_pos hbracket] at hparse
    split_ifs at hparse with hlast
    obtain ⟨groups, hgroups, -⟩ := Option.map_eq_some_iff.mp hparse
    cases host with
    | nil => cases hbracket
    | cons c rest =>
      obtain rfl : c = '['.toNat := Option.some.inj hbracket
      rcases List.eq_nil_or_concat rest with rfl | ⟨cs, x, rfl⟩
      · exact absurd (Option.some.inj hlast) (by decide)
      · rw [List.concat_eq_append] at hlast hgroups ⊢
        rw [← List.cons_append, List.getLast?_concat, Option.some.injEq] at hlast
        rw [List.drop_one, List.tail_cons, List.dropLast_concat] at hgroups
        subst hlast
        exact ⟨_, .ipv6 (ipv6Address_eq_some_iff.mp hgroups)⟩
  · obtain ⟨domain, hdomain, hends⟩ := h.resolve_left hbracket
    rw [parseHost, if_neg hbracket, if_neg Bool.false_ne_true, hdomain, Option.bind_eq_bind,
      Option.bind_some] at hparse
    dsimp only at hparse
    rw [if_pos hends] at hparse
    split_ifs at hparse
    obtain ⟨value, htext, -⟩ := parseIpv4_eq_some_iff.mp hparse
    exact ⟨_, .ipv4 hbracket hdomain htext⟩

theorem serializeIpv4_head (value : ℕ) : (serializeIpv4 value).head? ≠ some (byte '['.toNat) := by
  intro hhead
  have hmem : '['.toNat ∈ codes (serializeIpv4 value) :=
    List.mem_map.mpr ⟨_, List.mem_of_mem_head? hhead, rfl⟩
  have hnot : ¬ AddressChar '['.toNat := by decide
  exact hnot (addressChar_serializeIpv4 value _ hmem)

/-- The host of a fetch, from the host of the URL. -/
theorem fetchHost_of_parseAbsolute {text : Text} (h : (parseAbsolute tables text).valid = true) :
    ∃ host, parseHost tables (hostText text) false = some host ∧
      (parseAbsolute tables text).host =
        if 2 < host.length ∧ host.head? = some (byte '['.toNat) then
          (host.drop 1).take (host.length - 2)
        else host := by
  unfold parseAbsolute at h ⊢
  split at h
  · cases h
  · next url hparse =>
    by_cases hscheme : url.scheme ≠ ascii "http" ∧ url.scheme ≠ ascii "https"
    · rw [if_pos hscheme] at h
      cases h
    rw [if_neg hscheme] at h ⊢
    have hhttp : url.scheme = ascii "http" ∨ url.scheme = ascii "https" := by
      by_contra hnot
      exact hscheme (not_or.mp hnot)
    have hspecial : url.isSpecial = true ∧ url.scheme ≠ ascii "file" := by
      rw [UrlRecord.isSpecial]
      rcases hhttp with hname | hname <;> rw [hname] <;> decide
    have hbasic : basicParse tables text none {} none = (true, url) := by
      rw [parseUrl] at hparse
      split_ifs at hparse with hok
      rw [← hok, ← Option.some.inj hparse]
    obtain ⟨host, hhost, hread⟩ := parseHost_hostText hbasic hspecial.1 hspecial.2
    rw [hhost] at h ⊢
    dsimp only at h ⊢
    by_cases hnil : host = []
    · rw [if_pos hnil] at h
      cases h
    · rw [if_neg hnil]
      exact ⟨host, hread, rfl⟩

theorem unbracketed {groups : List ℕ} (h : Denotes tables host (.v6 groups)) (bracketed : Text)
    (hbracketed : bracketed = ascii "[" ++ ipv6Text groups ++ ascii "]") :
    2 < bracketed.length ∧ bracketed.head? = some (byte '['.toNat) ∧
      (bracketed.drop 1).take (bracketed.length - 2) = ipv6Text groups := by
  have hlength : bracketed.length = (ipv6Text groups).length + 2 := by
    rw [hbracketed, List.length_append, List.length_append]
    exact Nat.add_right_comm 1 (ipv6Text groups).length 1 |>.trans (by omega)
  have hpos : 0 < (ipv6Text groups).length := by
    cases h with
    | ipv6 htext =>
      have hmem := colon_mem_of_text (ipv6Text_denotes htext.groups.1 htext.groups.2)
      rw [← length_codes]
      exact List.length_pos_of_mem hmem
  refine ⟨by omega, by rw [hbracketed]; rfl, ?_⟩
  have hdrop : bracketed.drop 1 = ipv6Text groups ++ ascii "]" := by rw [hbracketed]; rfl
  rw [hdrop, hlength, Nat.add_sub_cancel, List.take_left]

theorem host_parseAbsolute {text : Text} (h : (parseAbsolute tables text).valid = true)
    (hdenotes : Denotes tables (hostText text) address) :
    (parseAbsolute tables text).host = address.text := by
  obtain ⟨host, hparse, hhost⟩ := fetchHost_of_parseAbsolute h
  have hout := host_of_denotes hdenotes hparse
  rw [hhost]
  cases address with
  | v4 value =>
    obtain rfl : host = serializeIpv4 value := hout
    exact if_neg fun hb => serializeIpv4_head value hb.2
  | v6 groups =>
    obtain ⟨hlong, hbracket, hinner⟩ := unbracketed hdenotes host hout
    rw [if_pos ⟨hlong, hbracket⟩, hinner]
    rfl

theorem addressChar_text (h : Denotes tables host address) :
    ∀ c ∈ codes address.text, AddressChar c := by
  cases h with
  | ipv4 => exact addressChar_serializeIpv4 _
  | ipv6 htext => exact addressChar_of_text (ipv6Text_denotes htext.groups.1 htext.groups.2)

theorem isPrivateAddress_text (h : Denotes tables host address) :
    isPrivateAddress address.text = address.isPrivate := by
  cases h with
  | ipv4 => exact isPrivateAddress_serializeIpv4 _
  | ipv6 htext => exact isPrivateAddress_of_text (ipv6Text_denotes htext.groups.1 htext.groups.2)

theorem isSome_checkRequest {scheme host : Text} {policy : FetchPolicy}
    (h : policy.allowPrivateAddresses = false) :
    (checkRequest scheme host policy).isSome ↔
      (checkRequest scheme host { policy with allowPrivateAddresses := true }).isSome ∨
        (loopbackName host || isPrivateAddress host) = true := by
  unfold checkRequest
  rw [h]
  split_ifs <;> simp_all

/-- The policy refuses exactly the private addresses, whatever way they are spelled: of the
requests to addresses it would allow otherwise, and the host parser takes no text for an address
that denotes none. -/
theorem checkRequest_parseAbsolute {text : Text} {policy : FetchPolicy}
    (hvalid : (parseAbsolute tables text).valid = true)
    (hpolicy : policy.allowPrivateAddresses = false) :
    (∀ address, Denotes tables (hostText text) address →
      ((checkRequest (parseAbsolute tables text).scheme (parseAbsolute tables text).host
          policy).isSome ↔
        (checkRequest (parseAbsolute tables text).scheme (parseAbsolute tables text).host
          { policy with allowPrivateAddresses := true }).isSome ∨ address.isPrivate = true)) ∧
      (IsAddress tables (hostText text) → ∃ address, Denotes tables (hostText text) address) := by
  refine ⟨fun address hdenotes => ?_, fun haddress => ?_⟩
  · have hhost := host_parseAbsolute hvalid hdenotes
    rw [isSome_checkRequest hpolicy, hhost, loopbackName_eq_false (addressChar_text hdenotes),
      Bool.false_or, isPrivateAddress_text hdenotes]
  · obtain ⟨host, hparse, -⟩ := fetchHost_of_parseAbsolute hvalid
    exact exists_denotes haddress hparse

/-- The rows of the Unicode tables for ASCII. -/
def asciiTables : UnicodeTables where
  idnaLookup c :=
    if 'A'.toNat ≤ c ∧ c ≤ 'Z'.toNat then some (.mapped [lower c])
    else if c < 0x80 then some .valid
    else none
  combiningClass _ := 0
  decomposition _ := none
  compose _ _ := none
  isCombiningMark _ := false
  isVirama _ := false
  joiningType _ := 'U'
  bidiClass _ := 'L'

/-- The loopback address in hex, with one part for three bytes, is refused. -/
theorem checkRequest_parseAbsolute_loopback :
    (checkRequest (parseAbsolute asciiTables (ascii "https://0x7f.1/")).scheme
      (parseAbsolute asciiTables (ascii "https://0x7f.1/")).host {}).isSome := by
  have hvalid : (parseAbsolute asciiTables (ascii "https://0x7f.1/")).valid = true := by
    decide
  have hhost : hostText (ascii "https://0x7f.1/") = points "0x7f" ++ '.'.toNat :: points "1" := by
    decide
  have hdomain : hostAscii asciiTables (points "0x7f" ++ '.'.toNat :: points "1") =
      some (ascii "0x7f.1") := by decide
  have htext : Ipv4Text (codePoints (ascii "0x7f.1")) (0x7f * 256 ^ 3 + 1) := by
    have hparts : Ipv4Parts (points "0x7f" ++ '.'.toNat :: points "1") (0x7f * 256 ^ 3 + 1) :=
      .two (by decide) (by decide) (by norm_num) (by norm_num)
    exact .plain hparts
  have hdenotes : Denotes asciiTables (hostText (ascii "https://0x7f.1/"))
      (.v4 (0x7f * 256 ^ 3 + 1)) := by
    rw [hhost]
    exact .ipv4 (by decide) hdomain htext
  exact ((checkRequest_parseAbsolute hvalid rfl).1 _ hdenotes).mpr (.inr (by decide))

end CtBrowser.Shell
