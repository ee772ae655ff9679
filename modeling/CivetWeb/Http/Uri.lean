import CivetWeb.Http.Headers
import CivetWeb.Strtol

namespace CivetWeb

abbrev SLASH : Byte := 47
abbrev DOT : Byte := 46

/-- `strchr`: the string from the first `c` on. -/
def strchr (s : List Byte) (c : Byte) : Option (List Byte) :=
  let p := s.dropWhile (· != c)
  if p = [] then none else some p

structure AbsUriProtocol where
  proto : List Byte
  defaultPort : Nat

/-- The table `abs_uri_protocols`. -/
def absUriProtocols : List AbsUriProtocol :=
  [⟨ascii "http://", 80⟩, ⟨ascii "https://", 443⟩, ⟨ascii "ws://", 80⟩, ⟨ascii "wss://", 443⟩]

/-- The protocol of a URI, and the URI behind it. -/
def uriProtocol (uri : List Byte) : Option (AbsUriProtocol × List Byte) :=
  (absUriProtocols.find? (fun p => mgStrncasecmp uri p.proto p.proto.length == 0)).map
    (fun p => (p, uri.drop p.proto.length))

def isValidPort (port : Nat) : Bool := port ≤ 0xffff

/-- The port behind a colon; it has to end where the host part does. -/
def uriPort (portbegin hostend : List Byte) : Option Nat :=
  let (port, portend) := strtoul 10 portbegin.tail
  if portend.length ≠ hostend.length ∨ port = 0 ∨ !isValidPort port then none else some port

/-- The loop over the characters of a URI: no encoded CR or LF, no control character. -/
def validUriChars : List Byte → Bool
  | [] => true
  | c :: uri =>
    let x := deref uri.tail
    if c = 37 ∧ deref uri = 48 ∧ (x = 100 ∨ x = 68 ∨ x = 97 ∨ x = 65) then false
    else if c < 33 then false
    else validUriChars uri

/-- `get_uri_type`. -/
def getUriType (uri : List Byte) : Nat :=
  if uri = [42] then 1
  else if !validUriChars uri then 0
  else if deref uri = SLASH then 2
  else
    match uriProtocol uri with
    | none => 0
    | some (_, host) =>
      match strchr host SLASH with
      | none => 0
      | some hostend =>
        match strchr host COLON with
        | none => 3
        | some portbegin => if (uriPort portbegin hostend).isSome then 4 else 0

/-- The host that was asked for is the server's domain or one below it. -/
def inServerDomain (hostbegin : List Byte) (requestDomainLen : Nat) (serverDomain : List Byte) :
    Bool :=
  let n := serverDomain.length
  if n = 0 then false
  else if requestDomainLen = n ∧ hostbegin.take n = serverDomain then true
  else if requestDomainLen < n + 2 then false
  else if deref (hostbegin.drop (requestDomainLen - n - 1)) ≠ DOT then false
  else (hostbegin.drop (requestDomainLen - n)).take n == serverDomain

/-- `get_rel_url_at_current_server`, for the port and the domain of the server;
without a domain the domain is not checked. -/
def getRelUrlAtCurrentServer (uri : List Byte) (lsaPort : Nat) (serverDomain : Option (List Byte)) :
    Option (List Byte) := do
  let (proto, hostbegin) ← uriProtocol uri
  let hostend ← strchr hostbegin SLASH
  let (port, requestDomainLen) ←
    match strchr hostbegin COLON with
    | none => some (proto.defaultPort, hostbegin.length - hostend.length)
    | some portbegin =>
      if portbegin.length < hostend.length then
        some (proto.defaultPort, hostbegin.length - hostend.length)
      else (uriPort portbegin hostend).map (fun port => (port, hostbegin.length - portbegin.length))
  if lsaPort ≠ port then none
  else if serverDomain.all (inServerDomain hostbegin requestDomainLen) then some hostend
  else none

/-- The absolute form is taken for the own server only with its port. -/
example : getRelUrlAtCurrentServer (ascii "http://a.b:8080/c") 8080 (some (ascii "b")) =
    some (ascii "/c") := by decide

end CivetWeb
