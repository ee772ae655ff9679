import CivetWeb.Acl.CheckAcl
import CivetWeb.Conn.Write

namespace CivetWeb

/-- The address that a listening socket is bound to, in `so->lsa`. -/
inductive ListenAddress where
  | inet (addr : BitVec 32) (port : BitVec 16)
  | inet6 (addr : Octets 16) (port : BitVec 16)
  | unix (path : List Byte)

structure PortFlags where
  isOptional : Bool
  sslRedir : Bool
  isSsl : Bool
  deriving DecidableEq, Repr

/-- What an accepted entry sets in `struct socket`, and `*ip_version`. -/
structure ListenSocket extends PortFlags where
  lsa : ListenAddress
  ipVersion : Nat

/-- `USE_IPV6` and `USE_X_DOM_SOCKET`; `mg_inet_pton` for `AF_INET` with `resolve_src`, and for `AF_INET6`
with or without it. -/
structure PortBuild where
  useIpv6 : Bool
  useXDomSocket : Bool
  inetPton : List Byte → Option (BitVec 32)
  inetPton6 : List Byte → Bool → Option (Octets 16)

/-- `strtoul` with the base 0. -/
def strtoulAuto (nptr : List Byte) : Nat × List Byte :=
  let p := nptr.dropWhile isspace
  let p := if deref p = 45 ∨ deref p = 43 then p.tail else p
  if deref p ≠ 48 then strtoul 10 nptr
  else if (deref p.tail = 120 ∨ deref p.tail = 88) ∧ isxdigit (deref p.tail.tail) = true then strtoul 16 nptr
  else strtoul 8 nptr

/-- The local variables of `parse_port_string` behind the tests for the ways to write an address. -/
structure PortScan where
  lsa : ListenAddress
  ipVersion : Nat
  port : Nat
  len : Int

/-- `sscanf` with `"%u%n"` -/
def scanPort (s : List Byte) : Option (Nat × Nat) :=
  match sscanf [.unsigned, .consumed] s 0 with
  | ⟨[port], [], some n⟩ => some (port, n)
  | _ => none

/-- `"%u.%u.%u.%u:%u%n"` -/
def scanDotted (ptr : List Byte) : Option PortScan :=
  match sscanf (ipv4Format ++ [.lit COLON, .unsigned, .consumed]) ptr 0 with
  | ⟨[a, b, c, d, port], [], some n⟩ =>
    let addr := (BitVec.ofNat 32 a <<< 24) ||| (BitVec.ofNat 32 b <<< 16) ||| (BitVec.ofNat 32 c <<< 8) |||
      BitVec.ofNat 32 d
    some ⟨.inet addr (.ofNat 16 port), 4, port, n⟩
  | _ => none

/-- `"[%49[^]]]:%u%n"` -/
def scanBrackets (b : PortBuild) (ptr : List Byte) (vecLen : Nat) : Option PortScan :=
  if !b.useIpv6 then none
  else
    match sscanf [.lit LBRACKET, .notIn 49 RBRACKET, .lit RBRACKET, .lit COLON, .unsigned, .consumed] ptr 0 with
    | ⟨[port], [buf], some n⟩ =>
      if n ≤ vecLen then
        (b.inetPton6 buf false).map fun addr => ⟨.inet6 addr (.ofNat 16 port), 6, port, n⟩
      else none
    | _ => none

/-- A port behind a `+`: IPv6 and IPv4 where there is IPv6. -/
def scanPlus (b : PortBuild) (ptr : List Byte) : Option PortScan :=
  if deref ptr ≠ PLUS then none
  else
    (scanPort ptr.tail).map fun (port, n) =>
      if b.useIpv6 then ⟨.inet6 (fun _ => 0) (.ofNat 16 port), 4 + 6, port, n + 1⟩
      else ⟨.inet 0 (.ofNat 16 port), 4, port, n + 1⟩

/-- A port only. -/
def scanNumber (ptr : List Byte) : Option PortScan :=
  let r := strtoulAuto ptr
  if isValidPort r.1 = true ∧ r.2.length ≠ ptr.length then
    some ⟨.inet 0 (.ofNat 16 r.1), 4, r.1, toInt32 ((ptr.length - r.2.length) % 2 ^ 32)⟩
  else none

/-- A host name in front of the first `:`. -/
def scanHost (b : PortBuild) (ptr : List Byte) (vecLen : Nat) : Option PortScan :=
  let hostname := ptr.takeWhile (· != COLON)
  let cb := ptr.dropWhile (· != COLON)
  if vecLen ≤ hostname.length ∨ 256 ≤ hostname.length then none
  else
    match b.inetPton hostname with
    | some addr =>
      (scanPort cb.tail).map fun (port, n) => ⟨.inet addr (.ofNat 16 port), 4, port, n + (hostname.length + 1)⟩
    | none =>
      if !b.useIpv6 then none
      else
        match b.inetPton6 hostname true with
        | some addr =>
          (scanPort cb.tail).map fun (port, n) =>
            ⟨.inet6 addr (.ofNat 16 port), 6, port, n + (hostname.length + 1)⟩
        | none => none

/-- `sizeof(so->lsa.sun.sun_path)` -/
def SUN_PATH_SIZE : Nat := 108

/-- A unix domain socket. -/
def scanUnix (b : PortBuild) (ptr : List Byte) (vecLen : Nat) : Option PortScan :=
  if b.useXDomSocket = true ∧ deref ptr = 120 ∧ vecLen < SUN_PATH_SIZE then
    some ⟨.unix (ptr.take vecLen).tail, 99, 0, vecLen⟩
  else none

/-- The tests in their order; a `:` may also be one of a later entry. -/
def scanAddress (b : PortBuild) (ptr : List Byte) (vecLen : Nat) : Option PortScan :=
  (scanDotted ptr).or ((scanBrackets b ptr vecLen).or ((scanPlus b ptr).or ((scanNumber ptr).or
    (if COLON ∈ ptr then scanHost b ptr vecLen else scanUnix b ptr vecLen))))

abbrev SUFFIX_OPTIONAL : Byte := 111
abbrev SUFFIX_REDIR : Byte := 114
abbrev SUFFIX_SSL : Byte := 115

/-- A suffix character; `none` is a bad one. -/
def setPortFlag (f : PortFlags) (c : Byte) : Option PortFlags :=
  if c = SUFFIX_OPTIONAL then if f.isOptional then none else some { f with isOptional := true }
  else if c = SUFFIX_REDIR then if f.sslRedir then none else some { f with sslRedir := true }
  else if c = SUFFIX_SSL then if f.isSsl then none else some { f with isSsl := true }
  else none

/-- The loop over the suffix characters. -/
def portSuffix (f : PortFlags) : List Byte → Option PortFlags
  | [] => some f
  | c :: s =>
    match setPortFlag f c with
    | some f => portSuffix f s
    | none => none

/-- `parse_port_string` of an entry of `vecLen` bytes at `ptr`, behind which the list goes on. -/
def parsePortString (b : PortBuild) (ptr : List Byte) (vecLen : Nat) : Option ListenSocket :=
  match scanAddress b ptr vecLen with
  | none => none
  | some p =>
    if 0 < p.len ∧ isValidPort p.port = true then
      match portSuffix ⟨false, false, false⟩ ((ptr.take vecLen).drop p.len.toNat) with
      | some f => if f.isSsl = false ∨ f.sslRedir = false then some ⟨f, p.lsa, p.ipVersion⟩ else none
      | none => none
    else none

/-- The entries that `set_ports_option` goes through. -/
def portEntries (list : List Byte) : List (List Byte × Nat) :=
  match _h : nextOption list with
  | none => []
  | some (ptr, len, rest) => (ptr, len) :: portEntries rest
termination_by list.length
decreasing_by exact nextOption_length list ptr rest len _h

/-- Where `ports[i]` begins a suffix of a TLS port. -/
def suffixAhead (s : List Byte) : Bool :=
  let c := if deref s = SUFFIX_OPTIONAL then deref s.tail else deref s
  c == SUFFIX_SSL || c == SUFFIX_REDIR

/-- The loop of `is_ssl_port_used` over the next `n` bytes. -/
def isSslPortLoop (ports : List Byte) (prevIsNumber : Bool) : Nat → Bool
  | 0 => false
  | n + 1 =>
    if prevIsNumber && suffixAhead ports then true
    else isSslPortLoop ports.tail (isdigit (deref ports)) n

/-- `(int)strlen(ports)` -/
def portsLen (ports : List Byte) : Int := toInt32 (ports.length % 2 ^ 32)

def isSslPortUsed : Option (List Byte) → Bool
  | none => false
  | some ports => isSslPortLoop ports false (portsLen ports).toNat

end CivetWeb
