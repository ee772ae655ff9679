import CivetWeb.Acl.Scanf
import CivetWeb.Conn.KeepAlive

namespace CivetWeb

abbrev MINUS : Byte := 45
abbrev LBRACKET : Byte := 91
abbrev RBRACKET : Byte := 93

/-- The octets of an address in network byte order. -/
abbrev Octets (w : Nat) := Fin w → BitVec 8

instance neZero_four : NeZero 4 := ⟨by decide⟩

/-- `union usa`: an IPv4 address, an IPv6 address, or a socket of another family. -/
inductive Usa where
  | inet (addr : Octets 4)
  | inet6 (addr : Octets 16)
  | other

/-- `ntohl` -/
def ntohl (addr : Octets 4) : BitVec 32 :=
  ((addr 0).setWidth 32 <<< 24) ||| ((addr 1).setWidth 32 <<< 16) |||
    ((addr 2).setWidth 32 <<< 8) ||| (addr 3).setWidth 32

/-- `next_option` without the part behind a `=`: where the value begins, its length, and the rest of the
list. -/
def nextOption (list : List Byte) : Option (List Byte × Nat × List Byte) :=
  if _h : list = [] then none
  else
    let ptr := list.dropWhile isblank
    let value := ptr.takeWhile (· != COMMA)
    let len := (value.rdropWhile isblank).length
    let rest := (ptr.dropWhile (· != COMMA)).tail
    if len = 0 then nextOption rest else some (ptr, len, rest)
termination_by list.length
decreasing_by
  have h1 := (List.dropWhile_suffix (l := list) isblank).length_le
  have h2 := (List.dropWhile_suffix (l := list.dropWhile isblank) (· != COMMA)).length_le
  have h3 : 0 < list.length := List.length_pos_iff.mpr _h
  simp only [List.length_tail]
  omega

theorem nextOption_length (list ptr rest : List Byte) (len : Nat)
    (h : nextOption list = some (ptr, len, rest)) : rest.length < list.length := by
  fun_induction nextOption list with
  | case1 => cases h
  | case2 list hne ptr' value len' rest' hlen ih =>
    have h1 := (List.dropWhile_suffix (l := list) isblank).length_le
    have h2 := (List.dropWhile_suffix (l := list.dropWhile isblank) (· != COMMA)).length_le
    have h3 := ih h
    have h4 : rest'.length ≤ list.length := by
      simp only [rest', ptr', List.length_tail]
      omega
    omega
  | case3 list hne ptr' value len' rest' hlen =>
    have h1 := (List.dropWhile_suffix (l := list) isblank).length_le
    have h2 := (List.dropWhile_suffix (l := list.dropWhile isblank) (· != COMMA)).length_le
    have h3 : 0 < list.length := List.length_pos_iff.mpr hne
    rw [Option.some.injEq, Prod.mk.injEq, Prod.mk.injEq] at h
    rw [← h.2.2]
    simp only [rest', ptr', List.length_tail]
    omega

section ParseMatchNet
/- `USE_IPV6`, and `mg_inet_pton` for `AF_INET6`. -/
variable (useIpv6 : Bool) (mgInetPton : List Byte → Option (Octets 16))

def ipv4Format : List ScanDirective :=
  [.unsigned, .lit DOT, .unsigned, .lit DOT, .unsigned, .lit DOT, .unsigned]

/-- The numbers of `%u.%u.%u.%u/%u%n`, or of `%u.%u.%u.%u%n` with 32 for the last. -/
structure Ipv4Scan where
  n : Nat
  a : Nat
  b : Nat
  c : Nat
  d : Nat
  slash : Nat
  deriving DecidableEq, Repr

def scanIpv4 (ptr : List Byte) : Ipv4Scan :=
  match sscanf (ipv4Format ++ [.lit SLASH, .unsigned, .consumed]) ptr 0 with
  | ⟨[a, b, c, d, slash], [], some n⟩ => ⟨n, a, b, c, d, slash⟩
  | _ =>
    match sscanf (ipv4Format ++ [.consumed]) ptr 0 with
    | ⟨[a, b, c, d], [], some n⟩ => ⟨n, a, b, c, d, 32⟩
    | _ => ⟨0, 0, 0, 0, 0, 32⟩

/-- The test of an IPv4 address against a subnet. -/
def matchIpv4 (s : Ipv4Scan) (addr : Octets 4) : Bool :=
  let ip := ntohl addr
  let net := (BitVec.ofNat 32 s.a <<< 24) ||| (BitVec.ofNat 32 s.b <<< 16) |||
    (BitVec.ofNat 32 s.c <<< 8) ||| BitVec.ofNat 32 s.d
  let mask : BitVec 32 := if s.slash ≠ 0 then 0xFFFFFFFF#32 <<< (32 - s.slash) else 0#32
  ip &&& mask == net

/-- The address text, the prefix length and the number of bytes read, of `[%49[^]]]/%u%n`, of
`[%49[^]]]%n`, or without brackets; `n` is what the scan for IPv4 left. -/
def scanIpv6 (ptr : List Byte) (len : Nat) (n : Nat) (noStrict : Bool) : List Byte × Nat × Nat :=
  let brackets :=
    match sscanf [.lit LBRACKET, .notIn 49 RBRACKET, .lit RBRACKET, .lit SLASH, .unsigned, .consumed]
        ptr 0 with
    | ⟨[slash], [ad], some n⟩ => (ad, slash, n)
    | _ =>
      match sscanf [.lit LBRACKET, .notIn 49 RBRACKET, .lit RBRACKET, .consumed] ptr 0 with
      | ⟨_, [ad], some n⟩ => (ad, 128, n)
      | ⟨_, [ad], none⟩ => (ad, 128, n)
      | _ => ([], 128, 0)
  if brackets.2.2 = 0 ∧ noStrict then
    let p := (ptr.takeWhile (· != SLASH)).length
    if SLASH ∈ ptr ∧ p < len then
      match sscanf [.lit SLASH, .unsigned, .consumed] (ptr.drop p) 0 with
      | ⟨[slash], _, some n⟩ => if p < 50 then (ptr.take p, slash, n + p) else (brackets.1, brackets.2.1, 0)
      | _ => (brackets.1, brackets.2.1, 0)
    else if len < 50 then (ptr.take len, 128, len)
    else brackets
  else brackets

/-- What an IPv6 address may be written with. -/
def ipv6Char (c : Byte) : Bool := isxdigit c || c == DOT || c == COLON

def ipv6Mask (slash i : Nat) : BitVec 8 :=
  if 8 * i + 8 < slash then 0xFF#8
  else if 8 * i < slash then 0xFF#8 <<< (8 * i + 8 - slash)
  else 0#8

def matchIpv6 (addr net : Octets 16) (slash : Nat) : Bool :=
  decide (∀ i : Fin 16, addr i &&& ipv6Mask slash i = net i)

/-- `parse_match_net`: -1 is malformed. -/
def parseMatchNet (ptr : List Byte) (len : Nat) (sa : Usa) (noStrict : Bool) : Int :=
  let v4 := scanIpv4 ptr
  if 0 < v4.n ∧ v4.n = len then
    if v4.a < 256 ∧ v4.b < 256 ∧ v4.c < 256 ∧ v4.d < 256 ∧ v4.slash < 33 then
      match sa with
      | .inet addr => if matchIpv4 v4 addr then 1 else 0
      | _ => 0
    else -1
  else if useIpv6 then
    let (ad, slash, n) := scanIpv6 ptr len v4.n noStrict
    if 0 < n ∧ n = len ∧ slash < 129 ∧ ad.all ipv6Char ∧ 2 ≤ ad.count COLON then
      match sa with
      | .inet6 addr =>
        match mgInetPton ad with
        | some net => if matchIpv6 addr net slash then 1 else 0
        | none => -1
      | _ => 0
    else -1
  else -1

/-- The loop of `check_acl` over the rest of the list. -/
def checkAclLoop (sa : Usa) (list : List Byte) (allowed : Byte) : Int :=
  match _h : nextOption list with
  | none => if allowed = PLUS then 1 else 0
  | some (ptr, len, rest) =>
    let flag := deref ptr
    let matched :=
      if 0 < len ∧ (flag = PLUS ∨ flag = MINUS) then
        parseMatchNet useIpv6 mgInetPton ptr.tail (len - 1) sa true
      else -1
    if matched < 0 then -1
    else checkAclLoop sa rest (if matched ≠ 0 then flag else allowed)
termination_by list.length
decreasing_by exact nextOption_length list ptr rest len _h

/-- `check_acl` with the option `access_control_list`. -/
def checkAcl (list : Option (List Byte)) (sa : Usa) : Int :=
  match list with
  | none => 1
  | some list => checkAclLoop useIpv6 mgInetPton sa list MINUS

/-- `set_acl_option`, which tries the list on the address 0. -/
def setAclOption (list : Option (List Byte)) : Bool :=
  checkAcl useIpv6 mgInetPton list
    (if useIpv6 then .inet6 (fun _ => 0#8) else .inet (fun _ => 0#8)) ≠ -1

end ParseMatchNet

end CivetWeb
