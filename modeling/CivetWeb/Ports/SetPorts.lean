import CivetWeb.Lib.Ledger
import CivetWeb.Ports.ParsePort

namespace CivetWeb

open Ledger

/-- What the system answers to the calls for the entry of one port; `address` is what `getsockname` finds, and
`sockets` and `fds` are the two calls of `mg_realloc_ctx`. -/
structure PortAnswers where
  socket : Bool
  bind : Bool
  listen : Bool
  address : Option ListenAddress
  sockets : Bool
  fds : Bool

/-- What belongs to the listening sockets: the socket of an entry, the file that `bind` makes for a Unix domain
socket, and the two arrays as they were allocated for an entry; `null` is what a null pointer points to. -/
inductive PortResource where
  | null
  | socket (i : Nat)
  | file (i : Nat)
  | sockets (i : Nat)
  | fds (i : Nat)
  deriving DecidableEq, Repr

/-- The listening sockets of a context: `sockets` are the first `num_listening_sockets` items behind
`listening_sockets`, each with the entry it is from; an array is known by the entry it was allocated for. -/
structure Listeners where
  sockets : List (Nat × ListenSocket)
  socketsPtr : Option Nat
  fdsPtr : Option Nat

def ListenAddress.isUnix : ListenAddress → Bool
  | .unix _ => true
  | _ => false

/-- The family of `lsa` is one that this build binds to. -/
def ListenAddress.supported (b : PortBuild) : ListenAddress → Bool
  | .inet _ _ => true
  | .inet6 _ _ => b.useIpv6
  | .unix _ => b.useXDomSocket

/-- The port that `getsockname` finds, in the place of the one in `lsa`; `none` for another family. In a Unix domain
address the port lies over the first two bytes of the path. -/
def ListenAddress.updatePort : ListenAddress → ListenAddress → Option ListenAddress
  | .inet addr _, .inet _ port => some (.inet addr port)
  | .inet6 addr _, .inet6 _ port => some (.inet6 addr port)
  | .unix path, .unix path' => some (.unix (cstr ((path' ++ zeros 2).take 2 ++ path.drop 2)))
  | _, _ => none

/-- The value of `listen_backlog` is a number that `listen` can take. -/
def validBacklog (optTxt : List Byte) : Bool :=
  let n := (strtoll 10 optTxt).1
  n ≤ INT_MAX && 1 ≤ n

/-- How the turn of `set_ports_option` for an entry ends: without a socket; with a socket that is closed again,
before or after it was bound; where there is no memory for `listening_socket_fds`; or with a listening socket. `ok`
says whether the entry counts in `portsOk`. -/
inductive PortFate where
  | refused (ok : Bool)
  | closed (ok bound : Bool) (so : ListenSocket)
  | torn (so : ListenSocket)
  | listed (so : ListenSocket)

section SetPorts

variable (b : PortBuild) (sslReady : Bool) (backlog : List Byte)

/-- The steps for one entry; `sslReady` says that TLS is left out or has a context. -/
def portFate (entry : List Byte × Nat) (a : PortAnswers) : PortFate :=
  match parsePortString b entry.1 entry.2 with
  | none => .refused false
  | some so =>
    if so.isSsl && !sslReady then .refused false
    else if !a.socket then .refused so.isOptional
    else if !(b.useXDomSocket && so.ipVersion == 99) && 4 < so.ipVersion && !b.useIpv6 then
      .closed so.isOptional false so
    else if !so.lsa.supported b then .closed false false so
    else if !a.bind then .closed so.isOptional false so
    else if !validBacklog backlog then .closed false true so
    else if !a.listen then .closed false true so
    else
      match a.address.bind so.lsa.updatePort with
      | none => .closed false true so
      | some lsa =>
        if !a.sockets then .closed false true { so with lsa := lsa }
        else if !a.fds then .torn { so with lsa := lsa }
        else .listed { so with lsa := lsa }

/-- The actions that make the bound socket of the entry `i`. -/
def bindLog (i : Nat) (bound : Bool) (so : ListenSocket) : List (Ledger.Action PortResource) :=
  .take (.socket i) :: if bound && so.lsa.isUnix then [.take (.file i)] else []

/-- `mg_realloc_ctx`, with memory: the old array is given back. -/
def reallocLog (old : Option Nat) (block : Nat → PortResource) (i : Nat) : List (Ledger.Action PortResource) :=
  (match old with
    | some j => [.give (block j)]
    | none => []) ++ [.take (block i)]

/-- The turn for the entry `i`: whether it counts, the listening sockets, and the actions. -/
def portTurn (i : Nat) (c : Listeners) : PortFate → Bool × Listeners × List (Ledger.Action PortResource)
  | .refused ok => (ok, c, [])
  | .closed ok bound so => (ok, c, bindLog i bound so ++ [.give (.socket i)])
  | .torn so =>
    (false, c, bindLog i true so ++ reallocLog c.socketsPtr .sockets i ++ [.give (.socket i), .give (.sockets i)])
  | .listed so =>
    (true, ⟨c.sockets ++ [(i, so)], some i, some i⟩,
      bindLog i true so ++ reallocLog c.socketsPtr .sockets i ++ reallocLog c.fdsPtr .fds i)

/-- The loop over the fates of the entries from the entry `i` on. -/
def portLoop (i : Nat) (portsOk : Nat) (c : Listeners) :
    List PortFate → Nat × Listeners × List (Ledger.Action PortResource)
  | [] => (portsOk, c, [])
  | fate :: fates =>
    let turn := portTurn i c fate
    let rest := portLoop (i + 1) (portsOk + turn.1.toNat) turn.2.1 fates
    (rest.1, rest.2.1, turn.2.2 ++ rest.2.2)

/-- An item of `listening_sockets` is read. -/
def useSockets (c : Listeners) : Ledger.Action PortResource :=
  match c.socketsPtr with
  | some i => .use (.sockets i)
  | none => .use .null

/-- `close_all_listening_sockets`, which leaves `num_listening_sockets` as it is. -/
def closeAllListeningSockets (c : Listeners) : Listeners × List (Ledger.Action PortResource) :=
  ({ c with socketsPtr := none, fdsPtr := none },
    (c.sockets.flatMap fun s =>
      useSockets c :: .give (.socket s.1) :: if s.2.lsa.isUnix then [.give (.file s.1)] else []) ++
    (c.socketsPtr.toList.map fun i => .give (.sockets i)) ++ (c.fdsPtr.toList.map fun i => .give (.fds i)))

/-- `set_ports_option` on a context without listening sockets. -/
def setPortsFates (fates : List PortFate) : Nat × Listeners × List (Ledger.Action PortResource) :=
  let loop := portLoop 0 0 ⟨[], none, none⟩ fates
  if loop.1 ≠ fates.length then
    let close := closeAllListeningSockets loop.2.1
    (0, close.1, loop.2.2 ++ close.2)
  else loop

/-- How the turns for the entries of `listening_ports` end where the system answers `answers`. -/
def portFates (list : List Byte) (answers : Nat → PortAnswers) : List PortFate :=
  (portEntries list).zipIdx.map fun e => portFate b sslReady backlog e.1 (answers e.2)

/-- `set_ports_option`: its return value, the listening sockets, and the actions. -/
def setPortsOption (list : List Byte) (answers : Nat → PortAnswers) :
    Nat × Listeners × List (Ledger.Action PortResource) :=
  setPortsFates (portFates b sslReady backlog list answers)

end SetPorts

/-! ### What the entries leave behind -/

/-- The entry counts in `portsOk`. -/
def PortFate.ok : PortFate → Bool
  | .refused ok => ok
  | .closed ok _ _ => ok
  | .torn _ => false
  | .listed _ => true

/-- The listening sockets of the entries from the entry `i` on. -/
def listedFrom (i : Nat) : List PortFate → List (Nat × ListenSocket)
  | [] => []
  | .listed so :: fates => (i, so) :: listedFrom (i + 1) fates
  | _ :: fates => listedFrom (i + 1) fates

def fileOf (i : Nat) (so : ListenSocket) : Multiset PortResource := if so.lsa.isUnix then {.file i} else 0

/-- The file of a socket that was bound and is closed. -/
def strandedFile (i : Nat) : PortFate → Multiset PortResource
  | .closed _ true so => fileOf i so
  | .torn so => fileOf i so
  | _ => 0

def strandedFrom (i : Nat) : List PortFate → Multiset PortResource
  | [] => 0
  | fate :: fates => strandedFile i fate + strandedFrom (i + 1) fates

/-- There is no memory for `listening_socket_fds` at an entry behind a listening one; `behind` says that there was a
listening one before. -/
def tears : Bool → List PortFate → Bool
  | _, [] => false
  | _, .listed _ :: fates => tears true fates
  | behind, .torn _ :: fates => behind || tears behind fates
  | behind, .refused _ :: fates => tears behind fates
  | behind, .closed _ _ _ :: fates => tears behind fates

/-- The array behind a pointer. -/
def arrayOf (block : Nat → PortResource) : Option Nat → Multiset PortResource
  | some i => {block i}
  | none => 0

def ownedBy (s : Nat × ListenSocket) : Multiset PortResource := .socket s.1 ::ₘ fileOf s.1 s.2

/-- What belongs to the listening sockets of a context. -/
def Listeners.owned (c : Listeners) : Multiset PortResource :=
  (c.sockets.map ownedBy).sum +
    (arrayOf .sockets c.socketsPtr + arrayOf .fds c.fdsPtr)

end CivetWeb
