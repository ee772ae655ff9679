import CivetWeb.Format

namespace CivetWeb

/-- What a connection's link is made of; `uri` is its `request_uri`, or else its `local_uri`. -/
structure LinkInfo where
  isSsl : Bool
  isWebsocket : Bool
  serverPort : Nat
  uri : List Byte
  enableAuthDomainCheck : Bool
  authenticationDomain : Option (List Byte)
  serverIp : List Byte
  deriving DecidableEq, Repr

/-- `get_proto_name`. -/
def getProtoName (ri : LinkInfo) : List Byte :=
  if ri.isWebsocket then (if ri.isSsl then ascii "wss" else ascii "ws")
  else (if ri.isSsl then ascii "https" else ascii "http")

/-- A character of `mg_url_encode`. -/
def urlEncodeByte (c : Byte) : List Byte :=
  if isalnum c || (ascii "._-$,;~()").contains c then [c]
  else
    let hex := ascii "0123456789abcdef"
    [37, hex.getD (c >>> 4).toNat 0, hex.getD (c &&& 0xf).toNat 0]

/-- `mg_url_encode` into a buffer with room for three bytes a character. -/
def mgUrlEncode (src : List Byte) : List Byte := src.flatMap urlEncodeByte

/-- The directory separators of an encoded URI are put back. -/
def restoreSlashes : List Byte → List Byte
  | 37 :: 50 :: 102 :: s => 47 :: restoreSlashes s
  | c :: s => c :: restoreSlashes s
  | [] => []

/-- The text of `mg_construct_local_link` without defines. -/
def linkText (ri : LinkInfo) : List Byte :=
  let defaultPort := if ri.isSsl then 443 else 80
  let portstr := if ri.serverPort ≠ defaultPort then ascii ":" ++ decText ri.serverPort else []
  let serverDomain :=
    if ri.enableAuthDomainCheck then ri.authenticationDomain.getD ri.serverIp else ri.serverIp
  getProtoName ri ++ ascii "://" ++ serverDomain ++ portstr ++ restoreSlashes (mgUrlEncode ri.uri)

/-- `mg_get_request_link`: the link as it stands in the buffer. -/
def mgGetRequestLink (ri : LinkInfo) (buflen : Nat) : List Byte := (mgSnprintf buflen (linkText ri)).1

example : mgGetRequestLink ⟨false, false, 8080, ascii "/a b", false, none, ascii "::1"⟩ 64 =
    ascii "http://::1:8080/a%20b" := by decide

end CivetWeb
