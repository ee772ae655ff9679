import CivetWeb.Conn.Connection
import CivetWeb.Http.Uri
import Mathlib.Data.List.DropRight

namespace CivetWeb

abbrev COMMA : Byte := 44

def trimBlanks (s : List Byte) : List Byte := (s.dropWhile isblank).rdropWhile isblank

/-- The options that `next_option` goes through: the entries between the commas that are
not empty, each up to its `=`. -/
def options (header : List Byte) : List (List Byte) :=
  (((header.splitOn COMMA).map trimBlanks).filter (· ≠ [])).map (·.takeWhile (· != 61))

/-- `header_has_option`; only the length of the entry is compared. -/
def headerHasOption (header option : List Byte) : Bool :=
  (options header).any (fun opt => mgStrncasecmp option opt opt.length == 0)

def Conn.domain (conn : Conn) : DomainContext :=
  conn.domains.getD conn.domCtx ⟨[], [], []⟩

/-- `mg_get_header` on a request. -/
def mgGetHeader (conn : Conn) (name : List Byte) : Option (List Byte) :=
  getHeader conn.requestInfo.httpHeaders name

/-- `should_keep_alive`. -/
def shouldKeepAlive (conn : Conn) : Bool :=
  if conn.mustClose then false
  else if mgStrcasecmp conn.domain.enableKeepAlive (ascii "yes") ≠ 0 then false
  else
    match mgGetHeader conn (ascii "Connection") with
    | some header => headerHasOption header (ascii "keep-alive")
    | none => conn.requestInfo.httpVersion == ascii "1.1"

def PROTOCOL_TYPE_HTTP1 : Int := 0
def PROTOCOL_TYPE_WEBSOCKET : Int := 1
def PROTOCOL_TYPE_HTTP2 : Int := 2

/-- `mg_strcasestr`, as a test. -/
def mgStrcasestr (bigStr smallStr : List Byte) : Bool :=
  bigStr.tails.any (fun s => smallStr.length ≤ s.length &&
    mgStrncasecmp s smallStr smallStr.length == 0)

/-- `get_req_headers`. -/
def getReqHeaders (ri : RequestInfo) (name : List Byte) (outputMaxSize : Nat) : List (List Byte) :=
  ((ri.httpHeaders.filter (fun h => mgStrcasecmp name h.name == 0)).map (·.value)).take outputMaxSize

/-- `should_switch_to_protocol`. -/
def shouldSwitchToProtocol (conn : Conn) : Int :=
  if !(getReqHeaders conn.requestInfo (ascii "Connection") 8).any (mgStrcasestr · (ascii "upgrade")) then
    PROTOCOL_TYPE_HTTP1
  else
    match mgGetHeader conn (ascii "Upgrade") with
    | none => -1
    | some upgradeTo =>
      if mgStrcasestr upgradeTo (ascii "websocket") then PROTOCOL_TYPE_WEBSOCKET
      else if mgStrcasestr upgradeTo (ascii "h2") then PROTOCOL_TYPE_HTTP2
      else -1

end CivetWeb
