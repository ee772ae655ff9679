import CivetWeb.Conn.KeepAlive
import CivetWeb.Conn.Write
import CivetWeb.Format

namespace CivetWeb

inductive ConnectionType where
  | invalid
  | request
  | response
  deriving DecidableEq, Repr

/-- A connection with what its response is made of: `out` is its writing side,
`responseHeaders` the list `response_info.http_headers`. -/
structure ResponseConn extends Conn where
  out : Output
  connectionType : ConnectionType
  requestState : Nat
  statusCode : Int
  responseHeaders : List MgHeader
  deriving DecidableEq, Repr

/-- `mg_write`, which marks the connection as one that has sent data. -/
def ResponseConn.write (c : ResponseConn) (buf : List Byte) : Int × ResponseConn :=
  if INT_MAX < buf.length then (-1, c)
  else
    let (n, out) := mgWrite c.out buf
    (n, { c with requestState := 10, out := out })

/-- `mg_printf` of a format that comes to `text`. What `vsnprintf` cannot count in an `int`
no buffer of `alloc_vprintf` holds. -/
def mgPrintf (c : ResponseConn) (text : List Byte) : Int × ResponseConn :=
  if INT_MAX < text.length then (-1, c)
  else if text = [] then (0, c)
  else c.write text

/-- The cases of `mg_get_response_code_text`. -/
def responseCodeTexts : List (Int × List Byte) :=
  [(100, ascii "Continue"), (101, ascii "Switching Protocols"), (102, ascii "Processing"),
   (200, ascii "OK"), (201, ascii "Created"), (202, ascii "Accepted"),
   (203, ascii "Non-Authoritative Information"), (204, ascii "No Content"),
   (205, ascii "Reset Content"), (206, ascii "Partial Content"), (207, ascii "Multi-Status"),
   (208, ascii "Already Reported"), (226, ascii "IM used"), (300, ascii "Multiple Choices"),
   (301, ascii "Moved Permanently"), (302, ascii "Found"), (303, ascii "See Other"),
   (304, ascii "Not Modified"), (305, ascii "Use Proxy"), (307, ascii "Temporary Redirect"),
   (308, ascii "Permanent Redirect"), (400, ascii "Bad Request"), (401, ascii "Unauthorized"),
   (402, ascii "Payment Required"), (403, ascii "Forbidden"), (404, ascii "Not Found"),
   (405, ascii "Method Not Allowed"), (406, ascii "Not Acceptable"),
   (407, ascii "Proxy Authentication Required"), (408, ascii "Request Time-out"),
   (409, ascii "Conflict"), (410, ascii "Gone"), (411, ascii "Length Required"),
   (412, ascii "Precondition Failed"), (413, ascii "Request Entity Too Large"),
   (414, ascii "Request-URI Too Large"), (415, ascii "Unsupported Media Type"),
   (416, ascii "Requested range not satisfiable"), (417, ascii "Expectation Failed"),
   (421, ascii "Misdirected Request"), (422, ascii "Unproccessable entity"), (423, ascii "Locked"),
   (424, ascii "Failed Dependency"), (426, ascii "Upgrade Required"),
   (428, ascii "Precondition Required"), (429, ascii "Too Many Requests"),
   (431, ascii "Request Header Fields Too Large"), (451, ascii "Unavailable For Legal Reasons"),
   (500, ascii "Internal Server Error"), (501, ascii "Not Implemented"), (502, ascii "Bad Gateway"),
   (503, ascii "Service Unavailable"), (504, ascii "Gateway Time-out"),
   (505, ascii "HTTP Version not supported"), (506, ascii "Variant Also Negotiates"),
   (507, ascii "Insufficient Storage"), (508, ascii "Loop Detected"), (510, ascii "Not Extended"),
   (511, ascii "Network Authentication Required"), (418, ascii "I am a teapot"),
   (419, ascii "Authentication Timeout"), (420, ascii "Enhance Your Calm"),
   (440, ascii "Login Timeout"), (509, ascii "Bandwidth Limit Exceeded")]

def mgGetResponseCodeText (responseCode : Int) : List Byte :=
  match responseCodeTexts.lookup responseCode with
  | some text => text
  | none =>
    if 100 ≤ responseCode && responseCode < 200 then ascii "Information"
    else if 200 ≤ responseCode && responseCode < 300 then ascii "Success"
    else if 300 ≤ responseCode && responseCode < 400 then ascii "Redirection"
    else if 400 ≤ responseCode && responseCode < 500 then ascii "Client Error"
    else if 500 ≤ responseCode && responseCode < 600 then ascii "Server Error"
    else []

def suggestConnectionHeader (conn : Conn) : List Byte :=
  if shouldKeepAlive conn then ascii "keep-alive" else ascii "close"

def freeBufferedResponseHeaderList (c : ResponseConn) : ResponseConn :=
  { c with responseHeaders := [] }

/-- `"HTTP/%s %i %s\r\n"`. -/
def statusLine (httpVersion : List Byte) (statusCode : Int) (statusTxt : List Byte) : List Byte :=
  ascii "HTTP/" ++ httpVersion ++ SP :: decText statusCode.toNat ++ SP :: statusTxt ++ CRLF

/-- `"%s: %s\r\n"`. -/
def headerText (name value : List Byte) : List Byte := name ++ COLON :: SP :: cstr value ++ CRLF

def sendHttp1ResponseStatusLine (c : ResponseConn) : Bool × ResponseConn :=
  let statusCode := if c.statusCode < 100 ∨ 999 < c.statusCode then 500 else c.statusCode
  let statusTxt := mgGetResponseCodeText c.statusCode
  let (n, c) := mgPrintf c (statusLine c.requestInfo.httpVersion statusCode statusTxt)
  (10 ≤ n, c)

/-- The connection is a server's one for a request that is answered by HTTP. -/
def ResponseConn.isHttpRequest (c : ResponseConn) : Bool :=
  c.connectionType == .request && c.protocolType != PROTOCOL_TYPE_WEBSOCKET

def mgResponseHeaderStart (c : ResponseConn) (status : Int) : Int × ResponseConn :=
  if status < 100 ∨ 999 < status then (-1, c)
  else if !c.isHttpRequest then (-2, c)
  else if c.requestState ≠ 0 then (-3, c)
  else (0, freeBufferedResponseHeaderList { c with statusCode := status, requestState := 1 })

/-- `mg_response_header_add`, with memory for the copies; `none` is the null pointer. -/
def mgResponseHeaderAdd (c : ResponseConn) (header value : Option (List Byte)) (valueLen : Int) :
    Int × ResponseConn :=
  match header, value with
  | some header, some value =>
    if !c.isHttpRequest then (-2, c)
    else if c.requestState ≠ 1 then (-3, c)
    else if mgMaxHeaders ≤ c.responseHeaders.length then (-4, c)
    else
      let value := if 0 ≤ valueLen then value.take valueLen.toNat else cstr value
      (0, { c with responseHeaders := c.responseHeaders ++ [⟨cstr header, value⟩] })
  | _, _ => (-1, c)

/-- The loop of `mg_response_header_add_lines`. -/
def addLinesLoop (c : ResponseConn) (ret : Int) : List MgHeader → Int × ResponseConn
  | [] => (ret, c)
  | h :: hs =>
    let (lret, c) := mgResponseHeaderAdd c (some h.name) (some h.value) (-1)
    addLinesLoop c (if 0 < ret ∧ lret < 0 then lret else ret) hs

/-- `mg_response_header_add_lines`, with memory for the copy that is parsed. -/
def mgResponseHeaderAddLines (c : ResponseConn) (http1Headers : List Byte) : Int × ResponseConn :=
  let parsed := parseHttpHeaders (cstr http1Headers ++ [NUL])
  if parsed.ok then addLinesLoop c parsed.headers.length parsed.headers else (-1, c)

/-- The loop of `mg_response_header_send` over the stored headers. -/
def sendHeaders (c : ResponseConn) : List MgHeader → ResponseConn
  | [] => c
  | h :: hs => sendHeaders (mgPrintf c (headerText h.name h.value)).2 hs

/-- The stored headers contain one of this name. -/
def hasHeader (name : List Byte) (hs : List MgHeader) : Bool :=
  hs.any (fun h => mgStrcasecmp name h.name == 0)

section Send

variable (gmtTimeString : Nat → List Byte)

def sendDate (c : ResponseConn) : ResponseConn :=
  let (curtime, out) := c.out.time
  (mgPrintf { c with out := out } (headerText (ascii "Date") (gmtTimeString curtime))).2

def mgResponseHeaderSend (c : ResponseConn) : Int × ResponseConn :=
  if !c.isHttpRequest then (-2, c)
  else if c.requestState ≠ 1 then (-3, c)
  else
    let (ok, c) := sendHttp1ResponseStatusLine { c with requestState := 2 }
    if !ok then (-4, freeBufferedResponseHeaderList c)
    else
      let c := sendHeaders c c.responseHeaders
      let c := if hasHeader (ascii "Date") c.responseHeaders then c else sendDate gmtTimeString c
      let c :=
        if hasHeader (ascii "Connection") c.responseHeaders then c
        else (mgPrintf c (headerText (ascii "Connection") (suggestConnectionHeader c.toConn))).2
      let c := (c.write CRLF).2
      (0, freeBufferedResponseHeaderList { c with requestState := 3 })

/-- The calls by which a handler answers a request. -/
inductive ResponseCall where
  | start (status : Int)
  | add (header value : Option (List Byte)) (valueLen : Int)
  | addLines (http1Headers : List Byte)
  | send
  | write (buf : List Byte)
  deriving DecidableEq, Repr

def responseCall (c : ResponseConn) : ResponseCall → Int × ResponseConn
  | .start status => mgResponseHeaderStart c status
  | .add header value valueLen => mgResponseHeaderAdd c header value valueLen
  | .addLines http1Headers => mgResponseHeaderAddLines c http1Headers
  | .send => mgResponseHeaderSend gmtTimeString c
  | .write buf => c.write buf

/-- The connection after a handler's calls. -/
def responseRun (c : ResponseConn) (calls : List ResponseCall) : ResponseConn :=
  calls.foldl (fun c call => (responseCall gmtTimeString c call).2) c

end Send

end CivetWeb
