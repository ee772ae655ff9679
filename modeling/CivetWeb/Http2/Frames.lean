import CivetWeb.Http2.Hpack
import CivetWeb.Form.FormVars
import CivetWeb.Form.DotSegments

namespace CivetWeb

/-- The strings that were allocated, `none` for one that is freed again. A pointer is a place in this
list; no place is used twice. -/
abbrev Heap := List (Option (List Byte))

def Heap.malloc (heap : Heap) (s : List Byte) : Nat × Heap := (heap.length, heap ++ [some s])

def Heap.free (heap : Heap) (p : Nat) : Heap := heap.set p none

/-- The string at a pointer; `none` where it is `NULL` or freed. -/
def Heap.read (heap : Heap) (p : Option Nat) : Option (List Byte) := p.bind fun p => (heap[p]?).join

def Heap.write (heap : Heap) (p : Option Nat) (f : List Byte → List Byte) : Heap :=
  match p with
  | none => heap
  | some p => heap.modify p (Option.map f)

/-- The part of `mg_request_info` that `handle_http2` fills. -/
structure Http2Request where
  requestMethod : Option Nat
  requestUri : Option Nat
  localUri : Option Nat
  localUriRaw : Option Nat
  httpHeaders : List (Nat × Nat)
  deriving DecidableEq, Repr

/-- A connection in `handle_http2`, with its frame buffer and the strings that it points to. -/
structure Http2Conn where
  buf : List Byte
  heap : Heap
  dynTable : List MgHeader
  requestInfo : Http2Request
  statusCode : Int
  streamId : Nat
  deriving DecidableEq, Repr

/-- A header that was decoded is stored in the request; beyond `MG_MAX_HEADERS` its strings are freed
again. -/
def Http2Conn.addHeader (conn : Http2Conn) (h : MgHeader) : Http2Conn :=
  let ri := conn.requestInfo
  if ri.httpHeaders.length < mgMaxHeaders then
    let (key, heap) := conn.heap.malloc h.name
    let (val, heap) := heap.malloc h.value
    let ri := { ri with httpHeaders := ri.httpHeaders ++ [(key, val)] }
    if h.name = ascii ":method" then
      { conn with heap := heap, requestInfo := { ri with requestMethod := some val } }
    else if h.name = ascii ":path" then
      { conn with
        heap := heap
        requestInfo :=
          { ri with localUri := some val, requestUri := some val, localUriRaw := some val } }
    else if h.name = ascii ":status" then
      { conn with heap := heap, requestInfo := ri, statusCode := atoi h.value }
    else { conn with heap := heap, requestInfo := ri }
  else conn

/-- The loop over the header block of a frame of `size` bytes; `none` goes to `clean_http2`. -/
def headerBlockLoop (size padding : Nat) : Nat → Http2Conn → Nat → Option Http2Conn
  | 0, _, _ => none
  | turns + 1, conn, i =>
    if i + padding < size then
      (nextHeader conn.dynTable conn.buf size i).bind fun (h, dynTable, i) =>
        let conn := { conn with dynTable := dynTable }
        headerBlockLoop size padding turns ((h.map conn.addHeader).getD conn) i
    else some conn

structure Http2Frame where
  frameType : Nat
  flags : Byte
  streamId : Nat
  payload : List Byte
  deriving DecidableEq, Repr

/-- The padding of a `HEADERS` frame and where its header block starts. -/
def headersStart (buf : List Byte) (flags : Byte) : Nat × Nat :=
  let padded := flags &&& 0x08 ≠ 0
  let priority := flags &&& 0x20 ≠ 0
  (if padded then (deref buf).toNat else 0, (if padded then 1 else 0) + if priority then 5 else 0)

/-- The request that `handle_request` sees, the frame that it is made of, and the dynamic table before
that frame. -/
structure Handled where
  dynTable : List MgHeader
  frame : Http2Frame
  request : Http2Request
  heap : Heap
  deriving DecidableEq, Repr

/-- `handle_request` with its handlers: what it makes of the strings, and its `local_uri`. -/
abbrev RequestHandler := Http2Request → Heap → Heap × Option Nat

/-- `free_buffered_request_header_list`. -/
def freeBufferedRequestHeaderList (conn : Http2Conn) : Http2Conn :=
  { conn with
    heap := conn.requestInfo.httpHeaders.foldr (fun (key, val) heap => (heap.free key).free val)
      conn.heap
    requestInfo := { conn.requestInfo with httpHeaders := [] } }

/-- A `HEADERS` frame whose payload is in the buffer. -/
def headersFrame (handler : RequestHandler) (conn : Http2Conn) (frame : Http2Frame) :
    Option (Handled × Http2Conn) :=
  let (padding, i) := headersStart conn.buf frame.flags
  let size := frame.payload.length
  -- every turn of the loop advances
  (headerBlockLoop size padding (size + 1)
    { conn with requestInfo := { conn.requestInfo with httpHeaders := [] } } i).map fun conn' =>
  let conn' := { conn' with streamId := frame.streamId }
  let (heap, localUri) := handler conn'.requestInfo conn'.heap
  (⟨conn.dynTable, frame, conn'.requestInfo, conn'.heap⟩,
    freeBufferedRequestHeaderList
      { conn' with heap := heap, requestInfo := { conn'.requestInfo with localUri := localUri } })

/-- A turn of the loop of `handle_http2`; `none` goes to `clean_http2`. -/
def http2Frame (handler : RequestHandler) (conn : Http2Conn) (frame : Http2Frame) :
    Option (Option Handled × Http2Conn) :=
  let conn := { conn with buf := frame.payload ++ conn.buf.drop frame.payload.length }
  if frame.frameType = 1 then
    (headersFrame handler conn frame).map fun (r, conn) => (some r, conn)
  else if frame.frameType ≤ 9 then some (none, conn)
  else none

/-- The requests that are handled for a sequence of frames. -/
def handleFrames (handler : RequestHandler) : Http2Conn → List Http2Frame → List Handled
  | _, [] => []
  | conn, frame :: frames =>
    match http2Frame handler conn frame with
    | none => []
    | some (r, conn) => r.toList ++ handleFrames handler conn frames

/-- `settings_max_frame_size`. -/
def HTTP2_MAX_FRAME_SIZE : Nat := 16384

/-- The next frame of what the client sends, and what is left. -/
def readFrame : List Byte → Option (Http2Frame × List Byte)
  | h0 :: h1 :: h2 :: h3 :: h4 :: h5 :: h6 :: h7 :: h8 :: rest =>
    let size := h0.toNat * 0x10000 + h1.toNat * 0x100 + h2.toNat
    if HTTP2_MAX_FRAME_SIZE < size then none
    else if rest.length < size then none
    else
      some (⟨h3.toNat, h4, h5.toNat * 0x1000000 + h6.toNat * 0x10000 + h7.toNat * 0x100 + h8.toNat,
        rest.take size⟩, rest.drop size)
  | _ => none

def readFrames : Nat → List Byte → List Http2Frame
  | 0, _ => []
  | turns + 1, input =>
    match readFrame input with
    | none => []
    | some (frame, rest) => frame :: readFrames turns rest

/-- `handle_http2` on what the client sends behind the connection preface. -/
def handleHttp2 (handler : RequestHandler) (conn : Http2Conn) (input : List Byte) : List Handled :=
  handleFrames handler conn (readFrames input.length input)

/-- What `handle_request` does to the strings before it looks for a handler: the path is cut off at the
query, decoded if the configuration says so, and `local_uri` is a clean copy of it. -/
def splitUri (decodeUrl : Bool) : RequestHandler := fun ri heap =>
  let heap := heap.write ri.requestUri (fun s => s.takeWhile (· != 63))
  let heap := if decodeUrl then heap.write ri.localUri urlDecodeInPlace else heap
  match heap.read ri.localUriRaw with
  | none => (heap, ri.localUri)
  | some s =>
    let (tmp, heap) := heap.malloc (removeDotSegments s)
    (heap, some tmp)

end CivetWeb
