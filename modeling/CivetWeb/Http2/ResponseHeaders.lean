import CivetWeb.Http2.DataFrames
import CivetWeb.Http2.Encode
import CivetWeb.Http2.HeaderTables
import CivetWeb.Lib.HpackRead
import CivetWeb.Response.Response

namespace CivetWeb

open Hpack

/-- Bytes that are stored from `k` on; `none` writes behind the buffer. -/
def putBytes (bin : List Byte) (k : Nat) (s : List Byte) : Option (List Byte) :=
  if k + s.length ≤ bin.length then some (bin.take k ++ s ++ bin.drop (k + s.length)) else none

/-- The status code as it is sent. -/
def sentStatus (statusCode : Int) : Nat :=
  if statusCode < 100 ∨ 999 < statusCode then 500 else statusCode.toNat

def statusBytes (status : Nat) : List Byte :=
  match status with
  | 200 => [0x88]
  | 204 => [0x89]
  | 206 => [0x8A]
  | 304 => [0x8B]
  | 400 => [0x8C]
  | 404 => [0x8D]
  | 500 => [0x8E]
  | _ =>
    [0x48, 0x03, UInt8.ofNat (0x30 + status / 100), UInt8.ofNat (0x30 + status / 10 % 10),
      UInt8.ofNat (0x30 + status % 10)]

/-- The headers that are valid in HTTP/2. -/
def sentHeaders (headers : List MgHeader) : List MgHeader :=
  headers.filter fun h => mgStrcasecmp (ascii "Connection") h.name != 0

/-- `predef`: the index of a header that is known in HPACK, or 0. -/
def predefinedIndex (name : List Byte) : Nat :=
  ((List.range' 15 47).find? fun j =>
    mgStrcasecmp (((hpackPredefined[j]?).bind Prod.fst).getD []) name == 0).getD 0

/-- One turn of the loop over the headers: the buffer and `header_len`. -/
def addHeaderBytes (h : MgHeader) (bin : List Byte) (len : Nat) : Option (List Byte × Nat) :=
  let predef := predefinedIndex h.name
  (if predef ≠ 0 then
    (putBytes bin len [UInt8.ofNat (0x40 + predef)]).map fun bin => (bin, len + 1)
  else
    (putBytes bin len [0x10]).bind fun bin =>
      (hpackEncode bin (len + 1) h.name true).map fun (j, bin) => (bin, len + 1 + j)).bind
  fun (bin, len) => (hpackEncode bin len h.value false).map fun (j, bin) => (bin, len + j)

def addAllHeaders : List MgHeader → List Byte → Nat → Option (List Byte × Nat)
  | [], bin, len => some (bin, len)
  | h :: hs, bin, len => (addHeaderBytes h bin len).bind fun (bin, len) => addAllHeaders hs bin len

def dateBytes (date : List Byte) : List Byte := 0x61 :: UInt8.ofNat date.length :: date

/-- The part of `header_bin` that is sent; `stack` is what was in it before. -/
def headerBlock (stack : List Byte) (statusCode : Int) (headers : List MgHeader) (date : List Byte) :
    Option (List Byte) :=
  let status := statusBytes (sentStatus statusCode)
  (putBytes stack 0 status).bind fun bin =>
  (addAllHeaders (sentHeaders headers) bin status.length).bind fun (bin, len) =>
  if hasHeader (ascii "Date") (sentHeaders headers) then some (bin.take len)
  else
    (putBytes bin len (dateBytes date)).map fun bin => bin.take (len + (dateBytes date).length)

def headerFrameOctets (streamId headerLen : UInt32) : List Byte :=
  [0, ((headerLen &&& 0xFF00) >>> 8).toUInt8, (headerLen &&& 0xFF).toUInt8, 1, 4,
    ((streamId &&& 0xFF000000) >>> 24).toUInt8, ((streamId &&& 0xFF0000) >>> 16).toUInt8,
    ((streamId &&& 0xFF00) >>> 8).toUInt8, (streamId &&& 0xFF).toUInt8]

/-- `http2_send_response_headers`, with the text of the date; `none` writes behind `header_bin`. -/
def http2SendResponseHeaders (stack : List Byte) (out : Output) (streamId : UInt32) (statusCode : Int)
    (headers : List MgHeader) (date : List Byte) : Option (Bool × Output) :=
  (headerBlock stack statusCode headers date).map fun block =>
    let (n, out) := pushAll out (headerFrameOctets streamId (UInt32.ofNat block.length)) 9
    if n ≠ 9 then (false, out)
    else
      let (n, out) := pushAll out block block.length
      if n ≠ block.length then (false, out) else (true, out)

/-! ### What is to be sent -/

/-- The header list of a response. -/
def responseFields (statusCode : Int) (headers : List MgHeader) (date : List Byte) : List Field :=
  let fields := (headers.map fun h => (⟨h.name.map tolower, h.value⟩ : Field)).filter
    fun f => f.name ≠ ascii "connection"
  ⟨ascii ":status", decText statusCode.toNat⟩ ::
    (fields ++ if ∃ f ∈ fields, f.name = ascii "date" then [] else [⟨ascii "date", date⟩])

/-- The size of `header_bin`. -/
def HEADER_BIN_LEN : Nat := 1024

/-- The frame is written with these fields, whatever the buffer and the table of the client contain; or
nothing is written. -/
def HeadersSent (streamId : UInt32) (date : List Byte) (c : ResponseConn) : Prop :=
  ∀ stack : List Byte, stack.length = HEADER_BIN_LEN →
    ∃ ok out, http2SendResponseHeaders stack c.out streamId c.statusCode c.responseHeaders date =
      some (ok, out) ∧
      if ok then
        ∃ frame block, out.sent = c.out.sent ++ frame ∧
          readFrame frame = some (⟨1, 4, streamId.toNat, block⟩, []) ∧
          ∀ t : Table, ∃ t', t.Decodes HTTP2_HEADER_TABLE_SIZE block
            (responseFields c.statusCode c.responseHeaders date) t'
      else out.sent = c.out.sent

/-- A header that `mg_response_header_add` accepts. -/
structure AddedHeader where
  name : List Byte
  value : List Byte
  valueLen : Int
  deriving DecidableEq, Repr

def AddedHeader.header (a : AddedHeader) : MgHeader :=
  ⟨cstr a.name, if 0 ≤ a.valueLen then a.value.take a.valueLen.toNat else cstr a.value⟩

def addHeaderStep (c : ResponseConn) (a : AddedHeader) : Option ResponseConn :=
  let (ret, c) := mgResponseHeaderAdd c (some a.name) (some a.value) a.valueLen
  if ret = 0 then some c else none

theorem addHeaderStep_eq (c t : ResponseConn) (a : AddedHeader) (h : addHeaderStep c a = some t) :
    t = { c with responseHeaders := c.responseHeaders ++ [a.header] } := by
  unfold addHeaderStep mgResponseHeaderAdd at h
  dsimp only at h
  split_ifs at h with h1 h2 h3 h4 h5 h6 h7 h8
  all_goals first
    | contradiction
    | rw [Option.some.injEq] at h
      rw [← h, AddedHeader.header]
      split_ifs
      rfl

end CivetWeb
