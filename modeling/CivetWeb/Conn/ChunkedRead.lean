import CivetWeb.Conn.Connection
import CivetWeb.Http.ChunkedBody

namespace CivetWeb

/-- One byte of a size line or trailer: `conn->content_len` grows with each. -/
def readOne (conn : Conn) : Option Byte × Conn :=
  let (r, conn) := mgReadInner { conn with contentLen := conn.contentLen + 1 } 1
  (r.bind List.head?, conn)

/-- The inner loop over a chunk extension; `x` is `lenbuf[i]`, which a failed read leaves as it is. -/
def skipExtension : Nat → Byte → Conn → Byte × Conn
  | 0, x, conn => (x, conn)
  | n + 1, x, conn =>
    match readOne conn with
    | (none, conn) => (x, conn)
    | (some b, conn) => if b = CR then (b, conn) else skipExtension n b conn

/-- `lenbuf[i]` as it is set in one turn of the loop over the size line. -/
def readLenChar (lenbuf : List Byte) (conn : Conn) : Byte × Conn :=
  let (r, conn) := readOne conn
  let x := r.getD NUL
  if lenbuf ≠ [] ∧ x = SEMICOLON then skipExtension (conn.unread.length + 1) x conn
  else (x, conn)

/-- The loop over the size line. `n` turns are left, `lenbuf` holds the bytes of the
earlier ones; the result is `chunkSize`, and `none` where `mg_read` gives up. -/
def readSizeLine : Nat → List Byte → Conn → Option Nat × Conn
  | 0, _, conn => (none, { conn with isChunked := 2 })
  | n + 1, lenbuf, conn =>
    let (x, conn) := readLenChar lenbuf conn
    if lenbuf ≠ [] ∧ x = CR ∧ lenbuf.getLast? ≠ some CR then readSizeLine n (lenbuf ++ [x]) conn
    else if 1 < lenbuf.length ∧ x = LF ∧ lenbuf.getLast? = some CR then
      let (chunkSize, endptr) := strtoul 16 (lenbuf ++ [x])
      let conn := if chunkSize = 0 then { conn with isChunked := 3 } else conn
      if deref endptr ≠ CR then (none, { conn with isChunked := 2 }) else (some chunkSize, conn)
    else if !isxdigit x then (none, { conn with isChunked := 2 })
    else readSizeLine n (lenbuf ++ [x]) conn

/-- The loop over the trailer, up to the second of two CRLF in a row. -/
def skipTrailer : Nat → Nat → Conn → Conn
  | 0, _, conn => conn
  | n + 1, crlfCount, conn =>
    if 4 ≤ crlfCount ∨ conn.isChunked ≠ 3 then conn
    else
      match readOne conn with
      | (none, conn) => skipTrailer n crlfCount { conn with isChunked := 2 }
      | (some b, conn) =>
        if crlfCount = 0 ∨ crlfCount = 2 then
          if b = CR then skipTrailer n (crlfCount + 1) conn else skipTrailer n 0 conn
        else if b = LF then skipTrailer n (crlfCount + 1) conn
        else skipTrailer n crlfCount { conn with isChunked := 2 }

/-- `(int64_t)` of an `unsigned long`. -/
def toInt64 (n : Nat) : Int := if n < 2 ^ 63 then n else n - 2 ^ 64

/-- How fetching a new chunk ends: with -1, behind the trailer, or with its data next. -/
inductive Fetched where
  | failed
  | last
  | chunk
  deriving DecidableEq, Repr

/-- The size of `lenbuf`. -/
def lenbufSize : Nat := 64

def fetchChunk (conn : Conn) : Fetched × Conn :=
  match readSizeLine (lenbufSize - 1) [] conn with
  | (none, conn) => (.failed, conn)
  | (some chunkSize, conn) =>
    if conn.isChunked = 3 then
      let conn := skipTrailer (conn.unread.length + 1) 2 conn
      if conn.isChunked = 2 then (.failed, conn) else (.last, { conn with isChunked := 4 })
    else (.chunk, { conn with contentLen := conn.contentLen + toInt64 chunkSize })

/-- A turn of the loop of `mg_read` leaves the loop, or goes on with a length still
wanted and the bytes read. -/
inductive ReadTurn where
  | stop (r : Option (List Byte)) (conn : Conn)
  | again (conn : Conn) (len : Nat) (allRead : List Byte)
  deriving DecidableEq, Repr

/-- The turn that copies from the current chunk, and reads the CRLF behind it. -/
def copyTurn (conn : Conn) (len : Nat) (allRead : List Byte) : ReadTurn :=
  match mgReadInner conn len with
  | (none, conn) => .stop none { conn with isChunked := 2 }
  | (some bs, conn) =>
    if bs = [] then .stop none { conn with isChunked := 2 }
    else if (conn.consumedContent : Int) = conn.contentLen then
      let (x, conn) := mgReadInner { conn with contentLen := conn.contentLen + 2 } 2
      if x ≠ some [CR, LF] then .stop none { conn with isChunked := 2 }
      else .again conn (len - bs.length) (allRead ++ bs)
    else .again conn (len - bs.length) (allRead ++ bs)

def mgReadTurn (conn : Conn) (len : Nat) (allRead : List Byte) : ReadTurn :=
  if 3 ≤ conn.isChunked then .stop (some []) conn
  else if conn.isChunked ≠ 1 then .stop none conn
  else if (conn.consumedContent : Int) ≠ conn.contentLen then copyTurn conn len allRead
  else
    match fetchChunk conn with
    | (.failed, conn) => .stop none conn
    | (.last, conn) => .stop (some allRead) conn
    | (.chunk, conn) => .again conn len allRead

/-- The loop of `mg_read` on a chunked body. Every turn that is followed by another one takes at least one byte off
the stream. -/
def mgReadLoop : Nat → Conn → Nat → List Byte → Option (List Byte) × Conn
  | 0, conn, _, allRead => (some allRead, conn)
  | n + 1, conn, len, allRead =>
    if len = 0 then (some allRead, conn)
    else
      match mgReadTurn conn len allRead with
      | .stop r conn => (r, conn)
      | .again conn len allRead => mgReadLoop n conn len allRead

/-- `mg_read`; `none` is its -1. -/
def mgRead (conn : Conn) (len : Nat) : Option (List Byte) × Conn :=
  let len := min len INT_MAX
  if conn.isChunked ≠ 0 then mgReadLoop (conn.unread.length + 1) conn len [] else mgReadInner conn len

/-- Successive calls of `mg_read`. -/
def mgReads (conn : Conn) : List Nat → List (Option (List Byte)) × Conn
  | [] => ([], conn)
  | len :: lens =>
    let (r, conn) := mgRead conn len
    let (rs, conn) := mgReads conn lens
    (r :: rs, conn)

/-! The connections on which `mg_read` comes to fetch a chunk, each as it is in front of the size line. -/

def mgReadTurnFetches (conn : Conn) : List Conn :=
  if conn.isChunked = 1 ∧ (conn.consumedContent : Int) = conn.contentLen then [conn] else []

def mgReadLoopFetches : Nat → Conn → Nat → List Byte → List Conn
  | 0, _, _, _ => []
  | n + 1, conn, len, allRead =>
    if len = 0 then []
    else
      mgReadTurnFetches conn ++
        match mgReadTurn conn len allRead with
        | .stop _ _ => []
        | .again conn len allRead => mgReadLoopFetches n conn len allRead

def mgReadFetches (conn : Conn) (len : Nat) : List Conn :=
  if conn.isChunked ≠ 0 then mgReadLoopFetches (conn.unread.length + 1) conn (min len INT_MAX) [] else []

def mgReadsFetches (conn : Conn) : List Nat → List Conn
  | [] => []
  | len :: lens => mgReadFetches conn len ++ mgReadsFetches (mgRead conn len).2 lens

/-- A wire on which a read inside the extension of the first size line finds nothing, the next read finds a byte, and
the byte in front is one that the size line goes on with. -/
def PausedExtension (wire : List (Option Byte)) : Prop :=
  ∃ line ext b rest, wire = (line ++ SEMICOLON :: ext).map some ++ none :: some b :: rest ∧ line ≠ [] ∧ NoCrlf line ∧
    CR ∉ ext ∧ ∃ c ∈ ext.getLast?, isxdigit c = true ∨ c = LF

theorem unpaused_unbroken (wire : List (Option Byte)) (h : Unbroken wire) : ¬ PausedExtension wire := by
  rintro ⟨line, ext, b, rest, rfl, -⟩
  exact h.no_byte

end CivetWeb
