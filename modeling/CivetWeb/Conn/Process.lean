import CivetWeb.Conn.GetRequest
import CivetWeb.Conn.KeepAlive
import CivetWeb.Conn.RequestBody

namespace CivetWeb

/-- `local_uri` by the type of the URI; the outer `none` is an invalid URI. -/
def localUriOf (conn : Conn) : Option (Option (List Byte)) :=
  let uri := conn.requestInfo.requestUri
  match getUriType uri with
  | 1 => some none
  | 2 => some (some uri)
  | 3 | 4 =>
    let check := mgStrcasecmp conn.domain.enableAuthDomainCheck (ascii "yes") == 0
    some (getRelUrlAtCurrentServer uri conn.lsaPort
      (if check then some conn.domain.authenticationDomain else none))
  | _ => none

/-- The protocol of a request; an upgrade to HTTP/2 is not followed. -/
def requestProtocol (conn : Conn) : Int :=
  let protocolType := shouldSwitchToProtocol conn
  if protocolType = PROTOCOL_TYPE_HTTP2 then PROTOCOL_TYPE_HTTP1 else protocolType

/-- A request that was parsed, and what its handler got of the body. -/
structure Served where
  info : RequestInfo
  data : List Byte
  deriving DecidableEq, Repr

/-- The first part of a turn of `process_new_connection`: read a request and handle it. -/
def serveRequest (handler : Conn → Handler) (conn : Conn) : Option Served × Conn :=
  match getRequest conn with
  | (some _, conn) => (none, { conn with protocolType := -1, mustClose := true })
  | (none, conn) =>
    let info := conn.requestInfo
    if info.httpVersion ≠ ascii "1.0" ∧ info.httpVersion ≠ ascii "1.1" then
      (some ⟨info, []⟩, { conn with protocolType := -1, mustClose := true })
    else
      match localUriOf conn with
      | none =>
        (some ⟨info, []⟩, { conn with localUri := none, protocolType := -1, mustClose := true })
      | some localUri =>
        let conn := { conn with localUri := localUri, protocolType := requestProtocol conn }
        if localUri.isSome then
          let (data, conn) := (handler conn).run conn
          (some ⟨info, data⟩, conn)
        else (some ⟨info, []⟩, { conn with mustClose := true })

/-- `keep_alive`: nothing of this request is left in the stream, or all of it is in the buffer. -/
def keepAlive (conn : Conn) : Bool :=
  !stopFlag conn.sock && shouldKeepAlive conn && 0 ≤ conn.contentLen && 0 < conn.requestLen &&
    (conn.isChunked == 4 ||
      (conn.isChunked == 0 &&
        ((conn.consumedContent : Int) == conn.contentLen ||
          conn.requestLen + conn.contentLen ≤ conn.dataLen))) &&
    conn.protocolType == PROTOCOL_TYPE_HTTP1

/-- The number of buffered bytes that belong to the request. -/
def discardLen (conn : Conn) : Nat :=
  if conn.requestLen + conn.contentLen < conn.dataLen then
    (conn.requestLen + conn.contentLen).toNat
  else conn.dataLen

/-- Discards all buffered data of the request. -/
def discardRequest (conn : Conn) : Conn :=
  let left := conn.dataLen - discardLen conn
  { conn with
    dataLen := left
    buf := if 0 < left then (conn.buf.drop (discardLen conn)).take left ++ conn.buf.drop left
      else conn.buf }

/-- A turn of `process_new_connection`; `again` is its loop condition. -/
structure ProcessTurn where
  served : Option Served
  conn : Conn
  again : Bool

def processTurn (handler : Conn → Handler) (conn : Conn) : ProcessTurn :=
  let (served, conn) := serveRequest handler conn
  let again := keepAlive conn
  let conn := if again then discardRequest conn else conn
  if conn.buf.length < conn.dataLen then ⟨served, conn, false⟩
  else ⟨served, { conn with handledRequests := conn.handledRequests + 1 }, again⟩

/-- The loop of `process_new_connection`. -/
def processLoop (handler : Conn → Handler) : Nat → Conn → List Served × Conn
  | 0, conn => ([], conn)
  | n + 1, conn =>
    let turn := processTurn handler conn
    if turn.again then
      let (served, conn) := processLoop handler n turn.conn
      (turn.served.toList ++ served, conn)
    else (turn.served.toList, turn.conn)

/-- `process_new_connection`: every turn that is followed by another one takes at least one
byte off the stream. -/
def processNewConnection (handler : Conn → Handler) (conn : Conn) : List Served × Conn :=
  processLoop handler (conn.stream.length + 1) conn

/-! The connections at the start of each turn of `process_new_connection`, and those on which a handler of it comes to
fetch a chunk. -/

def processLoopTurns (handler : Conn → Handler) : Nat → Conn → List Conn
  | 0, _ => []
  | n + 1, conn =>
    let turn := processTurn handler conn
    conn :: if turn.again then processLoopTurns handler n turn.conn else []

def processNewConnectionTurns (handler : Conn → Handler) (conn : Conn) : List Conn :=
  processLoopTurns handler (conn.stream.length + 1) conn

def serveRequestFetches (handler : Conn → Handler) (conn : Conn) : List Conn :=
  match getRequest conn with
  | (some _, _) => []
  | (none, conn) =>
    let info := conn.requestInfo
    if info.httpVersion ≠ ascii "1.0" ∧ info.httpVersion ≠ ascii "1.1" then []
    else
      match localUriOf conn with
      | none => []
      | some localUri =>
        let conn := { conn with localUri := localUri, protocolType := requestProtocol conn }
        if localUri.isSome then (handler conn).fetches conn else []

def processNewConnectionFetches (handler : Conn → Handler) (conn : Conn) : List Conn :=
  (processNewConnectionTurns handler conn).flatMap (serveRequestFetches handler)

/-- The stream behind a request is cut off at a position in the buffer. -/
theorem discardRequest_stream (conn : Conn) (hle : conn.dataLen ≤ conn.buf.length) :
    (discardRequest conn).stream =
        (conn.buf.take conn.dataLen).drop (discardLen conn) ++ sockBytes conn.sock ∧
      (discardRequest conn).dataLen ≤ (discardRequest conn).buf.length ∧
      (discardRequest conn).buf.length = conn.buf.length := by
  have hcut : discardLen conn ≤ conn.dataLen := by
    rw [discardLen]
    split_ifs <;> omega
  obtain ⟨left, hleft⟩ : ∃ left, left = conn.dataLen - discardLen conn := ⟨_, rfl⟩
  have hmoved : ((conn.buf.drop (discardLen conn)).take left).length = left := by
    rw [List.length_take, List.length_drop]
    omega
  unfold discardRequest Conn.stream
  simp only [← hleft]
  by_cases hpos : 0 < left
  · rw [if_pos hpos]
    refine ⟨?_, ?_, ?_⟩
    · rw [List.take_append_of_le_length (by omega), List.take_of_length_le (by omega), List.drop_take,
        hleft]
    · rw [List.length_append, hmoved]
      omega
    · rw [List.length_append, hmoved, List.length_drop]
      omega
  · rw [if_neg hpos]
    obtain rfl : left = 0 := by omega
    refine ⟨?_, Nat.zero_le _, rfl⟩
    rw [List.take_zero, List.drop_eq_nil_of_le]
    rw [List.length_take]
    omega

/-- Behind a request that is kept alive the stream goes on with what follows its body. -/
theorem discardRequest_rest (body payload rest got : List Byte) (conn : Conn)
    (h : BodyAt body payload rest got conn) (hkeep : keepAlive conn = true) :
    (discardRequest conn).stream = rest ∧
      (discardRequest conn).dataLen ≤ (discardRequest conn).buf.length ∧
      (discardRequest conn).buf.length = conn.buf.length := by
  simp only [keepAlive, Bool.and_eq_true, Bool.or_eq_true, decide_eq_true_eq, beq_iff_eq] at hkeep
  obtain ⟨⟨⟨⟨-, hlen⟩, hhead⟩, hbody⟩, -⟩ := hkeep
  obtain ⟨total, htotal⟩ := Int.eq_ofNat_of_zero_le hlen
  obtain ⟨head, hheadlen⟩ := Int.eq_ofNat_of_zero_le hhead.le
  have hdiscard : discardLen conn = min (head + total) conn.dataLen := by
    rw [discardLen, htotal, hheadlen]
    split_ifs <;> omega
  have hdrop : (conn.buf.take conn.dataLen).drop (discardLen conn) =
      (conn.buf.take conn.dataLen).drop (head + total) := by
    rw [hdiscard]
    by_cases hle : head + total ≤ conn.dataLen
    · rw [Nat.min_eq_left hle]
    · rw [List.drop_eq_nil_of_le, List.drop_eq_nil_of_le]
      · rw [List.length_take]
        omega
      · rw [List.length_take]
        omega
  have hunread : conn.unread =
      (conn.buf.take conn.dataLen).drop (head + conn.consumedContent) ++ sockBytes conn.sock := by
    rw [Conn.unread, hheadlen]
    congr 2
  -- all of the body is read: the rest is what is unread
  have hread (hplaced : conn.Placed) (hall : conn.consumedContent = total) (hu : conn.unread = rest) :
      (discardRequest conn).stream = rest ∧
        (discardRequest conn).dataLen ≤ (discardRequest conn).buf.length ∧
        (discardRequest conn).buf.length = conn.buf.length := by
    obtain ⟨hstream, hfit⟩ := discardRequest_stream conn hplaced.data_le
    refine ⟨?_, hfit⟩
    rw [hstream, hdrop, ← hu, hunread, hall]
  cases h with
  | plain left hplaced hplain hsize hp hu hb hc =>
    rw [hsize] at htotal
    have hgot := congrArg List.length hb
    rw [List.length_append] at hgot
    rcases hbody with h4 | ⟨-, hall | hbuffered⟩
    · omega
    · have hnil : left = [] := List.eq_nil_of_length_eq_zero (by omega)
      rw [hnil, List.nil_append] at hu
      exact hread hplaced (by omega) hu
    · obtain ⟨hstream, hfit⟩ := discardRequest_stream conn hplaced.data_le
      refine ⟨?_, hfit⟩
      have hsum : head + total = head + conn.consumedContent + left.length := by omega
      have hin : left.length ≤
          ((conn.buf.take conn.dataLen).drop (head + conn.consumedContent)).length := by
        have := hplaced.data_le
        rw [List.length_drop, List.length_take]
        omega
      rw [hstream, hdrop, hsum, ← List.drop_drop, ← List.drop_append_of_le_length hin, ← hunread, hu,
        List.drop_left]
  | chunks r s d hat hs hu hp =>
    have hch := hat.chunked
    omega
  | ended hplaced h4 hend hu hp => exact hread hplaced (by omega) hu
  | failed hbad hp => omega

/-- Whatever becomes of a request that was read, it is as if some handler had run. -/
theorem serveRequest_handled (handler : Conn → Handler) (conn c : Conn)
    (h : getRequest conn = (none, c)) :
    ∃ (run : Handler) (protocolType : Int) (localUri : Option (List Byte)) (c' : Conn),
      c' = { c with mustClose := c.mustClose, protocolType := protocolType, localUri := localUri } ∧
      serveRequest handler conn = (some ⟨c.requestInfo, (run.run c').1⟩, (run.run c').2) ∧
      serveRequestFetches handler conn = run.fetches c' := by
  unfold serveRequest serveRequestFetches
  rw [h]
  dsimp only
  split_ifs with hversion
  · exact ⟨.done true, -1, c.localUri, _, rfl, by simp [Handler.run], rfl⟩
  · cases huri : localUriOf c with
    | none => exact ⟨.done true, -1, none, _, rfl, by simp [Handler.run], rfl⟩
    | some localUri =>
      dsimp only
      split_ifs
      · exact ⟨handler _, requestProtocol c, localUri, _, rfl, rfl, rfl⟩
      · exact ⟨.done true, requestProtocol c, localUri, _, rfl, by simp [Handler.run], rfl⟩

theorem serveRequest_error (handler : Conn → Handler) (conn c : Conn) (e : RequestError)
    (h : getRequest conn = (some e, c)) :
    serveRequest handler conn = (none, { c with protocolType := -1, mustClose := true }) := by
  rw [serveRequest, h]

theorem keepAlive_mustClose (conn : Conn) (h : conn.mustClose = true) : keepAlive conn = false := by
  simp [keepAlive, shouldKeepAlive, h]

/-- A request that cannot be read ends the connection. -/
theorem processTurn_error (handler : Conn → Handler) (conn c : Conn) (e : RequestError)
    (h : getRequest conn = (some e, c)) :
    (processTurn handler conn).served = none ∧ (processTurn handler conn).again = false := by
  have hserve := serveRequest_error handler conn c e h
  have hno := keepAlive_mustClose { c with protocolType := -1, mustClose := true } rfl
  simp only [processTurn, hserve, hno, Bool.false_eq_true, if_false]
  split_ifs
  · exact ⟨rfl, rfl⟩
  · exact ⟨rfl, rfl⟩

/-- A turn that goes on has left a shorter stream. -/
theorem processTurn_shrinks (handler : Conn → Handler) (conn : Conn)
    (hle : conn.dataLen ≤ conn.buf.length) (h : (processTurn handler conn).again = true) :
    (processTurn handler conn).conn.stream.length < conn.stream.length ∧
      (processTurn handler conn).conn.dataLen ≤ (processTurn handler conn).conn.buf.length := by
  cases hreq : getRequest conn with
  | mk e c =>
    cases e with
    | some e =>
      rw [(processTurn_error handler conn c e hreq).2] at h
      cases h
    | none =>
      obtain ⟨run, p, uri, c', hc', hserve, -⟩ := serveRequest_handled handler conn c hreq
      obtain ⟨c2, hframe, hc2⟩ := handler_frame run c'
      obtain ⟨c3, hc3⟩ : ∃ c3, c3 = (run.run c').2 := ⟨_, rfl⟩
      rw [← hc3] at hserve hc2
      -- nothing that was read is put back, and the head is at least one byte
      obtain ⟨c1, r, hread⟩ := getRequest_read conn c hreq
      have hmsg := getMessage_found conn c1 hread.message
      have hdata : c3.dataLen = c1.dataLen := by
        rw [hc2, hframe.frame, hc', hread.frame]
      have hhead : c3.requestLen = c1.requestLen := by
        rw [hc2, hframe.frame, hc', hread.frame]
      have hsock : (sockBytes c3.sock).length ≤ (sockBytes c1.sock).length := by
        have := hframe.sock_le
        rw [hc', hread.frame] at this
        rw [hc2]
        exact this
      have hlen : conn.stream.length = c1.dataLen + (sockBytes c1.sock).length := by
        have := hmsg.data_le hle
        rw [← hmsg.stream, Conn.stream, List.length_append, List.length_take]
        omega
      have hfound : c1.requestLen ≤ c1.dataLen := by
        have hmax := headerLenFrom_le 0 (c1.buf.take c1.dataLen)
        have := hmsg.found
        rw [List.length_take] at hmax
        rw [getHttpHeaderLen] at this
        omega
      have hpos := hmsg.pos
      by_cases hkeep : keepAlive c3 = true
      swap
      · simp only [processTurn, hserve, hkeep, Bool.false_eq_true, if_false] at h
        split_ifs at h
      by_cases hfit : (discardRequest c3).buf.length < (discardRequest c3).dataLen
      · simp only [processTurn, hserve, hkeep, if_true, hfit] at h
        cases h
      simp only [processTurn, hserve, hkeep, if_true, hfit, if_false]
      have hcontent : 0 ≤ c3.contentLen := by
        simp only [keepAlive, Bool.and_eq_true, decide_eq_true_eq] at hkeep
        exact hkeep.1.1.1.2
      have hcut : 0 < discardLen c3 ∧ discardLen c3 ≤ c3.dataLen := by
        rw [discardLen]
        split_ifs <;> omega
      refine ⟨?_, not_lt.mp hfit⟩
      show (Conn.stream (discardRequest c3)).length < conn.stream.length
      have hleft : (discardRequest c3).dataLen = c3.dataLen - discardLen c3 := rfl
      have hkept : (discardRequest c3).sock = c3.sock := rfl
      rw [hlen, Conn.stream, List.length_append, List.length_take, hleft, hkept]
      omega

/-- The loop ends by itself: more turns than there are bytes in the stream change nothing. -/
theorem processLoop_enough (handler : Conn → Handler) (n m : Nat) (conn : Conn)
    (hle : conn.dataLen ≤ conn.buf.length) (hn : conn.stream.length < n)
    (hm : conn.stream.length < m) : processLoop handler n conn = processLoop handler m conn := by
  induction n generalizing m conn with
  | zero => omega
  | succ n ih =>
    obtain ⟨m, rfl⟩ : ∃ k, m = k + 1 := ⟨m - 1, by omega⟩
    rw [processLoop, processLoop]
    by_cases hagain : (processTurn handler conn).again = true
    · obtain ⟨hless, hfit⟩ := processTurn_shrinks handler conn hle hagain
      have hrec := ih m (processTurn handler conn).conn hfit (by omega) (by omega)
      simp only [hagain, if_true, hrec]
    · simp only [hagain, Bool.false_eq_true, if_false]

end CivetWeb
