import CivetWeb.Conn.Connection
import CivetWeb.Http.HeaderLen

namespace CivetWeb

/-- What `read_message` leaves behind: its return value, the buffer, `*nread`, the socket. -/
structure ReadMessage where
  requestLen : Int
  buf : List Byte
  nread : Nat
  sock : List NetEvent
  deriving DecidableEq, Repr

/-- `bs` stored at `buf + pos`. -/
def storeAt (buf : List Byte) (pos : Nat) (bs : List Byte) : List Byte :=
  buf.take pos ++ bs ++ buf.drop (pos + bs.length)

/-- `read_message` on a socket, for the `nread` bytes that `buf` holds already. -/
def readMessage (sock : List NetEvent) (buf : List Byte) (nread : Nat) : ReadMessage :=
  let requestLen := getHttpHeaderLen buf nread
  if requestLen ≠ 0 then ⟨requestLen, buf, nread, sock⟩
  else if stopFlag sock then ⟨-1, buf, nread, sock⟩
  else if buf.length ≤ nread then ⟨-2, buf, nread, sock⟩
  else
    match sock with
    | [] => ⟨-1, buf, nread, []⟩
    | .data bs :: s =>
      let room := buf.length - nread
      if bs = [] then ⟨-1, buf, nread, s⟩
      else if room < bs.length then
        -- the buffer is full: the loop ends with its next turn
        let full := storeAt buf nread (bs.take room)
        let requestLen := getHttpHeaderLen full buf.length
        ⟨if requestLen ≠ 0 then requestLen else -2, full, buf.length, .data (bs.drop room) :: s⟩
      else readMessage s (storeAt buf nread bs) (nread + bs.length)
    | .tryAgain :: s => readMessage s buf nread
    | .timeout :: s => ⟨-3, buf, nread, s⟩
    | .error :: s => ⟨-1, buf, nread, s⟩
    | .stop :: s => ⟨-1, buf, nread, .stop :: s⟩

theorem storeAt_length (buf bs : List Byte) (pos : Nat) (h : pos + bs.length ≤ buf.length) :
    (storeAt buf pos bs).length = buf.length := by
  simp only [storeAt, List.length_append, List.length_take, List.length_drop]
  omega

theorem storeAt_take (buf bs : List Byte) (pos : Nat) (h : pos ≤ buf.length) :
    (storeAt buf pos bs).take (pos + bs.length) = buf.take pos ++ bs := by
  have hlen : (buf.take pos ++ bs).length = pos + bs.length := by
    rw [List.length_append, List.length_take, Nat.min_eq_left h]
  rw [storeAt, ← hlen, List.take_left]

/-- With a full buffer the loop only looks at what it holds. -/
theorem readMessage_full (sock : List NetEvent) (buf : List Byte) (hstop : stopFlag sock = false) :
    readMessage sock buf buf.length =
      ⟨if getHttpHeaderLen buf buf.length ≠ 0 then getHttpHeaderLen buf buf.length else -2, buf,
        buf.length, sock⟩ := by
  unfold readMessage
  by_cases h : getHttpHeaderLen buf buf.length = 0
  · simp [h, hstop]
  · simp [h]

/-- The loop goes by what `pull_inner` returns. -/
theorem readMessage_pullInner (sock : List NetEvent) (buf : List Byte) (nread : Nat)
    (hlen : getHttpHeaderLen buf nread = 0) (hstop : stopFlag sock = false)
    (hroom : nread < buf.length) :
    readMessage sock buf nread =
      match pullInner sock (buf.length - nread) with
      | (.error, s) => ⟨-1, buf, nread, s⟩
      | (.timeout expired, s) => if expired then ⟨-3, buf, nread, s⟩ else readMessage s buf nread
      | (.bytes bs, s) => readMessage s (storeAt buf nread bs) (nread + bs.length) := by
  conv_lhs => unfold readMessage
  rw [if_neg (by simpa using hlen), if_neg (by simp [hstop]), if_neg (by omega)]
  cases sock with
  | nil => rfl
  | cons e s =>
    cases e with
    | data bs =>
      simp only [pullInner]
      by_cases hnil : bs = []
      · simp [hnil]
      by_cases hfull : buf.length - nread < bs.length
      · have htake : (bs.take (buf.length - nread)).length = buf.length - nread := by
          rw [List.length_take]
          omega
        have hstore : (storeAt buf nread (bs.take (buf.length - nread))).length = buf.length := by
          apply storeAt_length
          omega
        have hend : nread + (bs.take (buf.length - nread)).length = buf.length := by omega
        have hnext := readMessage_full (.data (bs.drop (buf.length - nread)) :: s)
          (storeAt buf nread (bs.take (buf.length - nread))) rfl
        rw [hstore] at hnext
        simp only [hnil, hfull, if_true, if_false, hend, hnext]
      · simp only [hnil, hfull, if_false]
    | tryAgain => rfl
    | timeout => rfl
    | error => rfl
    | stop => cases hstop

/-- What a run of `read_message` keeps: no byte is lost, and a head that is found
is found in the bytes read. -/
structure MessageRead (sock : List NetEvent) (buf : List Byte) (nread : Nat) (m : ReadMessage) :
    Prop where
  stream : m.buf.take m.nread ++ sockBytes m.sock = buf.take nread ++ sockBytes sock
  length : m.buf.length = buf.length
  nread_le : nread ≤ buf.length → m.nread ≤ buf.length
  found : 0 < m.requestLen → m.requestLen = getHttpHeaderLen m.buf m.nread
  ne_zero : m.requestLen ≠ 0
  steady : Steady sock → Steady m.sock

theorem MessageRead.failed (sock s : List NetEvent) (buf : List Byte) (nread : Nat) (e : Int)
    (he : e < 0) (hs : sockBytes s = sockBytes sock) (hst : Steady sock → Steady s) :
    MessageRead sock buf nread ⟨e, buf, nread, s⟩ := by
  refine ⟨by rw [hs], rfl, fun h => h, fun h => ?_, ?_, hst⟩
  · dsimp only at h
    omega
  · dsimp only
    omega

/-- The turn that fills the buffer. -/
theorem MessageRead.full (s : List NetEvent) (buf bs : List Byte) (nread : Nat)
    (hroom : nread < buf.length) (hfull : buf.length - nread < bs.length) :
    let room := buf.length - nread
    let stored := storeAt buf nread (bs.take room)
    let requestLen := getHttpHeaderLen stored buf.length
    MessageRead (.data bs :: s) buf nread
      ⟨if requestLen ≠ 0 then requestLen else -2, stored, buf.length,
        .data (bs.drop room) :: s⟩ := by
  intro room stored requestLen
  have htake : nread + (bs.take room).length = buf.length := by
    rw [List.length_take]
    omega
  have hstream : stored.take buf.length = buf.take nread ++ bs.take room := by
    rw [← htake]
    exact storeAt_take buf (bs.take room) nread (by omega)
  refine ⟨?_, storeAt_length _ _ _ (by omega), fun _ => le_refl _, ?_, ?_, ?_⟩
  · simp only [hstream, sockBytes, List.append_assoc]
    rw [← List.append_assoc (bs.take room), List.take_append_drop]
  · intro hpos
    by_cases hz : requestLen = 0
    · simp [hz] at hpos
    · simp [hz, requestLen]
  · by_cases hz : requestLen = 0
    · simp [hz]
    · simp [hz]
  · intro h
    have hne : bs.drop room ≠ [] := by
      intro hnil
      rw [List.drop_eq_nil_iff] at hnil
      omega
    have hbs : bs ≠ [] := by
      rintro rfl
      exact hne (by simp)
    rw [Steady, if_neg hbs] at h
    rw [Steady, if_neg hne]
    exact h

theorem readMessage_spec (sock : List NetEvent) (buf : List Byte) (nread : Nat) :
    MessageRead sock buf nread (readMessage sock buf nread) := by
  induction sock generalizing buf nread with
  | nil =>
    unfold readMessage
    dsimp only
    split_ifs with h1 h2 h3
    · exact ⟨rfl, rfl, fun h => h, fun _ => rfl, h1, fun h => h⟩
    · exact MessageRead.failed _ _ _ _ _ (by omega) rfl (fun h => h)
    · exact MessageRead.failed _ _ _ _ _ (by omega) rfl (fun h => h)
    · exact MessageRead.failed _ _ _ _ _ (by omega) rfl (fun h => h)
  | cons e s ih =>
    unfold readMessage
    dsimp only
    split_ifs with h1 h2 h3
    · exact ⟨rfl, rfl, fun h => h, fun _ => rfl, h1, fun h => h⟩
    · exact MessageRead.failed _ _ _ _ _ (by omega) rfl (fun h => h)
    · exact MessageRead.failed _ _ _ _ _ (by omega) rfl (fun h => h)
    cases e with
    | data bs =>
      dsimp only
      by_cases hnil : bs = []
      · rw [if_pos hnil]
        refine MessageRead.failed _ _ _ _ _ (by omega) (by simp [sockBytes, hnil]) ?_
        intro h
        rw [Steady, if_pos hnil] at h
        exact steady_of_empty s h
      rw [if_neg hnil]
      by_cases hfull : buf.length - nread < bs.length
      · rw [if_pos hfull]
        apply MessageRead.full
        · omega
        · exact hfull
      · rw [if_neg hfull]
        have hle : nread + bs.length ≤ buf.length := by omega
        have hnext := ih (storeAt buf nread bs) (nread + bs.length)
        have hlen := storeAt_length buf bs nread hle
        refine ⟨?_, hnext.length.trans hlen, ?_, hnext.found, hnext.ne_zero, ?_⟩
        · rw [hnext.stream, storeAt_take buf bs nread (by omega), sockBytes, List.append_assoc]
        · intro _
          have := hnext.nread_le (by omega)
          omega
        · intro h
          rw [Steady, if_neg hnil] at h
          exact hnext.steady h
    | tryAgain =>
      have hnext := ih buf nread
      exact ⟨hnext.stream, hnext.length, hnext.nread_le, hnext.found, hnext.ne_zero,
        fun h => hnext.steady h⟩
    | timeout =>
      exact MessageRead.failed _ _ _ _ _ (by omega) rfl (fun h => steady_of_empty s h)
    | error =>
      exact MessageRead.failed _ _ _ _ _ (by omega) rfl (fun h => steady_of_empty s h)
    | stop =>
      exact MessageRead.failed _ _ _ _ _ (by omega) rfl (fun h => h)

/-- An error of `get_message` or `get_request`: `*err` and the text in `ebuf`. -/
structure RequestError where
  err : Nat
  ebuf : String
  deriving DecidableEq, Repr

def resetPerRequestAttributes (conn : Conn) : Conn :=
  { conn with
    consumedContent := 0
    contentLen := -1
    isChunked := 0
    mustClose := false
    requestLen := 0
    requestInfo := ⟨[], [], [], []⟩
    infoContentLength := -1
    localUri := none }

/-- `get_message`; it returns 1 where there is no error. -/
def getMessage (conn : Conn) : Option RequestError × Conn :=
  let conn := resetPerRequestAttributes conn
  let m := readMessage conn.sock conn.buf conn.dataLen
  let conn := { conn with
    requestLen := m.requestLen, buf := m.buf, dataLen := m.nread, sock := m.sock }
  if 0 ≤ conn.requestLen ∧ (conn.dataLen : Int) < conn.requestLen then
    (some ⟨500, "Invalid message size"⟩, conn)
  else if conn.requestLen = 0 ∧ conn.dataLen = conn.buf.length then
    (some ⟨413, "Message too large"⟩, conn)
  else if conn.requestLen ≤ 0 then
    if 0 < conn.dataLen then
      (some ⟨400, if conn.requestLen = -3 then "Request timeout" else "Malformed message"⟩, conn)
    else (some ⟨0, "No data received"⟩, { conn with mustClose := true })
  else (none, conn)

/-- The bytes of the client that a connection has not passed on yet. -/
def Conn.stream (conn : Conn) : List Byte := conn.buf.take conn.dataLen ++ sockBytes conn.sock

/-- A message that `get_message` accepts: the head found at the front of the stream. -/
structure MessageFound (conn c : Conn) : Prop where
  stream : c.stream = conn.stream
  length : c.buf.length = conn.buf.length
  found : c.requestLen = getHttpHeaderLen c.buf c.dataLen
  pos : 0 < c.requestLen
  data_le : conn.dataLen ≤ conn.buf.length → c.dataLen ≤ c.buf.length
  steady : Steady conn.sock → Steady c.sock
  frame : c = { resetPerRequestAttributes conn with
    requestLen := c.requestLen, buf := c.buf, dataLen := c.dataLen, sock := c.sock }

theorem getMessage_found (conn c : Conn) (h : getMessage conn = (none, c)) :
    MessageFound conn c := by
  have hread := readMessage_spec conn.sock conn.buf conn.dataLen
  obtain ⟨m, hm⟩ : ∃ m, m = readMessage conn.sock conn.buf conn.dataLen := ⟨_, rfl⟩
  unfold getMessage at h
  simp only [resetPerRequestAttributes, ← hm] at h hread
  split_ifs at h with h1 h2 h3 h4
  all_goals cases h
  have hpos : 0 < m.requestLen := by omega
  refine ⟨hread.stream, hread.length, hread.found hpos, hpos, ?_, hread.steady, rfl⟩
  intro hle
  show m.nread ≤ m.buf.length
  rw [hread.length]
  exact hread.nread_le hle

end CivetWeb
