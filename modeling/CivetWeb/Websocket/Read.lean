import CivetWeb.Conn.Socket
import CivetWeb.Lib.Machine
import CivetWeb.Websocket.Frame

namespace CivetWeb

def MG_MAX_UNANSWERED_PING : Nat := 5

/-- What `read_websocket` calls, and what it reads of the configuration. -/
structure WsContext (W : Type) where
  wsDataHandler : Option (Byte → List Byte → W → Output → Bool × W × Output)
  mustClose : W → Bool
  mgMalloc : Nat → W → Bool × W
  enablePingPong : Bool

/-- `queue` is what stands behind the upgrade request in the buffer, `calls` what the data handler
has been called with. -/
structure WsState (W : Type) where
  world : W
  out : Output
  queue : List Byte
  sock : List NetEvent
  pingCount : Nat
  calls : List (Byte × List Byte)

/-- The head of the processing loop, or the loop that pulls what is missing of a message. -/
inductive WsAt (W : Type) where
  | loop (s : WsState W)
  | pull (mop : Byte) (mask : List Byte) (dataLen : Nat) (data : List Byte) (s : WsState W)

section
variable {W : Type} (ctx : WsContext W)

/-- The end of the loop body behind a message. -/
def wsNext (mop : Byte) (s : WsState W) : WsAt W ⊕ WsState W :=
  if mop &&& 0xF = MG_WEBSOCKET_OPCODE_CONNECTION_CLOSE then .inr s else .inl (.loop s)

/-- The mask is taken off, then the message goes to the handler. -/
def wsMessage (mop : Byte) (mask data : List Byte) (s : WsState W) : WsAt W ⊕ WsState W :=
  let data := if mask ≠ [] then maskFrom mask 0 data else data
  if ctx.enablePingPong ∧ mop &&& 0xF = MG_WEBSOCKET_OPCODE_PONG then
    wsNext mop { s with pingCount := 0 }
  else if ctx.enablePingPong ∧ mop &&& 0xF = MG_WEBSOCKET_OPCODE_PING then
    let (ret, out) := mgWebsocketWrite s.out MG_WEBSOCKET_OPCODE_PONG.toNat data
    if ret ≤ 0 then .inr { s with out := out } else wsNext mop { s with out := out }
  else
    match ctx.wsDataHandler with
    | none => wsNext mop s
    | some wsDataHandler =>
      let (goOn, world, out) := wsDataHandler mop data s.world s.out
      let s := { s with world := world, out := out, calls := s.calls ++ [(mop, data)] }
      if goOn then wsNext mop s else .inr s

/-- The part of the loop body that reads on into the queue, whose buffer has `room` bytes. -/
def wsRead (room : Nat) (s : WsState W) : WsAt W ⊕ WsState W :=
  match pullInner s.sock (room - s.queue.length) with
  | (.error, sock) => .inr { s with sock := sock }
  -- no byte fits: `recv` returns 0, which is taken for a closed peer
  | (.bytes [], sock) => .inr { s with sock := sock }
  | (.bytes (b :: bs), sock) =>
    .inl (.loop { s with queue := s.queue ++ b :: bs, sock := sock, pingCount := 0 })
  | (.timeout _, sock) =>
    let s := { s with sock := sock }
    if stopFlag sock ∨ ctx.mustClose s.world then .inl (.loop s)
    else if MG_MAX_UNANSWERED_PING < s.pingCount then .inr s
    else if ctx.enablePingPong then
      let (ret, out) := mgWebsocketWrite s.out MG_WEBSOCKET_OPCODE_PING.toNat []
      let s := { s with out := out }
      if ret ≤ 0 then .inr s else .inl (.loop { s with pingCount := s.pingCount + 1 })
    else .inl (.loop s)

/-- The part of the loop body for a header that is in the queue as a whole. -/
def wsFrame (headerLen maskLen dataLen : Nat) (s : WsState W) : WsAt W ⊕ WsState W :=
  let (allocated, world) :=
    if 4096 < dataLen + 4 then ctx.mgMalloc (dataLen + 4) s.world else (true, s.world)
  let s := { s with world := world }
  if !allocated then .inr s
  else
    let mop := s.queue.getD 0 0
    let mask := if 0 < maskLen then (s.queue.drop (headerLen - maskLen)).take 4 else []
    if s.queue.length < dataLen + headerLen then
      .inl (.pull mop mask dataLen (s.queue.drop headerLen) s)
    else
      wsMessage ctx mop mask ((s.queue.drop headerLen).take dataLen)
        { s with queue := s.queue.drop (dataLen + headerLen) }

/-- A turn of the loop of `read_websocket`, or of the loop that pulls the rest of a message. -/
def readWebsocket (room : Nat) : WsAt W → WsAt W ⊕ WsState W
  | .loop s =>
    if stopFlag s.sock ∨ ctx.mustClose s.world then .inr s
    else
      match frameHead s.queue with
      | .incomplete => wsRead ctx room s
      | .tooLong => .inr s
      | .head headerLen maskLen dataLen =>
        if headerLen ≤ s.queue.length then wsFrame ctx headerLen maskLen dataLen s
        else wsRead ctx room s
  | .pull mop mask dataLen data s =>
    if data.length < dataLen then
      match pullInner s.sock (dataLen - data.length) with
      | (.error, sock) => .inr { s with sock := sock }
      | (.bytes bs, sock) => .inl (.pull mop mask dataLen (data ++ bs) { s with sock := sock })
      | (.timeout _, sock) => .inl (.pull mop mask dataLen data { s with sock := sock })
    else wsMessage ctx mop mask data { s with queue := [] }

end

/-! ### Messages as they are written -/

/-- A message for one of the two writers: with the masking key 0 it is `mg_websocket_write`, with
another one `mg_websocket_client_write`. -/
structure WsMessage where
  opcode : Nat
  data : List Byte
  maskingKey : UInt32
  aligned : Bool
  deriving DecidableEq, Repr

namespace WsMessage

def write (m : WsMessage) (out : Output) : Int × Output :=
  if m.maskingKey = 0 then mgWebsocketWrite out m.opcode m.data
  else mgWebsocketClientWrite true m.aligned m.maskingKey out m.opcode m.data

/-- The return value of a write that got through as a whole. -/
def Written (m : WsMessage) (ret : Int) : Prop :=
  if m.data = [] then 0 < ret else ret = m.data.length

instance (m : WsMessage) (ret : Int) : Decidable (m.Written ret) := by
  unfold Written
  infer_instance

def header (m : WsMessage) : List Byte := websocketHeader m.opcode m.data.length m.maskingKey

def payload (m : WsMessage) : List Byte :=
  if m.maskingKey = 0 then m.data else maskFrom (wordBytes m.maskingKey) 0 m.data

def frame (m : WsMessage) : List Byte := m.header ++ m.payload

end WsMessage

/-- Messages written one after another; `none` as soon as one does not get through. -/
def writeMessages (out : Output) : List WsMessage → Option Output
  | [] => some out
  | m :: ms =>
    let (ret, out) := m.write out
    if m.Written ret then writeMessages out ms else none

namespace WsMessage

theorem payload_length (m : WsMessage) : m.payload.length = m.data.length := by
  unfold payload
  split_ifs
  · rfl
  · exact maskFrom_length (wordBytes m.maskingKey) 0 m.data

theorem exec_sent (out : Output) (opcode : Int) (data : List Byte) (key : UInt32)
    (h : if data = [] then 0 < (mgWebsocketWriteExec out opcode data key).1
      else (mgWebsocketWriteExec out opcode data key).1 = data.length) :
    (mgWebsocketWriteExec out opcode data key).2.sent =
      out.sent ++ (websocketHeader opcode data.length key ++ data) := by
  obtain ⟨w, hw⟩ : ∃ w, w = mgWrite out (websocketHeader opcode data.length key) := ⟨_, rfl⟩
  unfold mgWebsocketWriteExec at h ⊢
  dsimp only at h ⊢
  rw [← hw] at h ⊢
  by_cases hret : w.1 ≠ ((websocketHeader opcode data.length key).length : Int)
  · rw [if_pos hret] at h
    split_ifs at h
    · omega
    · dsimp only at h
      omega
  rw [if_neg hret] at h ⊢
  have hheader : w.2.sent = out.sent ++ websocketHeader opcode data.length key := by
    rw [hw]
    apply mgWrite_sent
    rw [← hw]
    exact not_not.mp hret
  by_cases hdata : data = []
  · rw [if_neg (by simp [hdata]), hheader, hdata, List.append_nil]
  · have hpos := List.length_pos_of_ne_nil hdata
    rw [if_neg hdata, if_pos hpos] at h
    rw [if_pos hpos, mgWrite_sent w.2 data h, hheader, List.append_assoc]

/-- A write that got through has sent the frame. -/
theorem write_sent (m : WsMessage) (out : Output) (h : m.Written (m.write out).1) :
    (m.write out).2.sent = out.sent ++ m.frame := by
  unfold Written at h
  unfold write at h ⊢
  unfold frame header payload
  by_cases hkey : m.maskingKey = 0
  · rw [if_pos hkey] at h ⊢
    rw [if_pos hkey, hkey]
    exact exec_sent out m.opcode m.data 0 h
  · rw [if_neg hkey] at h ⊢
    have hmask := maskData_eq m.aligned m.data m.maskingKey
    have hlen := maskFrom_length (wordBytes m.maskingKey) 0 m.data
    rw [if_neg hkey, ← hlen, ← hmask]
    apply exec_sent
    rw [← hmask] at hlen
    have hnil : maskData m.aligned m.data m.maskingKey = [] ↔ m.data = [] := by
      rw [← List.length_eq_zero_iff, hlen, List.length_eq_zero_iff]
    by_cases hdata : m.data = []
    · rw [if_pos hdata] at h
      rw [if_pos (hnil.mpr hdata)]
      exact h
    · rw [if_neg hdata] at h
      rw [if_neg (fun h => hdata (hnil.mp h)), hlen]
      exact h

end WsMessage

/-- Messages that all got through have sent their frames. -/
theorem writeMessages_sent (out out' : Output) (msgs : List WsMessage)
    (h : writeMessages out msgs = some out') :
    out'.sent = out.sent ++ (msgs.map WsMessage.frame).flatten := by
  induction msgs generalizing out with
  | nil =>
    rw [writeMessages, Option.some.injEq] at h
    rw [← h, List.map_nil, List.flatten_nil, List.append_nil]
  | cons m msgs ih =>
    rw [writeMessages] at h
    dsimp only at h
    split_ifs at h with hm
    rw [ih _ h, m.write_sent out hm, List.map_cons, List.flatten_cons, List.append_assoc]

end CivetWeb
