import CivetWeb.Websocket.Read

namespace CivetWeb

/-- A socket that delivers its whole stream, whatever timeouts are in between; the server is not
stopped while it does. -/
def Delivers : List NetEvent → Prop
  | [] => True
  | .data bs :: s => if bs = [] then sockBytes s = [] else Delivers s
  | .tryAgain :: s => Delivers s
  | .timeout :: s => Delivers s
  | .error :: s => sockBytes s = []
  | .stop :: _ => False

/-- How much there is still to come of a socket. -/
def sockWeight (sock : List NetEvent) : Nat := sock.length + (sockBytes sock).length

theorem Delivers.stopFlag (sock : List NetEvent) (h : Delivers sock) : stopFlag sock = false := by
  cases sock with
  | nil => rfl
  | cons e s =>
    cases e with
    | stop => exact h.elim
    | _ => rfl

/-- A read from a socket that delivers comes nearer to its end. -/
theorem Delivers.pullInner (sock : List NetEvent) (len : Nat) (h : Delivers sock) (hlen : 0 < len) :
    (∃ b bs s, pullInner sock len = (.bytes (b :: bs), s) ∧ (b :: bs).length ≤ len ∧
        sockBytes sock = b :: bs ++ sockBytes s ∧ Delivers s ∧ sockWeight s < sockWeight sock) ∨
      (∃ expired s, pullInner sock len = (.timeout expired, s) ∧ sockBytes s = sockBytes sock ∧
        Delivers s ∧ sockWeight s < sockWeight sock) ∨
      ∃ s, pullInner sock len = (.error, s) ∧ sockBytes sock = [] := by
  cases sock with
  | nil => exact Or.inr (Or.inr ⟨[], rfl, rfl⟩)
  | cons e s =>
    cases e with
    | data bs =>
      rw [Delivers] at h
      rw [CivetWeb.pullInner]
      by_cases hnil : bs = []
      · rw [if_pos hnil] at h
        right
        right
        refine ⟨s, by rw [if_pos hnil], ?_⟩
        rw [sockBytes, hnil, h, List.append_nil]
      rw [if_neg hnil] at h ⊢
      left
      by_cases hlong : len < bs.length
      · obtain ⟨n, rfl⟩ : ∃ n, len = n + 1 := ⟨len - 1, by omega⟩
        obtain ⟨b, tail, rfl⟩ := List.exists_cons_of_ne_nil hnil
        rw [if_pos hlong]
        refine ⟨b, tail.take n, .data ((b :: tail).drop (n + 1)) :: s, rfl, ?_, ?_, ?_, ?_⟩
        · simp
        · simp [sockBytes, ← List.append_assoc]
        · rw [Delivers]
          have hrest : (b :: tail).drop (n + 1) ≠ [] := by
            intro hdrop
            rw [List.drop_eq_nil_iff] at hdrop
            omega
          rw [if_neg hrest]
          exact h
        · simp only [sockWeight, sockBytes, List.length_cons, List.length_append, List.length_drop]
          simp only [List.length_cons] at hlong
          omega
      · obtain ⟨b, tail, rfl⟩ := List.exists_cons_of_ne_nil hnil
        rw [if_neg hlong]
        refine ⟨b, tail, s, rfl, by omega, rfl, h, ?_⟩
        simp only [sockWeight, sockBytes, List.length_cons, List.length_append]
        omega
    | tryAgain => exact Or.inr (Or.inl ⟨false, s, rfl, rfl, h, by simp [sockWeight, sockBytes]⟩)
    | timeout => exact Or.inr (Or.inl ⟨true, s, rfl, rfl, h, by simp [sockWeight, sockBytes]⟩)
    | error => exact Or.inr (Or.inr ⟨s, rfl, h⟩)
    | stop => exact h.elim

section
variable {W : Type} (ctx : WsContext W) (room : Nat)

/-- A payload that is on its way gets read. -/
theorem reaches_payload (mop : Byte) (mask payload rest data : List Byte) (s : WsState W)
    (hstream : data ++ sockBytes s.sock = payload ++ rest) (hdata : data.length ≤ payload.length)
    (hdelivers : Delivers s.sock) :
    ∃ sock, Machine.Reaches (readWebsocket ctx room) (.pull mop mask payload.length data s)
        (.pull mop mask payload.length payload { s with sock := sock }) ∧
      sockBytes sock = rest ∧ Delivers sock := by
  obtain ⟨weight, hweight⟩ : ∃ weight, sockWeight s.sock ≤ weight := ⟨_, le_rfl⟩
  induction weight using Nat.strong_induction_on generalizing s data with
  | _ weight ih =>
    by_cases hless : data.length < payload.length
    · obtain ⟨b, bs, sock, hpull, hlen, hbytes, hsock, hlt⟩ |
        ⟨expired, sock, hpull, hbytes, hsock, hlt⟩ | ⟨sock, hpull, hbytes⟩ :=
        hdelivers.pullInner s.sock (payload.length - data.length) (by omega)
      · have hstep : readWebsocket ctx room (.pull mop mask payload.length data s) =
            .inl (.pull mop mask payload.length (data ++ b :: bs) { s with sock := sock }) := by
          unfold readWebsocket
          dsimp only
          rw [if_pos hless, hpull]
        obtain ⟨sock', hreach, ht⟩ := ih (sockWeight sock) (by omega) (data ++ b :: bs)
          { s with sock := sock } (by rw [← hstream, hbytes]; simp)
          (by rw [List.length_append]; omega) hsock le_rfl
        exact ⟨sock', Relation.ReflTransGen.head hstep hreach, ht⟩
      · have hstep : readWebsocket ctx room (.pull mop mask payload.length data s) =
            .inl (.pull mop mask payload.length data { s with sock := sock }) := by
          unfold readWebsocket
          dsimp only
          rw [if_pos hless, hpull]
        obtain ⟨sock', hreach, ht⟩ := ih (sockWeight sock) (by omega) data { s with sock := sock }
          (by rw [← hstream, ← hbytes]) hdata hsock le_rfl
        exact ⟨sock', Relation.ReflTransGen.head hstep hreach, ht⟩
      · have hlen := congrArg List.length hstream
        rw [hbytes, List.append_nil, List.length_append] at hlen
        omega
    · obtain ⟨hpayload, hrest⟩ := List.append_inj hstream (by omega)
      rw [hpayload]
      exact ⟨s.sock, Relation.ReflTransGen.refl, hrest, hdelivers⟩

/-- A frame whose header is in the queue is read to its end: what of the payload is in the queue is taken from there,
the rest from the socket. -/
theorem reaches_frame (headerLen maskLen : Nat) (payload rest : List Byte) (s : WsState W)
    (hhead : frameHead s.queue = .head headerLen maskLen payload.length) (hfull : headerLen ≤ s.queue.length)
    (hstream : s.queue.drop headerLen ++ sockBytes s.sock = payload ++ rest) (hdelivers : Delivers s.sock)
    (hopen : ctx.mustClose s.world = false) (hmalloc : ∀ n w, (ctx.mgMalloc n w).1 = true) :
    ∃ a t, Machine.Reaches (readWebsocket ctx room) (.loop s) a ∧
      readWebsocket ctx room a = wsMessage ctx (s.queue.getD 0 0)
        (if 0 < maskLen then (s.queue.drop (headerLen - maskLen)).take 4 else []) payload t ∧
      t.queue ++ sockBytes t.sock = rest ∧ Delivers t.sock ∧ t.pingCount = s.pingCount ∧ t.calls = s.calls := by
  obtain ⟨w, hw⟩ : ∃ w, w = s.queue.drop headerLen := ⟨_, rfl⟩
  have hlength := congrArg List.length hw
  rw [List.length_drop] at hlength
  -- the memory for the data is there
  obtain ⟨world, hworld⟩ : ∃ world, (if 4096 < payload.length + 4 then
      ctx.mgMalloc (payload.length + 4) s.world else (true, s.world)) = (true, world) := by
    by_cases hbig : 4096 < payload.length + 4
    · rw [if_pos hbig]
      exact ⟨_, Prod.ext (hmalloc _ _) rfl⟩
    · rw [if_neg hbig]
      exact ⟨_, rfl⟩
  have hstep : readWebsocket ctx room (.loop s) = wsFrame ctx headerLen maskLen payload.length s := by
    have hrun : ¬ (stopFlag s.sock = true ∨ ctx.mustClose s.world = true) := by
      rw [hdelivers.stopFlag, hopen]
      simp
    unfold readWebsocket
    dsimp only
    rw [if_neg hrun, hhead]
    dsimp only
    rw [if_pos hfull]
  unfold wsFrame at hstep
  dsimp only at hstep
  rw [hworld] at hstep
  dsimp only at hstep
  rw [if_neg (by simp), ← hw] at hstep
  rw [← hw] at hstream
  by_cases hlong : s.queue.length < payload.length + headerLen
  · -- the rest of the data is pulled past the queue
    rw [if_pos hlong] at hstep
    obtain ⟨sock, hreach, hsock, hdeliv⟩ := reaches_payload ctx room _ _ payload rest w
      { s with world := world } hstream (by omega) hdelivers
    refine ⟨_, { s with world := world, queue := [], sock := sock }, Relation.ReflTransGen.head hstep hreach, ?_,
      hsock, hdeliv, rfl, rfl⟩
    unfold readWebsocket
    dsimp only
    rw [if_neg (by omega)]
  · rw [if_neg hlong] at hstep
    obtain ⟨v, hv, hrest⟩ := Scan.prefix_cut payload rest w (sockBytes s.sock) hstream.symm (by omega)
    have htake : w.take payload.length = payload := by rw [hv, List.take_left]
    have hleft : s.queue.drop (payload.length + headerLen) = v := by
      rw [Nat.add_comm, ← List.drop_drop, ← hw, hv, List.drop_left]
    rw [htake, hleft] at hstep
    exact ⟨_, { s with world := world, queue := v }, Relation.ReflTransGen.refl, hstep, hrest.symm, hdelivers, rfl, rfl⟩

/-- The surroundings of a connection that goes on: nobody closes it, there is memory, and control
frames are not answered here. -/
structure WsContext.Quiet : Prop where
  mustClose : ∀ w, ctx.mustClose w = false
  mgMalloc : ∀ n w, (ctx.mgMalloc n w).1 = true
  pingPong : ctx.enablePingPong = false

variable (hquiet : ctx.Quiet)
include hquiet

theorem wsRead_timeout (s : WsState W) (expired : Bool) (sock : List NetEvent)
    (h : pullInner s.sock (room - s.queue.length) = (.timeout expired, sock))
    (hping : s.pingCount = 0) :
    wsRead ctx room s = .inl (.loop { s with sock := sock }) := by
  unfold wsRead
  rw [h]
  dsimp only
  by_cases hstop : stopFlag sock ∨ ctx.mustClose s.world
  · rw [if_pos hstop]
  · have hcount : ¬ MG_MAX_UNANSWERED_PING < s.pingCount := by
      rw [hping]
      decide
    rw [if_neg hstop, if_neg hcount, hquiet.pingPong]
    rfl

/-- As long as the header is not in the queue, the loop reads. -/
theorem readWebsocket_reads (s : WsState W) (hstop : stopFlag s.sock = false)
    (hhead : frameHead s.queue = .incomplete ∨
      ∃ h m k, frameHead s.queue = .head h m k ∧ s.queue.length < h) :
    readWebsocket ctx room (.loop s) = wsRead ctx room s := by
  have hgo : ¬ (stopFlag s.sock = true ∨ ctx.mustClose s.world = true) := by
    rw [hstop, hquiet.mustClose s.world]
    simp
  unfold readWebsocket
  dsimp only
  rw [if_neg hgo]
  obtain hinc | ⟨h, m, k, hh, hlt⟩ := hhead
  · rw [hinc]
  · rw [hh]
    dsimp only
    rw [if_neg (by omega)]

/-- A header that is on its way gets into the queue. -/
theorem reaches_header (opcode : Int) (n : Nat) (key : UInt32) (rest : List Byte) (s : WsState W)
    (hn : n ≤ 0x7FFF0000) (hfits : (websocketHeader opcode n key).length ≤ room)
    (hstream : s.queue ++ sockBytes s.sock = websocketHeader opcode n key ++ rest)
    (hdelivers : Delivers s.sock) (hping : s.pingCount = 0) :
    ∃ t, Machine.Reaches (readWebsocket ctx room) (.loop s) (.loop t) ∧
      (websocketHeader opcode n key).length ≤ t.queue.length ∧
      t.queue ++ sockBytes t.sock = websocketHeader opcode n key ++ rest ∧ Delivers t.sock ∧
      t.pingCount = 0 ∧ t.calls = s.calls := by
  obtain ⟨weight, hweight⟩ : ∃ weight, sockWeight s.sock ≤ weight := ⟨_, le_rfl⟩
  induction weight using Nat.strong_induction_on generalizing s with
  | _ weight ih =>
    by_cases hfull : (websocketHeader opcode n key).length ≤ s.queue.length
    · exact ⟨s, Relation.ReflTransGen.refl, hfull, hstream, hdelivers, hping, rfl⟩
    have hfront := frameHead_front opcode n key hn s.queue rest ⟨_, hstream⟩
    rw [if_neg hfull] at hfront
    have hstep := readWebsocket_reads ctx room hquiet s hdelivers.stopFlag hfront
    obtain ⟨b, bs, sock, hpull, hlen, hbytes, hsock, hlt⟩ | ⟨expired, sock, hpull, hbytes, hsock, hlt⟩ |
      ⟨sock, hpull, hbytes⟩ := hdelivers.pullInner s.sock (room - s.queue.length) (by omega)
    · have hread : wsRead ctx room s =
          .inl (.loop { s with queue := s.queue ++ b :: bs, sock := sock, pingCount := 0 }) := by
        unfold wsRead
        rw [hpull]
      rw [hread] at hstep
      obtain ⟨t, hreach, ht⟩ := ih (sockWeight sock) (by omega)
        { s with queue := s.queue ++ b :: bs, sock := sock, pingCount := 0 }
        (by rw [← hstream, hbytes]; simp) hsock rfl le_rfl
      exact ⟨t, Relation.ReflTransGen.head hstep hreach, ht⟩
    · rw [wsRead_timeout ctx room hquiet s expired sock hpull hping] at hstep
      obtain ⟨t, hreach, ht⟩ := ih (sockWeight sock) (by omega) { s with sock := sock }
        (by rw [← hstream, ← hbytes]) hsock hping le_rfl
      exact ⟨t, Relation.ReflTransGen.head hstep hreach, ht⟩
    · have hlen := congrArg List.length hstream
      rw [hbytes, List.append_nil, List.length_append] at hlen
      omega

/-- Behind the last message the loop reads on until the peer is gone. -/
theorem ends_stream (s : WsState W) (hqueue : s.queue = []) (hbytes : sockBytes s.sock = [])
    (hdelivers : Delivers s.sock) (hping : s.pingCount = 0) (hroom : 0 < room) :
    ∃ t, Machine.Ends (readWebsocket ctx room) (.loop s) t ∧ t.calls = s.calls := by
  obtain ⟨weight, hweight⟩ : ∃ weight, sockWeight s.sock ≤ weight := ⟨_, le_rfl⟩
  induction weight using Nat.strong_induction_on generalizing s with
  | _ weight ih =>
    have hhead : frameHead s.queue = .incomplete := by
      rw [hqueue]
      rfl
    have hstep := readWebsocket_reads ctx room hquiet s hdelivers.stopFlag (Or.inl hhead)
    obtain ⟨b, bs, sock, hpull, hlen, hb, hsock, hlt⟩ | ⟨expired, sock, hpull, hb, hsock, hlt⟩ |
      ⟨sock, hpull, hb⟩ := hdelivers.pullInner s.sock (room - s.queue.length)
        (by rw [hqueue, List.length_nil]; omega)
    · rw [hbytes] at hb
      cases hb
    · rw [wsRead_timeout ctx room hquiet s expired sock hpull hping] at hstep
      obtain ⟨t, hends, ht⟩ := ih (sockWeight sock) (by omega) { s with sock := sock } hqueue
        (by rw [← hbytes, ← hb]) hsock hping le_rfl
      exact ⟨t, Machine.Ends.more _ _ t hstep hends, ht⟩
    · have hread : wsRead ctx room s = .inr { s with sock := sock } := by
        unfold wsRead
        rw [hpull]
      rw [hread] at hstep
      exact ⟨_, Machine.Ends.last _ _ hstep, rfl⟩

/-- A message that is handed to the handler. -/
theorem wsMessage_calls (handler : Byte → List Byte → W → Output → Bool × W × Output)
    (hhandler : ctx.wsDataHandler = some handler) (hgo : ∀ mop data w o, (handler mop data w o).1 = true)
    (mop : Byte) (mask data : List Byte) (s : WsState W) :
    ∃ u, wsMessage ctx mop mask data s = wsNext mop u ∧ u.queue = s.queue ∧ u.sock = s.sock ∧
      u.pingCount = s.pingCount ∧
      u.calls = s.calls ++ [(mop, if mask ≠ [] then maskFrom mask 0 data else data)] := by
  obtain ⟨plain, hplain⟩ : ∃ plain, plain = if mask ≠ [] then maskFrom mask 0 data else data := ⟨_, rfl⟩
  rw [← hplain]
  refine ⟨{ s with
    world := (handler mop plain s.world s.out).2.1
    out := (handler mop plain s.world s.out).2.2
    calls := s.calls ++ [(mop, plain)] }, ?_, rfl, rfl, rfl, rfl⟩
  unfold wsMessage
  rw [← hplain, hquiet.pingPong, hhandler]
  dsimp only
  rw [if_neg (by simp), if_neg (by simp), hgo, if_pos rfl]

end

namespace WsMessage

/-- The first byte of the frame. -/
def mop (m : WsMessage) : Byte := 0x80 ||| UInt8.ofNat m.opcode

theorem mop_opcode (m : WsMessage) (h : m.opcode < 16) : m.mop &&& 0xF = UInt8.ofNat m.opcode := by
  have hall : ∀ n < 16, (0x80 ||| UInt8.ofNat n) &&& 0xF = UInt8.ofNat n := by decide +kernel
  exact hall m.opcode h

theorem header_shape (m : WsMessage) (h : m.opcode < 16) :
    ∃ front, m.header = m.mop :: front ++ keyBytes m.maskingKey ∧ m.header.length ≤ 14 := by
  obtain ⟨second, len, lenBytes, hheader, -, -, hfield⟩ :=
    websocketHeader_shape m.opcode m.data.length m.maskingKey
  have hop : (((m.opcode : Int) % 16).toNat) = m.opcode := by omega
  have hlen : lenBytes.length ≤ 8 := by
    cases hfield <;> simp [htons, htonl]
  have hkey : (keyBytes m.maskingKey).length ≤ 4 := by
    rw [keyBytes_length]
    unfold maskLenOf
    split_ifs <;> omega
  have hshape : m.header = m.mop :: (second :: lenBytes) ++ keyBytes m.maskingKey := by
    unfold header mop
    rw [hheader, hop]
    rfl
  refine ⟨second :: lenBytes, hshape, ?_⟩
  rw [hshape]
  simp only [List.length_cons, List.length_append]
  omega

theorem payload_unmasked (m : WsMessage) :
    (if keyBytes m.maskingKey ≠ [] then maskFrom (keyBytes m.maskingKey) 0 m.payload else m.payload) =
      m.data := by
  unfold payload keyBytes
  by_cases hkey : m.maskingKey = 0
  · rw [if_neg (not_not.mpr hkey), if_neg (by simp), if_pos hkey]
  · rw [if_pos hkey, if_neg hkey, if_pos (by simp [wordBytes]), maskFrom_twice]

end WsMessage

section
variable {W : Type} (ctx : WsContext W) (room : Nat) (hquiet : ctx.Quiet)
  (handler : Byte → List Byte → W → Output → Bool × W × Output)
  (hhandler : ctx.wsDataHandler = some handler) (hgo : ∀ mop data w o, (handler mop data w o).1 = true)
include hquiet hhandler hgo

/-- A frame whose header is in the queue is read to its end and handed to the handler. -/
theorem reaches_message (m : WsMessage) (rest : List Byte) (s : WsState W) (hop : m.opcode < 16)
    (hn : m.data.length ≤ 0x7FFF0000) (hfull : m.header.length ≤ s.queue.length)
    (hstream : s.queue ++ sockBytes s.sock = m.frame ++ rest) (hdelivers : Delivers s.sock) :
    ∃ a u, Machine.Reaches (readWebsocket ctx room) (.loop s) a ∧
      readWebsocket ctx room a = wsNext m.mop u ∧ u.queue ++ sockBytes u.sock = rest ∧
      Delivers u.sock ∧ u.pingCount = s.pingCount ∧ u.calls = s.calls ++ [(m.mop, m.data)] := by
  obtain ⟨front, hheader, -⟩ := m.header_shape hop
  rw [WsMessage.frame, List.append_assoc] at hstream
  obtain ⟨w, hqueue, hw⟩ := Scan.prefix_cut m.header (m.payload ++ rest) s.queue (sockBytes s.sock)
    hstream.symm hfull
  have hhead : frameHead s.queue =
      .head m.header.length (maskLenOf m.maskingKey) m.data.length := by
    have hfront := frameHead_front m.opcode m.data.length m.maskingKey hn s.queue
      (m.payload ++ rest) ⟨_, hstream⟩
    rw [if_pos (show (websocketHeader _ _ _).length ≤ _ from hfull)] at hfront
    exact hfront
  have hmop : s.queue.getD 0 0 = m.mop := by
    rw [hqueue, hheader]
    rfl
  have hmask : (if 0 < maskLenOf m.maskingKey then
      (s.queue.drop (m.header.length - maskLenOf m.maskingKey)).take 4 else []) =
        keyBytes m.maskingKey := by
    have hlen := congrArg List.length hheader
    rw [List.length_append, keyBytes_length] at hlen
    have hdrop : s.queue.drop (m.header.length - maskLenOf m.maskingKey) = keyBytes m.maskingKey ++ w := by
      have hfront : m.header.length - maskLenOf m.maskingKey = (m.mop :: front).length := by omega
      rw [hfront, hqueue, hheader, List.append_assoc]
      exact List.drop_left
    rw [hdrop]
    unfold maskLenOf keyBytes
    by_cases hkey : m.maskingKey ≠ 0
    · rw [if_pos hkey, if_pos hkey]
      rfl
    · rw [if_neg hkey, if_neg hkey]
      rfl
  have hdata : s.queue.drop m.header.length = w := by
    rw [hqueue]
    exact List.drop_left
  rw [← m.payload_length] at hhead
  obtain ⟨a, t, hreach, hstep, hrest, hdeliv, hping, hcalls⟩ := reaches_frame ctx room m.header.length
    (maskLenOf m.maskingKey) m.payload rest s hhead hfull (by rw [hdata]; exact hw.symm) hdelivers
    (hquiet.mustClose s.world) hquiet.mgMalloc
  obtain ⟨u, hmessage, huq, hus, hup, huc⟩ := wsMessage_calls ctx hquiet handler hhandler hgo m.mop
    (keyBytes m.maskingKey) m.payload t
  rw [hmop, hmask, hmessage] at hstep
  refine ⟨a, u, hreach, hstep, ?_, ?_, hup.trans hping, ?_⟩
  · rw [huq, hus]
    exact hrest
  · rw [hus]
    exact hdeliv
  · rw [huc, hcalls, m.payload_unmasked]

/-- A stream of frames is read frame by frame. -/
theorem ends_frames (msgs : List WsMessage) (s : WsState W) (hroom : 14 ≤ room)
    (hmsgs : ∀ m ∈ msgs, m.opcode < 16 ∧ m.data.length ≤ 0x7FFF0000)
    (hlast : ∀ m ∈ msgs.dropLast, m.opcode ≠ 8)
    (hstream : s.queue ++ sockBytes s.sock = (msgs.map WsMessage.frame).flatten)
    (hdelivers : Delivers s.sock) (hping : s.pingCount = 0) :
    ∃ t, Machine.Ends (readWebsocket ctx room) (.loop s) t ∧
      t.calls = s.calls ++ msgs.map fun m => (m.mop, m.data) := by
  induction msgs generalizing s with
  | nil =>
    rw [List.map_nil, List.flatten_nil, List.append_eq_nil_iff] at hstream
    obtain ⟨t, hends, ht⟩ := ends_stream ctx room hquiet s hstream.1 hstream.2 hdelivers hping (by omega)
    exact ⟨t, hends, by rw [ht, List.map_nil, List.append_nil]⟩
  | cons m msgs ih =>
    obtain ⟨hop, hn⟩ := hmsgs m (by simp)
    obtain ⟨-, -, hlen⟩ := m.header_shape hop
    rw [List.map_cons, List.flatten_cons] at hstream
    obtain ⟨t, hreach, hfull, hkeep, hdeliv, hzero, hcalls⟩ := reaches_header ctx room hquiet m.opcode
      m.data.length m.maskingKey (m.payload ++ (msgs.map WsMessage.frame).flatten) s hn
      (hlen.trans hroom) (by rw [hstream, WsMessage.frame, List.append_assoc]; rfl) hdelivers hping
    obtain ⟨a, u, hreach', hstep, hrest, hdeliv', hzero', hcalls'⟩ := reaches_message ctx room hquiet
      handler hhandler hgo m (msgs.map WsMessage.frame).flatten t hop hn hfull
      (by rw [hkeep, WsMessage.frame, List.append_assoc]; rfl) hdeliv
    unfold wsNext at hstep
    by_cases hclose : m.mop &&& 0xF = MG_WEBSOCKET_OPCODE_CONNECTION_CLOSE
    · -- the end of the connection is the last message
      have hnil : msgs = [] := by
        by_contra hne
        apply hlast m
        · rw [List.dropLast_cons_of_ne_nil hne]
          exact List.mem_cons_self
        · rw [m.mop_opcode hop] at hclose
          have hnat := congrArg UInt8.toNat hclose
          rw [UInt8.toNat_ofNat'] at hnat
          have h8 : MG_WEBSOCKET_OPCODE_CONNECTION_CLOSE.toNat = 8 := rfl
          omega
      rw [if_pos hclose] at hstep
      refine ⟨u, Machine.Reaches.ends _ _ _ _ (hreach.trans hreach') (Machine.Ends.last a u hstep), ?_⟩
      rw [hcalls', hcalls, hnil]
      rfl
    · rw [if_neg hclose] at hstep
      obtain ⟨r, hends, hr⟩ := ih u (fun n hmem => hmsgs n (List.mem_cons_of_mem m hmem))
        (by
          intro n hmem
          apply hlast n
          rw [List.dropLast_cons_of_ne_nil (by rintro rfl; simp at hmem)]
          exact List.mem_cons_of_mem m hmem)
        hrest hdeliv' (hzero'.trans hzero)
      refine ⟨r, Machine.Reaches.ends _ _ _ _ (hreach.trans hreach') (Machine.Ends.more a (.loop u) r hstep hends), ?_⟩
      rw [hr, hcalls', hcalls, List.map_cons, List.append_assoc]
      rfl

end

/-- Messages that are written are read as they were, however the stream is cut into reads and how
much of it ever is already buffered behind the upgrade request. -/
theorem websocket_roundTrip {W : Type} (ctx : WsContext W) (room : Nat) (hquiet : ctx.Quiet)
    (handler : Byte → List Byte → W → Output → Bool × W × Output)
    (hhandler : ctx.wsDataHandler = some handler) (hgo : ∀ mop data w o, (handler mop data w o).1 = true)
    (msgs : List WsMessage) (out out' : Output) (stream : List Byte) (s : WsState W)
    (hmsgs : ∀ m ∈ msgs, m.opcode < 16 ∧ m.data.length ≤ 0x7FFF0000)
    (hlast : ∀ m ∈ msgs.dropLast, m.opcode ≠ 8)
    (hwrite : writeMessages out msgs = some out') (hsent : out'.sent = out.sent ++ stream)
    (hroom : 14 ≤ room) (hstream : s.queue ++ sockBytes s.sock = stream)
    (hdelivers : Delivers s.sock) (hping : s.pingCount = 0) (hcalls : s.calls = []) :
    ∃ t, Machine.Ends (readWebsocket ctx room) (.loop s) t ∧
      t.calls.map (fun c => (c.1 &&& 0xF, c.2)) = msgs.map fun m => (UInt8.ofNat m.opcode, m.data) := by
  have hframes : stream = (msgs.map WsMessage.frame).flatten := by
    rw [writeMessages_sent out out' msgs hwrite] at hsent
    exact (List.append_cancel_left hsent).symm
  obtain ⟨t, hends, ht⟩ := ends_frames ctx room hquiet handler hhandler hgo msgs s hroom hmsgs hlast
    (hstream.trans hframes) hdelivers hping
  refine ⟨t, hends, ?_⟩
  rw [ht, hcalls, List.nil_append, List.map_map]
  apply List.map_congr_left
  intro m hm
  exact Prod.ext (m.mop_opcode (hmsgs m hm).1) rfl

/-- A masked text message and the end of the connection. -/
def greeting : List WsMessage := [⟨1, ascii "hi", 0x04030201, false⟩, ⟨8, [], 0, true⟩]

/-- A handler that wants to go on, in surroundings that let it. -/
def echoContext : WsContext Unit where
  wsDataHandler := some fun _ _ w o => (true, w, o)
  mustClose _ := false
  mgMalloc _ w := (true, w)
  enablePingPong := false

/-- Three bytes of the greeting are in the queue, the others come in two reads, with a poll between them
that finds nothing. -/
def greeted : WsState Unit where
  world := ()
  out := slowOutput
  queue := [129, 130, 1]
  sock := [.data [2, 3], .timeout, .data [4, 105, 107, 136, 0]]
  pingCount := 0
  calls := []

theorem websocket_roundTrip_greeting :
    ∃ t, Machine.Ends (readWebsocket echoContext 14) (.loop greeted) t ∧
      t.calls.map (fun c => (c.1 &&& 0xF, c.2)) = greeting.map fun m => (UInt8.ofNat m.opcode, m.data) :=
  websocket_roundTrip echoContext 14 ⟨fun _ => rfl, fun _ _ => rfl, rfl⟩ (fun _ _ w o => (true, w, o)) rfl
    (fun _ _ _ _ => rfl) greeting slowOutput
    { slowOutput with
      sends := List.replicate 4 (.accept 4)
      sent := [129, 130, 1, 2, 3, 4, 105, 107, 136, 0]
      numBytesSent := 10 }
    [129, 130, 1, 2, 3, 4, 105, 107, 136, 0] greeted (by decide) (by decide) (by decide +kernel) rfl
    (by decide) rfl (by simp [Delivers, greeted]) rfl rfl

end CivetWeb
