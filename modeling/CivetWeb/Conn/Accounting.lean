import CivetWeb.Conn.BytesFit
import CivetWeb.Conn.RequestLen
import CivetWeb.Conn.SizesFit

namespace CivetWeb

def serveRequestTallies (handler : Conn → Handler) (conn : Conn) : List Tally :=
  match getRequest conn with
  | (some _, _) => []
  | (none, conn) =>
    .counters conn.consumedContent conn.contentLen ::
      (let info := conn.requestInfo
      if info.httpVersion ≠ ascii "1.0" ∧ info.httpVersion ≠ ascii "1.1" then []
      else
        match localUriOf conn with
        | none => []
        | some localUri =>
          let conn := { conn with localUri := localUri, protocolType := requestProtocol conn }
          if localUri.isSome then (handler conn).tallies conn else [])

/-- The sum in `keep_alive`, where the tests in front of it come to it. -/
def keepAliveTallies (conn : Conn) : List Tally :=
  if !stopFlag conn.sock && shouldKeepAlive conn && 0 ≤ conn.contentLen && 0 < conn.requestLen &&
      conn.isChunked == 0 && (conn.consumedContent : Int) != conn.contentLen then
    [.decision conn.requestLen conn.contentLen conn.dataLen]
  else []

def discardTallies (conn : Conn) : List Tally :=
  if keepAlive conn then [.discard conn.requestLen conn.contentLen] else []

def processTurnTallies (handler : Conn → Handler) (conn : Conn) : List Tally :=
  serveRequestTallies handler conn ++
    (let (_, conn) := serveRequest handler conn
    keepAliveTallies conn ++ discardTallies conn)

def processLoopTallies (handler : Conn → Handler) : Nat → Conn → List Tally
  | 0, _ => []
  | n + 1, conn =>
    let turn := processTurn handler conn
    processTurnTallies handler conn ++
      if turn.again then processLoopTallies handler n turn.conn else []

/-- All that is done with the counters while a connection is served. -/
def processNewConnectionTallies (handler : Conn → Handler) (conn : Conn) : List Tally :=
  processLoopTallies handler (conn.stream.length + 1) conn

/-- The length that the headers of a request name. -/
def namedLength (hdr : List MgHeader) : Int :=
  ((getHeader hdr (ascii "Content-Length")).map fun v => (strtoll 10 v).1).getD 0

/-- Where `keep_alive` comes to ask for a body of a length that was named, the request ends within `int64_t`. -/
def Conn.LengthFits (conn : Conn) : Prop :=
  stopFlag conn.sock = false → shouldKeepAlive conn = true → conn.isChunked = 0 →
    conn.requestLen + namedLength conn.requestInfo.httpHeaders ≤ INT64_MAX

instance (conn : Conn) : Decidable conn.LengthFits := by
  unfold Conn.LengthFits
  infer_instance

theorem Tally.Sound.fits (t : Tally) (h : t.Sound) : t.SizesFit ∧ t.BytesFit := by
  cases t with
  | counters k l => exact ⟨trivial, trivial⟩
  | sum a b => exact ⟨trivial, trivial⟩
  | difference a b => exact ⟨trivial, trivial⟩
  | framing l n => exact ⟨trivial, h.2⟩
  | chunk l n =>
    obtain ⟨hsize, hsum⟩ := h
    rw [hsize] at hsum
    exact ⟨hsum.2, trivial⟩
  | decision r l d => exact ⟨h.1.2, trivial⟩
  | discard r l => exact ⟨trivial, h.2⟩

theorem strtoll_le (base : Nat) (s : List Byte) : (strtoll base s).1 ≤ INT64_MAX := by
  rw [INT64_MAX, strtoll]
  omega

/-- Where a request that was read starts: at the front of the stream, none of its body consumed. -/
structure RequestStart (conn c : Conn) : Prop where
  pos : 0 < c.requestLen
  head_le : c.requestLen ≤ c.dataLen
  data_le : c.dataLen ≤ c.buf.length
  length : c.buf.length = conn.buf.length
  consumed : c.consumedContent = 0
  content_nonneg : 0 ≤ c.contentLen
  content_le : c.contentLen ≤ INT64_MAX
  chunked : c.isChunked ≠ 4
  named : c.isChunked = 0 → c.contentLen = namedLength c.requestInfo.httpHeaders
  stream : conn.stream.length = c.dataLen + (sockBytes c.sock).length

theorem parsed_length (buf : List Byte) (r : ParsedRequest)
    (h : parseHttpRequest buf buf.length = .ok r) : r.buf.length = buf.length := by
  obtain ⟨-, -, -, -, -, -, -, -, hlen, -⟩ := parseHttpRequest_ok _ _ r h
  have hreceived := parseHttpRequest_received buf [] r (by rw [List.append_nil]; exact h) hlen
  rw [List.append_nil] at hreceived
  exact hreceived.2.2

theorem getRequest_start (conn c : Conn) (h : getRequest conn = (none, c))
    (hdata : conn.dataLen ≤ conn.buf.length) : RequestStart conn c := by
  obtain ⟨c1, r, hread⟩ := getRequest_read conn c h
  have hmsg := getMessage_found conn c1 hread.message
  have hpos := hmsg.pos
  have hle := hmsg.data_le hdata
  have hfound : c1.requestLen ≤ c1.dataLen := by
    have hmax := headerLenFrom_le 0 (c1.buf.take c1.dataLen)
    have := hmsg.found
    rw [List.length_take] at hmax
    rw [getHttpHeaderLen] at this
    omega
  have hlen : conn.stream.length = c1.dataLen + (sockBytes c1.sock).length := by
    rw [← hmsg.stream, Conn.stream, List.length_append, List.length_take]
    omega
  have hhead : c.requestLen = c1.requestLen := by rw [hread.frame]
  have hdataLen : c.dataLen = c1.dataLen := by rw [hread.frame]
  have hsock : c.sock = c1.sock := by rw [hread.frame]
  have hlength : c.buf.length = c1.buf.length := by
    rw [hread.frame]
    exact parsed_length _ r hread.parsed
  have hzero : c.consumedContent = 0 := by
    rw [hread.frame, hmsg.frame]
    rfl
  have hplain : c1.isChunked = 0 := by
    rw [hmsg.frame]
    rfl
  have hframed : 0 ≤ c.contentLen ∧ c.contentLen ≤ INT64_MAX ∧ c.isChunked ≠ 4 ∧
      (c.isChunked = 0 → c.contentLen = namedLength c.requestInfo.httpHeaders) := by
    have hmax : (0 : Int) ≤ INT64_MAX := by decide
    obtain ⟨i, hframing⟩ := hread.framing
    rcases setBodyFraming_none _ c hframing with
      ⟨v, -, -, -, -, hc⟩ | ⟨-, ⟨v, hlen, -, hnonneg, hc⟩ | ⟨hlen, hc⟩⟩
    · rw [hc]
      exact ⟨le_rfl, hmax, by simp, by simp⟩
    · rw [hc]
      refine ⟨hnonneg, strtoll_le 10 v, by simp [hplain], fun _ => ?_⟩
      simp only [namedLength, hlen, Option.map_some, Option.getD_some]
    · rw [hc]
      refine ⟨le_rfl, hmax, by simp [hplain], fun _ => ?_⟩
      simp only [namedLength, hlen, Option.map_none, Option.getD_none]
  obtain ⟨hnonneg, hmax, hchunked, hnamed⟩ := hframed
  refine ⟨by omega, by omega, by omega, ?_, hzero, hnonneg, hmax, hchunked, hnamed, ?_⟩
  · rw [hlength, hmsg.length]
  · rw [hdataLen, hsock, hlen]

theorem RequestStart.accounted (conn c : Conn) (h : RequestStart conn c)
    (hbuf : conn.buf.length ≤ INT_MAX) : c.Accounted := by
  have hdata := h.data_le
  have hlength := h.length
  refine ⟨h.pos.le, h.head_le, by omega, ?_, h.content_le⟩
  rw [h.consumed]
  exact h.content_nonneg

theorem RequestStart.spent (conn c : Conn) (size : Nat) (h : RequestStart conn c)
    (hsize : conn.stream.length ≤ size) : c.Spent size := by
  have hhead := h.head_le
  have hstream := h.stream
  refine ⟨⟨h.pos.le, ?_⟩, fun h4 => absurd h4 h.chunked⟩
  rw [h.consumed]
  push_cast
  omega

/-- Whatever becomes of a request that was read, its counters and chunks go as with some handler. -/
theorem serveRequest_tallies (handler : Conn → Handler) (conn c : Conn)
    (h : getRequest conn = (none, c)) :
    ∃ (run : Handler) (protocolType : Int) (localUri : Option (List Byte)) (c' : Conn),
      c' = { c with protocolType := protocolType, localUri := localUri } ∧
      serveRequestTallies handler conn =
        .counters c.consumedContent c.contentLen :: run.tallies c' ∧
      serveRequestFetches handler conn = run.fetches c' ∧
      (serveRequest handler conn).2 = (run.run c').2 := by
  unfold serveRequestTallies serveRequestFetches serveRequest
  rw [h]
  dsimp only
  split_ifs with hversion
  · exact ⟨.done true, -1, c.localUri, _, rfl, rfl, rfl, by simp [Handler.run]⟩
  · cases huri : localUriOf c with
    | none => exact ⟨.done true, -1, none, _, rfl, rfl, rfl, by simp [Handler.run]⟩
    | some localUri =>
      dsimp only
      split_ifs
      · exact ⟨handler _, requestProtocol c, localUri, _, rfl, rfl, rfl, rfl⟩
      · exact ⟨.done true, requestProtocol c, localUri, _, rfl, rfl, rfl, by simp [Handler.run]⟩

/-- The turn behind a request that was read is that of some handler. -/
theorem processTurn_run (handler : Conn → Handler) (conn c : Conn) (h : getRequest conn = (none, c))
    (hdata : conn.dataLen ≤ conn.buf.length) :
    ∃ (run : Handler) (c' : Conn), RequestStart conn c' ∧
      processTurnTallies handler conn = .counters c'.consumedContent c'.contentLen ::
        (run.tallies c' ++ (keepAliveTallies (run.run c').2 ++ discardTallies (run.run c').2)) ∧
      serveRequestFetches handler conn = run.fetches c' ∧ (serveRequest handler conn).2 = (run.run c').2 := by
  have hstart := getRequest_start conn c h hdata
  obtain ⟨run, protocolType, localUri, c', hc', htallies, hfetches, hconn⟩ := serveRequest_tallies handler conn c h
  refine ⟨run, c', ?_, ?_, hfetches, hconn⟩
  · rw [hc']
    exact ⟨hstart.pos, hstart.head_le, hstart.data_le, hstart.length, hstart.consumed, hstart.content_nonneg,
      hstart.content_le, hstart.chunked, hstart.named, hstart.stream⟩
  · rw [processTurnTallies, htallies, ← hconn, hc']
    rfl

theorem keepAliveTallies_mustClose (conn : Conn) (h : conn.mustClose = true) :
    keepAliveTallies conn = [] ∧ discardTallies conn = [] := by
  rw [discardTallies, keepAlive_mustClose conn h]
  simp [keepAliveTallies, shouldKeepAlive, h]

/-- A request that cannot be read ends without a look at the counters. -/
theorem processTurnTallies_error (handler : Conn → Handler) (conn c : Conn) (e : RequestError)
    (h : getRequest conn = (some e, c)) : processTurnTallies handler conn = [] := by
  obtain ⟨hkeep, hdiscard⟩ :=
    keepAliveTallies_mustClose { c with protocolType := -1, mustClose := true } rfl
  have hserve : serveRequestTallies handler conn = [] := by rw [serveRequestTallies, h]
  simp only [processTurnTallies, hserve, serveRequest_error handler conn c e h, hkeep, hdiscard,
    List.append_nil]

theorem mem_keepAliveTallies (conn : Conn) (t : Tally)
    (h : t ∈ keepAliveTallies conn ++ discardTallies conn) :
    t = .decision conn.requestLen conn.contentLen conn.dataLen ∨
      t = .discard conn.requestLen conn.contentLen ∧ keepAlive conn = true := by
  rcases List.mem_append.mp h with h | h
  · rw [keepAliveTallies] at h
    split_ifs at h
    · exact Or.inl (List.mem_singleton.mp h)
    · cases h
  · rw [discardTallies] at h
    split_ifs at h with hkeep
    · exact Or.inr ⟨List.mem_singleton.mp h, hkeep⟩
    · cases h

/-- With a sum that fits the keep-alive decision is the one of the source. -/
theorem keepAlive_accounts (conn : Conn) :
    Accounts conn (keepAliveTallies conn ++ discardTallies conn) conn := by
  intro hacc hfit
  have hlow : -2 ^ 63 ≤ conn.requestLen + conn.contentLen := by
    have hhead := hacc.head_nonneg
    have hle := hacc.consumed_le
    omega
  refine ⟨?_, hacc⟩
  intro t ht
  obtain ⟨hsizes, hbytes⟩ := hfit t ht
  rcases mem_keepAliveTallies conn t ht with rfl | ⟨rfl, -⟩
  · have hsum : conn.requestLen + conn.contentLen ≤ INT64_MAX := hsizes
    refine ⟨⟨hlow, hsum⟩, ?_⟩
    rw [INT64_MAX] at hsum
    rw [int64_range _ hlow (by omega), if_neg (by omega)]
    exact id
  · exact ⟨hlow, hbytes⟩

/-- The sum behind a decision to keep the connection: it was looked at, or the body is consumed. -/
theorem keepAlive_bytesFit (conn : Conn) (size : Nat) (h : conn.Spent size)
    (hroom : size + lenbufSize ≤ INT64_MAX) (hfit : ∀ t ∈ keepAliveTallies conn, t.SizesFit) :
    ∀ t ∈ keepAliveTallies conn ++ discardTallies conn, t.BytesFit := by
  intro t ht
  rcases mem_keepAliveTallies conn t ht with rfl | ⟨rfl, hkeep⟩
  · trivial
  show conn.requestLen + conn.contentLen ≤ INT64_MAX
  have hconsumed := h.within.consumed_le.1
  have hended := h.ended
  simp only [keepAlive, Bool.and_eq_true, Bool.or_eq_true, decide_eq_true_eq, beq_iff_eq,
    Bool.not_eq_true'] at hkeep
  obtain ⟨⟨⟨⟨⟨hstop, hshould⟩, hlen⟩, hhead⟩, hbody⟩, -⟩ := hkeep
  rcases hbody with h4 | ⟨hplain, hbody⟩
  · have hslack := hended h4
    omega
  by_cases hall : (conn.consumedContent : Int) = conn.contentLen
  · omega
  · have hlooked : keepAliveTallies conn =
        [.decision conn.requestLen conn.contentLen conn.dataLen] := by
      rw [keepAliveTallies, if_pos]
      simp [hstop, hshould, hlen, hhead, hplain, hall]
    rw [hlooked] at hfit
    exact hfit _ (List.mem_singleton.mpr rfl)

theorem processTurn_accounts (handler : Conn → Handler) (conn : Conn)
    (hdata : conn.dataLen ≤ conn.buf.length) (hbuf : conn.buf.length ≤ INT_MAX)
    (hfit : ∀ t ∈ processTurnTallies handler conn, t.SizesFit ∧ t.BytesFit) :
    ∀ t ∈ processTurnTallies handler conn, t.Sound := by
  cases hreq : getRequest conn with
  | mk e c =>
    cases e with
    | some e =>
      rw [processTurnTallies_error handler conn c e hreq]
      simp
    | none =>
      obtain ⟨run, c', hstart, hturn, -, -⟩ := processTurn_run handler conn c hreq hdata
      have hacc := hstart.accounted _ _ hbuf
      rw [hturn] at hfit ⊢
      have hrun := ((handler_accounts run c').trans _ _ _ _ _ (keepAlive_accounts _)) hacc
        (fun t ht => hfit t (List.mem_cons_of_mem _ ht))
      rw [List.forall_mem_cons]
      exact ⟨hacc.counters, hrun.1⟩

theorem processTurn_bytesFit (handler : Conn → Handler) (conn : Conn) (size : Nat)
    (hdata : conn.dataLen ≤ conn.buf.length) (hsize : conn.stream.length ≤ size)
    (hroom : size + lenbufSize ≤ INT64_MAX) (hfit : ∀ t ∈ processTurnTallies handler conn, t.SizesFit) :
    ∀ t ∈ processTurnTallies handler conn, t.BytesFit := by
  cases hreq : getRequest conn with
  | mk e c =>
    cases e with
    | some e =>
      rw [processTurnTallies_error handler conn c e hreq]
      simp
    | none =>
      obtain ⟨run, c', hstart, hturn, -, -⟩ := processTurn_run handler conn c hreq hdata
      obtain ⟨hrun, hend⟩ := handler_spent run c' size (hstart.spent _ _ size hsize) hroom
      rw [hturn] at hfit ⊢
      rw [List.forall_mem_cons, List.forall_mem_append]
      refine ⟨trivial, hrun, keepAlive_bytesFit _ size hend hroom ?_⟩
      intro t ht
      exact hfit t (by simp [ht])

/-- A body without chunks keeps the length it was given. -/
theorem handler_plain (handler : Handler) (conn : Conn) (h : conn.isChunked = 0) :
    (handler.run conn).2.contentLen = conn.contentLen := by
  induction handler generalizing conn with
  | done mustClose => rfl
  | read len next ih =>
    have hread : (mgRead conn len).2 = (mgReadInner conn (min len INT_MAX)).2 := by
      unfold mgRead
      dsimp only
      rw [if_neg (not_not.mpr h)]
    have hcounted := (mgReadInner_counts conn (min len INT_MAX)).2
    have hplain : (mgRead conn len).2.isChunked = 0 ∧ (mgRead conn len).2.contentLen = conn.contentLen := by
      rw [hread, hcounted]
      exact ⟨h, rfl⟩
    exact (ih (mgRead conn len).1 (mgRead conn len).2 hplain.1).trans hplain.2

/-- The sum of the decision is formed where it is asked for and the body is not consumed. -/
theorem keepAlive_sizesFit (conn : Conn) (size : Nat) (h : conn.Spent size) (hroom : size + lenbufSize ≤ INT64_MAX)
    (hpos : 0 < conn.requestLen)
    (hnamed : conn.isChunked = 0 → 0 ≤ conn.contentLen ∧ conn.contentLen = namedLength conn.requestInfo.httpHeaders) :
    (∀ t ∈ keepAliveTallies conn ++ discardTallies conn, t.SizesFit) ↔ conn.LengthFits := by
  have hdiscard : ∀ t ∈ discardTallies conn, t.SizesFit := by
    rw [discardTallies]
    split_ifs
    · rw [List.forall_mem_singleton]
      trivial
    · simp
  rw [List.forall_mem_append, and_iff_left hdiscard, keepAliveTallies]
  split_ifs with hasked
  · simp only [Bool.and_eq_true, Bool.not_eq_true', decide_eq_true_eq, beq_iff_eq, bne_iff_ne] at hasked
    obtain ⟨⟨⟨⟨⟨hstop, hshould⟩, -⟩, -⟩, hplain⟩, -⟩ := hasked
    rw [List.forall_mem_singleton]
    show conn.requestLen + conn.contentLen ≤ INT64_MAX ↔ _
    rw [(hnamed hplain).2]
    exact ⟨fun hfit _ _ _ => hfit, fun hfit => hfit hstop hshould hplain⟩
  · refine iff_of_true (by simp) fun hstop hshould hplain => ?_
    obtain ⟨hnonneg, hlen⟩ := hnamed hplain
    have hall : (conn.consumedContent : Int) = conn.contentLen := by
      by_contra hleft
      apply hasked
      simp [hstop, hshould, hnonneg, hpos, hplain, hleft]
    have hconsumed := h.within.consumed_le.1
    rw [← hlen, ← hall]
    omega

/-- In a turn the numbers of the client are the sizes of the chunks, and the length of the body. -/
theorem processTurn_sizesFit (handler : Conn → Handler) (conn : Conn) (size : Nat)
    (hdata : conn.dataLen ≤ conn.buf.length) (hsize : conn.stream.length ≤ size)
    (hroom : size + lenbufSize ≤ INT64_MAX) :
    (∀ t ∈ processTurnTallies handler conn, t.SizesFit) ↔
      (∀ c ∈ serveRequestFetches handler conn, c.NextSizeFits) ∧ (serveRequest handler conn).2.LengthFits := by
  cases hreq : getRequest conn with
  | mk e c =>
    cases e with
    | some e =>
      have hnone : serveRequestFetches handler conn = [] := by rw [serveRequestFetches, hreq]
      rw [processTurnTallies_error handler conn c e hreq, hnone, serveRequest_error handler conn c e hreq]
      exact iff_of_true (by simp) ⟨by simp, fun _ hshould => by simp [shouldKeepAlive] at hshould⟩
    | none =>
      obtain ⟨run, c', hstart, hturn, hfetches, hconn⟩ := processTurn_run handler conn c hreq hdata
      have hplaced : c'.Placed := ⟨hstart.pos.le, hstart.head_le, hstart.data_le⟩
      obtain ⟨c2, hframe, hc2⟩ := handler_frame run c'
      have hend := (handler_spent run c' size (hstart.spent _ _ size hsize) hroom).2
      have hhead : 0 < (run.run c').2.requestLen := by
        rw [hc2, hframe.frame]
        exact hstart.pos
      have hnamed : (run.run c').2.isChunked = 0 → 0 ≤ (run.run c').2.contentLen ∧
          (run.run c').2.contentLen = namedLength (run.run c').2.requestInfo.httpHeaders := by
        intro hplain
        have hbefore : c'.isChunked = 0 := by
          by_contra hchunked
          apply hframe.chunked hchunked
          rw [hc2] at hplain
          exact hplain
        have hinfo : (run.run c').2.requestInfo = c'.requestInfo := by rw [hc2, hframe.frame]
        rw [handler_plain run c' hbefore, hinfo]
        exact ⟨hstart.content_nonneg, hstart.named hbefore⟩
      rw [hturn, List.forall_mem_cons, List.forall_mem_append, handler_sizesFit run c' hplaced,
        keepAlive_sizesFit _ size hend hroom hhead hnamed, hfetches, hconn]
      exact and_iff_right trivial

/-- The buffer of a connection is the same size in every turn. -/
theorem processTurn_length (handler : Conn → Handler) (conn : Conn)
    (hdata : conn.dataLen ≤ conn.buf.length) (h : (processTurn handler conn).again = true) :
    (processTurn handler conn).conn.buf.length = conn.buf.length := by
  cases hreq : getRequest conn with
  | mk e c =>
    cases e with
    | some e =>
      rw [(processTurn_error handler conn c e hreq).2] at h
      cases h
    | none =>
      obtain ⟨run, c', hstart, -, -, hconn⟩ := processTurn_run handler conn c hreq hdata
      obtain ⟨c2, hframe, hc2⟩ := handler_frame run c'
      obtain ⟨c3, hc3⟩ : ∃ c3, c3 = (run.run c').2 := ⟨_, rfl⟩
      rw [← hc3] at hconn hc2
      have hbuf : c3.buf = c'.buf ∧ c3.dataLen = c'.dataLen := by
        rw [hc2, hframe.frame]
        exact ⟨rfl, rfl⟩
      have hlength : c3.buf.length = conn.buf.length := by rw [hbuf.1, hstart.length]
      have hle := hstart.data_le
      obtain ⟨-, -, hdiscard⟩ := discardRequest_stream c3 (by rw [hbuf.1, hbuf.2]; exact hle)
      unfold processTurn
      rw [show serveRequest handler conn = ((serveRequest handler conn).1, c3) from Prod.ext rfl hconn]
      dsimp only
      split_ifs
      · exact hdiscard.trans hlength
      · exact hdiscard.trans hlength
      · exact hlength
      · exact hlength

theorem processLoop_accounts (handler : Conn → Handler) (n : Nat) (conn : Conn)
    (hdata : conn.dataLen ≤ conn.buf.length) (hbuf : conn.buf.length ≤ INT_MAX)
    (hfit : ∀ t ∈ processLoopTallies handler n conn, t.SizesFit ∧ t.BytesFit) :
    ∀ t ∈ processLoopTallies handler n conn, t.Sound := by
  induction n generalizing conn with
  | zero => simp [processLoopTallies]
  | succ n ih =>
    simp only [processLoopTallies] at hfit ⊢
    rw [List.forall_mem_append] at hfit ⊢
    refine ⟨processTurn_accounts handler conn hdata hbuf hfit.1, ?_⟩
    by_cases hagain : (processTurn handler conn).again = true
    · rw [if_pos hagain] at hfit ⊢
      have hlength := processTurn_length handler conn hdata hagain
      exact ih _ (processTurn_shrinks handler conn hdata hagain).2 (by omega) hfit.2
    · rw [if_neg hagain]
      simp

theorem processLoop_bytesFit (handler : Conn → Handler) (n : Nat) (conn : Conn) (size : Nat)
    (hdata : conn.dataLen ≤ conn.buf.length) (hsize : conn.stream.length ≤ size)
    (hroom : size + lenbufSize ≤ INT64_MAX) (hfit : ∀ t ∈ processLoopTallies handler n conn, t.SizesFit) :
    ∀ t ∈ processLoopTallies handler n conn, t.BytesFit := by
  induction n generalizing conn with
  | zero => simp [processLoopTallies]
  | succ n ih =>
    simp only [processLoopTallies] at hfit ⊢
    rw [List.forall_mem_append] at hfit ⊢
    refine ⟨processTurn_bytesFit handler conn size hdata hsize hroom hfit.1, ?_⟩
    by_cases hagain : (processTurn handler conn).again = true
    · rw [if_pos hagain] at hfit ⊢
      obtain ⟨hless, hle⟩ := processTurn_shrinks handler conn hdata hagain
      exact ih _ hle (by omega) hfit.2
    · rw [if_neg hagain]
      simp

theorem processLoop_sizesFit (handler : Conn → Handler) (n : Nat) (conn : Conn) (size : Nat)
    (hdata : conn.dataLen ≤ conn.buf.length) (hsize : conn.stream.length ≤ size)
    (hroom : size + lenbufSize ≤ INT64_MAX) :
    (∀ t ∈ processLoopTallies handler n conn, t.SizesFit) ↔
      (∀ c ∈ (processLoopTurns handler n conn).flatMap (serveRequestFetches handler), c.NextSizeFits) ∧
        ∀ c ∈ processLoopTurns handler n conn, (serveRequest handler c).2.LengthFits := by
  induction n generalizing conn with
  | zero => simp [processLoopTallies, processLoopTurns]
  | succ n ih =>
    rw [processLoopTallies, processLoopTurns, List.flatMap_cons, List.forall_mem_append, List.forall_mem_append,
      List.forall_mem_cons, processTurn_sizesFit handler conn size hdata hsize hroom]
    by_cases hagain : (processTurn handler conn).again = true
    · obtain ⟨hless, hle⟩ := processTurn_shrinks handler conn hdata hagain
      rw [if_pos hagain, if_pos hagain, ih _ hle (by omega)]
      exact and_and_and_comm
    · rw [if_neg hagain, if_neg hagain]
      simp

/-- The account of a connection, on which the bytes alone cannot fill a counter, is sound exactly where each chunk that
is fetched ends within `int64_t`, and each request whose body the keep-alive decision asks for does. -/
theorem processNewConnectionTallies_sound_iff (handler : Conn → Handler) (conn : Conn)
    (hdata : conn.dataLen ≤ conn.buf.length) (hbuf : conn.buf.length ≤ INT_MAX)
    (hroom : conn.stream.length + lenbufSize ≤ INT64_MAX) :
    (∀ t ∈ processNewConnectionTallies handler conn, t.Sound) ↔
      (∀ c ∈ processNewConnectionFetches handler conn, c.NextSizeFits) ∧
        ∀ c ∈ processNewConnectionTurns handler conn, (serveRequest handler c).2.LengthFits := by
  unfold processNewConnectionTallies processNewConnectionFetches processNewConnectionTurns
  rw [← processLoop_sizesFit handler _ conn conn.stream.length hdata le_rfl hroom]
  constructor
  · exact fun hsound t ht => (hsound t ht).fits.1
  · intro hsizes
    have hbytes := processLoop_bytesFit handler _ conn conn.stream.length hdata le_rfl hroom hsizes
    exact processLoop_accounts handler _ conn hdata hbuf fun t ht => ⟨hsizes t ht, hbytes t ht⟩

/-- A chunked request, with its body in the packet of its head. -/
def chunkedPost : Conn :=
  freshConn 128 [.data (ascii "POST / HTTP/1.1\r\nTransfer-Encoding: chunked\r\n\r\n3\r\nabc\r\n0\r\n\r\n")]

def readFour (_ : Conn) : Handler := .read 4 (fun _ => .done false)

theorem processNewConnectionTallies_sound_iff_chunked :
    .chunk 3 3 ∈ processNewConnectionTallies readFour chunkedPost ∧
      ∀ t ∈ processNewConnectionTallies readFour chunkedPost, t.Sound :=
  ⟨by decide +kernel,
    (processNewConnectionTallies_sound_iff readFour chunkedPost (by decide +kernel) (by decide +kernel)
      (by decide +kernel)).mpr ⟨by decide +kernel, by decide +kernel⟩⟩

/-- The largest length, of a body that never comes. -/
def hugeLength : Conn :=
  freshConn 128 [.data (ascii "POST / HTTP/1.1\r\nContent-Length: 9223372036854775807\r\n\r\n")]

/-- A chunk size beyond `int64_t`. -/
def hugeChunk : Conn :=
  freshConn 128 [.data (ascii "POST / HTTP/1.1\r\nTransfer-Encoding: chunked\r\n\r\nffffffffffffffff\r\n")]

def closeUnread (_ : Conn) : Handler := .done false

/-- The sum of the keep-alive decision overflows, and the missing body counts as buffered; behind
the huge chunk `content_len` is less than what is consumed. -/
theorem processNewConnectionTallies_overflow :
    (.decision 56 (2 ^ 63 - 1) 56 ∈ processNewConnectionTallies closeUnread hugeLength ∧
        ¬ FitsInt64 (56 + (2 ^ 63 - 1)) ∧ int64 (56 + (2 ^ 63 - 1)) ≤ 56) ∧
      (.chunk 18 (2 ^ 64 - 1) ∈ processNewConnectionTallies readFour hugeChunk ∧
        .counters 18 17 ∈ processNewConnectionTallies readFour hugeChunk) ∧
      ¬ (∀ t ∈ processNewConnectionTallies closeUnread hugeLength, t.Sound) ∧
      ¬ (∀ t ∈ processNewConnectionTallies readFour hugeChunk, t.Sound) := by
  have hlength : .decision 56 (2 ^ 63 - 1) 56 ∈ processNewConnectionTallies closeUnread hugeLength := by
    decide +kernel
  have hchunk : .chunk 18 (2 ^ 64 - 1) ∈ processNewConnectionTallies readFour hugeChunk ∧
      .counters 18 17 ∈ processNewConnectionTallies readFour hugeChunk := by
    decide +kernel
  have hsum : ¬ FitsInt64 (56 + (2 ^ 63 - 1)) := by
    rw [FitsInt64, INT64_MAX]
    omega
  refine ⟨⟨hlength, hsum, by decide⟩, hchunk, ?_, ?_⟩
  · intro hall
    exact hsum (hall _ hlength).1
  · intro hall
    exact absurd (hall _ hchunk.2).2.1 (by decide)

end CivetWeb
