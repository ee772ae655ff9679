import CivetWeb.Conn.Pipeline
import CivetWeb.Conn.Segmentation
import CivetWeb.Http.ParseResponse

namespace CivetWeb

/-- A connection of a client. -/
structure ClientConn extends Conn where
  responseInfo : ResponseInfo
  deriving DecidableEq, Repr

/-- A status whose responses have no body. -/
def bodyless (status : Int) : Bool := (100 ≤ status && status ≤ 199) || status == 204 || status == 304

/-- The last part of `get_response`: how long the body is. -/
def setResponseFraming (conn : ClientConn) : Option RequestError × ClientConn :=
  let te := getHeader conn.responseInfo.httpHeaders (ascii "Transfer-Encoding")
  let cl := getHeader conn.responseInfo.httpHeaders (ascii "Content-Length")
  if te.any (fun h => mgStrcasecmp h (ascii "identity") != 0) then
    if te.any (fun h => mgStrcasecmp h (ascii "chunked") != 0) then (some ⟨400, "Bad request"⟩, conn)
    else (none, { conn with isChunked := 1, contentLen := 0 })
  else
    match cl with
    | some h =>
      let n := strtoll 10 h
      if n.2 = h ∨ n.1 < 0 then (some ⟨411, "Bad request"⟩, { conn with contentLen := n.1 })
      else
        (none, { conn with
          contentLen := if conn.responseInfo.statusCode = 304 then 0 else n.1
          infoContentLength := n.1
          responseInfo := { conn.responseInfo with contentLength := n.1 } })
    | none => (none, { conn with contentLen := if bodyless conn.responseInfo.statusCode then 0 else -1 })

/-- `get_response`; it returns 1 where there is no error. -/
def getResponse (conn : ClientConn) : Option RequestError × ClientConn :=
  match getMessage conn.toConn with
  | (some e, c) => (some e, { conn with toConn := c })
  | (none, c) =>
    match parseHttpResponse c.buf c.buf.length with
    | .error _ => (some ⟨400, "Bad response"⟩, { conn with toConn := c })
    | .ok r => setResponseFraming { toConn := { c with buf := r.buf }, responseInfo := r.info }

/-- `mg_get_response`, which forgets what is in the buffer. -/
def mgGetResponse (conn : ClientConn) : Option RequestError × ClientConn :=
  getResponse { conn with dataLen := 0 }

/-! ### The head of a response -/

theorem Segmented.steady {stream : List Byte} {sock : List NetEvent} (h : Segmented [] stream sock) :
    Steady sock ∧ sockBytes sock = stream := by
  induction h with
  | ends => exact ⟨trivial, rfl⟩
  | data bs hbs _ ih => exact ⟨by rw [Steady, if_neg hbs]; exact ih.1, by rw [sockBytes, ih.2]⟩
  | tryAgain _ ih => exact ih

/-- A head that fits the buffer is found, however it comes. -/
theorem getMessage_head (conn : Conn) (more : List Byte) {head stream : List Byte}
    (hdata : conn.dataLen ≤ conn.buf.length)
    (hsock : Segmented [] stream conn.sock) (hstream : conn.buf.take conn.dataLen ++ stream = head ++ more)
    (hne : head ≠ []) (hfound : headerLenFrom 0 head = head.length) (hfits : head.length ≤ conn.buf.length) :
    ∃ c, getMessage conn = (none, c) ∧ c.requestLen = head.length ∧ head.length ≤ c.dataLen ∧
      (∃ x, c.buf = head ++ x) ∧ c.stream = head ++ more := by
  have hpos : 0 < head.length := List.length_pos_of_ne_nil hne
  have hlen : (readMessage conn.sock conn.buf conn.dataLen).requestLen = head.length := by
    rw [readMessage_headEnd hsock (rfl : endOfStream [] = some (-1)) conn.buf conn.dataLen hdata, hstream, headEnd,
      List.take_append, List.take_of_length_le hfits,
      headerLenFrom_append 0 head _ (by omega), hfound, if_pos (by omega)]
  have hread := readMessage_spec conn.sock conn.buf conn.dataLen
  have hnread : head.length ≤ (readMessage conn.sock conn.buf conn.dataLen).nread := by
    have hle := headerLenFrom_le 0 ((readMessage conn.sock conn.buf conn.dataLen).buf.take
      (readMessage conn.sock conn.buf conn.dataLen).nread)
    have hhere := hread.found (by omega)
    rw [getHttpHeaderLen] at hhere
    rw [List.length_take] at hle
    omega
  obtain ⟨c, hc⟩ : ∃ c, getMessage conn = (none, c) := by
    unfold getMessage
    simp only [resetPerRequestAttributes, hlen]
    rw [if_neg (by omega), if_neg (by omega), if_neg (by omega)]
    exact ⟨_, rfl⟩
  have hmsg := getMessage_found conn c hc
  have hstream' : c.stream = head ++ more := by
    rw [hmsg.stream, Conn.stream, hsock.steady.2, hstream]
  have hreq : c.requestLen = head.length := by
    have hscan : headerLenFrom 0 (c.stream) = c.requestLen := by
      have hpos' := hmsg.pos
      rw [hmsg.found, getHttpHeaderLen] at hpos' ⊢
      exact headerLenFrom_append 0 _ _ (by omega)
    rw [← hscan, hstream', headerLenFrom_append 0 head more (by omega), hfound]
  have hrecv : head.length ≤ (c.buf.take c.dataLen).length := by
    have hle := headerLenFrom_le 0 (c.buf.take c.dataLen)
    have hhere := hmsg.found
    rw [getHttpHeaderLen] at hhere
    omega
  have hpre : head <+: c.buf.take c.dataLen := by
    refine List.prefix_of_prefix_length_le ⟨more, rfl⟩ ?_ hrecv
    rw [← hstream']
    exact List.prefix_append _ _
  obtain ⟨x, hx⟩ := hpre.trans (List.take_prefix c.dataLen c.buf)
  rw [List.length_take] at hrecv
  exact ⟨c, hc, hreq, by omega, ⟨x, hx.symm⟩, hstream'⟩

/-! ### The body of a response -/

/-- How the headers of a response and its status frame its body: `data` is what is sent, `payload` what it
stands for, `more` what may follow on the connection. -/
inductive FramedResponse (hdr : List MgHeader) (status : Int) : List Byte → List Byte → List Byte → Prop where
  | length (data more : List Byte) : transferCodings hdr = [] → contentLengths hdr ≠ [] →
      (∀ v ∈ contentLengths hdr, PlainNumber data.length v) → data.length < 2 ^ 62 → status ≠ 304 →
      FramedResponse hdr status data data more
  | notModified (n : Nat) (more : List Byte) : transferCodings hdr = [] → contentLengths hdr ≠ [] →
      (∀ v ∈ contentLengths hdr, PlainNumber n v) → status = 304 → FramedResponse hdr status [] [] more
  | chunked (v : List Byte) (vs : List (List Byte)) (data payload more : List Byte) :
      transferCodings hdr = v :: vs → IsCoding "chunked" v → GrammarBody 0 data payload →
      FramedResponse hdr status data payload more
  | none (more : List Byte) : transferCodings hdr = [] → contentLengths hdr = [] → bodyless status = true →
      FramedResponse hdr status [] [] more
  | untilClose (data : List Byte) : transferCodings hdr = [] → contentLengths hdr = [] →
      bodyless status = false → data.length < 2 ^ 62 → FramedResponse hdr status data data []

/-- The length that a response declares. -/
def declaredLength (hdr : List MgHeader) : Int :=
  if transferCodings hdr = [] then
    match (contentLengths hdr).head? with
    | some v => (strtoll 10 v).1
    | none => -1
  else -1

/-- Where a client stands in the body of its response, when `got` has been read of it. -/
inductive ClientBody (payload more got : List Byte) (conn : Conn) : Prop where
  | framed (data : List Byte) : BodyState data payload more got conn → ClientBody payload more got conn
  | untilClose : conn.Ready → conn.isChunked = 0 → conn.contentLen < 0 → payload = got ++ conn.unread →
      conn.consumedContent = got.length → payload.length < 2 ^ 62 → ClientBody payload more got conn

theorem ClientBody.got_prefix {payload more got : List Byte} {conn : Conn} (h : ClientBody payload more got conn) :
    got <+: payload := by
  cases h with
  | framed data h => exact h.place.got_prefix
  | untilClose _ _ _ hp _ _ =>
    rw [hp]
    exact List.prefix_append got _

/-- A read of what comes until the connection is closed. -/
theorem mgRead_untilClose {conn : Conn} (len : Nat) (hready : conn.Ready) (hplain : conn.isChunked = 0) :
    ∃ bs, ReadStep conn (mgRead conn len).2 bs ∧ (mgRead conn len).1.getD [] = bs ∧
      bs = conn.unread.take (wanted conn (min len INT_MAX)) := by
  have hinner : mgRead conn len = mgReadInner conn (min len INT_MAX) := by
    rw [mgRead]
    simp [hplain]
  obtain ⟨bs, hstep, hres, -, hall⟩ := mgReadInner_spec conn (min len INT_MAX) hready.toPlaced
  rw [hinner]
  refine ⟨bs, hstep, ?_, hall hready.steady⟩
  rcases hres with hres | ⟨hres, hnil⟩
  · rw [hres, Option.getD_some]
  · rw [hres, hnil, Option.getD_none]

theorem clientBody_read {payload more got : List Byte} {conn : Conn} (len : Nat)
    (h : ClientBody payload more got conn) :
    ClientBody payload more (got ++ (mgRead conn len).1.getD []) (mgRead conn len).2 := by
  cases h with
  | framed data h => exact .framed data (mgRead_body data payload more got conn len h)
  | untilClose hready hplain hneg hp hc hlt =>
    obtain ⟨bs, hstep, hbs, -⟩ := mgRead_untilClose len hready hplain
    rw [hbs]
    refine .untilClose ⟨hstep.placed, hstep.steady hready.steady⟩ ?_ ?_ ?_ ?_ hlt
    · rw [hstep.isChunked, hplain]
    · rw [hstep.contentLen]
      exact hneg
    · rw [hp, hstep.unread, List.append_assoc]
    · rw [hstep.consumedContent, hc, List.length_append]

/-- A read that returns 0 has come to the end of the body. -/
theorem clientBody_end {payload more got : List Byte} {conn : Conn} (len : Nat) (hlen : 0 < len)
    (h : ClientBody payload more got conn) (hread : (mgRead conn len).1 = some []) : payload = got := by
  cases h with
  | framed data h => exact mgRead_end data payload more got conn len hlen h hread
  | untilClose hready hplain hneg hp hc hlt =>
    obtain ⟨bs, -, hbs, htake⟩ := mgRead_untilClose len hready hplain
    rw [hread, Option.getD_some] at hbs
    rw [← hbs] at htake
    have hgot : got.length ≤ payload.length := by
      rw [hp, List.length_append]
      omega
    have hwanted : 0 < wanted conn (min len INT_MAX) := by
      simp only [wanted, if_pos hneg, INT64_MAX, INT_MAX]
      omega
    have hempty : conn.unread = [] := by
      by_contra hne
      have hlength := congrArg List.length htake
      have hpos := List.length_pos_of_ne_nil hne
      rw [List.length_nil, List.length_take] at hlength
      omega
    rw [hp, hempty, List.append_nil]

/-- Whatever a client reads with keeps to the body. -/
theorem clientBody_handler (handler : Handler) {payload more got : List Byte} {conn : Conn}
    (h : ClientBody payload more got conn) :
    ClientBody payload more (got ++ (handler.run conn).1) (handler.run conn).2 := by
  induction handler generalizing got conn with
  | done mustClose =>
    rw [Handler.run, List.append_nil]
    cases h with
    | framed data h =>
      exact .framed data ⟨h.place.fields data payload more got conn _ conn.protocolType conn.localUri, h.steady⟩
    | untilClose hready hplain hneg hp hc hlt =>
      exact .untilClose ⟨⟨hready.head_nonneg, hready.head_le, hready.data_le⟩, hready.steady⟩ hplain hneg hp hc hlt
  | read len next ih =>
    have hnext := ih (mgRead conn len).1 (clientBody_read len h)
    rw [List.append_assoc] at hnext
    exact hnext

/-- The framing that `get_response` decides on. -/
theorem setResponseFraming_body (conn : ClientConn) (data payload more : List Byte)
    (hframed : FramedResponse conn.responseInfo.httpHeaders conn.responseInfo.statusCode data payload more)
    (hlines : ∀ x ∈ conn.responseInfo.httpHeaders, ∃ line, HeaderLine x line) (hready : conn.Ready)
    (hunread : conn.unread = data ++ more) (hplain : conn.isChunked = 0) (hzero : conn.consumedContent = 0)
    (hinfo : conn.responseInfo.contentLength = -1) :
    ∃ c, setResponseFraming conn = (none, c) ∧
      c.responseInfo = { conn.responseInfo with
        contentLength := declaredLength conn.responseInfo.httpHeaders } ∧
      ClientBody payload more [] c.toConn := by
  have hready' (n m : Int) (k : Nat) : Conn.Ready { conn.toConn with
      isChunked := k, contentLen := n, infoContentLength := m } :=
    ⟨⟨hready.head_nonneg, hready.head_le, hready.data_le⟩, hready.steady⟩
  have hbody {data payload : List Byte} {n m : Int} {k : Nat}
      (h : BodyAt data payload more [] { conn.toConn with
        isChunked := k, contentLen := n, infoContentLength := m }) :
      BodyState data payload more [] { conn.toConn with
        isChunked := k, contentLen := n, infoContentLength := m } := ⟨h, fun _ => hready.steady⟩
  have hcodes : getHeader conn.responseInfo.httpHeaders (ascii "Transfer-Encoding") =
      (transferCodings conn.responseInfo.httpHeaders).head? := getHeader_headerValues _ _
  have hlens : getHeader conn.responseInfo.httpHeaders (ascii "Content-Length") =
      (contentLengths conn.responseInfo.httpHeaders).head? := getHeader_headerValues _ _
  unfold setResponseFraming declaredLength
  rw [hcodes, hlens]
  cases hframed with
  | length data more hcodings hlengths hnumber hlt hstatus =>
    obtain ⟨v, vs, hv⟩ := List.exists_cons_of_ne_nil hlengths
    have hnum := hnumber v (by simp [hv])
    have hvalue : (strtoll 10 v).1 = data.length := by
      rw [strtoll_plain data.length v hnum]
      omega
    have hgood : ¬ ((strtoll 10 v).2 = v ∨ (strtoll 10 v).1 < 0) := by
      have hrest := strtoll_plain_rest hnum
      rw [hvalue]
      simp [hrest]
    simp only [hcodings, hv, List.head?_nil, List.head?_cons, Option.any_none, Bool.false_eq_true, if_false,
      if_true, if_neg hgood, if_neg hstatus]
    refine ⟨_, rfl, rfl, .framed data ?_⟩
    exact hbody (.plain data (hready' _ _ _).toPlaced hplain hvalue rfl hunread rfl hzero)
  | notModified n more hcodings hlengths hnumber hstatus =>
    obtain ⟨v, vs, hv⟩ := List.exists_cons_of_ne_nil hlengths
    have hnum := hnumber v (by simp [hv])
    have hgood : ¬ ((strtoll 10 v).2 = v ∨ (strtoll 10 v).1 < 0) := by
      have hrest := strtoll_plain_rest hnum
      rw [strtoll_plain n v hnum, not_or]
      exact ⟨hrest, by omega⟩
    simp only [hcodings, hv, List.head?_nil, List.head?_cons, Option.any_none, Bool.false_eq_true, if_false,
      if_true, if_neg hgood, if_pos hstatus]
    refine ⟨_, rfl, rfl, .framed [] (hbody (.plain [] (hready' _ _ _).toPlaced hplain rfl rfl hunread rfl hzero))⟩
  | chunked v vs data payload more hcodings hchunked hgrammar =>
    have hnul : NUL ∉ v := by
      apply headerValues_nul _ (ascii "Transfer-Encoding") hlines v
      rw [← transferCodings, hcodings]
      simp
    have hsame : mgStrcasecmp v (ascii "chunked") = 0 := (isCoding_iff "chunked" v hnul (by decide)).mpr hchunked
    have hother : mgStrcasecmp v (ascii "identity") ≠ 0 := by
      intro h
      have hident := (isCoding_iff "identity" v hnul (by decide)).mp h
      rw [IsCoding] at hident hchunked
      rw [hchunked] at hident
      exact absurd hident (by decide)
    have hne : ¬ v :: vs = [] := List.cons_ne_nil v vs
    simp only [hcodings, List.head?_cons, Option.any_some, bne_iff_ne, ne_eq, hother, not_false_eq_true, if_true,
      hsame, not_true_eq_false, if_false, if_neg hne]
    refine ⟨_, rfl, ?_, .framed data (hbody (.chunks 0 data payload ⟨(hready' _ _ _).toPlaced, rfl, ?_⟩
      (readBody_of_grammar 0 data payload hgrammar) hunread rfl))⟩
    · rw [← hinfo]
    · show (0 : Int) = conn.consumedContent + (0 : Nat)
      rw [hzero]
      rfl
  | none more hcodings hlengths hstatus =>
    simp only [hcodings, hlengths, List.head?_nil, Option.any_none, Bool.false_eq_true, if_false, if_true, hstatus]
    refine ⟨_, rfl, ?_,
      .framed [] (hbody (.plain [] (hready' _ conn.infoContentLength _).toPlaced hplain rfl rfl hunread rfl hzero))⟩
    rw [← hinfo]
  | untilClose data hcodings hlengths hstatus hlt =>
    simp only [hcodings, hlengths, List.head?_nil, Option.any_none, Bool.false_eq_true, if_false, if_true, hstatus]
    refine ⟨_, rfl, ?_, .untilClose (hready' _ conn.infoContentLength _) hplain (show (-1 : Int) < 0 by decide) ?_
      hzero hlt⟩
    · rw [← hinfo]
    · rw [List.append_nil] at hunread
      exact hunread.symm

/-- A response whose head is parsed is read, and its body comes next. -/
theorem mgGetResponse_parsed (client : ClientConn) {head data payload more : List Byte} {info : ResponseInfo}
    (hsock : Segmented [] (head ++ (data ++ more)) client.sock) (hne : head ≠ [])
    (hfound : headerLenFrom 0 head = head.length) (hfits : head.length ≤ client.buf.length)
    (hparse : ∀ tail len, head.length ≤ len → ∃ buf, parseHttpResponse (head ++ tail) len =
      .ok ⟨head.length, info, buf ++ tail⟩ ∧ buf.length = head.length)
    (hinfo : info.contentLength = -1) (hlines : ∀ x ∈ info.httpHeaders, ∃ line, HeaderLine x line)
    (hframed : FramedResponse info.httpHeaders info.statusCode data payload more) :
    ∃ c, mgGetResponse client = (none, c) ∧
      c.responseInfo = { info with contentLength := declaredLength info.httpHeaders } ∧
      ClientBody payload more [] c.toConn := by
  obtain ⟨conn, hconn⟩ : ∃ conn : Conn, conn = { client.toConn with dataLen := 0 } := ⟨_, rfl⟩
  obtain ⟨c, hc, hreq, hle, ⟨x, hx⟩, hstream⟩ := getMessage_head conn (data ++ more)
    (by simp [hconn]) (by rw [hconn]; exact hsock) (by simp [hconn]) hne hfound (by rw [hconn]; exact hfits)
  have hmsg := getMessage_found conn c hc
  have hdata : c.dataLen ≤ c.buf.length := hmsg.data_le (by simp [hconn])
  obtain ⟨buf, hbuf, hlength⟩ := hparse x c.buf.length (by rw [hx, List.length_append]; omega)
  have hlens : (buf ++ x).length = c.buf.length := by
    rw [hx, List.length_append, List.length_append, hlength]
  obtain ⟨c1, hc1⟩ : ∃ c1 : ClientConn, c1 = { toConn := { c with buf := buf ++ x }, responseInfo := info } := ⟨_, rfl⟩
  have hready : c1.Ready := by
    rw [hc1]
    refine ⟨⟨?_, ?_, ?_⟩, hmsg.steady ?_⟩
    · rw [hreq]
      exact Int.natCast_nonneg _
    · rw [hreq]
      exact_mod_cast hle
    · rw [hlens]
      exact hdata
    · rw [hconn]
      exact hsock.steady.1
  have hzero : c.consumedContent = 0 ∧ c.isChunked = 0 := by
    rw [hmsg.frame]
    exact ⟨rfl, rfl⟩
  have hunread : c1.unread = data ++ more := by
    have htake (h : List Byte) (hh : h.length = head.length) :
        (h ++ x).take c.dataLen = h ++ x.take (c.dataLen - head.length) := by
      rw [List.take_append, List.take_of_length_le (by omega), hh]
    have hrest : x.take (c.dataLen - head.length) ++ sockBytes c.sock = data ++ more := by
      rw [Conn.stream, hx, htake head rfl, List.append_assoc] at hstream
      exact List.append_cancel_left hstream
    rw [hc1, Conn.unread]
    simp only [hzero.1, hreq]
    rw [htake buf hlength]
    have hdrop : ((head.length : Int) + ((0 : Nat) : Int)).toNat = buf.length := by omega
    rw [hdrop, List.drop_left, hrest]
  obtain ⟨d, hd, hdinfo, hbody⟩ := setResponseFraming_body c1 data payload more (by rw [hc1]; exact hframed)
    (by rw [hc1]; exact hlines) hready hunread (by rw [hc1]; exact hzero.2) (by rw [hc1]; exact hzero.1)
    (by rw [hc1]; exact hinfo)
  refine ⟨d, ?_, by rw [hdinfo, hc1], hbody⟩
  rw [mgGetResponse, getResponse, ← hconn, hc]
  dsimp only
  rw [← hx] at hbuf
  rw [hbuf]
  dsimp only
  rw [← hc1, hd]

end CivetWeb
