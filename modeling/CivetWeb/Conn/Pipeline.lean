import CivetWeb.Conn.Arrival
import CivetWeb.Conn.Framing
import CivetWeb.Conn.Process
import CivetWeb.Http.RoundTrip

namespace CivetWeb

/-- A byte of a field line: printable, extended or a tab. -/
def fieldByte (c : Byte) : Bool := lineByte c || c == TAB

/-- A header field as a client may send it. -/
def FieldLine (h : MgHeader) (line : List Byte) : Prop :=
  HeaderLine h line ∧ ∀ a ∈ line, fieldByte a = true

/-- How the headers of a request frame its body, and the data in it: by a length, by a
transfer coding that ends with `chunked`, or there is no body. -/
inductive FramedBody (hdr : List MgHeader) : List Byte → List Byte → Prop where
  | length (body : List Byte) : transferCodings hdr = [] → contentLengths hdr ≠ [] →
      (∀ v ∈ contentLengths hdr, PlainNumber body.length v) → body.length < 2 ^ 62 →
      FramedBody hdr body body
  | chunked (v : List Byte) (vs : List (List Byte)) (body payload : List Byte) :
      transferCodings hdr = v :: vs → ¬ IsCoding "identity" v → contentLengths hdr = [] →
      GrammarBody 0 body payload → FramedBody hdr body payload
  | none : transferCodings hdr = [] → contentLengths hdr = [] → FramedBody hdr [] []

/-- A request of a client, with its header lines and its body as they are sent. -/
structure ClientRequest where
  head : RequestHead
  lines : List (List Byte)
  body : List Byte
  payload : List Byte

structure ClientRequest.WellFormed (q : ClientRequest) : Prop where
  method_ne : q.head.method ≠ []
  method_bytes : ∀ a ∈ q.head.method, isgraph a = true
  uri_ne : q.head.uri ≠ []
  uri_bytes : ∀ a ∈ q.head.uri, isgraph a = true
  version : q.head.version = ascii "1.1"
  lines : List.Forall₂ FieldLine q.head.headers q.lines
  framed : FramedBody q.head.headers q.body q.payload

def ClientRequest.headBytes (q : ClientRequest) : List Byte := renderHead .crlf q.head q.lines

def ClientRequest.bytes (q : ClientRequest) : List Byte := q.headBytes ++ q.body

def ClientRequest.info (q : ClientRequest) : RequestInfo :=
  ⟨q.head.method, q.head.uri, q.head.version, q.head.headers⟩

/-- What the server asks of a request beyond its form: a method that it knows, no tab in a header line, no coding but
`chunked`, and on a TLS connection a host of the connection's domain. -/
structure ClientRequest.Supported (q : ClientRequest) (conn : Conn) : Prop where
  method_known : q.head.method ∈ httpMethods
  no_tab : ∀ line ∈ q.lines, TAB ∉ line
  coding : ∀ v ∈ (transferCodings q.head.headers).head?, IsCoding "chunked" v
  host : (switchDomainContext { conn with requestInfo := q.info }).isSome = true

theorem fieldByte_malformed (c : Byte) (h : fieldByte c = true) :
    malformedByte c = true ∨ lineByte c = true := by
  simp only [fieldByte, Bool.or_eq_true, beq_iff_eq] at h
  rcases h with h | rfl
  · exact Or.inr h
  · exact Or.inl rfl

theorem isgraph_lineByte : ∀ a, isgraph a = true → lineByte a = true := byte_all _ (by decide +kernel)

/-- A tab ends the scan of a line, anything else it passes over. -/
theorem headerLenFrom_field (i : Nat) (w rest : List Byte) (hw : ∀ a ∈ w, fieldByte a = true) :
    headerLenFrom i (w ++ rest) = -1 ∨
      headerLenFrom i (w ++ rest) = headerLenFrom (i + w.length) rest ∧
        ∀ a ∈ w, lineByte a = true := by
  induction w generalizing i with
  | nil => exact Or.inr ⟨rfl, by simp⟩
  | cons a w ih =>
    rcases fieldByte_malformed a (hw a (by simp)) with hbad | hline
    · left
      rw [List.cons_append, headerLenFrom, if_pos hbad]
    · have hone := headerLenFrom_text i [a] (w ++ rest) (by simpa using hline)
      simp only [List.singleton_append, List.length_singleton] at hone
      rw [List.cons_append, hone]
      rcases ih (i + 1) (fun b hb => hw b (by simp [hb])) with h | ⟨h, hall⟩
      · exact Or.inl h
      · right
        refine ⟨?_, ?_⟩
        · rw [h, List.length_cons]
          congr 1
          omega
        · intro b hb
          rcases List.mem_cons.mp hb with rfl | hb
          · exact hline
          · exact hall b hb

/-- A head is found whole, or not at all because of a tab in one of its lines. -/
theorem headerLenFrom_fields (i : Nat) (line : List Byte) (lines : List (List Byte))
    (hline : ∀ a ∈ line, lineByte a = true)
    (hlines : ∀ l ∈ lines, (∃ a t, l = a :: t ∧ lineByte a = true) ∧ ∀ a ∈ l, fieldByte a = true) :
    headerLenFrom i (line ++ (CRLF ++ lines.flatMap (· ++ CRLF) ++ CRLF)) = -1 ∨
      ∀ l ∈ lines, ∀ a ∈ l, lineByte a = true := by
  induction lines generalizing i line with
  | nil => exact Or.inr (by simp)
  | cons l lines ih =>
    obtain ⟨⟨a, t, hl, ha⟩, hfield⟩ := hlines l (by simp)
    have hshape : CRLF ++ (l :: lines).flatMap (· ++ CRLF) ++ CRLF =
        LineEnd.crlf.bytes ++ (l ++ (CRLF ++ lines.flatMap (· ++ CRLF) ++ CRLF)) := by
      simp [LineEnd.bytes, CRLF]
    have hstart : lineByte (deref (l ++ (CRLF ++ lines.flatMap (· ++ CRLF) ++ CRLF))) = true := by
      rw [hl]
      exact ha
    rw [hshape, headerLenFrom_text i line _ hline, headerLenFrom_eol _ .crlf _ hstart]
    rcases headerLenFrom_field (i + line.length + LineEnd.crlf.bytes.length) l
      (CRLF ++ lines.flatMap (· ++ CRLF) ++ CRLF) hfield with h | ⟨-, hall⟩
    · exact Or.inl h
    · rcases ih (i + line.length + LineEnd.crlf.bytes.length) l hall
        (fun m hm => hlines m (by simp [hm])) with h | hrest
      · exact Or.inl h
      · right
        intro m hm
        rcases List.mem_cons.mp hm with rfl | hm
        · exact hall
        · exact hrest m hm

theorem fieldLines_start (hs : List MgHeader) (lines : List (List Byte))
    (h : List.Forall₂ FieldLine hs lines) :
    ∀ l ∈ lines, (∃ a t, l = a :: t ∧ lineByte a = true) ∧ ∀ a ∈ l, fieldByte a = true := by
  induction h with
  | nil => simp
  | @cons x line hs lines hline _ ih =>
    intro l hmem
    rcases List.mem_cons.mp hmem with rfl | hmem
    · refine ⟨?_, hline.2⟩
      have hname := hline.1.deref_nameByte x l []
      cases l with
      | nil => exact absurd hname (by decide)
      | cons a t => exact ⟨a, t, rfl, isgraph_lineByte a (nameByte_isgraph a (by simpa using hname))⟩
    · exact ih l hmem

theorem plainLines_of_fields (hs : List MgHeader) (lines : List (List Byte))
    (h : List.Forall₂ FieldLine hs lines) (hplain : ∀ l ∈ lines, ∀ a ∈ l, lineByte a = true) :
    List.Forall₂ PlainLine hs lines := by
  induction h with
  | nil => exact List.Forall₂.nil
  | @cons x line hs lines hline _ ih =>
    refine List.Forall₂.cons ⟨hline.1, ?_⟩ (ih (fun l hl => hplain l (by simp [hl])))
    intro a ha
    exact (lineByte_iff a).mp (hplain line (by simp) a ha)

theorem requestLine_plain (q : ClientRequest) (hq : q.WellFormed) :
    ∀ a ∈ q.head.method ++ SP :: (q.head.uri ++ SP :: (ascii "HTTP/" ++ q.head.version)),
      lineByte a = true := by
  have hhttp : ∀ a ∈ ascii "HTTP/" ++ ascii "1.1", lineByte a = true := by decide
  intro a ha
  rw [hq.version] at ha
  simp only [List.mem_append, List.mem_cons] at ha
  rcases ha with ha | rfl | ha | rfl | ha
  · exact isgraph_lineByte a (hq.method_bytes a ha)
  · rfl
  · exact isgraph_lineByte a (hq.uri_bytes a ha)
  · rfl
  · exact hhttp a (List.mem_append.mpr ha)

theorem headBytes_shape (q : ClientRequest) : q.headBytes =
    (q.head.method ++ SP :: (q.head.uri ++ SP :: (ascii "HTTP/" ++ q.head.version))) ++
      (CRLF ++ q.lines.flatMap (· ++ CRLF) ++ CRLF) := by
  simp [ClientRequest.headBytes, renderHead, LineEnd.bytes, CRLF]

/-- A head of plain lines is found whole. -/
theorem headBytes_whole (q : ClientRequest) (hq : q.WellFormed)
    (hplain : List.Forall₂ PlainLine q.head.headers q.lines) : headerLenFrom 0 q.headBytes = q.headBytes.length := by
  have hwhole := headerLenFrom_lines 0 .crlf _ q.lines (requestLine_plain q hq) (plainLines_bytes _ _ hplain)
  rw [show LineEnd.crlf.bytes = CRLF from rfl, ← headBytes_shape q] at hwhole
  rw [hwhole]
  simp

theorem headBytes_ne (q : ClientRequest) : q.headBytes ≠ [] := by
  rw [headBytes_shape]
  simp

/-- A head of a client that is found is found whole, and it has no tab in it. -/
theorem headBytes_found (q : ClientRequest) (hq : q.WellFormed) (more : List Byte)
    (h : 0 < headerLenFrom 0 (q.headBytes ++ more)) :
    List.Forall₂ PlainLine q.head.headers q.lines ∧
      headerLenFrom 0 (q.headBytes ++ more) = q.headBytes.length := by
  have hplain : List.Forall₂ PlainLine q.head.headers q.lines := by
    apply plainLines_of_fields _ _ hq.lines
    rcases headerLenFrom_fields 0 _ q.lines (requestLine_plain q hq) (fieldLines_start _ _ hq.lines) with
      hbad | hgood
    · rw [← headBytes_shape q] at hbad
      rw [headerLenFrom_append 0 _ more (by omega)] at h
      omega
    · exact hgood
  have hwhole := headBytes_whole q hq hplain
  have hpos := List.length_pos_of_ne_nil (headBytes_ne q)
  refine ⟨hplain, ?_⟩
  rw [headerLenFrom_append 0 _ more (by omega), hwhole]

theorem plainLines_of_no_tab (q : ClientRequest) (hq : q.WellFormed) (htab : ∀ line ∈ q.lines, TAB ∉ line) :
    List.Forall₂ PlainLine q.head.headers q.lines := by
  refine plainLines_of_fields _ _ hq.lines fun line hline a ha => ?_
  have hfield := (fieldLines_start _ _ hq.lines line hline).2 a ha
  simp only [fieldByte, Bool.or_eq_true, beq_iff_eq] at hfield
  exact hfield.resolve_right fun htabbed => htab line hline (htabbed ▸ ha)

/-- The method that was parsed is the first word of the buffer. -/
theorem parsed_method (buf : List Byte) (len : Nat) (r : ParsedRequest)
    (h : parseHttpRequest buf len = .ok r) (hstart : isspace (deref buf) = false) :
    buf.takeWhile wordByte = r.info.requestMethod ∧ r.info.requestMethod ∈ httpMethods := by
  obtain ⟨ws, pre, rest, text, hbuf, hws, -, -, -, -, -, -, htext, -⟩ := parseHttpRequest_ok _ _ r h
  obtain ⟨ws1, ws2, version, b, ws3, next, hpre, hmethod, -, -, -, -, -, -, hknown, -⟩ :=
    parseRequestText_some pre rest text r.info htext
  refine ⟨?_, hknown⟩
  cases ws with
  | cons c ws =>
    have hc := hws c (by simp)
    rw [hbuf] at hstart
    simp only [List.cons_append, deref_cons, hc] at hstart
    cases hstart
  | nil =>
    have hshape : buf = r.info.requestMethod ++ SP :: (ws1 ++ (r.info.requestUri ++ SP ::
        (ws2 ++ (version ++ b :: (ws3 ++ next)))) ++ [LF] ++ rest) := by
      rw [hbuf, hpre]
      simp
    rw [hshape]
    exact Scan.takeWhile_stop _ _ _ _ hmethod rfl

/-- The framing that `get_request` decides on is the one of the client's headers. -/
theorem setBodyFraming_body (conn c : Conn) (body payload more : List Byte)
    (hframed : FramedBody conn.requestInfo.httpHeaders body payload)
    (hlines : ∀ x ∈ conn.requestInfo.httpHeaders, ∃ line, HeaderLine x line)
    (hplaced : conn.Placed) (hunread : conn.unread = body ++ more) (hplain : conn.isChunked = 0)
    (hzero : conn.consumedContent = 0) (h : setBodyFraming conn = (none, c)) :
    BodyAt body payload more [] c := by
  have hcases := setBodyFraming_none conn c h
  dsimp only at hcases
  have hplaced' (n m : Int) (k : Nat) : Conn.Placed { conn with
      isChunked := k, contentLen := n, infoContentLength := m } :=
    ⟨hplaced.head_nonneg, hplaced.head_le, hplaced.data_le⟩
  rw [getHeader_headerValues, getHeader_headerValues] at hcases
  cases hframed with
  | length body hcodings hlengths hnumber hlt =>
    rw [transferCodings] at hcodings
    rw [contentLengths] at hlengths hnumber
    rcases hcases with ⟨v, hv, -⟩ | ⟨-, ⟨v, hv, -, -, rfl⟩ | ⟨hnone, -⟩⟩
    · rw [hcodings] at hv
      cases hv
    · have hvalue := strtoll_plain body.length v (hnumber v (List.mem_of_head? hv))
      refine BodyAt.plain body (hplaced' _ _ _) hplain ?_ rfl hunread rfl hzero
      dsimp only
      omega
    · exact absurd (List.head?_eq_none_iff.mp hnone) hlengths
  | none hcodings hlengths =>
    rw [transferCodings] at hcodings
    rw [contentLengths] at hlengths
    rcases hcases with ⟨v, hv, -⟩ | ⟨-, ⟨v, hv, -⟩ | ⟨-, rfl⟩⟩
    · rw [hcodings] at hv
      cases hv
    · rw [hlengths] at hv
      cases hv
    · exact BodyAt.plain [] (hplaced' _ _ _) hplain rfl rfl hunread rfl hzero
  | chunked v vs body payload hcodings hident hlengths hbody =>
    have hnul : NUL ∉ v := by
      apply headerValues_nul _ (ascii "Transfer-Encoding") hlines v
      rw [← transferCodings, hcodings]
      simp
    rw [transferCodings] at hcodings
    rcases hcases with ⟨w, -, -, -, -, rfl⟩ | ⟨hall, -⟩
    · refine BodyAt.chunks 0 body payload ⟨hplaced' _ _ _, rfl, ?_⟩
        (readBody_of_grammar 0 body payload hbody) hunread rfl
      dsimp only
      rw [hzero]
      rfl
    · have hsame := hall v (by rw [hcodings]; rfl)
      exact absurd ((isCoding_iff "identity" v hnul (by decide)).mp hsame) hident

/-- The head of a request that `get_message` has read stands at the front of the buffer. -/
theorem getMessage_client (conn c1 : Conn) (q : ClientRequest) (more : List Byte)
    (hstream : conn.stream = q.bytes ++ more) (h : getMessage conn = (none, c1))
    (hlen : c1.requestLen = q.headBytes.length) :
    ∃ x, c1.buf.take c1.dataLen = q.headBytes ++ x := by
  have hmsg := getMessage_found conn c1 h
  have hmax := headerLenFrom_le 0 (c1.buf.take c1.dataLen)
  have hfound := hmsg.found
  rw [getHttpHeaderLen] at hfound
  have hpre : q.headBytes <+: c1.buf.take c1.dataLen := by
    refine List.prefix_of_prefix_length_le ⟨q.body ++ more, ?_⟩ (List.prefix_append _ (sockBytes c1.sock)) (by omega)
    have hwhole := hmsg.stream.trans hstream
    rw [Conn.stream, ClientRequest.bytes, List.append_assoc] at hwhole
    exact hwhole.symm
  obtain ⟨x, hx⟩ := hpre
  exact ⟨x, hx.symm⟩

/-- The head of a client's request is parsed back. -/
theorem parseHttpRequest_client (q : ClientRequest) (hq : q.WellFormed)
    (hplain : List.Forall₂ PlainLine q.head.headers q.lines) (hknown : q.head.method ∈ httpMethods)
    (hcount : q.head.headers.length ≤ mgMaxHeaders) (tail : List Byte) :
    ∃ buf, parseHttpRequest (q.headBytes ++ tail) (q.headBytes ++ tail).length =
      .ok ⟨q.headBytes.length, q.info, buf⟩ := by
  have hgraph : ∀ a, isgraph a = true → a ≠ SP ∧ iscntrl a = false := byte_all _ (by decide +kernel)
  refine parseHttpRequest_render .crlf q.head ⟨hknown, ?_, fun a ha => hgraph a (hq.uri_bytes a ha), ?_, hcount⟩
    q.lines hplain tail
  · obtain ⟨u, us, hu⟩ := List.exists_cons_of_ne_nil hq.uri_ne
    rw [hu]
    exact hq.uri_bytes u (by simp [hu])
  · rw [hq.version]
    decide

/-- What a turn keeps of a connection: the room in its buffer, and what its domain is looked for by. -/
structure SameSettings (conn c : Conn) : Prop where
  room : c.buf.length = conn.buf.length
  ssl : c.ssl = conn.ssl
  domains : c.domains = conn.domains
  domCtx : conn.ssl = true → c.domCtx = conn.domCtx

theorem SameSettings.refl (conn : Conn) : SameSettings conn conn := ⟨rfl, rfl, rfl, fun _ => rfl⟩

theorem SameSettings.trans {c1 c2 c3 : Conn} (h : SameSettings c1 c2) (h' : SameSettings c2 c3) : SameSettings c1 c3 :=
  ⟨h'.room.trans h.room, h'.ssl.trans h.ssl, h'.domains.trans h.domains,
    fun hs => (h'.domCtx (h.ssl.trans hs)).trans (h.domCtx hs)⟩

theorem ClientRequest.Supported.same {q : ClientRequest} {conn c : Conn} (h : q.Supported conn)
    (hsame : SameSettings conn c) : q.Supported c := by
  refine ⟨h.method_known, h.no_tab, h.coding, ?_⟩
  rw [← h.host]
  exact switchDomainContext_isSome _ _ rfl hsame.ssl hsame.domains hsame.domCtx

/-- A request that was read off the front of the stream: it is the one that was sent, and its body comes next. -/
structure RequestTaken (conn c : Conn) (q : ClientRequest) (more : List Byte) : Prop where
  info : c.requestInfo = q.info
  unread : c.unread = q.body ++ more
  body : BodyAt q.body q.payload more [] c
  same : SameSettings conn c

theorem getRequest_client (conn c : Conn) (q : ClientRequest) (more : List Byte)
    (hq : q.WellFormed) (hcount : q.head.headers.length ≤ mgMaxHeaders)
    (hle : conn.dataLen ≤ conn.buf.length) (hstream : conn.stream = q.bytes ++ more)
    (h : getRequest conn = (none, c)) : RequestTaken conn c q more := by
  obtain ⟨c1, r, hread⟩ := getRequest_read conn c h
  have hinfo : c.requestInfo = r.info := by rw [hread.frame]
  have hmsg := getMessage_found conn c1 hread.message
  -- the stream starts with the method, so nothing is skipped in front of it
  obtain ⟨m, ms, hm⟩ := List.exists_cons_of_ne_nil hq.method_ne
  have hmg : isgraph m = true := hq.method_bytes m (by simp [hm])
  have hmspace := isgraph_not_isspace m hmg
  have hhead : q.headBytes = m :: (ms ++ SP :: (q.head.uri ++ SP :: (ascii "HTTP/" ++
      q.head.version ++ (CRLF ++ q.lines.flatMap (· ++ CRLF) ++ CRLF)))) := by
    simp [ClientRequest.headBytes, renderHead, hm, LineEnd.bytes, CRLF]
  have hblank : ¬ LeadingBlankLine conn.stream := by
    rw [LeadingBlankLine, hstream, ClientRequest.bytes, hhead, List.cons_append, List.cons_append,
      List.takeWhile_cons_of_neg (by simp [hmspace])]
    simp [HasBlankLine]
  have hmeasured := hread.measured.mpr hblank
  -- the head that was found is all of the client's head
  have hk : headerLenFrom 0 (c1.buf.take c1.dataLen) = c1.requestLen := by
    rw [hmsg.found, getHttpHeaderLen]
  have hpos := hmsg.pos
  have hwhole : c1.buf.take c1.dataLen ++ sockBytes c1.sock = q.headBytes ++ (q.body ++ more) := by
    rw [← List.append_assoc]
    exact hmsg.stream.trans hstream
  have hscan : headerLenFrom 0 (q.headBytes ++ (q.body ++ more)) = c1.requestLen := by
    rw [← hwhole, headerLenFrom_append 0 _ _ (by omega), hk]
  obtain ⟨hplain, hfound⟩ := headBytes_found q hq (q.body ++ more) (by omega)
  obtain ⟨x, hx⟩ := getMessage_client conn c1 q more hstream hread.message (by omega)
  have hbufhead : c1.buf = q.headBytes ++ (x ++ c1.buf.drop c1.dataLen) := by
    rw [← List.append_assoc, ← hx, List.take_append_drop]
  -- so it is parsed back
  have hmethod := parsed_method _ _ r hread.parsed (by rw [hbufhead, hhead]; exact hmspace)
  have hknown : q.head.method ∈ httpMethods := by
    have hrun : ∀ a ∈ q.head.method, wordByte a = true := by
      intro a ha
      simp [wordByte, hq.method_bytes a ha]
    have hfirst : c1.buf.takeWhile wordByte = q.head.method := by
      rw [hbufhead, ClientRequest.headBytes, renderHead, List.append_assoc, List.cons_append]
      exact Scan.takeWhile_stop _ _ _ _ hrun rfl
    rw [← hfirst, hmethod.1]
    exact hmethod.2
  obtain ⟨buf, hparse⟩ := parseHttpRequest_client q hq hplain hknown hcount (x ++ c1.buf.drop c1.dataLen)
  have hr : r = ⟨q.headBytes.length, q.info, buf⟩ := by
    have hp := hread.parsed
    rw [hbufhead, hparse] at hp
    exact (Except.ok.inj hp).symm
  have hrinfo : r.info = q.info := by rw [hr]
  have hrlen : r.length = q.headBytes.length := by rw [hr]
  have hrecvlen : r.length ≤ (c1.buf.take c1.dataLen).length := by
    rw [hrlen, hx, List.length_append]
    omega
  obtain ⟨-, -, hrbuf⟩ := parseHttpRequest_received (c1.buf.take c1.dataLen) (c1.buf.drop c1.dataLen) r
    (by rw [List.take_append_drop]; exact hread.parsed) hrecvlen
  rw [List.take_append_drop] at hrbuf
  have hdata := hmsg.data_le hle
  have hplaced : c.Placed := by
    refine ⟨?_, hmeasured.requestLen_le, ?_⟩
    · rw [hmeasured.requestLen]
      omega
    · rw [hread.frame]
      show c1.dataLen ≤ r.buf.length
      omega
  have hunread : c.unread = q.body ++ more := by
    rw [hmeasured.unread, hmsg.stream, hstream, hrlen, ClientRequest.bytes, List.append_assoc,
      List.drop_left]
  refine ⟨hinfo.trans hrinfo, hunread, ?_, ?_⟩
  · obtain ⟨i, hframing⟩ := hread.framing
    obtain ⟨c0, hc0⟩ : ∃ c0, c0 = { c1 with requestInfo := r.info, buf := r.buf, domCtx := i } :=
      ⟨_, rfl⟩
    rw [← hc0] at hframing
    have hframe := setBodyFraming_frame c0 c hframing
    apply setBodyFraming_body c0 c q.body q.payload more _ _ _ _ _ _ hframing
    · rw [hc0]
      show FramedBody r.info.httpHeaders q.body q.payload
      rw [hrinfo]
      exact hq.framed
    · rw [hc0]
      exact parsed_headerLine _ _ r hread.parsed
    · rw [hframe] at hplaced
      exact ⟨hplaced.head_nonneg, hplaced.head_le, hplaced.data_le⟩
    · rw [hframe] at hunread
      exact hunread
    · rw [hc0]
      show c1.isChunked = 0
      rw [hmsg.frame]
      rfl
    · rw [hc0]
      show c1.consumedContent = 0
      rw [hmsg.frame]
      rfl
  · have hssl : c1.ssl = conn.ssl := by
      rw [hmsg.frame]
      rfl
    refine ⟨?_, ?_, ?_, fun hs => ?_⟩
    · rw [hread.frame]
      exact hrbuf.trans hmsg.length
    · rw [hread.frame]
      exact hssl
    · rw [hread.frame, hmsg.frame]
      rfl
    · rw [hread.host (hssl.trans hs), hmsg.frame]
      rfl

theorem strtoll_plain_rest {n : Nat} {value : List Byte} (h : PlainNumber n value) : (strtoll 10 value).2 ≠ value := by
  obtain ⟨before, digits, after, rfl, hblank, hne, hdigits, rfl⟩ := h
  rw [strtoll, strtol_plain before digits after hblank hne hdigits]
  intro hsame
  have hlength := congrArg List.length hsame
  have hpos := List.length_pos_of_ne_nil hne
  simp only [List.length_append] at hlength
  omega

/-- The framing of a client is accepted. -/
theorem setBodyFraming_client (conn : Conn) (body payload : List Byte)
    (hframed : FramedBody conn.requestInfo.httpHeaders body payload)
    (hlines : ∀ x ∈ conn.requestInfo.httpHeaders, ∃ line, HeaderLine x line)
    (hcoding : ∀ v ∈ (transferCodings conn.requestInfo.httpHeaders).head?, IsCoding "chunked" v) :
    ∃ c, setBodyFraming conn = (none, c) := by
  have hcodes : getHeader conn.requestInfo.httpHeaders (ascii "Transfer-Encoding") =
      (transferCodings conn.requestInfo.httpHeaders).head? := getHeader_headerValues _ _
  have hlens : getHeader conn.requestInfo.httpHeaders (ascii "Content-Length") =
      (contentLengths conn.requestInfo.httpHeaders).head? := getHeader_headerValues _ _
  unfold setBodyFraming
  rw [hcodes, hlens]
  cases hframed with
  | length body hcodings hlengths hnumber hlt =>
    obtain ⟨v, vs, hv⟩ := List.exists_cons_of_ne_nil hlengths
    have hnum := hnumber v (by simp [hv])
    have hgood : ¬ ((strtoll 10 v).2 = v ∨ (strtoll 10 v).1 < 0) := by
      have hrest := strtoll_plain_rest hnum
      rw [strtoll_plain body.length v hnum, not_or]
      exact ⟨hrest, by omega⟩
    simp only [hcodings, hv, List.head?_nil, List.head?_cons, Option.any_none, Bool.false_eq_true, if_false,
      if_neg hgood]
    exact ⟨_, rfl⟩
  | none hcodings hlengths =>
    simp only [hcodings, hlengths, List.head?_nil, Option.any_none, Bool.false_eq_true, if_false]
    exact ⟨_, rfl⟩
  | chunked v vs body payload hcodings hident hlengths hbody =>
    have hnul : NUL ∉ v := by
      apply headerValues_nul _ (ascii "Transfer-Encoding") hlines v
      rw [← transferCodings, hcodings]
      simp
    have hsame := (isCoding_iff "chunked" v hnul (by decide)).mpr (hcoding v (by rw [hcodings]; rfl))
    have hother : mgStrcasecmp v (ascii "identity") ≠ 0 :=
      fun h => hident ((isCoding_iff "identity" v hnul (by decide)).mp h)
    simp only [hcodings, hlengths, List.head?_nil, List.head?_cons, Option.any_some, bne_iff_ne, ne_eq, hother,
      not_false_eq_true, if_true, hsame, Option.isSome_none, bne_self_eq_false, Bool.or_self, Bool.false_eq_true,
      if_false]
    exact ⟨_, rfl⟩

/-- A request that is supported is read where its head arrives and fits the buffer. -/
theorem getRequest_arrived (conn : Conn) (q : ClientRequest) (more : List Byte) (hq : q.WellFormed)
    (hcount : q.head.headers.length ≤ mgMaxHeaders) (hsup : q.Supported conn)
    (hfits : q.headBytes.length ≤ conn.buf.length)
    (hle : conn.dataLen ≤ conn.buf.length) (hstream : conn.stream = q.bytes ++ more)
    (hpre : q.headBytes <+: conn.arrived) : ∃ c, getRequest conn = (none, c) := by
  have hplain := plainLines_of_no_tab q hq hsup.no_tab
  obtain ⟨c1, hmessage, hlen⟩ := getMessage_arrived conn q.headBytes (headBytes_ne q) (headBytes_whole q hq hplain)
    hle hfits hpre
  have hmsg := getMessage_found conn c1 hmessage
  obtain ⟨x, hx⟩ := getMessage_client conn c1 q more hstream hmessage hlen
  obtain ⟨buf, hparse⟩ := parseHttpRequest_client q hq hplain hsup.method_known hcount
    (x ++ c1.buf.drop c1.dataLen)
  rw [← List.append_assoc, ← hx, List.take_append_drop] at hparse
  obtain ⟨c2, hswitch⟩ : ∃ c2, switchDomainContext { c1 with requestInfo := q.info, buf := buf } = some c2 := by
    rw [← Option.isSome_iff_exists, ← hsup.host]
    refine switchDomainContext_isSome _ _ rfl ?_ ?_ fun _ => ?_
    · show c1.ssl = conn.ssl
      rw [hmsg.frame]
      rfl
    · show c1.domains = conn.domains
      rw [hmsg.frame]
      rfl
    · show c1.domCtx = conn.domCtx
      rw [hmsg.frame]
      rfl
  have hinfo : c2.requestInfo = q.info := by rw [switchDomainContext_some _ c2 hswitch]
  have hlines : ∀ x ∈ c2.requestInfo.httpHeaders, ∃ line, HeaderLine x line := by
    rw [hinfo]
    exact parsed_headerLine _ _ _ hparse
  obtain ⟨c, hframing⟩ := setBodyFraming_client c2 q.body q.payload (by rw [hinfo]; exact hq.framed) hlines
    (by rw [hinfo]; exact hsup.coding)
  refine ⟨c, ?_⟩
  rw [getRequest, hmessage]
  dsimp only
  rw [hparse]
  dsimp only
  rw [hswitch]
  exact hframing

/-- A request was served as the client sent it, and its handler got bytes of its body. -/
structure Serves (served : Served) (q : ClientRequest) : Prop where
  info : served.info = q.info
  data : served.data <+: q.payload

/-- A turn reads the next request of the stream, or closes the connection; when it goes on,
the request after it is next. -/
theorem processTurn_serves (handler : Conn → Handler) (conn : Conn) (q : ClientRequest)
    (more : List Byte) (hq : q.WellFormed) (hcount : q.head.headers.length ≤ mgMaxHeaders)
    (hle : conn.dataLen ≤ conn.buf.length) (hstream : conn.stream = q.bytes ++ more)
    (hplain : ∀ c ∈ serveRequestFetches handler conn, ¬ PausedExtension c.wire) :
    (∀ served ∈ (processTurn handler conn).served, Serves served q) ∧
      ((processTurn handler conn).again = true →
        (processTurn handler conn).served.isSome = true ∧
        (processTurn handler conn).conn.stream = more ∧
        (processTurn handler conn).conn.dataLen ≤ (processTurn handler conn).conn.buf.length ∧
        SameSettings conn (processTurn handler conn).conn) := by
  cases hreq : getRequest conn with
  | mk e c =>
    cases e with
    | some e =>
      obtain ⟨hnone, hstop⟩ := processTurn_error handler conn c e hreq
      rw [hnone, hstop]
      refine ⟨?_, ?_⟩
      · intro served hmem
        cases hmem
      · intro hno
        cases hno
    | none =>
      obtain ⟨hinfo, -, hbody, hsame⟩ := getRequest_client conn c q more hq hcount hle hstream hreq
      obtain ⟨run, p, uri, c', hc', hserve, hfetches⟩ := serveRequest_handled handler conn c hreq
      have hstart := hbody.fields _ _ _ _ c c.mustClose p uri
      rw [← hc'] at hstart
      rw [hfetches] at hplain
      have hend := handler_at run q.body q.payload more [] c' hstart hplain
      obtain ⟨c2, hframe, hc2⟩ := handler_frame run c'
      generalize run.run c' = res at hserve hend hc2
      obtain ⟨data, c3⟩ := res
      rw [List.nil_append] at hend
      dsimp only at hserve hend hc2
      have hserves : Serves ⟨c.requestInfo, data⟩ q :=
        ⟨hinfo, hend.got_prefix q.body q.payload more data c3⟩
      have hsame3 : SameSettings conn c3 := by
        refine hsame.trans ⟨?_, ?_, ?_, fun _ => ?_⟩ <;> rw [hc2, hframe.frame, hc']
      by_cases hkeep : keepAlive c3 = true
      · obtain ⟨hrest, hfit, hroom⟩ := discardRequest_rest _ _ _ _ c3 hend hkeep
        have hnot : ¬ (discardRequest c3).buf.length < (discardRequest c3).dataLen := by omega
        simp only [processTurn, hserve, hkeep, if_true, hnot, if_false]
        refine ⟨?_, fun _ => ⟨rfl, hrest, hfit, hsame3.trans ⟨hroom, rfl, rfl, fun _ => rfl⟩⟩⟩
        intro served hmem
        rw [← Option.mem_some.mp hmem]
        exact hserves
      · simp only [processTurn, hserve, hkeep, Bool.false_eq_true, if_false]
        split_ifs
        · refine ⟨?_, fun hno => by cases hno⟩
          intro served hmem
          rw [← Option.mem_some.mp hmem]
          exact hserves
        · refine ⟨?_, fun hno => by cases hno⟩
          intro served hmem
          rw [← Option.mem_some.mp hmem]
          exact hserves

/-- With nothing left to read there is no request. -/
theorem getRequest_empty (conn c : Conn) (e : Option RequestError) (hstream : conn.stream = [])
    (h : getRequest conn = (e, c)) : e.isSome = true := by
  cases e with
  | some e => rfl
  | none =>
    obtain ⟨c1, r, hread⟩ := getRequest_read conn c h
    have hmsg := getMessage_found conn c1 hread.message
    have hnil : c1.buf.take c1.dataLen = [] := by
      have := hmsg.stream.trans hstream
      rw [Conn.stream, List.append_eq_nil_iff] at this
      exact this.1
    have hpos := hmsg.pos
    rw [hmsg.found, getHttpHeaderLen, hnil] at hpos
    exact absurd hpos (by decide)

/-- A turn of `process_new_connection` where the requests `qs` are next in the stream of the connection `start`:
`get_request` parses exactly the first of them, with its body next, or the connection is closed with nothing served, and
then the head of that request did not arrive or the server does not support it. -/
inductive TurnServes (handler : Conn → Handler) (start conn : Conn) : List ClientRequest → Prop where
  | parsed (q : ClientRequest) (qs : List ClientRequest) (c : Conn) :
      conn.stream = (q :: qs).flatMap ClientRequest.bytes → getRequest conn = (none, c) → c.requestInfo = q.info →
      c.unread = q.body ++ qs.flatMap ClientRequest.bytes → TurnServes handler start conn (q :: qs)
  | closed (qs : List ClientRequest) : conn.stream = qs.flatMap ClientRequest.bytes →
      (∀ q ∈ qs.head?, q.Supported start → ¬ q.headBytes <+: conn.arrived) →
      (processTurn handler conn).served = none → (processTurn handler conn).again = false →
      TurnServes handler start conn qs

theorem turnServes (handler : Conn → Handler) (start conn : Conn) (hstart : SameSettings start conn)
    (qs : List ClientRequest) (hqs : ∀ q ∈ qs, q.WellFormed) (hcount : ∀ q ∈ qs, q.head.headers.length ≤ mgMaxHeaders)
    (hfits : ∀ q ∈ qs, q.headBytes.length ≤ start.buf.length) (hle : conn.dataLen ≤ conn.buf.length)
    (hstream : conn.stream = qs.flatMap ClientRequest.bytes) : TurnServes handler start conn qs := by
  cases hreq : getRequest conn with
  | mk e c =>
    cases e with
    | some e =>
      obtain ⟨hnone, hstop⟩ := processTurn_error handler conn c e hreq
      refine .closed qs hstream (fun q hq hsup hpre => ?_) hnone hstop
      obtain ⟨more, rfl⟩ := List.head?_eq_some_iff.mp hq
      obtain ⟨c', hc'⟩ := getRequest_arrived conn q (more.flatMap ClientRequest.bytes) (hqs q (by simp))
        (hcount q (by simp)) (hsup.same hstart) ((hfits q (by simp)).trans hstart.room.ge) hle hstream hpre
      rw [hreq] at hc'
      cases hc'
    | none =>
      cases qs with
      | nil =>
        have hno := getRequest_empty conn c none hstream hreq
        cases hno
      | cons q qs =>
        have htaken := getRequest_client conn c q (qs.flatMap ClientRequest.bytes) (hqs q (by simp))
          (hcount q (by simp)) hle hstream hreq
        exact .parsed q qs c hstream hreq htaken.info htaken.unread

theorem processLoop_serves (handler : Conn → Handler) (n : Nat) (start conn : Conn) (hstart : SameSettings start conn)
    (qs : List ClientRequest) (hqs : ∀ q ∈ qs, q.WellFormed) (hcount : ∀ q ∈ qs, q.head.headers.length ≤ mgMaxHeaders)
    (hfits : ∀ q ∈ qs, q.headBytes.length ≤ start.buf.length) (hle : conn.dataLen ≤ conn.buf.length)
    (hstream : conn.stream = qs.flatMap ClientRequest.bytes)
    (hplain : ∀ c ∈ (processLoopTurns handler n conn).flatMap (serveRequestFetches handler), ¬ PausedExtension c.wire) :
    (∃ k, List.Forall₂ Serves (processLoop handler n conn).1 (qs.take k)) ∧
      ∀ i c, (processLoopTurns handler n conn)[i]? = some c → TurnServes handler start c (qs.drop i) := by
  induction n generalizing conn qs with
  | zero => exact ⟨⟨0, by rw [List.take_zero]; exact List.Forall₂.nil⟩, fun i c hc => by cases hc⟩
  | succ n ih =>
    have hturn := turnServes handler start conn hstart qs hqs hcount hfits hle hstream
    rw [processLoopTurns, List.flatMap_cons] at hplain
    -- the turns behind this one, where there are any
    have hlater (hstop : (processTurn handler conn).again = false) :
        ∀ i c, (processLoopTurns handler (n + 1) conn)[i]? = some c → TurnServes handler start c (qs.drop i) := by
      intro i c hc
      rw [processLoopTurns, hstop] at hc
      cases i with
      | zero =>
        rw [← Option.some.inj hc]
        exact hturn
      | succ i => cases hc
    cases qs with
    | nil =>
      obtain ⟨e, he⟩ : ∃ e, (getRequest conn).1 = some e := by
        have := getRequest_empty conn _ _ hstream (Prod.eta (getRequest conn)).symm
        exact Option.isSome_iff_exists.mp this
      obtain ⟨hnone, hstop⟩ := processTurn_error handler conn _ e (Prod.ext he rfl)
      refine ⟨⟨0, ?_⟩, hlater hstop⟩
      unfold processLoop
      simp only [hnone, hstop, Bool.false_eq_true, if_false]
      exact List.Forall₂.nil
    | cons q qs =>
      obtain ⟨hserved, hnext⟩ := processTurn_serves handler conn q (qs.flatMap ClientRequest.bytes)
        (hqs q (by simp)) (hcount q (by simp)) hle hstream fun c hc => hplain c (List.mem_append_left _ hc)
      have hfirst : ∃ k, List.Forall₂ Serves (processTurn handler conn).served.toList ((q :: qs).take k) := by
        cases hs : (processTurn handler conn).served with
        | none => exact ⟨0, List.Forall₂.nil⟩
        | some served => exact ⟨1, List.Forall₂.cons (hserved served hs) List.Forall₂.nil⟩
      cases hagain : (processTurn handler conn).again with
      | false =>
        refine ⟨?_, hlater hagain⟩
        unfold processLoop
        simp only [hagain, Bool.false_eq_true, if_false]
        exact hfirst
      | true =>
        obtain ⟨hsome, hrest, hfit, hsame⟩ := hnext hagain
        obtain ⟨served, hs⟩ := Option.isSome_iff_exists.mp hsome
        rw [hagain, if_pos rfl] at hplain
        obtain ⟨⟨k, hk⟩, hturns⟩ := ih (processTurn handler conn).conn (hstart.trans hsame) qs
          (fun q' h => hqs q' (by simp [h])) (fun q' h => hcount q' (by simp [h]))
          (fun q' h => hfits q' (by simp [h])) hfit hrest
          fun c hc => hplain c (List.mem_append_right _ hc)
        refine ⟨⟨k + 1, ?_⟩, fun i c hc => ?_⟩
        · unfold processLoop
          simp only [hagain, if_true, hs]
          exact List.Forall₂.cons (hserved served hs) hk
        · rw [processLoopTurns, hagain, if_pos rfl] at hc
          cases i with
          | zero =>
            rw [← Option.some.inj hc]
            exact hturn
          | succ i => exact hturns i c hc

/-- Requests sent back to back are served in order, each as it was sent and with bytes of its own body, until the
connection is closed; and each turn finds the next of them. -/
theorem processNewConnection_serves (handler : Conn → Handler) (conn : Conn)
    (qs : List ClientRequest) (hqs : ∀ q ∈ qs, q.WellFormed)
    (hcount : ∀ q ∈ qs, q.head.headers.length ≤ mgMaxHeaders)
    (hfits : ∀ q ∈ qs, q.headBytes.length ≤ conn.buf.length) (hle : conn.dataLen ≤ conn.buf.length)
    (hstream : conn.stream = qs.flatMap ClientRequest.bytes)
    (hplain : ∀ c ∈ processNewConnectionFetches handler conn, ¬ PausedExtension c.wire) :
    (∃ k, List.Forall₂ Serves (processNewConnection handler conn).1 (qs.take k)) ∧
      ∀ i c, (processNewConnectionTurns handler conn)[i]? = some c → TurnServes handler conn c (qs.drop i) :=
  processLoop_serves handler _ conn conn (.refl conn) qs hqs hcount hfits hle hstream hplain

/-- Header lines written as `name: value`. -/
theorem fieldLines_plain (hs : List MgHeader)
    (h : ∀ x ∈ hs, x.name ≠ [] ∧ (∀ a ∈ x.name, nameByte a = true) ∧
      (∀ a ∈ x.value, isprint a = true ∨ 128 ≤ a) ∧ deref x.value ≠ SP) :
    List.Forall₂ FieldLine hs (hs.map plainLine) := by
  rw [List.forall₂_map_right_iff, List.forall₂_same]
  intro x hx
  obtain ⟨hname, hbytes, hvalue, hstart⟩ := h x hx
  obtain ⟨hline, hplain⟩ := plainLine_spec x hname hbytes hvalue hstart
  refine ⟨hline, fun a ha => ?_⟩
  rw [fieldByte, (lineByte_iff a).mpr (hplain a ha), Bool.true_or]

/-- A request with the given headers and a body of a given length. -/
def sizedRequest (method uri : List Byte) (headers : List MgHeader) (body : List Byte) : ClientRequest :=
  ⟨⟨method, uri, ascii "1.1", headers⟩, headers.map plainLine, body, body⟩

/-- A request whose body is left partly unread, and one behind it. -/
def pipelined : List ClientRequest :=
  [sizedRequest (ascii "POST") (ascii "/a") [⟨ascii "Content-Length", ascii "5"⟩] (ascii "hello"),
    sizedRequest (ascii "GET") (ascii "/b") [] []]

def pipelinedConn : Conn :=
  freshConn 64 [.data (ascii "POST /a HTTP/1.1\r\nContent-Length: 5\r\n\r\nhel"), .tryAgain,
    .data (ascii "loGET /b HTTP/1.1\r\n\r\n")]

/-- A handler that asks for three bytes. -/
def readThree (_ : Conn) : Handler := .read 3 (fun _ => .done false)

theorem processNewConnection_serves_pipelined :
    (∀ q ∈ pipelined, q.Supported pipelinedConn) ∧
    (∃ k, List.Forall₂ Serves (processNewConnection readThree pipelinedConn).1 (pipelined.take k)) ∧
      ∀ i c, (processNewConnectionTurns readThree pipelinedConn)[i]? = some c →
        TurnServes readThree pipelinedConn c (pipelined.drop i) := by
  have hfetches : processNewConnectionFetches readThree pipelinedConn = [] := by decide +kernel
  constructor
  · intro q hq
    have hnone : (transferCodings q.head.headers).head? = none := by
      revert q
      decide
    refine ⟨by revert q; decide, by revert q; decide, fun v hv => ?_, by revert q; decide⟩
    rw [hnone] at hv
    cases hv
  apply processNewConnection_serves readThree pipelinedConn pipelined
  · intro q hq
    simp only [pipelined, List.mem_cons, List.not_mem_nil, or_false] at hq
    rcases hq with rfl | rfl
    · refine ⟨by decide, by decide, by decide, by decide, rfl, fieldLines_plain _ (by decide), ?_⟩
      apply FramedBody.length
      · decide
      · decide
      · intro v hv
        have hv : v = ascii "5" := by
          have h : contentLengths [⟨ascii "Content-Length", ascii "5"⟩] = [ascii "5"] := by decide
          simpa [sizedRequest, h] using hv
        rw [hv]
        exact ⟨[], ascii "5", [], by decide, by decide, by decide, by decide, by decide⟩
      · decide
    · exact ⟨by decide, by decide, by decide, by decide, rfl, fieldLines_plain _ (by decide),
        FramedBody.none (by decide) (by decide)⟩
  · decide
  · decide
  · decide
  · decide +kernel
  · rw [hfetches]
    exact fun c hc => absurd hc List.not_mem_nil

/-- A length behind 64 other headers, and a body that reads like a request. -/
def hiddenLength : ClientRequest :=
  sizedRequest (ascii "POST") (ascii "/")
    (List.replicate 64 ⟨ascii "A", ascii "b"⟩ ++ [⟨ascii "Content-Length", ascii "19"⟩])
    (ascii "GET /x HTTP/1.1\r\n\r\n")

def hiddenConn : Conn := freshConn 512 [.data hiddenLength.bytes]

def readNothing (_ : Conn) : Handler := .done false

theorem hiddenLength_wellFormed : hiddenLength.WellFormed := by
  have hlen : contentLengths hiddenLength.head.headers = [ascii "19"] := by decide +kernel
  refine ⟨by decide, by decide, by decide, by decide, rfl, fieldLines_plain _ (by decide +kernel), ?_⟩
  apply FramedBody.length
  · decide +kernel
  · rw [hlen]
    decide
  · intro v hv
    rw [hlen, List.mem_singleton] at hv
    rw [hv]
    exact ⟨[], ascii "19", [], by decide, by decide, by decide, by decide, by decide⟩
  · decide

/-- The body of that request is taken for a second request. -/
theorem processNewConnection_serves_body :
    hiddenLength.WellFormed ∧ hiddenConn.stream = [hiddenLength].flatMap ClientRequest.bytes ∧
      Steady hiddenConn.sock ∧
      (processNewConnection readNothing hiddenConn).1.map (·.info.requestUri) =
        [ascii "/", ascii "/x"] ∧
      ¬ ∃ k, List.Forall₂ Serves (processNewConnection readNothing hiddenConn).1
        ([hiddenLength].take k) := by
  have hrun : (processNewConnection readNothing hiddenConn).1.map (·.info.requestUri) =
      [ascii "/", ascii "/x"] := by decide +kernel
  have hstream : hiddenConn.stream = [hiddenLength].flatMap ClientRequest.bytes := by decide +kernel
  refine ⟨hiddenLength_wellFormed, hstream, ?_, hrun, ?_⟩
  · have hne : hiddenLength.bytes ≠ [] := by decide
    rw [hiddenConn, freshConn, Steady, if_neg hne]
    trivial
  · rintro ⟨k, hk⟩
    have hlen := hk.length_eq
    have hruns := congrArg List.length hrun
    rw [List.length_map] at hruns
    simp only [List.length_take, List.length_cons, List.length_nil] at hlen hruns
    omega

end CivetWeb
