import CivetWeb.Conn.GetResponse
import CivetWeb.Response.HeadOnce

namespace CivetWeb

/-- A header that stands on one line and is read back from it. -/
structure PlainHeader (h : MgHeader) : Prop where
  name_ne : h.name ≠ []
  name_bytes : ∀ a ∈ h.name, nameByte a = true
  value_bytes : ∀ a ∈ h.value, isprint a = true ∨ 128 ≤ a
  value_start : deref h.value ≠ SP

/-- The headers that `mg_response_header_send` sends when the date is `date`. -/
def completeHeaders (conn : Conn) (hs : List MgHeader) (date : List Byte) : List MgHeader :=
  hs ++ (if named (ascii "Date") hs then [] else [⟨ascii "Date", date⟩]) ++
    (if named (ascii "Connection") hs then [] else [⟨ascii "Connection", suggestConnectionHeader conn⟩])

/-- What a client finds in the head of a response: where the status has no text, the first header is taken for
it. -/
def readInfo (version : List Byte) (status : Int) (text : List Byte) (hs : List MgHeader) : ResponseInfo :=
  match text, hs with
  | [], h :: hs => ⟨status, plainLine h, version, -1, hs⟩
  | text, hs => ⟨status, text, version, -1, hs⟩

theorem plainHeader_line {h : MgHeader} (hp : PlainHeader h) : PlainLine h (plainLine h) :=
  plainLine_spec h hp.name_ne hp.name_bytes hp.value_bytes hp.value_start

theorem plainHeaders_lines {hs : List MgHeader} (h : ∀ x ∈ hs, PlainHeader x) :
    List.Forall₂ PlainLine hs (hs.map plainLine) := by
  rw [List.forall₂_map_right_iff, List.forall₂_same]
  exact fun x hx => plainHeader_line (h x hx)

theorem suggestConnectionHeader_plain (conn : Conn) :
    PlainHeader ⟨ascii "Connection", suggestConnectionHeader conn⟩ := by
  rw [suggestConnectionHeader]
  split_ifs
  · exact ⟨by decide, by decide, by decide, by decide⟩
  · exact ⟨by decide, by decide, by decide, by decide⟩

theorem completeHeaders_plain (conn : Conn) {hs : List MgHeader} {date : List Byte}
    (h : ∀ x ∈ hs, PlainHeader x) (hdate : PlainHeader ⟨ascii "Date", date⟩) :
    ∀ x ∈ completeHeaders conn hs date, PlainHeader x := by
  intro x hx
  simp only [completeHeaders, List.mem_append] at hx
  rcases hx with (hx | hx) | hx
  · exact h x hx
  · split_ifs at hx
    · cases hx
    · rw [List.mem_singleton.mp hx]
      exact hdate
  · split_ifs at hx
    · cases hx
    · rw [List.mem_singleton.mp hx]
      exact suggestConnectionHeader_plain conn

theorem completeHeaders_length (conn : Conn) (hs : List MgHeader) (date : List Byte) :
    (completeHeaders conn hs date).length ≤ hs.length + 2 := by
  simp only [completeHeaders, List.length_append]
  split_ifs <;> simp

theorem completeHeaders_print (conn : Conn) {hs : List MgHeader} {date : List Byte}
    (h : ∀ x ∈ hs, ∀ a ∈ x.value, isprint a = true) (hdate : ∀ a ∈ date, isprint a = true) :
    ∀ x ∈ completeHeaders conn hs date, ∀ a ∈ x.value, isprint a = true := by
  intro x hx
  simp only [completeHeaders, List.mem_append] at hx
  rcases hx with (hx | hx) | hx
  · exact h x hx
  · split_ifs at hx
    · cases hx
    · rw [List.mem_singleton.mp hx]
      exact hdate
  · split_ifs at hx
    · cases hx
    · rw [List.mem_singleton.mp hx, suggestConnectionHeader]
      split_ifs <;> decide

/-- There is always a first header. -/
theorem completeHeaders_cons (conn : Conn) (hs : List MgHeader) (date : List Byte) :
    ∃ x xs, completeHeaders conn hs date = x :: xs := by
  cases hs with
  | nil =>
    rw [completeHeaders, if_neg (by simp [named])]
    exact ⟨_, _, rfl⟩
  | cons x xs => exact ⟨x, _, rfl⟩

theorem headerLines_complete (conn : Conn) (hs : List MgHeader) (date : List Byte) :
    headerLines (completeHeaders conn hs date) = headerLines hs ++
      (if named (ascii "Date") hs then [] else headerText (ascii "Date") date) ++
      (if named (ascii "Connection") hs then []
        else headerText (ascii "Connection") (suggestConnectionHeader conn)) := by
  simp only [completeHeaders, headerLines, List.flatMap_append]
  congr 1
  · congr 1
    split_ifs <;> simp
  · split_ifs <;> simp

/-- Each header of a plain list is written on its line. -/
theorem headerLines_map {hs : List MgHeader} (h : ∀ x ∈ hs, PlainHeader x) :
    headerLines hs = (hs.map plainLine).flatMap (· ++ CRLF) := by
  rw [headerLines, List.flatMap_map]
  apply List.flatMap_congr
  intro x hx
  have hvalue : NUL ∉ x.value := by
    intro hmem
    have hbyte := (h x hx).value_bytes NUL hmem
    revert hbyte
    decide
  rw [headerText, cstr_of_no_nul _ hvalue, plainLine]

/-- The head of a response is the status line with the lines of its headers. -/
theorem responseHead_lines (conn : Conn) (status : Int) {hs : List MgHeader} {date : List Byte}
    (h : ∀ x ∈ hs, PlainHeader x) (hdate : PlainHeader ⟨ascii "Date", date⟩) :
    responseHead conn status hs date =
      statusWords conn.requestInfo.httpVersion status.toNat ++ mgGetResponseCodeText status ++
        (LineEnd.crlf.bytes ++ ((completeHeaders conn hs date).map plainLine).flatMap (· ++ LineEnd.crlf.bytes) ++
          LineEnd.crlf.bytes) := by
  have hlines := headerLines_map (completeHeaders_plain conn h hdate)
  rw [headerLines_complete] at hlines
  have hcrlf : LineEnd.crlf.bytes = CRLF := rfl
  rw [hcrlf, ← hlines, responseHead, statusLine, statusWords]
  simp

/-! ### The status text -/

theorem responseCodeText_plain {status : Int} (hlow : 100 ≤ status) (hhigh : status < 600) :
    PlainText (mgGetResponseCodeText status) := by
  have htable : ∀ p ∈ responseCodeTexts, isgraph (deref p.2) = true ∧ ∀ a ∈ p.2, isprint a = true := by
    -- One text at a time: the whole table is too much for one evaluation.
    simp only [responseCodeTexts, List.forall_mem_cons]
    and_intros
    all_goals decide +kernel
  rw [mgGetResponseCodeText]
  cases h : responseCodeTexts.lookup status with
  | some text =>
    obtain ⟨pre, post, hsplit, -⟩ := List.lookup_eq_some_iff.mp h
    obtain ⟨hstart, hbytes⟩ := htable (status, text) (by simp [hsplit])
    exact ⟨hstart, hbytes⟩
  | none =>
    simp only [Bool.and_eq_true, decide_eq_true_eq]
    split_ifs
    · exact ⟨by decide, by decide⟩
    · exact ⟨by decide, by decide⟩
    · exact ⟨by decide, by decide⟩
    · exact ⟨by decide, by decide⟩
    · exact ⟨by decide, by decide⟩
    · omega

theorem responseCodeText_none {status : Int} (h : 600 ≤ status) : mgGetResponseCodeText status = [] := by
  have htable : ∀ p ∈ responseCodeTexts, p.1 < 600 := by decide
  rw [mgGetResponseCodeText]
  cases hlookup : responseCodeTexts.lookup status with
  | some text =>
    obtain ⟨pre, post, hsplit, -⟩ := List.lookup_eq_some_iff.mp hlookup
    have hlow := htable (status, text) (by simp [hsplit])
    dsimp only at hlow
    omega
  | none =>
    simp only [Bool.and_eq_true, decide_eq_true_eq]
    split_ifs <;> first | omega | rfl

theorem plainLine_text {h : MgHeader} (hp : PlainHeader h) (hvalue : ∀ a ∈ h.value, isprint a = true) :
    PlainText (plainLine h) := by
  have hname : ∀ a, nameByte a = true → isgraph a = true ∧ isprint a = true := byte_all _ (by decide +kernel)
  obtain ⟨b, bs, hb⟩ := List.exists_cons_of_ne_nil hp.name_ne
  refine ⟨?_, fun a ha => ?_⟩
  · rw [plainLine, hb, List.cons_append, deref_cons]
    exact (hname b (hp.name_bytes b (by simp [hb]))).1
  · simp only [plainLine, List.mem_append, List.mem_cons] at ha
    rcases ha with ha | rfl | rfl | ha
    · exact (hname a (hp.name_bytes a ha)).2
    · rfl
    · rfl
    · exact hvalue a ha

theorem statusWords_bytes {version : List Byte} {status : Nat} (hw : StatusWords version status) :
    ∀ a ∈ statusWords version status, lineByte a = true := by
  have hhttp : ∀ a ∈ ascii "HTTP/", lineByte a = true := by decide
  intro a ha
  simp only [statusWords, List.mem_append, List.mem_cons, List.not_mem_nil, or_false] at ha
  rcases ha with (ha | ha) | rfl | ha | rfl
  · exact hhttp a ha
  · exact wordByte_lineByte a (hw.version_bytes a ha)
  · rfl
  · exact wordByte_lineByte a ((status_word hw.low hw.high).1 a ha)
  · rfl

/-- The head that a server sends is parsed whole, by a client that may have more of the stream. -/
theorem responseHead_parsed (conn : Conn) {status : Int} {hs : List MgHeader} {date : List Byte}
    (hw : StatusWords conn.requestInfo.httpVersion status.toNat) (h : ∀ x ∈ hs, PlainHeader x)
    (hdate : PlainHeader ⟨ascii "Date", date⟩) (hcount : hs.length + 2 ≤ mgMaxHeaders)
    (hfirst : 600 ≤ status → ∀ x ∈ (completeHeaders conn hs date).head?, ∀ a ∈ x.value, isprint a = true) :
    headerLenFrom 0 (responseHead conn status hs date) = (responseHead conn status hs date).length ∧
      ∀ tail len, (responseHead conn status hs date).length ≤ len →
        ∃ buf, parseHttpResponse (responseHead conn status hs date ++ tail) len =
            .ok ⟨(responseHead conn status hs date).length,
              readInfo conn.requestInfo.httpVersion status (mgGetResponseCodeText status)
                (completeHeaders conn hs date), buf ++ tail⟩ ∧
          buf.length = (responseHead conn status hs date).length := by
  have hlow := hw.low
  have hhigh := hw.high
  have hstatus : (status.toNat : Int) = status := by omega
  have hall := completeHeaders_plain conn h hdate
  have hlines := plainHeaders_lines hall
  have hlength := completeHeaders_length conn hs date
  have hhead := responseHead_lines conn status h hdate
  by_cases htext : status < 600
  · have hplain := responseCodeText_plain (by omega) htext
    have hline : ∀ a ∈ statusWords conn.requestInfo.httpVersion status.toNat ++ mgGetResponseCodeText status,
        lineByte a = true := by
      intro a ha
      rcases List.mem_append.mp ha with ha | ha
      · exact statusWords_bytes hw a ha
      · exact (lineByte_iff a).mpr (Or.inl (hplain.bytes a ha))
    have hfound := headerLenFrom_lines 0 .crlf _ _ hline (plainLines_bytes _ _ hlines)
    rw [← hhead, Int.natCast_zero, Int.zero_add] at hfound
    have hrender : responseHead conn status hs date = renderResponse .crlf conn.requestInfo.httpVersion status.toNat []
        (mgGetResponseCodeText status) ((completeHeaders conn hs date).map plainLine) := by
      rw [hhead, renderResponse]
      simp
    have hinfo : readInfo conn.requestInfo.httpVersion status (mgGetResponseCodeText status)
        (completeHeaders conn hs date) =
        ⟨status, mgGetResponseCodeText status, conn.requestInfo.httpVersion, -1, completeHeaders conn hs date⟩ := by
      unfold readInfo
      cases hcode : mgGetResponseCodeText status with
      | nil =>
        rw [hcode] at hplain
        exact absurd hplain.start (by decide)
      | cons b bs => rfl
    refine ⟨hfound, fun tail len hlen => ?_⟩
    rw [hrender] at hfound hlen ⊢
    have hparse := parseHttpResponse_render .crlf [] tail hw (by simp) hplain hlines (by omega)
      hfound hlen
    rw [hstatus] at hparse
    rw [hinfo]
    exact hparse
  · have hcode := responseCodeText_none (by omega : 600 ≤ status)
    have hfound := headerLenFrom_lines 0 .crlf _ _ (statusWords_bytes hw) (plainLines_bytes _ _ hlines)
    rw [hcode, List.append_nil] at hhead
    rw [← hhead, Int.natCast_zero, Int.zero_add] at hfound
    refine ⟨hfound, fun tail len hlen => ?_⟩
    obtain ⟨x, xs, hcomplete⟩ := completeHeaders_cons conn hs date
    rw [hcomplete] at hlines hhead hlength hfirst hall
    have hplain := plainLine_text (hall x (by simp)) (hfirst (by omega) x (by simp))
    have hrender : responseHead conn status hs date = renderResponse .crlf conn.requestInfo.httpVersion
        status.toNat CRLF (plainLine x) (xs.map plainLine) := by
      rw [hhead, renderResponse]
      simp [LineEnd.bytes, CRLF]
    have hinfo : readInfo conn.requestInfo.httpVersion status (mgGetResponseCodeText status)
        (completeHeaders conn hs date) = ⟨status, plainLine x, conn.requestInfo.httpVersion, -1, xs⟩ := by
      rw [hcode, hcomplete]
      rfl
    rw [hrender] at hfound hlen ⊢
    have hparse := parseHttpResponse_render .crlf CRLF tail hw (by decide) hplain
      (plainHeaders_lines fun y hy => hall y (by simp [hy])) (by rw [List.length_cons] at hlength; omega) hfound hlen
    rw [hstatus] at hparse
    rw [hinfo]
    exact hparse

section Send

variable (gmtTimeString : Nat → List Byte)

/-- What a client reads of a response that a handler sends. -/
theorem headSent_read (c : ResponseConn) (calls : List ResponseCall) (status : Int) (adds post : List ResponseCall)
    (hserver : c.connectionType = .request) (hhttp : c.protocolType = PROTOCOL_TYPE_HTTP1)
    (hfresh : c.requestState = 0) (hempty : c.out.sent = []) (hnet : TakesWrites (70 * calls.length) c.out)
    (hfit : LinesFit gmtTimeString c.toConn calls) (hsent : HeadSent calls status adds post)
    (hw : StatusWords c.requestInfo.httpVersion status.toNat)
    (hplain : ∀ h ∈ acceptedHeaders adds, PlainHeader h)
    (hdate : ∀ t, PlainHeader ⟨ascii "Date", gmtTimeString t⟩)
    (hcount : (acceptedHeaders adds).length + 2 ≤ mgMaxHeaders)
    (hfirst : 600 ≤ status → ∀ t, ∀ x ∈ (completeHeaders c.toConn (acceptedHeaders adds) (gmtTimeString t)).head?,
      ∀ a ∈ x.value, isprint a = true) :
    ∃ t, ∀ (client : ClientConn) (payload more : List Byte),
      let info := readInfo c.requestInfo.httpVersion status (mgGetResponseCodeText status)
        (completeHeaders c.toConn (acceptedHeaders adds) (gmtTimeString t))
      FramedResponse info.httpHeaders status (writtenData post) payload more →
      Segmented [] ((responseRun gmtTimeString c calls).out.sent ++ more) client.sock →
      (responseHead c.toConn status (acceptedHeaders adds) (gmtTimeString t)).length ≤ client.buf.length →
      ∃ c', mgGetResponse client = (none, c') ∧
        c'.responseInfo = { info with contentLength := declaredLength info.httpHeaders } ∧
        ∀ handler : Handler, (handler.run c'.toConn).1 <+: payload ∧
          ∀ len, 0 < len → (mgRead (handler.run c'.toConn).2 len).1 = some [] →
            (handler.run c'.toConn).1 = payload := by
  have hreq : c.isHttpRequest = true := by
    simp [ResponseConn.isHttpRequest, hserver, hhttp, PROTOCOL_TYPE_HTTP1, PROTOCOL_TYPE_WEBSOCKET]
  obtain ⟨state, out, t, hrun, -, -, hout⟩ :=
    headSent_run gmtTimeString c calls status adds post hreq hfresh hnet hfit hsent
  refine ⟨t, ?_⟩
  intro client payload more info hframed hsock hfits
  obtain ⟨hfound, hparse⟩ := responseHead_parsed c.toConn hw hplain (hdate t) hcount (fun h => hfirst h t)
  rw [hrun] at hsock
  dsimp only at hsock
  rw [hout, hempty, List.nil_append, List.append_assoc] at hsock
  have hlow := hw.low
  have hne : responseHead c.toConn status (acceptedHeaders adds) (gmtTimeString t) ≠ [] := by
    simp [responseHead, CRLF]
  have hall := completeHeaders_plain c.toConn hplain (hdate t)
  have hinfo : info.statusCode = status ∧ info.contentLength = -1 ∧
      ∀ x ∈ info.httpHeaders, x ∈ completeHeaders c.toConn (acceptedHeaders adds) (gmtTimeString t) := by
    show (readInfo _ _ _ _).statusCode = _ ∧ (readInfo _ _ _ _).contentLength = _ ∧
      ∀ x ∈ (readInfo _ _ _ _).httpHeaders, _
    unfold readInfo
    split
    · rename_i h hs _ hcomplete
      refine ⟨rfl, rfl, fun x hx => ?_⟩
      rw [hcomplete]
      exact List.mem_cons_of_mem h hx
    · exact ⟨rfl, rfl, fun x hx => hx⟩
  obtain ⟨c', hget, hread, hbody⟩ := mgGetResponse_parsed client hsock hne hfound hfits hparse hinfo.2.1
    (fun x hx => ⟨plainLine x, (plainHeader_line (hall x (hinfo.2.2 x hx))).1⟩) (by rw [hinfo.1]; exact hframed)
  refine ⟨c', hget, hread, fun handler => ?_⟩
  have hafter := clientBody_handler handler hbody
  rw [List.nil_append] at hafter
  exact ⟨hafter.got_prefix, fun len hlen hend => (clientBody_end len hlen hafter hend).symm⟩

/-- A response that the server API sends is what the client API reads: the version, the status, its text, the
headers in their order, the declared length, and any reads then give the body. -/
theorem mgGetResponse_sent (c : ResponseConn) (calls : List ResponseCall) (status : Int)
    (adds post : List ResponseCall) (hserver : c.connectionType = .request)
    (hhttp : c.protocolType = PROTOCOL_TYPE_HTTP1) (hfresh : c.requestState = 0) (hempty : c.out.sent = [])
    (hnet : TakesWrites (70 * calls.length) c.out) (hfit : LinesFit gmtTimeString c.toConn calls)
    (hsent : HeadSent calls status adds post) (hw : StatusWords c.requestInfo.httpVersion status.toNat)
    (hstatus : status < 600) (hplain : ∀ h ∈ acceptedHeaders adds, PlainHeader h)
    (hdate : ∀ t, PlainHeader ⟨ascii "Date", gmtTimeString t⟩)
    (hcount : (acceptedHeaders adds).length + 2 ≤ mgMaxHeaders) :
    ∃ t, ∀ (client : ClientConn) (payload more : List Byte),
      let hs := completeHeaders c.toConn (acceptedHeaders adds) (gmtTimeString t)
      FramedResponse hs status (writtenData post) payload more →
      Segmented [] ((responseRun gmtTimeString c calls).out.sent ++ more) client.sock →
      (responseHead c.toConn status (acceptedHeaders adds) (gmtTimeString t)).length ≤ client.buf.length →
      ∃ c', mgGetResponse client = (none, c') ∧
        c'.responseInfo = ⟨status, mgGetResponseCodeText status, c.requestInfo.httpVersion, declaredLength hs, hs⟩ ∧
        ∀ handler : Handler, (handler.run c'.toConn).1 <+: payload ∧
          ∀ len, 0 < len → (mgRead (handler.run c'.toConn).2 len).1 = some [] →
            (handler.run c'.toConn).1 = payload := by
  have hlow := hw.low
  have htext := (responseCodeText_plain (by omega) hstatus).start
  have hinfo (hs : List MgHeader) : readInfo c.requestInfo.httpVersion status (mgGetResponseCodeText status) hs =
      ⟨status, mgGetResponseCodeText status, c.requestInfo.httpVersion, -1, hs⟩ := by
    unfold readInfo
    cases hcode : mgGetResponseCodeText status with
    | nil =>
      rw [hcode] at htext
      exact absurd htext (by decide)
    | cons b bs => rfl
  obtain ⟨t, hread⟩ := headSent_read gmtTimeString c calls status adds post hserver hhttp hfresh hempty hnet hfit
    hsent hw hplain hdate hcount (fun h => by omega)
  simp only [hinfo] at hread
  exact ⟨t, hread⟩

/-- A status from 600 on has no text, and a client takes the first header for it. -/
theorem mgGetResponse_untitled (c : ResponseConn) (calls : List ResponseCall) (status : Int)
    (adds post : List ResponseCall) (hserver : c.connectionType = .request)
    (hhttp : c.protocolType = PROTOCOL_TYPE_HTTP1) (hfresh : c.requestState = 0) (hempty : c.out.sent = [])
    (hnet : TakesWrites (70 * calls.length) c.out) (hfit : LinesFit gmtTimeString c.toConn calls)
    (hsent : HeadSent calls status adds post) (hw : StatusWords c.requestInfo.httpVersion status.toNat)
    (hstatus : 600 ≤ status) (hplain : ∀ h ∈ acceptedHeaders adds, PlainHeader h)
    (hprint : ∀ h ∈ acceptedHeaders adds, ∀ a ∈ h.value, isprint a = true)
    (hdate : ∀ t, PlainHeader ⟨ascii "Date", gmtTimeString t⟩ ∧ ∀ a ∈ gmtTimeString t, isprint a = true)
    (hcount : (acceptedHeaders adds).length + 2 ≤ mgMaxHeaders) :
    ∃ t h hs, completeHeaders c.toConn (acceptedHeaders adds) (gmtTimeString t) = h :: hs ∧
      ∀ (client : ClientConn) (payload more : List Byte),
        FramedResponse hs status (writtenData post) payload more →
        Segmented [] ((responseRun gmtTimeString c calls).out.sent ++ more) client.sock →
        (responseHead c.toConn status (acceptedHeaders adds) (gmtTimeString t)).length ≤ client.buf.length →
        ∃ c', mgGetResponse client = (none, c') ∧
          c'.responseInfo = ⟨status, plainLine h, c.requestInfo.httpVersion, declaredLength hs, hs⟩ := by
  obtain ⟨t, hread⟩ := headSent_read gmtTimeString c calls status adds post hserver hhttp hfresh hempty hnet hfit
    hsent hw hplain (fun t => (hdate t).1) hcount (fun _ t x hx =>
      completeHeaders_print c.toConn hprint (hdate t).2 x (List.mem_of_mem_head? hx))
  obtain ⟨h, hs, hcomplete⟩ := completeHeaders_cons c.toConn (acceptedHeaders adds) (gmtTimeString t)
  refine ⟨t, h, hs, hcomplete, fun client payload more hframed hsock hfits => ?_⟩
  have hinfo : readInfo c.requestInfo.httpVersion status (mgGetResponseCodeText status)
      (completeHeaders c.toConn (acceptedHeaders adds) (gmtTimeString t)) =
      ⟨status, plainLine h, c.requestInfo.httpVersion, -1, hs⟩ := by
    rw [responseCodeText_none hstatus, hcomplete]
    rfl
  simp only [hinfo] at hread
  obtain ⟨c', hget, hinfo', -⟩ := hread client payload more hframed hsock hfits
  exact ⟨c', hget, hinfo'⟩

end Send

/-- A client that gets its response byte by byte. -/
def waitingClient (wire : List Byte) : ClientConn where
  toConn := { requestConn.toConn with sock := wire.map fun b => .data [b], buf := List.replicate 1000 NUL }
  responseInfo := ⟨0, [], [], -1, []⟩

theorem segmented_bytes (wire : List Byte) : Segmented [] wire (wire.map fun b => .data [b]) := by
  induction wire with
  | nil => exact .ends
  | cons b wire ih => exact .data [b] (by simp) ih

def helloCalls (status : Int) : List ResponseCall :=
  [.start status, .add (some (ascii "X")) (some (ascii "y")) (-1),
    .add (some (ascii "Content-Length")) (some (ascii "2")) (-1), .send, .write (ascii "hi")]

def helloHeaders : List MgHeader := [⟨ascii "X", ascii "y"⟩, ⟨ascii "Content-Length", ascii "2"⟩]

theorem helloCalls_sent {status : Int} (h : validStatus status = true) :
    HeadSent (helloCalls status) status [.add (some (ascii "X")) (some (ascii "y")) (-1),
      .add (some (ascii "Content-Length")) (some (ascii "2")) (-1)] [.write (ascii "hi")] :=
  ⟨_, ⟨[], by simp, h, by decide, rfl⟩, rfl⟩

theorem helloCalls_fit (status : Int) :
    LinesFit anyDate requestConn.toConn (helloCalls status) := by
  refine ⟨fun status hstatus => statusLine_fits _ status (by decide) hstatus, fun call hcall => ?_,
    fun _ => by rw [anyDate]; decide⟩
  simp only [helloCalls, List.mem_cons, List.not_mem_nil, or_false] at hcall
  rcases hcall with rfl | rfl | rfl | rfl | rfl
  · simp [ResponseCall.headers]
  · decide
  · decide
  · simp [ResponseCall.headers]
  · simp [ResponseCall.headers]

theorem helloHeaders_plain : ∀ h ∈ helloHeaders, PlainHeader h := by
  intro h hmem
  simp only [helloHeaders, List.mem_cons, List.not_mem_nil, or_false] at hmem
  rcases hmem with rfl | rfl
  · exact ⟨by decide, by decide, by decide, by decide⟩
  · exact ⟨by decide, by decide, by decide, by decide⟩

theorem anyDate_plain (t : Nat) : PlainHeader ⟨ascii "Date", anyDate t⟩ := by
  rw [anyDate]
  exact ⟨by decide, by decide, by decide, by decide⟩

theorem helloLength : ∀ v ∈ [ascii "2"], PlainNumber 2 v := by
  intro v hv
  rw [List.mem_singleton.mp hv]
  exact ⟨[], ascii "2", [], rfl, by decide, by decide, by decide, by decide⟩

theorem mgGetResponse_sent_hello :
    ∃ t c', mgGetResponse (waitingClient (responseRun anyDate requestConn (helloCalls 200)).out.sent) = (none, c') ∧
      c'.responseInfo = ⟨200, ascii "OK", ascii "1.1", 2,
        completeHeaders requestConn.toConn helloHeaders (anyDate t)⟩ ∧
      ∀ handler : Handler, (handler.run c'.toConn).1 <+: ascii "hi" := by
  obtain ⟨t, hread⟩ := mgGetResponse_sent anyDate requestConn (helloCalls 200) 200 _ _ rfl rfl rfl rfl
    (takesWrites_accepting _ 350 _ (by decide) rfl rfl) (helloCalls_fit 200) (helloCalls_sent (by decide))
    ⟨by decide, by decide, by decide, by decide⟩ (by decide) helloHeaders_plain
    anyDate_plain (by decide)
  obtain ⟨c', hget, hinfo, hreads⟩ := hread
    (waitingClient (responseRun anyDate requestConn (helloCalls 200)).out.sent) (ascii "hi") []
    (.length _ _ (by rw [anyDate]; decide) (by rw [anyDate]; decide) (by
      rw [anyDate]
      exact helloLength) (by decide) (by decide))
    (by rw [List.append_nil]; exact segmented_bytes _) (by rw [anyDate]; decide +kernel)
  exact ⟨t, c', hget, hinfo, fun handler => (hreads handler).1⟩

theorem mgGetResponse_untitled_hello :
    ∃ t c', mgGetResponse (waitingClient (responseRun anyDate requestConn (helloCalls 600)).out.sent) = (none, c') ∧
      c'.responseInfo = ⟨600, ascii "X: y", ascii "1.1", 2,
        [⟨ascii "Content-Length", ascii "2"⟩, ⟨ascii "Date", anyDate t⟩,
          ⟨ascii "Connection", suggestConnectionHeader requestConn.toConn⟩]⟩ := by
  obtain ⟨t, h, hs, hcomplete, hread⟩ := mgGetResponse_untitled anyDate requestConn (helloCalls 600) 600 _ _ rfl rfl
    rfl rfl (takesWrites_accepting _ 350 _ (by decide) rfl rfl) (helloCalls_fit 600) (helloCalls_sent (by decide))
    ⟨by decide, by decide, by decide, by decide⟩ (by decide) helloHeaders_plain (by decide)
    (fun t => ⟨anyDate_plain t, by rw [anyDate]; decide⟩) (by decide)
  obtain ⟨rfl, rfl⟩ := List.cons.inj hcomplete
  obtain ⟨c', hget, hinfo⟩ := hread
    (waitingClient (responseRun anyDate requestConn (helloCalls 600)).out.sent) (ascii "hi") []
    (.length _ _ (by rw [anyDate]; decide) (by rw [anyDate]; decide) (by
      rw [anyDate]
      exact helloLength) (by decide) (by decide))
    (by rw [List.append_nil]; exact segmented_bytes _) (by rw [anyDate]; decide +kernel)
  exact ⟨t, c', hget, hinfo⟩

end CivetWeb
