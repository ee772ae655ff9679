import CivetWeb.Response.Response
import CivetWeb.Http.HeaderLines

namespace CivetWeb

/-- A text of header lines, each with its end; the last line may lack it. -/
inductive HeaderText : List MgHeader → List Byte → Prop where
  | nil : HeaderText [] []
  | last (h : MgHeader) (line : List Byte) (hl : HeaderLine h line) : HeaderText [h] line
  | cons (h : MgHeader) (line : List Byte) (e : LineEnd) (hs : List MgHeader) (text : List Byte)
      (hl : HeaderLine h line) (ht : HeaderText hs text) :
      HeaderText (h :: hs) (line ++ e.bytes ++ text)

def validStatus (status : Int) : Bool := 100 ≤ status && status ≤ 999

/-- The calls that begin a response: a start with a status, a write of data. -/
def ResponseCall.begins : ResponseCall → Bool
  | .start status => validStatus status
  | .write buf => buf.length ≤ INT_MAX
  | _ => false

/-- The calls after which no header can be added any more. -/
def ResponseCall.closes : ResponseCall → Bool
  | .send => true
  | .write buf => buf.length ≤ INT_MAX
  | _ => false

/-- The headers that a call with valid arguments asks to add. -/
def ResponseCall.headers : ResponseCall → List MgHeader
  | .add (some header) (some value) valueLen =>
    [⟨cstr header, if 0 ≤ valueLen then value.take valueLen.toNat else cstr value⟩]
  | .addLines text =>
    let parsed := parseHttpHeaders (cstr text ++ [NUL])
    if parsed.ok then parsed.headers else []
  | _ => []

/-- What the calls of `mg_write` put on the wire. -/
def writtenData (calls : List ResponseCall) : List Byte :=
  calls.flatMap (fun
    | .write buf => if buf.length ≤ INT_MAX then buf else []
    | _ => [])

def acceptedHeaders (calls : List ResponseCall) : List MgHeader :=
  (calls.flatMap ResponseCall.headers).take mgMaxHeaders

/-- A response was started with this status, and `adds` came since, none of which ends it. -/
def Opened (calls : List ResponseCall) (status : Int) (adds : List ResponseCall) : Prop :=
  ∃ before, (∀ call ∈ before, call.begins = false) ∧ validStatus status = true ∧
    (∀ call ∈ adds, call.closes = false) ∧ calls = before ++ .start status :: adds

/-- A response was started with this status, got the headers of `adds` and was sent. -/
def HeadSent (calls : List ResponseCall) (status : Int) (adds post : List ResponseCall) : Prop :=
  ∃ first, Opened first status adds ∧ calls = first ++ .send :: post

/-- The call that adds one header line. -/
def addCall (h : MgHeader) : ResponseCall := .add (some h.name) (some h.value) (-1)

def named (name : List Byte) (hs : List MgHeader) : Prop :=
  ∃ h ∈ hs, h.name.map tolower = name.map tolower

instance (name : List Byte) (hs : List MgHeader) : Decidable (named name hs) :=
  inferInstanceAs (Decidable (∃ h ∈ hs, h.name.map tolower = name.map tolower))

def headerLines (hs : List MgHeader) : List Byte := hs.flatMap (fun h => headerText h.name h.value)

/-- A response head with these headers, sent when the date is `date`. -/
def responseHead (conn : Conn) (status : Int) (hs : List MgHeader) (date : List Byte) : List Byte :=
  statusLine conn.requestInfo.httpVersion status (mgGetResponseCodeText status) ++
    headerLines hs ++
    (if named (ascii "Date") hs then [] else headerText (ascii "Date") date) ++
    (if named (ascii "Connection") hs then []
      else headerText (ascii "Connection") (suggestConnectionHeader conn)) ++ CRLF

/-- `vsnprintf` can count each line of the response. -/
structure LinesFit (gmtTimeString : Nat → List Byte) (conn : Conn) (calls : List ResponseCall) :
    Prop where
  status : ∀ status, validStatus status = true →
    (statusLine conn.requestInfo.httpVersion status (mgGetResponseCodeText status)).length ≤ INT_MAX
  header : ∀ call ∈ calls, ∀ h ∈ call.headers, (headerText h.name h.value).length ≤ INT_MAX
  date : ∀ t, (headerText (ascii "Date") (gmtTimeString t)).length ≤ INT_MAX

theorem write_sends (c : ResponseConn) (buf : List Byte) (n : Nat) (hbuf : buf.length ≤ INT_MAX)
    (hnet : TakesWrites (n + 1) c.out) :
    ∃ out, c.write buf = ((buf.length : Int), { c with requestState := 10, out := out }) ∧
      out.sent = c.out.sent ++ buf ∧ TakesWrites n out := by
  obtain ⟨hall, hrest⟩ := hnet.1 buf hbuf
  refine ⟨(mgWrite c.out buf).2, ?_, mgWrite_sent c.out buf hall, hrest⟩
  rw [ResponseConn.write, if_neg (by omega)]
  simp only [hall]

theorem mgPrintf_sends (c : ResponseConn) (text : List Byte) (n : Nat) (hne : text ≠ [])
    (htext : text.length ≤ INT_MAX) (hnet : TakesWrites (n + 1) c.out) :
    ∃ out, mgPrintf c text = ((text.length : Int), { c with requestState := 10, out := out }) ∧
      out.sent = c.out.sent ++ text ∧ TakesWrites n out := by
  rw [mgPrintf, if_neg (by omega), if_neg hne]
  exact write_sends c text n htext hnet

theorem headerText_ne_nil (name value : List Byte) : headerText name value ≠ [] := by
  simp [headerText]

theorem sendHeaders_sends (c : ResponseConn) (hs : List MgHeader) (n : Nat)
    (hfit : ∀ h ∈ hs, (headerText h.name h.value).length ≤ INT_MAX)
    (hnet : TakesWrites (n + hs.length) c.out) :
    ∃ state out, sendHeaders c hs = { c with requestState := state, out := out } ∧
      out.sent = c.out.sent ++ headerLines hs ∧ TakesWrites n out := by
  induction hs generalizing c with
  | nil => exact ⟨c.requestState, c.out, rfl, by simp [headerLines], hnet⟩
  | cons h hs ih =>
    obtain ⟨out, hprint, hsent, hrest⟩ := mgPrintf_sends c (headerText h.name h.value) (n + hs.length)
      (headerText_ne_nil h.name h.value) (hfit h (by simp)) hnet
    obtain ⟨state, out', hloop, hsent', hrest'⟩ := ih { c with requestState := 10, out := out }
      (fun h' hmem => hfit h' (by simp [hmem])) hrest
    refine ⟨state, out', ?_, ?_, hrest'⟩
    · rw [sendHeaders, hprint]
      exact hloop
    · rw [hsent', hsent]
      simp [headerLines]

theorem hasHeader_iff (name : List Byte) (hs : List MgHeader) (hname : NUL ∉ name)
    (hnul : ∀ h ∈ hs, NUL ∉ h.name) : hasHeader name hs = true ↔ named name hs := by
  rw [hasHeader, List.any_eq_true]
  constructor
  · rintro ⟨h, hmem, heq⟩
    have heq' : mgStrcasecmp name h.name = 0 := by simpa using heq
    exact ⟨h, hmem, ((mgStrcasecmp_eq_zero name h.name hname (hnul h hmem)).mp heq').symm⟩
  · rintro ⟨h, hmem, heq⟩
    refine ⟨h, hmem, ?_⟩
    rw [(mgStrcasecmp_eq_zero name h.name hname (hnul h hmem)).mpr heq.symm]
    rfl

theorem statusLine_length (version text : List Byte) (status : Int) :
    10 ≤ (statusLine version status text).length := by
  have hd := List.length_pos_iff.mpr (decText_ne_nil status.toNat)
  simp only [statusLine, List.length_append, List.length_cons]
  have ha : (ascii "HTTP/").length = 5 := rfl
  have hc : CRLF.length = 2 := rfl
  omega

section Send

variable (gmtTimeString : Nat → List Byte)

theorem sendStatus_sends (c : ResponseConn) (n : Nat) (hstatus : validStatus c.statusCode = true)
    (hfit : (statusLine c.requestInfo.httpVersion c.statusCode
      (mgGetResponseCodeText c.statusCode)).length ≤ INT_MAX)
    (hnet : TakesWrites (n + 1) c.out) :
    ∃ out, sendHttp1ResponseStatusLine c = (true, { c with requestState := 10, out := out }) ∧
      out.sent = c.out.sent ++ statusLine c.requestInfo.httpVersion c.statusCode
        (mgGetResponseCodeText c.statusCode) ∧ TakesWrites n out := by
  have hrange : ¬ (c.statusCode < 100 ∨ 999 < c.statusCode) := by
    simp only [validStatus, Bool.and_eq_true, decide_eq_true_eq] at hstatus
    omega
  have hlen := statusLine_length c.requestInfo.httpVersion (mgGetResponseCodeText c.statusCode)
    c.statusCode
  obtain ⟨out, hprint, hsent, hrest⟩ := mgPrintf_sends c _ n
    (List.ne_nil_of_length_pos (by omega)) hfit hnet
  refine ⟨out, ?_, hsent, hrest⟩
  rw [sendHttp1ResponseStatusLine, if_neg hrange, hprint]
  have h10 : decide ((10 : Int) ≤ ((statusLine c.requestInfo.httpVersion c.statusCode
      (mgGetResponseCodeText c.statusCode)).length : Nat)) = true := by
    rw [decide_eq_true_eq]
    omega
  simp only [h10]

theorem sendDate_sends (c : ResponseConn) (n : Nat)
    (hfit : ∀ t, (headerText (ascii "Date") (gmtTimeString t)).length ≤ INT_MAX)
    (hnet : TakesWrites (n + 2) c.out) :
    ∃ out t, sendDate gmtTimeString c = { c with requestState := 10, out := out } ∧
      out.sent = c.out.sent ++ headerText (ascii "Date") (gmtTimeString t) ∧ TakesWrites n out := by
  obtain ⟨out, hprint, hsent, hrest⟩ := mgPrintf_sends { c with out := c.out.time.2 }
    (headerText (ascii "Date") (gmtTimeString c.out.time.1)) n (headerText_ne_nil _ _)
    (hfit _) hnet.2
  refine ⟨out, c.out.time.1, ?_, ?_, hrest⟩
  · rw [sendDate]
    simp only [hprint]
  · rw [hsent]
    simp only [time_sent]

/-- A send in the right state puts one complete head on the wire. -/
theorem mgResponseHeaderSend_sends (c : ResponseConn) (n : Nat) (hserver : c.isHttpRequest = true)
    (hstate : c.requestState = 1) (hstatus : validStatus c.statusCode = true)
    (hfull : c.responseHeaders.length ≤ mgMaxHeaders)
    (hnul : ∀ h ∈ c.responseHeaders, NUL ∉ h.name)
    (hfit : (statusLine c.requestInfo.httpVersion c.statusCode
      (mgGetResponseCodeText c.statusCode)).length ≤ INT_MAX)
    (hheader : ∀ h ∈ c.responseHeaders, (headerText h.name h.value).length ≤ INT_MAX)
    (hdate : ∀ t, (headerText (ascii "Date") (gmtTimeString t)).length ≤ INT_MAX)
    (hnet : TakesWrites (n + 69) c.out) :
    ∃ out t, mgResponseHeaderSend gmtTimeString c =
        (0, { c with requestState := 3, out := out, responseHeaders := [] }) ∧
      out.sent = c.out.sent ++
        responseHead c.toConn c.statusCode c.responseHeaders (gmtTimeString t) ∧
      TakesWrites n out := by
  have hconnection : (headerText (ascii "Connection") (suggestConnectionHeader c.toConn)).length ≤
      INT_MAX := by
    rw [suggestConnectionHeader]
    split_ifs <;> decide
  obtain ⟨o1, h1, hs1, hn1⟩ := sendStatus_sends { c with requestState := 2 } (n + 68) hstatus hfit hnet
  obtain ⟨st2, o2, h2, hs2, hn2⟩ := sendHeaders_sends { c with requestState := 10, out := o1 }
    c.responseHeaders (n + 4) hheader (takesWrites_le _ _ _ (by
      have : mgMaxHeaders = 64 := rfl
      omega) hn1)
  obtain ⟨st3, o3, t, h3, hs3, hn3⟩ : ∃ st3 o3 t,
      (if hasHeader (ascii "Date") c.responseHeaders then
          ({ c with requestState := st2, out := o2 } : ResponseConn)
        else sendDate gmtTimeString { c with requestState := st2, out := o2 }) =
        { c with requestState := st3, out := o3 } ∧
      o3.sent = o2.sent ++ (if named (ascii "Date") c.responseHeaders then []
        else headerText (ascii "Date") (gmtTimeString t)) ∧ TakesWrites (n + 2) o3 := by
    by_cases hd : hasHeader (ascii "Date") c.responseHeaders = true
    · simp only [if_pos hd, if_pos ((hasHeader_iff _ _ (by decide) hnul).mp hd)]
      exact ⟨st2, o2, 0, rfl, by simp, takesWrites_le _ _ _ (by omega) hn2⟩
    · simp only [if_neg hd, if_neg (fun h => hd ((hasHeader_iff _ _ (by decide) hnul).mpr h))]
      obtain ⟨o3, t, h3, hs3, hn3⟩ := sendDate_sends gmtTimeString
        { c with requestState := st2, out := o2 } (n + 2) hdate hn2
      exact ⟨10, o3, t, h3, hs3, hn3⟩
  obtain ⟨st4, o4, h4, hs4, hn4⟩ : ∃ st4 o4,
      (if hasHeader (ascii "Connection") c.responseHeaders then
          ({ c with requestState := st3, out := o3 } : ResponseConn)
        else (mgPrintf { c with requestState := st3, out := o3 }
          (headerText (ascii "Connection") (suggestConnectionHeader c.toConn))).2) =
        { c with requestState := st4, out := o4 } ∧
      o4.sent = o3.sent ++ (if named (ascii "Connection") c.responseHeaders then []
        else headerText (ascii "Connection") (suggestConnectionHeader c.toConn)) ∧
      TakesWrites (n + 1) o4 := by
    by_cases hd : hasHeader (ascii "Connection") c.responseHeaders = true
    · rw [if_pos hd, if_pos ((hasHeader_iff _ _ (by decide) hnul).mp hd)]
      exact ⟨st3, o3, rfl, by simp, takesWrites_pred _ _ hn3⟩
    · rw [if_neg hd, if_neg (fun h => hd ((hasHeader_iff _ _ (by decide) hnul).mpr h))]
      obtain ⟨o4, h4, hs4, hn4⟩ := mgPrintf_sends { c with requestState := st3, out := o3 } _ (n + 1)
        (headerText_ne_nil _ _) hconnection hn3
      exact ⟨10, o4, by rw [h4], hs4, hn4⟩
  obtain ⟨o5, h5, hs5, hn5⟩ := write_sends { c with requestState := st4, out := o4 } CRLF n
    (by decide) hn4
  refine ⟨o5, t, ?_, ?_, hn5⟩
  · rw [mgResponseHeaderSend, hserver, hstate]
    simp only [Bool.not_true, Bool.false_eq_true, if_false, ne_eq, not_true_eq_false, h1, h2, h3, h4,
      h5, freeBufferedResponseHeaderList]
  · rw [hs5]
    dsimp only
    rw [hs4, hs3, hs2, hs1]
    simp only [responseHead, List.append_assoc]

/-- The header list after `adds` were asked for on a connection that collects headers. -/
def withHeaders (c : ResponseConn) (hs : List MgHeader) : ResponseConn :=
  { c with responseHeaders := (c.responseHeaders ++ hs).take mgMaxHeaders }

theorem withHeaders_nil (c : ResponseConn) (hfull : c.responseHeaders.length ≤ mgMaxHeaders) :
    withHeaders c [] = c := by
  rw [withHeaders, List.append_nil, List.take_of_length_le hfull]

theorem take_append_take (hs hs' : List MgHeader) :
    (hs.take mgMaxHeaders ++ hs').take mgMaxHeaders = (hs ++ hs').take mgMaxHeaders := by
  rw [List.take_append, List.take_append, List.take_take, Nat.min_self, List.length_take]
  by_cases hlen : hs.length ≤ mgMaxHeaders
  · rw [Nat.min_eq_right hlen]
  · rw [Nat.min_eq_left (by omega), Nat.sub_self, Nat.sub_eq_zero_of_le (by omega)]

theorem withHeaders_append (c : ResponseConn) (hs hs' : List MgHeader) :
    withHeaders (withHeaders c hs) hs' = withHeaders c (hs ++ hs') := by
  simp only [withHeaders, take_append_take, List.append_assoc]

theorem withHeaders_length (c : ResponseConn) (hs : List MgHeader) :
    (withHeaders c hs).responseHeaders.length ≤ mgMaxHeaders := by
  rw [withHeaders, List.length_take]
  omega

theorem mgResponseHeaderAdd_refused (c : ResponseConn) (header value : List Byte) (valueLen : Int)
    (hserver : c.isHttpRequest = true) (hstate : c.requestState ≠ 1) :
    mgResponseHeaderAdd c (some header) (some value) valueLen = (-3, c) := by
  simp [mgResponseHeaderAdd, hserver, hstate]

theorem mgResponseHeaderAdd_adds (c : ResponseConn) (header value : List Byte) (valueLen : Int)
    (hserver : c.isHttpRequest = true) (hstate : c.requestState = 1)
    (hfull : c.responseHeaders.length ≤ mgMaxHeaders) :
    (mgResponseHeaderAdd c (some header) (some value) valueLen).2 =
      withHeaders c (ResponseCall.add (some header) (some value) valueLen).headers := by
  rw [mgResponseHeaderAdd, hserver, hstate]
  simp only [Bool.not_true, Bool.false_eq_true, if_false, ne_eq, not_true_eq_false, withHeaders,
    ResponseCall.headers]
  by_cases hmax : mgMaxHeaders ≤ c.responseHeaders.length
  · rw [if_pos hmax, List.take_append_of_le_length hmax, List.take_of_length_le hfull]
  · have hroom : (c.responseHeaders ++ [(⟨cstr header,
        if 0 ≤ valueLen then value.take valueLen.toNat else cstr value⟩ : MgHeader)]).length ≤
        mgMaxHeaders := by
      rw [List.length_append, List.length_singleton]
      omega
    rw [if_neg hmax, List.take_of_length_le hroom, ← hstate]

theorem mgResponseHeaderSend_refused (c : ResponseConn) (hserver : c.isHttpRequest = true)
    (hstate : c.requestState ≠ 1) : mgResponseHeaderSend gmtTimeString c = (-3, c) := by
  simp [mgResponseHeaderSend, hserver, hstate]

theorem mgResponseHeaderStart_refused (c : ResponseConn) (status : Int)
    (hstatus : validStatus status = true) (hserver : c.isHttpRequest = true)
    (hstate : c.requestState ≠ 0) : mgResponseHeaderStart c status = (-3, c) := by
  have hrange : ¬ (status < 100 ∨ 999 < status) := by
    simp only [validStatus, Bool.and_eq_true, decide_eq_true_eq] at hstatus
    omega
  simp [mgResponseHeaderStart, hrange, hserver, hstate]

theorem addLinesLoop_adds (c : ResponseConn) (ret : Int) (hs : List MgHeader) :
    (addLinesLoop c ret hs).2 = responseRun gmtTimeString c (hs.map addCall) := by
  induction hs generalizing c ret with
  | nil => rfl
  | cons h hs ih =>
    rw [addLinesLoop, List.map_cons, responseRun, List.foldl_cons]
    exact ih _ _

theorem responseRun_append (c : ResponseConn) (first rest : List ResponseCall) :
    responseRun gmtTimeString c (first ++ rest) =
      responseRun gmtTimeString (responseRun gmtTimeString c first) rest := by
  rw [responseRun, List.foldl_append]
  rfl

theorem responseRun_cons (c : ResponseConn) (call : ResponseCall) (rest : List ResponseCall) :
    responseRun gmtTimeString c (call :: rest) =
      responseRun gmtTimeString (responseCall gmtTimeString c call).2 rest := rfl

theorem refusedAdds_run (c : ResponseConn) (hs : List MgHeader) (hserver : c.isHttpRequest = true)
    (hstate : c.requestState ≠ 1) : responseRun gmtTimeString c (hs.map addCall) = c := by
  induction hs with
  | nil => rfl
  | cons h hs ih =>
    rw [List.map_cons, responseRun_cons]
    simp only [responseCall, addCall, mgResponseHeaderAdd_refused c h.name h.value (-1) hserver hstate]
    exact ih

/-- The header list that lines are added to is the one that adding them one by one gives. -/
theorem addLines_run (c : ResponseConn) (text : List Byte) :
    (responseCall gmtTimeString c (.addLines text)).2 =
      responseRun gmtTimeString c ((ResponseCall.addLines text).headers.map addCall) := by
  simp only [responseCall, mgResponseHeaderAddLines, ResponseCall.headers]
  split_ifs with hok
  · exact addLinesLoop_adds gmtTimeString c _ _
  · rfl

theorem parsed_headers_bytes (text : List Byte) :
    ∀ h ∈ (ResponseCall.addLines text).headers, NUL ∉ h.name ∧ cstr h.value = h.value := by
  intro h hmem
  simp only [ResponseCall.headers] at hmem
  split_ifs at hmem with hok
  · obtain ⟨line, hline⟩ := headersLoop_headerLine _ _ h hmem
    have hvalue : ∀ a, valueByte a = true → a ≠ NUL := byte_all _ (by decide +kernel)
    refine ⟨fun hn => absurd (hline.name_bytes NUL hn) (by decide), ?_⟩
    exact List.takeWhile_eq_self_iff.mpr (fun a ha => by
      simpa using hvalue a (hline.value_bytes a ha))
  · cases hmem

theorem addCall_headers (text : List Byte) (h : MgHeader)
    (hmem : h ∈ (ResponseCall.addLines text).headers) : (addCall h).headers = [h] := by
  obtain ⟨hname, hvalue⟩ := parsed_headers_bytes text h hmem
  simp [addCall, ResponseCall.headers, cstr_of_no_nul h.name hname, hvalue]

theorem adds_run (c : ResponseConn) (hs : List MgHeader) (hserver : c.isHttpRequest = true)
    (hstate : c.requestState = 1) (hfull : c.responseHeaders.length ≤ mgMaxHeaders)
    (hself : ∀ h ∈ hs, (addCall h).headers = [h]) :
    responseRun gmtTimeString c (hs.map addCall) = withHeaders c hs := by
  induction hs generalizing c with
  | nil => exact (withHeaders_nil c hfull).symm
  | cons h hs ih =>
    have hadd := mgResponseHeaderAdd_adds c h.name h.value (-1) hserver hstate hfull
    have hone : (ResponseCall.add (some h.name) (some h.value) (-1)).headers = [h] := hself h (by simp)
    rw [hone] at hadd
    rw [List.map_cons, responseRun_cons]
    simp only [responseCall, addCall, hadd]
    rw [ih (withHeaders c [h]) hserver hstate (withHeaders_length c [h])
      (fun h' hmem => hself h' (by simp [hmem])), withHeaders_append]
    rfl

/-- While headers are collected, a call adds its headers as far as there is room. -/
theorem adding_call (c : ResponseConn) (call : ResponseCall) (hserver : c.isHttpRequest = true)
    (hstate : c.requestState = 1) (hfull : c.responseHeaders.length ≤ mgMaxHeaders)
    (hcall : call.closes = false) :
    (responseCall gmtTimeString c call).2 = withHeaders c call.headers := by
  cases call with
  | start status =>
    have hsame : (mgResponseHeaderStart c status).2 = c := by
      rw [mgResponseHeaderStart, hserver, hstate]
      split_ifs <;> simp_all
    exact hsame.trans (withHeaders_nil c hfull).symm
  | add header value valueLen =>
    cases header with
    | none => exact (withHeaders_nil c hfull).symm
    | some header =>
      cases value with
      | none => exact (withHeaders_nil c hfull).symm
      | some value => exact mgResponseHeaderAdd_adds c header value valueLen hserver hstate hfull
  | addLines text =>
    rw [addLines_run, adds_run gmtTimeString c _ hserver hstate hfull (addCall_headers text)]
  | send => cases hcall
  | write buf =>
    have hlong : INT_MAX < buf.length := by simpa [ResponseCall.closes] using hcall
    have hsame : (c.write buf).2 = c := by
      rw [ResponseConn.write, if_pos hlong]
    exact hsame.trans (withHeaders_nil c hfull).symm

theorem adding_run (c : ResponseConn) (calls : List ResponseCall) (hserver : c.isHttpRequest = true)
    (hstate : c.requestState = 1) (hfull : c.responseHeaders.length ≤ mgMaxHeaders)
    (hcalls : ∀ call ∈ calls, call.closes = false) :
    responseRun gmtTimeString c calls = withHeaders c (calls.flatMap ResponseCall.headers) := by
  induction calls generalizing c with
  | nil => exact (withHeaders_nil c hfull).symm
  | cons call calls ih =>
    rw [responseRun_cons, adding_call gmtTimeString c call hserver hstate hfull (hcalls call (by simp)),
      ih (withHeaders c call.headers) hserver hstate (withHeaders_length c _)
        (fun call' hmem => hcalls call' (by simp [hmem])), withHeaders_append]
    rfl

/-- Before a response begins no call leaves a trace. -/
theorem fresh_call (c : ResponseConn) (call : ResponseCall) (hserver : c.isHttpRequest = true)
    (hstate : c.requestState = 0) (hcall : call.begins = false) :
    (responseCall gmtTimeString c call).2 = c := by
  cases call with
  | start status =>
    have hrange : status < 100 ∨ 999 < status := by
      simp only [ResponseCall.begins, validStatus, Bool.and_eq_false_iff, decide_eq_false_iff_not]
        at hcall
      omega
    simp [responseCall, mgResponseHeaderStart, hrange]
  | add header value valueLen =>
    cases header with
    | none => rfl
    | some header =>
      cases value with
      | none => rfl
      | some value =>
        simp only [responseCall, mgResponseHeaderAdd_refused c header value valueLen hserver
          (by omega)]
  | addLines text =>
    rw [addLines_run, refusedAdds_run gmtTimeString c _ hserver (by omega)]
  | send => simp only [responseCall, mgResponseHeaderSend_refused gmtTimeString c hserver (by omega)]
  | write buf =>
    have hlong : INT_MAX < buf.length := by simpa [ResponseCall.begins] using hcall
    simp [responseCall, ResponseConn.write, hlong]

theorem fresh_run (c : ResponseConn) (calls : List ResponseCall) (hserver : c.isHttpRequest = true)
    (hstate : c.requestState = 0) (hcalls : ∀ call ∈ calls, call.begins = false) :
    responseRun gmtTimeString c calls = c := by
  induction calls with
  | nil => rfl
  | cons call calls ih =>
    rw [responseRun_cons, fresh_call gmtTimeString c call hserver hstate (hcalls call (by simp))]
    exact ih (fun call' hmem => hcalls call' (by simp [hmem]))

/-- After the head or the first data, writes are all that goes to the wire. -/
theorem closed_run (c : ResponseConn) (calls : List ResponseCall) (hserver : c.isHttpRequest = true)
    (h0 : c.requestState ≠ 0) (h1 : c.requestState ≠ 1) (hnet : TakesWrites calls.length c.out) :
    ∃ state out, responseRun gmtTimeString c calls = { c with requestState := state, out := out } ∧
      state ≠ 0 ∧ state ≠ 1 ∧ out.sent = c.out.sent ++ writtenData calls := by
  induction calls generalizing c with
  | nil => exact ⟨c.requestState, c.out, rfl, h0, h1, by simp [writtenData]⟩
  | cons call calls ih =>
    have hquiet (hsame : (responseCall gmtTimeString c call).2 = c)
        (hdata : writtenData (call :: calls) = writtenData calls) :
        ∃ state out, responseRun gmtTimeString c (call :: calls) =
          { c with requestState := state, out := out } ∧
          state ≠ 0 ∧ state ≠ 1 ∧ out.sent = c.out.sent ++ writtenData (call :: calls) := by
      rw [responseRun_cons, hsame, hdata]
      exact ih c hserver h0 h1 (takesWrites_pred _ _ hnet)
    cases call with
    | start status =>
      refine hquiet ?_ rfl
      simp only [responseCall, mgResponseHeaderStart, hserver]
      split_ifs <;> rfl
    | add header value valueLen =>
      refine hquiet ?_ rfl
      cases header with
      | none => rfl
      | some header =>
        cases value with
        | none => rfl
        | some value =>
          simp only [responseCall, mgResponseHeaderAdd_refused c header value valueLen hserver h1]
    | addLines text =>
      refine hquiet ?_ rfl
      rw [addLines_run, refusedAdds_run gmtTimeString c _ hserver h1]
    | send =>
      refine hquiet ?_ rfl
      simp only [responseCall, mgResponseHeaderSend_refused gmtTimeString c hserver h1]
    | write buf =>
      by_cases hbuf : buf.length ≤ INT_MAX
      · obtain ⟨out, hw, hsent, hrest⟩ := write_sends c buf calls.length hbuf hnet
        obtain ⟨state, out', hrun, h0', h1', hsent'⟩ := ih { c with requestState := 10, out := out }
          hserver (by simp) (by simp) hrest
        refine ⟨state, out', ?_, h0', h1', ?_⟩
        · rw [responseRun_cons]
          simp only [responseCall, hw]
          exact hrun
        · rw [hsent', hsent]
          simp [writtenData, hbuf]
      · refine hquiet ?_ (by simp [writtenData, hbuf])
        simp [responseCall, ResponseConn.write, Nat.lt_of_not_le hbuf]

/-- The connection after a start that was accepted. -/
def startedConn (c : ResponseConn) (status : Int) : ResponseConn :=
  { c with statusCode := status, requestState := 1, responseHeaders := [] }

theorem opened_run (c : ResponseConn) (calls : List ResponseCall) (status : Int)
    (adds : List ResponseCall) (hserver : c.isHttpRequest = true) (hfresh : c.requestState = 0)
    (ho : Opened calls status adds) :
    responseRun gmtTimeString c calls =
      { startedConn c status with responseHeaders := acceptedHeaders adds } := by
  obtain ⟨before, hbefore, hstatus, hadds, rfl⟩ := ho
  have hrange : ¬ (status < 100 ∨ 999 < status) := by
    simp only [validStatus, Bool.and_eq_true, decide_eq_true_eq] at hstatus
    omega
  have hstart : (responseCall gmtTimeString c (.start status)).2 = startedConn c status := by
    simp [responseCall, mgResponseHeaderStart, hrange, hserver, hfresh, startedConn,
      freeBufferedResponseHeaderList]
  rw [responseRun_append, fresh_run gmtTimeString c before hserver hfresh hbefore, responseRun_cons,
    hstart, adding_run gmtTimeString (startedConn c status) adds hserver rfl (Nat.zero_le _) hadds]
  simp [withHeaders, startedConn, acceptedHeaders]

theorem acceptedHeaders_mem (adds : List ResponseCall) (h : MgHeader)
    (hmem : h ∈ acceptedHeaders adds) : ∃ call ∈ adds, h ∈ call.headers := by
  simpa using List.mem_of_mem_take hmem

theorem headers_noNul (call : ResponseCall) (h : MgHeader) (hmem : h ∈ call.headers) :
    NUL ∉ h.name := by
  cases call with
  | add header value valueLen =>
    cases header with
    | none => cases hmem
    | some header =>
      cases value with
      | none => cases hmem
      | some value =>
        rw [ResponseCall.headers, List.mem_singleton] at hmem
        rw [hmem]
        exact cstr_noNul header
  | addLines text => exact (parsed_headers_bytes text h hmem).1
  | start status => cases hmem
  | send => cases hmem
  | write buf => cases hmem

theorem headSent_run (c : ResponseConn) (calls : List ResponseCall) (status : Int)
    (adds post : List ResponseCall) (hserver : c.isHttpRequest = true) (hfresh : c.requestState = 0)
    (hnet : TakesWrites (70 * calls.length) c.out) (hfit : LinesFit gmtTimeString c.toConn calls)
    (hsent : HeadSent calls status adds post) :
    ∃ state out t, responseRun gmtTimeString c calls =
        { startedConn c status with requestState := state, out := out } ∧
      state ≠ 0 ∧ state ≠ 1 ∧
      out.sent = c.out.sent ++ responseHead c.toConn status (acceptedHeaders adds) (gmtTimeString t) ++
        writtenData post := by
  obtain ⟨first, hopened, rfl⟩ := hsent
  have hrun := opened_run gmtTimeString c first status adds hserver hfresh hopened
  obtain ⟨before, -, hstatus, -, hfirst⟩ := hopened
  obtain ⟨d, hd⟩ : ∃ d : ResponseConn,
      d = { startedConn c status with responseHeaders := acceptedHeaders adds } := ⟨_, rfl⟩
  rw [← hd] at hrun
  have hcalls (h : MgHeader) (hmem : h ∈ d.responseHeaders) : ∃ call ∈ adds, h ∈ call.headers := by
    rw [hd] at hmem
    exact acceptedHeaders_mem adds h hmem
  have hfull : d.responseHeaders.length ≤ mgMaxHeaders := by
    rw [hd]
    exact List.length_take_le _ _
  have hheader (h : MgHeader) (hmem : h ∈ d.responseHeaders) :
      (headerText h.name h.value).length ≤ INT_MAX := by
    obtain ⟨call, hcall, hh⟩ := hcalls h hmem
    exact hfit.header call (by simp [hfirst, hcall]) h hh
  have hbudget : post.length + 69 ≤ 70 * (first ++ .send :: post).length := by
    rw [List.length_append, List.length_cons]
    omega
  obtain ⟨out, t, hsend, hhead, hrest⟩ := mgResponseHeaderSend_sends gmtTimeString d post.length
    (by rw [hd]; exact hserver) (by rw [hd]; rfl) (by rw [hd]; exact hstatus) hfull
    (fun h hmem => (hcalls h hmem).elim (fun call hc => headers_noNul call h hc.2))
    (by rw [hd]; exact hfit.status status hstatus) hheader hfit.date
    (by rw [hd]; exact takesWrites_le _ _ _ hbudget hnet)
  obtain ⟨state, out', hpost, h0, h1, hdata⟩ := closed_run gmtTimeString
    { d with requestState := 3, out := out, responseHeaders := [] } post
    (by rw [hd]; exact hserver) (by simp) (by simp) hrest
  refine ⟨state, out', t, ?_, h0, h1, ?_⟩
  · rw [responseRun_append, hrun, responseRun_cons]
    simp only [responseCall, hsend]
    rw [hpost, hd]
    rfl
  · rw [hdata]
    dsimp only
    rw [hhead, hd]
    rfl

theorem split_first (p : ResponseCall → Bool) (calls : List ResponseCall) :
    (∀ call ∈ calls, p call = false) ∨
      ∃ before call post, calls = before ++ call :: post ∧ (∀ c ∈ before, p c = false) ∧
        p call = true := by
  cases h : calls.find? p with
  | none => exact Or.inl (by simpa using List.find?_eq_none.mp h)
  | some call =>
    obtain ⟨hp, before, post, hcalls, hbefore⟩ := List.find?_eq_some_iff_append.mp h
    exact Or.inr ⟨before, call, post, hcalls, by simpa using hbefore, hp⟩

/-- Data was written before a head could be sent. -/
def Spoiled (calls : List ResponseCall) : Prop :=
  ∃ before buf post, calls = before ++ ResponseCall.write buf :: post ∧ buf.length ≤ INT_MAX ∧
    ((∀ call ∈ before, call.begins = false) ∨ ∃ status adds, Opened before status adds)

theorem calls_cases (calls : List ResponseCall) :
    (∀ call ∈ calls, call.begins = false) ∨ (∃ status adds, Opened calls status adds) ∨
      (∃ status adds post, HeadSent calls status adds post) ∨ Spoiled calls := by
  rcases split_first ResponseCall.begins calls with h | ⟨before, call, rest, rfl, hbefore, hcall⟩
  · exact Or.inl h
  cases call with
  | start status =>
    rcases split_first ResponseCall.closes rest with h | ⟨adds, call, post, rfl, hadds, hclose⟩
    · exact Or.inr (Or.inl ⟨status, rest, before, hbefore, hcall, h, rfl⟩)
    have hopened : Opened (before ++ .start status :: adds) status adds :=
      ⟨before, hbefore, hcall, hadds, rfl⟩
    cases call with
    | send => exact Or.inr (Or.inr (Or.inl ⟨status, adds, post, _, hopened, by simp⟩))
    | write buf =>
      exact Or.inr (Or.inr (Or.inr ⟨_, buf, post, by simp, by simpa [ResponseCall.closes] using hclose,
        Or.inr ⟨status, adds, hopened⟩⟩))
    | start status => cases hclose
    | add header value valueLen => cases hclose
    | addLines text => cases hclose
  | write buf =>
    exact Or.inr (Or.inr (Or.inr ⟨before, buf, rest, rfl,
      by simpa [ResponseCall.begins] using hcall, Or.inl hbefore⟩))
  | add header value valueLen => cases hcall
  | addLines text => cases hcall
  | send => cases hcall

theorem writtenData_append (first rest : List ResponseCall) :
    writtenData (first ++ rest) = writtenData first ++ writtenData rest := List.flatMap_append

theorem writtenData_quiet (calls : List ResponseCall)
    (h : ∀ buf, .write buf ∈ calls → INT_MAX < buf.length) : writtenData calls = [] := by
  rw [writtenData, List.flatMap_eq_nil_iff]
  intro call hmem
  cases call with
  | write buf =>
    have := h buf hmem
    exact if_neg (by omega)
  | _ => rfl

theorem fresh_quiet (calls : List ResponseCall) (h : ∀ call ∈ calls, call.begins = false) :
    writtenData calls = [] :=
  writtenData_quiet calls (fun _ hmem => by simpa [ResponseCall.begins] using h _ hmem)

theorem opened_quiet (calls : List ResponseCall) (status : Int) (adds : List ResponseCall)
    (h : Opened calls status adds) : writtenData calls = [] := by
  obtain ⟨before, hbefore, -, hadds, rfl⟩ := h
  have hrest : writtenData (.start status :: adds) = [] :=
    writtenData_quiet _ (fun buf hmem => by
      have hmem' : .write buf ∈ adds := by simpa using hmem
      simpa [ResponseCall.closes] using hadds _ hmem')
  rw [writtenData_append, fresh_quiet before hbefore, hrest]
  rfl

theorem spoiled_run (c : ResponseConn) (calls : List ResponseCall) (hserver : c.isHttpRequest = true)
    (hfresh : c.requestState = 0) (hnet : TakesWrites calls.length c.out) (h : Spoiled calls) :
    let d := responseRun gmtTimeString c calls
    d.isHttpRequest = true ∧ d.requestState ≠ 0 ∧ d.requestState ≠ 1 ∧
      d.out.sent = c.out.sent ++ writtenData calls := by
  obtain ⟨before, buf, post, rfl, hbuf, hbefore⟩ := h
  obtain ⟨d, hd, hserver', hout, hquiet⟩ : ∃ d, responseRun gmtTimeString c before = d ∧
      d.isHttpRequest = true ∧ d.out = c.out ∧ writtenData before = [] := by
    rcases hbefore with hbefore | ⟨status, adds, ho⟩
    · exact ⟨c, fresh_run gmtTimeString c before hserver hfresh hbefore, hserver, rfl,
        fresh_quiet before hbefore⟩
    · exact ⟨_, opened_run gmtTimeString c before status adds hserver hfresh ho, hserver, rfl,
        opened_quiet before status adds ho⟩
  rw [← hout] at hnet
  obtain ⟨out, hw, hsent, hrest⟩ := write_sends d buf post.length hbuf
    (takesWrites_le _ _ _ (by rw [List.length_append, List.length_cons]; omega) hnet)
  obtain ⟨state, out', hpost, h0, h1, hdata⟩ := closed_run gmtTimeString
    { d with requestState := 10, out := out } post hserver' (by simp) (by simp) hrest
  have hrun : responseRun gmtTimeString c (before ++ .write buf :: post) =
      { d with requestState := state, out := out' } := by
    rw [responseRun_append, hd, responseRun_cons]
    simp only [responseCall, hw]
    exact hpost
  intro e
  have he : e = { d with requestState := state, out := out' } := hrun
  rw [he]
  refine ⟨hserver', h0, h1, ?_⟩
  dsimp only
  rw [hdata, writtenData_append, hquiet]
  dsimp only
  rw [hsent, hout]
  simp [writtenData, hbuf]

/-- The stages that a connection goes through while a handler answers. -/
theorem run_stage (c : ResponseConn) (calls : List ResponseCall) (hserver : c.isHttpRequest = true)
    (hfresh : c.requestState = 0) (hnet : TakesWrites (70 * calls.length) c.out)
    (hfit : LinesFit gmtTimeString c.toConn calls) :
    let d := responseRun gmtTimeString c calls
    d.isHttpRequest = true ∧
      (((∀ call ∈ calls, call.begins = false) ∧ d.requestState = 0 ∧ d.out = c.out) ∨
        ((∃ status adds, Opened calls status adds) ∧ d.requestState = 1 ∧
          d.responseHeaders.length ≤ mgMaxHeaders ∧ d.out = c.out) ∨
        (d.requestState ≠ 0 ∧ d.requestState ≠ 1 ∧
          ((∃ status adds post, HeadSent calls status adds post) ∨
            d.out.sent = c.out.sent ++ writtenData calls))) := by
  rcases calls_cases calls with h | ⟨status, adds, ho⟩ | ⟨status, adds, post, hs⟩ | hspoiled
  · have hrun := fresh_run gmtTimeString c calls hserver hfresh h
    exact ⟨by rw [hrun]; exact hserver, Or.inl ⟨h, by rw [hrun]; exact hfresh, by rw [hrun]⟩⟩
  · have hrun := opened_run gmtTimeString c calls status adds hserver hfresh ho
    exact ⟨by rw [hrun]; exact hserver, Or.inr (Or.inl ⟨⟨status, adds, ho⟩, by rw [hrun]; rfl,
      by rw [hrun]; exact List.length_take_le _ _, by rw [hrun]; rfl⟩)⟩
  · obtain ⟨state, out, t, hrun, h0, h1, -⟩ :=
      headSent_run gmtTimeString c calls status adds post hserver hfresh hnet hfit hs
    exact ⟨by rw [hrun]; exact hserver, Or.inr (Or.inr ⟨by rw [hrun]; exact h0, by rw [hrun]; exact h1,
      Or.inl ⟨status, adds, post, hs⟩⟩)⟩
  · obtain ⟨hreq, h0, h1, hdata⟩ := spoiled_run gmtTimeString c calls hserver hfresh
      (takesWrites_le _ _ _ (by omega) hnet) hspoiled
    exact ⟨hreq, Or.inr (Or.inr ⟨h0, h1, Or.inr hdata⟩)⟩

theorem HeaderText.headers (hs : List MgHeader) (text : List Byte) (ht : HeaderText hs text) (n : Nat) :
    ∃ written rest, headersLoop n (text ++ [NUL]) = ⟨true, hs.take n, written, rest⟩ := by
  induction ht generalizing n with
  | nil => exact ⟨[], [NUL], by rw [List.take_nil]; exact headersLoop_stuck n [NUL] rfl⟩
  | last h line hl =>
    cases n with
    | zero => exact ⟨[], _, rfl⟩
    | succ n =>
      obtain ⟨w, hstep⟩ := headerStep_lastLine h line hl
      refine ⟨w, [NUL], ?_⟩
      rw [headersLoop, hstep]
      simp
  | cons h line e hs text hl ht ih =>
    cases n with
    | zero => exact ⟨[], _, rfl⟩
    | succ n =>
      obtain ⟨w, -, hstep⟩ := headerStep_line h line hl e (text ++ [NUL])
      obtain ⟨ws, rest, hrec⟩ := ih n
      rw [← List.append_assoc] at hstep
      rw [headersLoop_field n _ _ _ _ _ hstep, hrec]
      exact ⟨w ++ ws, rest, rfl⟩

theorem HeaderText.noNul (hs : List MgHeader) (text : List Byte) (ht : HeaderText hs text) :
    NUL ∉ text := by
  induction ht with
  | nil => simp
  | last h line hl => exact fun hmem => (hl.bytes h line NUL hmem).2 rfl
  | cons h line e hs text hl ht ih =>
    simp only [List.mem_append, not_or]
    exact ⟨⟨fun hmem => (hl.bytes h line NUL hmem).2 rfl, fun hmem => (e.bytes_eol NUL hmem).2 rfl⟩, ih⟩

theorem HeaderText.addCall_headers (hs : List MgHeader) (text : List Byte) (ht : HeaderText hs text) :
    ∀ h ∈ hs, (addCall h).headers = [h] := by
  have hline (h : MgHeader) (line : List Byte) (hl : HeaderLine h line) : (addCall h).headers = [h] := by
    have hname : NUL ∉ h.name := fun hmem => absurd (hl.name_bytes NUL hmem) (by decide)
    have hvalue : NUL ∉ h.value := fun hmem => absurd (hl.value_bytes NUL hmem) (by decide)
    simp [addCall, ResponseCall.headers, cstr_of_no_nul h.name hname, cstr_of_no_nul h.value hvalue]
  induction ht with
  | nil => simp
  | last h line hl => simpa using hline h line hl
  | cons h line e hs text hl ht ih =>
    intro h' hmem
    rcases List.mem_cons.mp hmem with rfl | hmem
    · exact hline h' line hl
    · exact ih h' hmem

/-- Adding a text of header lines is adding its lines one after another. -/
theorem headerText_run (c : ResponseConn) (hs : List MgHeader) (text : List Byte)
    (ht : HeaderText hs text) (hserver : c.isHttpRequest = true)
    (hfull : c.requestState = 1 → c.responseHeaders.length ≤ mgMaxHeaders) :
    (mgResponseHeaderAddLines c text).2 = responseRun gmtTimeString c (hs.map addCall) := by
  obtain ⟨written, rest, hparse⟩ := ht.headers hs text mgMaxHeaders
  have hheaders : (ResponseCall.addLines text).headers = hs.take mgMaxHeaders := by
    simp only [ResponseCall.headers, cstr_of_no_nul text (ht.noNul hs text), parseHttpHeaders, hparse,
      if_true]
  have hadd := addLines_run gmtTimeString c text
  rw [hheaders] at hadd
  refine hadd.trans ?_
  by_cases hstate : c.requestState = 1
  · have hself := ht.addCall_headers hs text
    rw [adds_run gmtTimeString c _ hserver hstate (hfull hstate) hself,
      adds_run gmtTimeString c _ hserver hstate (hfull hstate)
        (fun h hmem => hself h (List.mem_of_mem_take hmem))]
    simp only [withHeaders, List.take_append, List.take_take]
    rw [Nat.min_eq_left (Nat.sub_le _ _)]
  · rw [refusedAdds_run gmtTimeString c _ hserver hstate, refusedAdds_run gmtTimeString c _ hserver hstate]

/-- Whatever calls a handler makes in answer to a request: a call made too early or too late is
refused and changes nothing, lines are added one by one, and the wire gets the written data
alone, or one complete head and the data written after it. -/
theorem responseHead_once (c : ResponseConn) (calls : List ResponseCall)
    (hserver : c.connectionType = .request) (hhttp : c.protocolType = PROTOCOL_TYPE_HTTP1)
    (hfresh : c.requestState = 0) (hnet : TakesWrites (70 * calls.length) c.out)
    (hfit : LinesFit gmtTimeString c.toConn calls) :
    let d := responseRun gmtTimeString c calls
    ((∃ call ∈ calls, call.begins = true) → ∀ status, validStatus status = true →
      mgResponseHeaderStart d status = (-3, d)) ∧
    ((¬ ∃ status adds, Opened calls status adds) →
      (∀ header value valueLen,
        mgResponseHeaderAdd d (some header) (some value) valueLen = (-3, d)) ∧
      mgResponseHeaderSend gmtTimeString d = (-3, d)) ∧
    (∀ hs text, HeaderText hs text →
      (mgResponseHeaderAddLines d text).2 = responseRun gmtTimeString d (hs.map addCall)) ∧
    (∀ status adds post, HeadSent calls status adds post → ∃ t, d.out.sent = c.out.sent ++
      responseHead c.toConn status (acceptedHeaders adds) (gmtTimeString t) ++ writtenData post) ∧
    ((¬ ∃ status adds post, HeadSent calls status adds post) →
      d.out.sent = c.out.sent ++ writtenData calls) := by
  have hreq : c.isHttpRequest = true := by
    simp [ResponseConn.isHttpRequest, hserver, hhttp, PROTOCOL_TYPE_HTTP1, PROTOCOL_TYPE_WEBSOCKET]
  obtain ⟨hreq', hstage⟩ := run_stage gmtTimeString c calls hreq hfresh hnet hfit
  intro d
  refine ⟨?_, ?_, ?_, ?_, ?_⟩
  · rintro ⟨call, hmem, hbegins⟩ status hstatus
    apply mgResponseHeaderStart_refused d status hstatus hreq'
    rcases hstage with ⟨hquiet, -⟩ | ⟨-, hstate, -⟩ | ⟨hstate, -⟩
    · rw [hquiet call hmem] at hbegins
      cases hbegins
    · exact fun h0 => absurd (hstate.symm.trans h0) (by decide)
    · exact hstate
  · intro hopen
    have hstate : d.requestState ≠ 1 := by
      rcases hstage with ⟨-, hstate, -⟩ | ⟨ho, -⟩ | ⟨-, hstate, -⟩
      · exact fun h1 => absurd (hstate.symm.trans h1) (by decide)
      · exact absurd ho hopen
      · exact hstate
    exact ⟨fun header value valueLen => mgResponseHeaderAdd_refused d header value valueLen hreq' hstate,
      mgResponseHeaderSend_refused gmtTimeString d hreq' hstate⟩
  · intro hs text ht
    refine headerText_run gmtTimeString d hs text ht hreq' (fun hstate => ?_)
    rcases hstage with ⟨-, h0, -⟩ | ⟨-, -, hfull, -⟩ | ⟨-, h1, -⟩
    · exact absurd (h0.symm.trans hstate) (by decide)
    · exact hfull
    · exact absurd hstate h1
  · intro status adds post hsent
    obtain ⟨state, out, t, hrun, -, -, hdata⟩ :=
      headSent_run gmtTimeString c calls status adds post hreq hfresh hnet hfit hsent
    refine ⟨t, ?_⟩
    have hd : d = { startedConn c status with requestState := state, out := out } := hrun
    rw [hd]
    exact hdata
  · intro hnone
    rcases hstage with ⟨hquiet, -, hout⟩ | ⟨⟨status, adds, ho⟩, -, -, hout⟩ | ⟨-, -, hs | hdata⟩
    · rw [fresh_quiet calls hquiet, List.append_nil]
      exact congrArg Output.sent hout
    · rw [opened_quiet calls status adds ho, List.append_nil]
      exact congrArg Output.sent hout
    · exact absurd hs hnone
    · exact hdata

end Send

theorem responseCodeText_length (status : Int) : (mgGetResponseCodeText status).length ≤ 40 := by
  have hlength (text : List Char) (h : text.length ≤ 40) : (ascii (String.ofList text)).length ≤ 40 := by
    rwa [ascii, String.toList_ofList, List.length_map]
  have htable : ∀ p ∈ responseCodeTexts, p.2.length ≤ 40 := by
    simp only [responseCodeTexts, List.forall_mem_cons]
    and_intros
    all_goals first | exact hlength _ (by decide) | exact List.forall_mem_nil _
  rw [mgGetResponseCodeText]
  cases h : responseCodeTexts.lookup status with
  | none =>
    dsimp only
    split_ifs <;> decide
  | some text =>
    obtain ⟨pre, post, hsplit, -⟩ := List.lookup_eq_some_iff.mp h
    exact htable (status, text) (by simp [hsplit])

theorem statusLine_fits (version : List Byte) (status : Int) (hversion : version.length ≤ 2 ^ 20)
    (hstatus : validStatus status = true) :
    (statusLine version status (mgGetResponseCodeText status)).length ≤ INT_MAX := by
  have htext := responseCodeText_length status
  have hdigits := decText_length_le status.toNat 3 (by decide) (by
    simp only [validStatus, Bool.and_eq_true, decide_eq_true_eq] at hstatus
    omega)
  have hfixed : (ascii "HTTP/").length = 5 ∧ CRLF.length = 2 ∧ INT_MAX = 2 ^ 31 - 1 := by decide
  simp only [statusLine, List.length_append, List.length_cons]
  omega

def anyDate (_ : Nat) : List Byte := ascii "Thu, 01 Jan 1970 00:00:00 GMT"

def requestConn : ResponseConn where
  ssl := false
  domains := []
  domCtx := 0
  lsaPort := 80
  sock := []
  buf := []
  dataLen := 0
  requestLen := 0
  contentLen := 0
  consumedContent := 0
  isChunked := 0
  mustClose := false
  handledRequests := 1
  protocolType := PROTOCOL_TYPE_HTTP1
  requestInfo := ⟨ascii "GET", ascii "/", ascii "1.1", []⟩
  infoContentLength := -1
  localUri := some (ascii "/")
  out := ⟨List.replicate 350 (.accept INT_MAX), [], 0, 0, 0, 0, []⟩
  connectionType := .request
  requestState := 0
  statusCode := 0
  responseHeaders := []

theorem responseHead_once_hello :
    ∃ t, (responseRun anyDate requestConn [.start 200, .addLines (ascii "X: y\r\nDate: now"), .send,
        .write (ascii "hi")]).out.sent =
      responseHead requestConn.toConn 200 [⟨ascii "X", ascii "y"⟩, ⟨ascii "Date", ascii "now"⟩]
        (anyDate t) ++ ascii "hi" := by
  have hfit : LinesFit anyDate requestConn.toConn [.start 200,
      .addLines (ascii "X: y\r\nDate: now"), .send, .write (ascii "hi")] :=
    ⟨fun status hstatus => statusLine_fits _ status (by decide) hstatus, by decide,
      fun _ => by rw [anyDate]; decide⟩
  obtain ⟨-, -, -, hsent, -⟩ := responseHead_once anyDate requestConn [.start 200,
    .addLines (ascii "X: y\r\nDate: now"), .send, .write (ascii "hi")] rfl rfl rfl
    (takesWrites_accepting _ 350 _ (by decide) rfl rfl) hfit
  exact hsent 200 [.addLines (ascii "X: y\r\nDate: now")] [.write (ascii "hi")]
    ⟨[.start 200, .addLines (ascii "X: y\r\nDate: now")],
      ⟨[], by decide, rfl, by decide, rfl⟩, rfl⟩

end CivetWeb
