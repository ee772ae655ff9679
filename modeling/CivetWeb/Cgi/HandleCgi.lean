import CivetWeb.Http.RoundTrip
import CivetWeb.Response.HeadOnce
import CivetWeb.Static.SendFile

namespace CivetWeb

/-! ### The output of a CGI program -/

/-- What `read_message` leaves behind on a pipe: its return value, what it has read, the pipe. -/
structure PipeMessage where
  requestLen : Int
  data : List Byte
  pipe : OpenFile
  deriving DecidableEq, Repr

/-- `read_message` on a pipe with a buffer of `bufsiz` bytes; every turn reads a byte at least. `stops` has the
values that the stop flag is found to have, by the loop and by `pull_inner` in turn. -/
def readPipeMessage (bufsiz : Nat) : Nat → List Bool → OpenFile → List Byte → PipeMessage
  | 0, _, pipe, data => ⟨-1, data, pipe⟩
  | turns + 1, stops, pipe, data =>
    let requestLen := getHttpHeaderLen data data.length
    if requestLen ≠ 0 then ⟨requestLen, data, pipe⟩
    else if stops.headD false = true then ⟨-1, data, pipe⟩
    else if bufsiz ≤ data.length then ⟨-2, data, pipe⟩
    else
      match pipe.read (bufsiz - data.length) with
      | (none, pipe) => ⟨-1, data, pipe⟩
      | (some bs, pipe) =>
        if bs = [] ∨ stops.tail.headD false = true then ⟨-1, data, pipe⟩
        else readPipeMessage bufsiz turns stops.tail.tail pipe (data ++ bs)

/-- The status code and text of a response with the headers of a CGI program. -/
def cgiStatus (hs : List MgHeader) : Int × List Byte :=
  match getHeader hs (ascii "Status") with
  | some status => (atoi status, status.dropWhile (fun c => isdigit c || c == SP))
  | none => (if (getHeader hs (ascii "Location")).isSome then 307 else 200, ascii "OK")

/-- `"HTTP/1.1 %d %s\r\n"`. -/
def cgiStatusLine (status : Int × List Byte) : List Byte :=
  ascii "HTTP/1.1 " ++ intText status.1 ++ SP :: status.2 ++ CRLF

/-- What a CGI program is run with. -/
structure CgiConfig where
  prog : List Byte
  maxRequestSize : Nat
  noBuffering : Bool
  allowSendfileCall : List Byte
  deriving DecidableEq, Repr

/-- The end of `handle_cgi_request`, for a head that was read. -/
def forwardCgiOutput (config : CgiConfig) (c : ResponseConn) (m : PipeMessage) (results : List Int) :
    ResponseConn :=
  let headersLen := m.requestLen.toNat
  let parsed := parseHttpHeaders (m.data.set (headersLen - 1) NUL)
  let hs := if parsed.ok then parsed.headers else []
  let c := { c with statusCode := (cgiStatus hs).1 }
  let c := if shouldKeepAlive c.toConn then c else { c with mustClose := true }
  let c := (mgPrintf c (cgiStatusLine (cgiStatus hs))).2
  let c := sendHeaders c hs
  let c := (c.write CRLF).2
  let c := (c.write (m.data.drop headersLen)).2
  let (_, _, out) := sendFileData ⟨c.ssl, config.allowSendfileCall, c.out⟩ m.pipe 0 INT64_MAX
    config.noBuffering results true
  { c with out := out }

/-- How a CGI program is answered for. -/
inductive CgiReply where
  | error (status : Nat) (message : List Byte)
  | forwarded (conn : ResponseConn)

/-- `handle_cgi_request` from the reply of the program on: `output` is all that the program writes, `reads`
has what each `read` of it comes to, `err` is what `pull_all` gets of its error messages and `results` what
`sendfile` returns. -/
def handleCgiOutput (config : CgiConfig) (c : ResponseConn) (output : List Byte) (reads : List (Option Nat))
    (stops : List Bool) (err : List Byte) (results : List Int) : CgiReply :=
  let m := readPipeMessage config.maxRequestSize (config.maxRequestSize + 1) stops ⟨output, 0, 0, reads⟩ []
  if m.requestLen ≤ 0 then
    if err ≠ [] then .error 500 (ascii "Error: CGI program \"" ++ config.prog ++ ascii "\" failed.")
    else
      .error 500 (ascii "Error: CGI program sent malformed or too big (>" ++ decText config.maxRequestSize ++
        ascii " bytes) HTTP headers: [" ++ cstr m.data ++ ascii "]")
  else .forwarded (forwardCgiOutput config c m results)

theorem stops_unset (stops : List Bool) (h : true ∉ stops) : ¬ stops.headD false = true := by
  cases stops with
  | nil => simp
  | cons b stops =>
    rw [List.mem_cons, not_or] at h
    exact fun hb => h.1 hb.symm

/-- However the output is cut, the whole head is read, and no byte is lost. -/
theorem readPipeMessage_head (bufsiz turns : Nat) (stops : List Bool) (pipe : OpenFile)
    (data head body : List Byte) (hne : head ≠ []) (hhead : headerLenFrom 0 head = head.length)
    (hstream : data ++ pipe.rest = head ++ body) (hfits : head.length ≤ bufsiz)
    (hdata : data.length ≤ bufsiz) (hturns : bufsiz - data.length < turns) (hreads : none ∉ pipe.reads)
    (hstops : true ∉ stops) :
    ∃ data' pipe', readPipeMessage bufsiz turns stops pipe data = ⟨head.length, data', pipe'⟩ ∧
      data' ++ pipe'.rest = head ++ body ∧ head.length ≤ data'.length ∧ data'.length ≤ bufsiz ∧
      none ∉ pipe'.reads ∧ pipe'.content = pipe.content ∧ pipe'.size = pipe.size := by
  have hpos := List.length_pos_of_ne_nil hne
  obtain ⟨hshort, hlong⟩ := getHttpHeaderLen_head head hne hhead
  induction turns generalizing stops pipe data with
  | zero => omega
  | succ turns ih =>
    unfold readPipeMessage
    by_cases hall : head.length ≤ data.length
    · -- the head is there, with some of the body behind it
      obtain ⟨ext, hext⟩ : head <+: data :=
        List.prefix_of_prefix_length_le (List.prefix_append head body)
          (by rw [← hstream]; exact List.prefix_append data pipe.rest) hall
      have hfound : getHttpHeaderLen data data.length = head.length := by
        have h := hlong ext data.length hall
        rwa [hext] at h
      have hnonzero : getHttpHeaderLen data data.length ≠ 0 := by
        rw [hfound]
        omega
      dsimp only
      rw [if_pos hnonzero, hfound]
      exact ⟨data, pipe, rfl, hstream, hall, hdata, hreads, rfl, rfl⟩
    · have hpart : data = head.take data.length := by
        have h := congrArg (List.take data.length) hstream
        rwa [List.take_left, List.take_append_of_le_length (by omega)] at h
      have hzero : getHttpHeaderLen data data.length = 0 := by
        have h := hshort data.length (by omega)
        rw [getHttpHeaderLen, ← hpart] at h
        rw [getHttpHeaderLen, List.take_length, h]
      have htail (s : List Bool) (hs : true ∉ s) : true ∉ s.tail := fun h => hs (List.mem_of_mem_tail h)
      dsimp only
      rw [if_neg (not_not.mpr hzero), if_neg (stops_unset stops hstops), if_neg (by omega)]
      obtain ⟨k, reads, hread, hk, hkle, hreads'⟩ := pipe.read_some (bufsiz - data.length) (by omega) hreads
      have hlenrest : data.length + pipe.rest.length = head.length + body.length := by
        have h := congrArg List.length hstream
        simpa only [List.length_append] using h
      have hsome : pipe.rest.take k ≠ [] := by
        apply List.ne_nil_of_length_pos
        rw [List.length_take]
        omega
      have hsome' : ¬ (pipe.rest.take k = [] ∨ stops.tail.headD false = true) := by
        rintro (h | h)
        · exact hsome h
        · exact stops_unset _ (htail _ hstops) h
      have hlen : (pipe.rest.take k).length ≤ k := List.length_take_le _ _
      have hlenpos := List.length_pos_of_ne_nil hsome
      rw [hread]
      dsimp only
      rw [if_neg hsome']
      apply ih
      · rw [List.append_assoc, pipe.take_rest k reads, hstream]
      · rw [List.length_append]
        omega
      · rw [List.length_append]
        omega
      · exact hreads'
      · exact htail _ (htail _ hstops)

/-- The bytes that a CGI program writes: header lines with their ends, an empty line and a body. -/
def cgiText (e : LineEnd) (lines : List (List Byte)) (body : List Byte) : List Byte :=
  lines.flatMap (· ++ e.bytes) ++ e.bytes ++ body

theorem cgiHead_len (e : LineEnd) (hs : List MgHeader) (lines : List (List Byte)) (hne : hs ≠ [])
    (hl : List.Forall₂ PlainLine hs lines) :
    headerLenFrom 0 (lines.flatMap (· ++ e.bytes) ++ e.bytes) =
      (lines.flatMap (· ++ e.bytes) ++ e.bytes).length := by
  have hbytes := plainLines_bytes hs lines hl
  cases hl with
  | nil => exact absurd rfl hne
  | @cons h line hs lines hline htail =>
    have hlen := headerLenFrom_lines 0 e line lines (hbytes line (by simp)).2
      (fun l hmem => hbytes l (by simp [hmem]))
    have hshape : (line :: lines).flatMap (· ++ e.bytes) ++ e.bytes =
        line ++ (e.bytes ++ lines.flatMap (· ++ e.bytes) ++ e.bytes) := by
      simp
    rw [hshape, hlen, Nat.cast_zero, zero_add]

/-- The headers are found in front of the byte that was set to NUL. -/
theorem cgiHead_parsed (e : LineEnd) (hs : List MgHeader) (lines : List (List Byte)) (tail : List Byte)
    (hl : List.Forall₂ PlainLine hs lines) (hmax : hs.length ≤ mgMaxHeaders) :
    ∃ written rest, parseHttpHeaders ((lines.flatMap (· ++ e.bytes) ++ e.bytes ++ tail).set
        ((lines.flatMap (· ++ e.bytes) ++ e.bytes).length - 1) NUL) = ⟨true, hs, written, rest⟩ := by
  have hset : (lines.flatMap (· ++ e.bytes) ++ e.bytes ++ tail).set
      ((lines.flatMap (· ++ e.bytes) ++ e.bytes).length - 1) NUL =
        lines.flatMap (· ++ e.bytes) ++ (e.cr ++ NUL :: tail) := by
    obtain ⟨before, hbefore⟩ : ∃ before, before = lines.flatMap (· ++ e.bytes) ++ e.cr := ⟨_, rfl⟩
    have hhead : lines.flatMap (· ++ e.bytes) ++ e.bytes = before ++ [LF] := by
      rw [hbefore, e.bytes_eq, List.append_assoc]
    have hlen : (before ++ [LF]).length - 1 = before.length := by simp
    rw [hhead, hlen, List.append_assoc, List.set_append_right _ _ le_rfl, Nat.sub_self, hbefore]
    simp
  have hstop : nameByte (deref (e.cr ++ NUL :: tail)) = false := by
    cases e <;> rfl
  obtain ⟨written, hparsed⟩ := headersLoop_lines e mgMaxHeaders hs lines (e.cr ++ NUL :: tail)
    (hl.imp fun _ _ h => h.1) hmax hstop
  rw [hset]
  exact ⟨written, _, hparsed⟩

/-- The scan ends at a malformed byte of a line. -/
theorem headerLenFrom_malformed (i : Nat) (line rest : List Byte) (hline : ∀ a ∈ line, a ≠ CR ∧ a ≠ LF)
    (hbad : ∃ a ∈ line, lineByte a = false) : headerLenFrom i (line ++ rest) = -1 := by
  induction line generalizing i with
  | nil => simp at hbad
  | cons a line ih =>
    obtain ⟨ha, hline⟩ := List.forall_mem_cons.mp hline
    cases hbyte : lineByte a with
    | false =>
      have hmalformed : malformedByte a = true := by simpa [lineByte, ha.1, ha.2] using hbyte
      rw [List.cons_append, headerLenFrom, if_pos hmalformed]
    | true =>
      have hrest : ∃ b ∈ line, lineByte b = false := by simpa [hbyte] using hbad
      have htext := headerLenFrom_text i [a] (line ++ rest) (by simpa using hbyte)
      rw [List.cons_append, ← List.singleton_append, htext]
      exact ih _ hline hrest

/-- Header lines with a malformed byte in one of them are no head to the scan. -/
theorem headerLenFrom_malformedLine (i : Nat) (e : LineEnd) (hs : List MgHeader) (lines : List (List Byte))
    (rest : List Byte) (hl : List.Forall₂ HeaderLine hs lines)
    (hbad : ∃ line ∈ lines, ∃ a ∈ line, lineByte a = false) :
    headerLenFrom i (lines.flatMap (· ++ e.bytes) ++ rest) = -1 := by
  induction hl generalizing i with
  | nil => simp at hbad
  | @cons h line hs lines hline hl ih =>
    have hbytes : ∀ a ∈ line, a ≠ CR ∧ a ≠ LF := by
      intro a ha
      have heol := (hline.bytes h line a ha).1
      constructor
      · rintro rfl
        exact absurd heol (by decide)
      · rintro rfl
        exact absurd heol (by decide)
    rw [List.flatMap_cons, List.append_assoc, List.append_assoc]
    by_cases hplain : ∀ a ∈ line, lineByte a = true
    · have hrest : ∃ line ∈ lines, ∃ a ∈ line, lineByte a = false := by
        obtain ⟨l, hmem, a, ha, hbyte⟩ := hbad
        rcases List.mem_cons.mp hmem with rfl | hmem
        · rw [hplain a ha] at hbyte
          cases hbyte
        · exact ⟨l, hmem, a, ha, hbyte⟩
      have hstart : lineByte (deref (lines.flatMap (· ++ e.bytes) ++ rest)) = true := by
        cases hl with
        | nil => simp at hrest
        | @cons h' line' hs lines hline' _ =>
          rw [List.flatMap_cons, List.append_assoc, List.append_assoc]
          have hname := hline'.deref_nameByte h' line' (e.bytes ++ (lines.flatMap (· ++ e.bytes) ++ rest))
          exact wordByte_lineByte _ (by simp [wordByte, nameByte_isgraph _ hname])
      rw [headerLenFrom_text i line _ hplain, headerLenFrom_eol _ e _ hstart]
      exact ih _ hrest
    · have hline' : ∃ a ∈ line, lineByte a = false := by simpa using hplain
      exact headerLenFrom_malformed i line _ hbytes hline'

/-- Of an output that is no head to the scan no head is read, however it is cut. -/
theorem readPipeMessage_malformed (bufsiz turns : Nat) (stops : List Bool) (pipe : OpenFile)
    (data stream : List Byte) (hbad : headerLenFrom 0 stream = -1) (hstream : data ++ pipe.rest = stream)
    (hdata : data.length ≤ bufsiz) (hreads : none ∉ pipe.reads) :
    (readPipeMessage bufsiz turns stops pipe data).requestLen ≤ 0 := by
  induction turns generalizing stops pipe data with
  | zero => exact Int.neg_nonpos_of_nonneg Int.one_nonneg
  | succ turns ih =>
    have hlen : getHttpHeaderLen data data.length ≤ 0 := by
      rw [getHttpHeaderLen, List.take_length]
      by_contra hpos
      have hall := headerLenFrom_append 0 data pipe.rest (by omega)
      rw [hstream, hbad] at hall
      omega
    rw [readPipeMessage]
    split_ifs with hfound hstop hfull
    · exact hlen
    · exact Int.neg_nonpos_of_nonneg Int.one_nonneg
    · exact Int.neg_nonpos_of_nonneg (Int.natCast_nonneg 2)
    · obtain ⟨k, reads, hread, hk, hkle, hreads'⟩ := pipe.read_some (bufsiz - data.length) (by omega) hreads
      rw [hread]
      dsimp only
      split_ifs
      · exact Int.neg_nonpos_of_nonneg Int.one_nonneg
      · apply ih
        · rw [List.append_assoc, pipe.take_rest k reads, hstream]
        · have := List.length_take_le k pipe.rest
          rw [List.length_append]
          omega
        · exact hreads'

/-- Where `sendfile` fails on a pipe, what is left in it is copied. -/
theorem sendFileData_pipe (conn : SendConn) (pipe : OpenFile) (len : Int) (noBuffering : Bool)
    (results : List Int) (hlen : 0 < len) (hsize : pipe.size = 0) (hreads : none ∉ pipe.reads)
    (hsendfile : ∀ r ∈ results.head?, r ≤ 0) (hwrites : TakesWrites (pipe.content.length + 1) conn.out) :
    (sendFileData conn pipe 0 len noBuffering results true).2.2.sent =
      conn.out.sent ++ pipe.rest.take len.toNat := by
  have hloop : sendfileLoop pipe.content results 0 0 len [] = ⟨false, 0, len, []⟩ := by
    cases results with
    | nil => rfl
    | cons r results =>
      have hr : ¬ 0 < r := not_lt.mpr (hsendfile r rfl)
      rw [sendfileLoop, if_neg hr, if_pos rfl]
  have hstart : sanityOffset pipe.size 0 = 0 := by
    rw [hsize]
    rfl
  have hfast (sendfile : Bool) : (if sendfile = true then sendfileLoop pipe.content results 0 0 len []
      else ⟨false, 0, len, []⟩) = ⟨false, 0, len, []⟩ := by
    rw [hloop, ite_self]
  have hrest : pipe.rest.length < pipe.content.length + 1 := by
    rw [OpenFile.rest, List.length_drop]
    omega
  have hcopied := copyLoop_copies noBuffering (pipe.content.length + 1) pipe len conn.out hreads hwrites hrest
  rw [sendFileData, hstart]
  dsimp only
  rw [if_pos hlen, hfast]
  simpa using hcopied

theorem cgiStatusLine_ne_nil (status : Int × List Byte) : cgiStatusLine status ≠ [] := by
  simp [cgiStatusLine, ascii]

/-- A head that was read is sent as it is, and what is left in the pipe is copied behind it. -/
theorem forwardCgiOutput_sends (config : CgiConfig) (c : ResponseConn) (e : LineEnd) (hs : List MgHeader)
    (lines : List (List Byte)) (extra : List Byte) (pipe : OpenFile) (results : List Int)
    (hl : List.Forall₂ PlainLine hs lines) (hmax : hs.length ≤ mgMaxHeaders)
    (hstatus : (cgiStatusLine (cgiStatus hs)).length ≤ INT_MAX)
    (hlines : ∀ h ∈ hs, (headerText h.name h.value).length ≤ INT_MAX)
    (hextra : extra.length ≤ INT_MAX) (hsize : pipe.size = 0) (hreads : none ∉ pipe.reads)
    (hrest : (pipe.rest.length : Int) ≤ INT64_MAX) (hsendfile : ∀ r ∈ results.head?, r ≤ 0)
    (hwrites : TakesWrites (hs.length + pipe.content.length + 4) c.out) :
    (forwardCgiOutput config c ⟨(lines.flatMap (· ++ e.bytes) ++ e.bytes).length,
      lines.flatMap (· ++ e.bytes) ++ e.bytes ++ extra, pipe⟩ results).out.sent =
        c.out.sent ++ cgiStatusLine (cgiStatus hs) ++ headerLines hs ++ CRLF ++ extra ++ pipe.rest := by
  obtain ⟨written, rest, hparsed⟩ := cgiHead_parsed e hs lines extra hl hmax
  rw [forwardCgiOutput]
  dsimp only
  rw [Int.toNat_natCast, hparsed]
  simp only [if_true, List.drop_left]
  obtain ⟨c₁, hc₁, hout₁⟩ : ∃ c₁ : ResponseConn, c₁ =
      (if shouldKeepAlive ({ c with statusCode := (cgiStatus hs).1 } : ResponseConn).toConn then
        { c with statusCode := (cgiStatus hs).1 }
      else { c with statusCode := (cgiStatus hs).1, mustClose := true }) ∧ c₁.out = c.out := by
    refine ⟨_, rfl, ?_⟩
    split_ifs <;> rfl
  rw [← hc₁]
  rw [← hout₁] at hwrites ⊢
  obtain ⟨out₁, hprint, hsent₁, hwrites₁⟩ := mgPrintf_sends c₁ (cgiStatusLine (cgiStatus hs))
    (hs.length + pipe.content.length + 3) (cgiStatusLine_ne_nil _) hstatus hwrites
  obtain ⟨state, out₂, hheaders, hsent₂, hwrites₂⟩ := sendHeaders_sends
    { c₁ with requestState := 10, out := out₁ } hs (pipe.content.length + 3) hlines
    (takesWrites_le _ _ _ (by omega) hwrites₁)
  obtain ⟨out₃, hblank, hsent₃, hwrites₃⟩ := write_sends { c₁ with requestState := state, out := out₂ }
    CRLF (pipe.content.length + 2) (by decide) hwrites₂
  obtain ⟨out₄, hdata, hsent₄, hwrites₄⟩ := write_sends { c₁ with requestState := 10, out := out₃ }
    extra (pipe.content.length + 1) hextra hwrites₃
  have hcopied := sendFileData_pipe ⟨c₁.ssl, config.allowSendfileCall, out₄⟩ pipe INT64_MAX
    config.noBuffering results (by decide) hsize hreads hsendfile hwrites₄
  rw [hprint]
  dsimp only
  rw [hheaders]
  dsimp only
  rw [hblank]
  dsimp only
  rw [hdata]
  dsimp only
  rw [hcopied, hsent₄, hsent₃, hsent₂, hsent₁, List.take_of_length_le (by omega)]

/-- A `Status` header gives the number and the text of the status line. -/
theorem cgiStatus_number (hs : List MgHeader) (n : Nat) (text : List Byte)
    (hstatus : getHeader hs (ascii "Status") = some (decText n ++ SP :: text)) (hn : n ≤ INT_MAX)
    (htext : isdigit (deref text) = false ∧ deref text ≠ SP) : cgiStatus hs = ((n : Int), text) := by
  have hmax : INT_MAX = 2 ^ 31 - 1 := rfl
  have hnumber : (strtoll 10 (decText n ++ SP :: text ++ [NUL])).1 = n := by
    have h := strtoll_intText n SP (text ++ [NUL]) (by omega) (by omega) rfl (by decide)
    have hpos : ¬ (n : Int) < 0 := by omega
    rw [intText, if_neg hpos, Int.natAbs_natCast] at h
    rw [List.append_assoc, List.cons_append, h]
  have hatoi : atoi (decText n ++ SP :: text) = n := by
    rw [atoi, hnumber]
    have hmod : ((n : Int) % 2 ^ 32).toNat = n := by omega
    rw [hmod, toInt32, if_pos (by omega)]
  have hskip : (decText n ++ SP :: text).dropWhile (fun c => isdigit c || c == SP) = text := by
    have hdigits : ∀ a ∈ decText n, (isdigit a || a == SP) = true := by
      intro a ha
      rw [(isdigit_isDigitIn a).mpr (decText_digits n a ha), Bool.true_or]
    rw [List.dropWhile_append_of_pos hdigits, List.dropWhile_cons_of_pos (by decide)]
    cases text with
    | nil => rfl
    | cons a text =>
      rw [deref_cons] at htext
      exact List.dropWhile_cons_of_neg (by simp [htext.1, htext.2])
  rw [cgiStatus, hstatus]
  dsimp only
  rw [hatoi, hskip]

theorem headerLines_plain (hs : List MgHeader) (lines : List (List Byte))
    (hl : List.Forall₂ PlainLine hs lines) : headerLines hs = hs.flatMap (plainLine · ++ CRLF) := by
  induction hl with
  | nil => rfl
  | @cons h line hs lines hline _ ih =>
    have hvalue : NUL ∉ h.value := fun hmem => absurd (hline.1.value_bytes NUL hmem) (by decide)
    rw [headerLines, List.flatMap_cons, ← headerLines, ih, List.flatMap_cons, headerText, cstr_of_no_nul _ hvalue,
      plainLine]

/-- The output of a CGI program is forwarded, however the reads cut it: a status line, the same headers in their
order, an empty line and the body. -/
theorem handleCgiOutput_plain (config : CgiConfig) (c : ResponseConn) (e : LineEnd) (hs : List MgHeader)
    (lines : List (List Byte)) (body : List Byte) (reads : List (Option Nat)) (stops : List Bool)
    (err : List Byte) (results : List Int) (hl : List.Forall₂ PlainLine hs lines) (hne : hs ≠ [])
    (hmax : hs.length ≤ mgMaxHeaders) (hfits : (cgiText e lines []).length ≤ config.maxRequestSize)
    (hint : config.maxRequestSize ≤ INT_MAX) (hbody : (body.length : Int) ≤ INT64_MAX)
    (hstatus : (cgiStatusLine (cgiStatus hs)).length ≤ INT_MAX)
    (hlines : ∀ h ∈ hs, (headerText h.name h.value).length ≤ INT_MAX)
    (hreads : none ∉ reads) (hstops : true ∉ stops) (hsendfile : ∀ r ∈ results.head?, r ≤ 0)
    (hwrites : TakesWrites (hs.length + (cgiText e lines body).length + 4) c.out) :
    ∃ c', handleCgiOutput config c (cgiText e lines body) reads stops err results = .forwarded c' ∧
      c'.out.sent = c.out.sent ++ cgiStatusLine (cgiStatus hs) ++ hs.flatMap (plainLine · ++ CRLF) ++ CRLF ++
        body := by
  obtain ⟨head, hhead⟩ : ∃ head, head = lines.flatMap (· ++ e.bytes) ++ e.bytes := ⟨_, rfl⟩
  have htext (tail : List Byte) : cgiText e lines tail = head ++ tail := by rw [cgiText, hhead]
  have hnil : head ≠ [] := by
    rw [hhead]
    cases e <;> simp [LineEnd.bytes]
  have hpos := List.length_pos_of_ne_nil hnil
  have hlen : headerLenFrom 0 head = head.length := by
    rw [hhead]
    exact cgiHead_len e hs lines hne hl
  rw [htext, List.append_nil] at hfits
  rw [htext, List.length_append] at hwrites
  obtain ⟨data, pipe, hread, hstream, hall, hroom, hreads', hcontent, hsize⟩ :=
    readPipeMessage_head config.maxRequestSize (config.maxRequestSize + 1) stops ⟨head ++ body, 0, 0, reads⟩ []
      head body hnil hlen rfl hfits (Nat.zero_le _) (by simp) hreads hstops
  obtain ⟨extra, hextra⟩ : head <+: data :=
    List.prefix_of_prefix_length_le (List.prefix_append head body)
      (by rw [← hstream]; exact List.prefix_append data pipe.rest) hall
  rw [← hextra, List.append_assoc, List.append_cancel_left_eq] at hstream
  have hroom' : extra.length ≤ INT_MAX := by
    rw [← hextra, List.length_append] at hroom
    omega
  have hsent := forwardCgiOutput_sends config c e hs lines extra pipe results hl hmax hstatus hlines hroom'
    hsize hreads' (by rw [← hstream, List.length_append] at hbody; omega) hsendfile
    (by rw [hcontent, List.length_append]; exact hwrites)
  have hvalues := headerLines_plain hs lines hl
  have hfound : ¬ ((head.length : Nat) : Int) ≤ 0 := by omega
  refine ⟨forwardCgiOutput config c ⟨head.length, data, pipe⟩ results, ?_, ?_⟩
  · rw [handleCgiOutput, htext, hread]
    dsimp only
    rw [if_neg hfound]
  · rw [← hextra, hhead, hsent, hvalues, ← hstream]
    simp only [List.append_assoc]

/-- The output of a CGI program is forwarded exactly, however the reads cut it, if and only if no header line has a
control character; a TAB, which may stand in a header line, is one. -/
theorem handleCgiOutput_forwards (config : CgiConfig) (c : ResponseConn) (e : LineEnd) (hs : List MgHeader)
    (lines : List (List Byte)) (body : List Byte) (reads : List (Option Nat)) (stops : List Bool)
    (err : List Byte) (results : List Int) (hl : List.Forall₂ HeaderLine hs lines) (hne : hs ≠ [])
    (hmax : hs.length ≤ mgMaxHeaders) (hfits : (cgiText e lines []).length ≤ config.maxRequestSize)
    (hint : config.maxRequestSize ≤ INT_MAX) (hbody : (body.length : Int) ≤ INT64_MAX)
    (hstatus : (cgiStatusLine (cgiStatus hs)).length ≤ INT_MAX)
    (hlines : ∀ h ∈ hs, (headerText h.name h.value).length ≤ INT_MAX)
    (hreads : none ∉ reads) (hstops : true ∉ stops) (hsendfile : ∀ r ∈ results.head?, r ≤ 0)
    (hwrites : TakesWrites (hs.length + (cgiText e lines body).length + 4) c.out) :
    ((∃ c', handleCgiOutput config c (cgiText e lines body) reads stops err results = .forwarded c' ∧
      c'.out.sent = c.out.sent ++ cgiStatusLine (cgiStatus hs) ++ hs.flatMap (plainLine · ++ CRLF) ++ CRLF ++
        body) ↔ ∀ line ∈ lines, ∀ a ∈ line, isprint a = true ∨ 128 ≤ a) ∧
    (∀ n text, getHeader hs (ascii "Status") = some (decText n ++ SP :: text) → n ≤ INT_MAX →
      isdigit (deref text) = false ∧ deref text ≠ SP → cgiStatus hs = ((n : Int), text)) ∧
    (getHeader hs (ascii "Status") = none → cgiStatus hs =
      (if getHeader hs (ascii "Location") = none then 200 else 307, ascii "OK")) := by
  refine ⟨⟨?_, ?_⟩, fun n text => cgiStatus_number hs n text, ?_⟩
  · rintro ⟨c', hforwarded, -⟩
    by_contra hcontrol
    have hbad : ∃ line ∈ lines, ∃ a ∈ line, lineByte a = false := by
      by_contra hnone
      refine hcontrol fun line hline a ha => (lineByte_iff a).mp ?_
      by_contra hbyte
      exact hnone ⟨line, hline, a, ha, by simpa using hbyte⟩
    have hscan : headerLenFrom 0 (cgiText e lines body) = -1 := by
      rw [cgiText, List.append_assoc]
      exact headerLenFrom_malformedLine 0 e hs lines _ hl hbad
    have hread := readPipeMessage_malformed config.maxRequestSize (config.maxRequestSize + 1) stops
      ⟨cgiText e lines body, 0, 0, reads⟩ [] _ hscan rfl (Nat.zero_le _) hreads
    rw [handleCgiOutput, if_pos hread] at hforwarded
    split_ifs at hforwarded
  · intro hplain
    have hplain : List.Forall₂ PlainLine hs lines := by
      refine List.forall₂_iff_get.mpr ⟨hl.length_eq, fun i hi hi' => ?_⟩
      exact ⟨(List.forall₂_iff_get.mp hl).2 i hi hi', hplain _ (List.get_mem lines ⟨i, hi'⟩)⟩
    exact handleCgiOutput_plain config c e hs lines body reads stops err results hplain hne hmax hfits hint hbody
      hstatus hlines hreads hstops hsendfile hwrites
  · intro hnone
    rw [cgiStatus, hnone]
    cases getHeader hs (ascii "Location") <;> rfl

/-- A program whose output is read in pieces, the second of which ends behind the first byte of its body. -/
theorem handleCgiOutput_forwards_pieces :
    ∃ c', handleCgiOutput ⟨ascii "/srv/a.cgi", 16384, false, ascii "yes"⟩ requestConn
        (cgiText .lf [ascii "Status: 404 None", ascii "A: b"] (ascii "xyz")) [some 10, some 14, some 1] []
        [] [-1] = .forwarded c' ∧
      c'.out.sent = ascii "HTTP/1.1 404 None\r\nStatus: 404 None\r\nA: b\r\n\r\nxyz" := by
  obtain ⟨hiff, hnumber, -⟩ := handleCgiOutput_forwards
    ⟨ascii "/srv/a.cgi", 16384, false, ascii "yes"⟩
    requestConn .lf
    [⟨ascii "Status", ascii "404 None"⟩, ⟨ascii "A", ascii "b"⟩]
    [ascii "Status: 404 None", ascii "A: b"] (ascii "xyz") [some 10, some 14, some 1] [] [] [-1]
    (.cons (plainLine_spec ⟨ascii "Status", ascii "404 None"⟩ (by decide) (by decide) (by decide) (by decide)).1
      (.cons (plainLine_spec ⟨ascii "A", ascii "b"⟩ (by decide) (by decide) (by decide) (by decide)).1 .nil))
    (by decide) (by decide) (by decide) (by decide) (by decide) (by decide) (by decide) (by decide)
    (by decide) (by decide) (takesWrites_accepting _ 350 _ (by decide) rfl rfl)
  obtain ⟨c', hc', hsent⟩ := hiff.mpr (by decide)
  refine ⟨c', hc', ?_⟩
  rw [hsent, hnumber 404 (ascii "None") (by decide) (by decide) (by decide)]
  decide

/-- A header line with a TAB in its value: the answer is an error. -/
theorem handleCgiOutput_forwards_tab :
    HeaderLine ⟨ascii "A", ascii "b\tc"⟩ (ascii "A: b\tc") ∧
      ¬ ∃ c', handleCgiOutput ⟨ascii "/srv/a.cgi", 16384, false, ascii "yes"⟩ requestConn
        (cgiText .crlf [ascii "A: b\tc"] (ascii "xyz")) [] [] [] [-1] = .forwarded c' := by
  refine ⟨⟨by decide, by decide, by decide, by decide, 0, [SP], by decide, by decide⟩, ?_⟩
  rintro ⟨c', hforwarded⟩
  have herror : (readPipeMessage 16384 16385 [] ⟨cgiText .crlf [ascii "A: b\tc"] (ascii "xyz"), 0, 0, []⟩ []).requestLen
      ≤ 0 := by decide
  rw [handleCgiOutput, if_pos herror] at hforwarded
  simp at hforwarded

end CivetWeb
