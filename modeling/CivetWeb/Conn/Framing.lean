import CivetWeb.Conn.RequestLen

namespace CivetWeb

/-- The values of all headers of one name, in order. -/
def headerValues (hdr : List MgHeader) (name : List Byte) : List (List Byte) :=
  (hdr.filter (fun h => mgStrcasecmp name h.name == 0)).map (·.value)

def transferCodings (hdr : List MgHeader) : List (List Byte) :=
  headerValues hdr (ascii "Transfer-Encoding")

def contentLengths (hdr : List MgHeader) : List (List Byte) :=
  headerValues hdr (ascii "Content-Length")

def IsCoding (name : String) (value : List Byte) : Prop := value.map tolower = ascii name

/-- Nothing but decimal digits, in between optional blanks. -/
def PlainNumber (n : Nat) (value : List Byte) : Prop :=
  ∃ before digits after, value = before ++ digits ++ after ∧ (∀ a ∈ before ++ after, isblank a = true) ∧
    digits ≠ [] ∧ (∀ a ∈ digits, isdigit a = true) ∧ Numeral.value 10 digitValue digits = n

/-- The body of a request is framed in one way only. A coding `identity` is no coding. -/
def UnambiguousFraming (conn : Conn) : Prop :=
  let codings := transferCodings conn.requestInfo.httpHeaders
  let lengths := contentLengths conn.requestInfo.httpHeaders
  (conn.isChunked = 1 ∧ (∃ v, codings = [v] ∧ IsCoding "chunked" v) ∧ lengths = []) ∨
    (conn.isChunked = 0 ∧ (∀ v ∈ codings, IsCoding "identity" v) ∧
      ∃ n : Nat, conn.contentLen = n ∧ (∀ v ∈ lengths, PlainNumber n v) ∧ (lengths = [] → n = 0))

/-- No header repeats another one with a different framing, and lengths are plain
numbers that fit in 63 bits. -/
structure ClearFraming (hdr : List MgHeader) : Prop where
  codings : (transferCodings hdr).length ≤ 1 ∨ ∀ v ∈ transferCodings hdr, IsCoding "identity" v
  lengths : ∃ n < 2 ^ 63, ∀ v ∈ contentLengths hdr, PlainNumber n v

theorem getHeader_headerValues (hdr : List MgHeader) (name : List Byte) :
    getHeader hdr name = (headerValues hdr name).head? := by
  rw [getHeader, headerValues, List.head?_map, List.head?_filter]

/-- `strtol` on a plain number. -/
theorem strtol_plain (before digits after : List Byte)
    (hblank : ∀ a ∈ before ++ after, isblank a = true) (hne : digits ≠ [])
    (hdigits : ∀ a ∈ digits, isdigit a = true) :
    strtol 10 (before ++ digits ++ after) =
      ⟨false, Numeral.value 10 digitValue digits, after⟩ := by
  obtain ⟨d, ds, rfl⟩ := List.exists_cons_of_ne_nil hne
  have hbefore : ∀ a ∈ before, isspace a = true := by
    have hbyte : ∀ a, isblank a = true → isspace a = true := byte_all _ (by decide +kernel)
    intro a ha
    exact hbyte a (hblank a (by simp [ha]))
  have hfirst : ∀ a, isdigit a = true → isspace a = false ∧ a ≠ 45 ∧ a ≠ 43 :=
    byte_all _ (by decide +kernel)
  obtain ⟨hspace, hminus, hplus⟩ := hfirst d (hdigits d (by simp))
  have hrun : ∀ a ∈ d :: ds, isDigitIn 10 a = true :=
    fun a ha => (isdigit_isDigitIn a).mp (hdigits a ha)
  have hskip : (before ++ (d :: ds) ++ after).dropWhile isspace = d :: ds ++ after := by
    rw [List.append_assoc, List.cons_append]
    exact Scan.dropWhile_stop _ _ _ _ hbefore hspace
  have hscan : (d :: ds ++ after).takeWhile (isDigitIn 10) = d :: ds ∧
      (d :: ds ++ after).dropWhile (isDigitIn 10) = after := by
    cases after with
    | nil =>
      rw [List.append_nil]
      exact ⟨List.takeWhile_eq_self_iff.mpr hrun, List.dropWhile_eq_nil_iff.mpr hrun⟩
    | cons c after =>
      have hbyte : ∀ a, isblank a = true → isDigitIn 10 a = false := byte_all _ (by decide +kernel)
      have hc := hbyte c (hblank c (by simp))
      exact ⟨Scan.takeWhile_stop _ _ _ _ hrun hc, Scan.dropWhile_stop _ _ _ _ hrun hc⟩
  rw [strtol, hskip]
  simp only [List.cons_append] at hscan ⊢
  simp [strtoDigits, hminus, hplus, hscan.1, hscan.2]

theorem strtoll_plain (n : Nat) (value : List Byte) (h : PlainNumber n value) :
    (strtoll 10 value).1 = min (2 ^ 63 - 1) (n : Int) := by
  obtain ⟨before, digits, after, rfl, hblank, hne, hdigits, rfl⟩ := h
  rw [strtoll, strtol_plain before digits after hblank hne hdigits]
  rfl

/-- Header values are strings of the parser, without a NUL inside. -/
theorem headerValues_nul (hdr : List MgHeader) (name : List Byte)
    (h : ∀ x ∈ hdr, ∃ line, HeaderLine x line) : ∀ v ∈ headerValues hdr name, NUL ∉ v := by
  intro v hv hnul
  simp only [headerValues, List.mem_map, List.mem_filter] at hv
  obtain ⟨x, ⟨hx, -⟩, rfl⟩ := hv
  obtain ⟨line, hline⟩ := h x hx
  exact absurd (hline.value_bytes NUL hnul) (by decide)

theorem isCoding_iff (name : String) (v : List Byte) (hv : NUL ∉ v)
    (hname : NUL ∉ ascii name ∧ (ascii name).map tolower = ascii name) :
    mgStrcasecmp v (ascii name) = 0 ↔ IsCoding name v := by
  rw [mgStrcasecmp_eq_zero v _ hv hname.1, hname.2, IsCoding]

theorem parsed_headerLine (buf : List Byte) (len : Nat) (r : ParsedRequest)
    (h : parseHttpRequest buf len = .ok r) :
    ∀ x ∈ r.info.httpHeaders, ∃ line, HeaderLine x line := by
  obtain ⟨ws, pre, rest, text, -, -, -, -, -, -, -, -, htext, -⟩ := parseHttpRequest_ok _ _ r h
  obtain ⟨ws1, ws2, version, b, ws3, next, -, -, -, -, -, -, -, -, -, -, -, hheaders⟩ :=
    parseRequestText_some pre rest text r.info htext
  rw [hheaders]
  exact headersLoop_headerLine mgMaxHeaders _

/-- An accepted request is framed in one way only, exactly where its header list is clear. -/
theorem getRequest_framing (conn c : Conn) (h : getRequest conn = (none, c)) :
    ∃ c1 r, getMessage conn = (none, c1) ∧
      parseHttpRequest c1.buf c1.buf.length = .ok r ∧ c.requestInfo = r.info ∧
      (UnambiguousFraming c ↔ ClearFraming r.info.httpHeaders) := by
  obtain ⟨c1, r, hread⟩ := getRequest_read conn c h
  have hmsg := getMessage_found conn c1 hread.message
  have hinfo : c.requestInfo = r.info := by rw [hread.frame]
  have hplain : c1.isChunked = 0 := by
    rw [hmsg.frame]
    rfl
  have hlines := parsed_headerLine _ _ r hread.parsed
  obtain ⟨i, hframing⟩ := hread.framing
  have hcases := setBodyFraming_none _ c hframing
  dsimp only at hcases
  refine ⟨c1, r, hread.message, hread.parsed, hinfo, ?_⟩
  unfold UnambiguousFraming
  rw [hinfo]
  obtain ⟨codings, hcodings⟩ : ∃ l, l = transferCodings r.info.httpHeaders := ⟨_, rfl⟩
  obtain ⟨lengths, hlengths⟩ : ∃ l, l = contentLengths r.info.httpHeaders := ⟨_, rfl⟩
  have hnul : ∀ v ∈ codings, NUL ∉ v := by
    rw [hcodings]
    exact headerValues_nul _ _ hlines
  have hfirst : getHeader r.info.httpHeaders (ascii "Transfer-Encoding") = codings.head? := by
    rw [getHeader_headerValues, hcodings, transferCodings]
  have hlength : getHeader r.info.httpHeaders (ascii "Content-Length") = lengths.head? := by
    rw [getHeader_headerValues, hlengths, contentLengths]
  rw [hfirst, hlength] at hcases
  have hclear : ClearFraming r.info.httpHeaders ↔
      (codings.length ≤ 1 ∨ ∀ v ∈ codings, IsCoding "identity" v) ∧
        ∃ n < 2 ^ 63, ∀ v ∈ lengths, PlainNumber n v := by
    rw [hcodings, hlengths]
    exact ⟨fun h => ⟨h.codings, h.lengths⟩, fun h => ⟨h.1, h.2⟩⟩
  rw [hclear, ← hcodings, ← hlengths]
  have hchunkedName : NUL ∉ ascii "chunked" ∧ (ascii "chunked").map tolower = ascii "chunked" := by
    decide
  have hidentityName : NUL ∉ ascii "identity" ∧ (ascii "identity").map tolower = ascii "identity" := by
    decide
  rcases hcases with ⟨v, hv, hnot, hchunked, hnone, rfl⟩ | ⟨hident, hlen⟩
  · have hvmem : v ∈ codings := List.mem_of_head? hv
    have hnil : lengths = [] := List.head?_eq_none_iff.mp hnone
    have hvchunked := (isCoding_iff "chunked" v (hnul v hvmem) hchunkedName).mp hchunked
    have hvident : ¬ IsCoding "identity" v := by
      rw [← isCoding_iff "identity" v (hnul v hvmem) hidentityName]
      exact hnot
    dsimp only
    constructor
    · rintro (⟨-, ⟨w, hw, -⟩, -⟩ | ⟨hzero, -⟩)
      · refine ⟨Or.inl ?_, 0, by norm_num, ?_⟩
        · simp [hw]
        · simp [hnil]
      · cases hzero
    · rintro ⟨hcount | hall, -⟩
      · refine Or.inl ⟨rfl, ⟨v, ?_, hvchunked⟩, hnil⟩
        cases codings with
        | nil => cases hv
        | cons w codings =>
          simp only [List.head?_cons, Option.some.injEq] at hv
          simp only [List.length_cons] at hcount
          rw [hv, List.eq_nil_of_length_eq_zero (by omega : codings.length = 0)]
      · exact absurd (hall v hvmem) hvident
  · have hzero : c.isChunked = 0 := by
      rcases hlen with ⟨v, -, -, -, rfl⟩ | ⟨-, rfl⟩
      · exact hplain
      · exact hplain
    have hall : (codings.length ≤ 1 ∨ ∀ v ∈ codings, IsCoding "identity" v) ↔
        ∀ v ∈ codings, IsCoding "identity" v := by
      refine ⟨?_, Or.inr⟩
      rintro (hcount | h)
      · intro v hv
        cases codings with
        | nil => cases hv
        | cons w codings =>
          simp only [List.length_cons] at hcount
          have hnil : codings = [] := List.eq_nil_of_length_eq_zero (by omega)
          rw [hnil, List.mem_singleton] at hv
          rw [hv]
          exact (isCoding_iff "identity" w (hnul w (by simp)) hidentityName).mp (hident w rfl)
      · exact h
    have hnumber : (∃ n : Nat, c.contentLen = n ∧ (∀ v ∈ lengths, PlainNumber n v) ∧
        (lengths = [] → n = 0)) ↔ ∃ n < 2 ^ 63, ∀ v ∈ lengths, PlainNumber n v := by
      rcases hlen with ⟨v, hv, -, -, rfl⟩ | ⟨hnone, rfl⟩
      · have hvmem : v ∈ lengths := List.mem_of_head? hv
        dsimp only
        constructor
        · rintro ⟨n, hn, hplain, -⟩
          have hvalue := strtoll_plain n v (hplain v hvmem)
          refine ⟨n, ?_, hplain⟩
          omega
        · rintro ⟨n, hn, hplain⟩
          have hvalue := strtoll_plain n v (hplain v hvmem)
          refine ⟨n, ?_, hplain, ?_⟩
          · omega
          · rintro rfl
            cases hvmem
      · have hnil : lengths = [] := List.head?_eq_none_iff.mp hnone
        constructor
        · rintro -
          exact ⟨0, by norm_num, by simp [hnil]⟩
        · rintro -
          exact ⟨0, rfl, by simp [hnil], fun _ => rfl⟩
    rw [hall, ← hnumber, hzero]
    simp

/-- `POST / HTTP/1.1` with one plain length. -/
def postRequest : Conn :=
  freshConn 128 [.data (ascii "POST / HTTP/1.1\r\nContent-Length: 5\r\n\r\nhello")]

theorem getRequest_framing_post :
    ∃ c1 r, getMessage postRequest = (none, c1) ∧
      parseHttpRequest c1.buf c1.buf.length = .ok r ∧
      (getRequest postRequest).2.requestInfo = r.info ∧
      (UnambiguousFraming (getRequest postRequest).2 ↔ ClearFraming r.info.httpHeaders) :=
  getRequest_framing postRequest (getRequest postRequest).2 (by decide +kernel)

/-- Two lengths that differ: the first one counts. -/
def twoLengths : Conn :=
  freshConn 128 [.data (ascii "POST / HTTP/1.1\r\nContent-Length: 5\r\nContent-Length: 7\r\n\r\nhello")]

theorem getRequest_framing_lengths :
    (getRequest twoLengths).1 = none ∧ (getRequest twoLengths).2.contentLen = 5 ∧
      ¬ UnambiguousFraming (getRequest twoLengths).2 := by
  have hrun : (getRequest twoLengths).1 = none ∧ (getRequest twoLengths).2.contentLen = 5 ∧
      (getRequest twoLengths).2.isChunked = 0 ∧
      ascii "7" ∈ contentLengths (getRequest twoLengths).2.requestInfo.httpHeaders := by
    decide +kernel
  obtain ⟨hok, hlen, hplain, hmem⟩ := hrun
  refine ⟨hok, hlen, ?_⟩
  rintro (⟨hchunked, -⟩ | ⟨-, -, n, hn, hall, -⟩)
  · rw [hplain] at hchunked
    cases hchunked
  · have hseven := strtoll_plain n (ascii "7") (hall _ hmem)
    have hvalue : (strtoll 10 (ascii "7")).1 = 7 := by decide +kernel
    omega

end CivetWeb
