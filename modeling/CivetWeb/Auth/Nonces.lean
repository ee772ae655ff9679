import CivetWeb.Auth.AuthHeader
import CivetWeb.Response.Redirect
import CivetWeb.Lib.System
import Mathlib.Data.List.Perm.Basic

namespace CivetWeb

/-- What a domain's 401 responses are made of. -/
structure DigestDomain where
  key : NonceKey
  authenticationDomain : List Byte
  additionalHeader : Option (List Byte)
  strictHttpsMaxAge : Option (List Byte)
  deriving DecidableEq, Repr

def addHeader (c : ResponseConn) (header value : List Byte) : ResponseConn :=
  (mgResponseHeaderAdd c (some header) (some value) (-1)).2

def sendNoCacheHeader (c : ResponseConn) : ResponseConn :=
  let c := addHeader c (ascii "Cache-Control")
    (ascii "no-cache, no-store, must-revalidate, private, max-age=0")
  let c := addHeader c (ascii "Expires") (ascii "0")
  if c.protocolType = PROTOCOL_TYPE_HTTP1 then addHeader c (ascii "Pragma") (ascii "no-cache") else c

def sendAdditionalHeader (dom : DigestDomain) (c : ResponseConn) : ResponseConn :=
  let c :=
    match dom.strictHttpsMaxAge with
    | none => c
    | some maxAge =>
      let maxAge := (strtoll 10 (maxAge ++ [NUL])).1
      if 0 ≤ maxAge then
        addHeader c (ascii "Strict-Transport-Security")
          (mgSnprintf 64 (ascii "max-age=" ++ decText maxAge.toNat)).1
      else c
  match dom.additionalHeader with
  | none => c
  | some header => if header = [] then c else (mgResponseHeaderAddLines c header).2

theorem addHeader_toConn (c : ResponseConn) (header value : List Byte) :
    (addHeader c header value).toConn = c.toConn := by
  rw [addHeader, mgResponseHeaderAdd]
  dsimp only
  split_ifs <;> rfl

/-- The headers against caches are those that a redirect is sent with. -/
theorem sendNoCacheHeader_run (gmtTimeString : Nat → List Byte) (c : ResponseConn) :
    sendNoCacheHeader c = responseRun gmtTimeString c (noCacheCalls c.toConn) := by
  obtain ⟨c2, hc2⟩ : ∃ c2, c2 = addHeader (addHeader c (ascii "Cache-Control")
    (ascii "no-cache, no-store, must-revalidate, private, max-age=0")) (ascii "Expires") (ascii "0") := ⟨_, rfl⟩
  have hsame : c2.protocolType = c.protocolType := by rw [hc2, addHeader_toConn, addHeader_toConn]
  rw [sendNoCacheHeader, noCacheCalls, ← hc2, hsame]
  split_ifs
  · rw [hc2]
    rfl
  · rw [hc2]
    rfl

/-- So are the headers that are configured. -/
theorem sendAdditionalHeader_run (gmtTimeString : Nat → List Byte) (dom : DigestDomain) (config : RedirectConfig)
    (hage : config.strictHttpsMaxAge = dom.strictHttpsMaxAge) (hheader : config.additionalHeader = dom.additionalHeader)
    (c : ResponseConn) : sendAdditionalHeader dom c = responseRun gmtTimeString c (additionalCalls config) := by
  rw [sendAdditionalHeader, additionalCalls, hage, hheader, responseRun_append]
  have hlines (c : ResponseConn) :
      (match dom.additionalHeader with
        | none => c
        | some header => if header = [] then c else (mgResponseHeaderAddLines c header).2) =
      responseRun gmtTimeString c (match dom.additionalHeader with
        | none => []
        | some header => if header = [] then [] else [.addLines header]) := by
    cases dom.additionalHeader with
    | none => rfl
    | some header =>
      dsimp only
      split_ifs <;> rfl
  rw [hlines]
  cases dom.strictHttpsMaxAge with
  | none => rfl
  | some maxAge =>
    dsimp only
    split_ifs <;> rfl

/-- The value of the `WWW-Authenticate` header. -/
def digestChallenge (realm : List Byte) (nonce : BitVec 64) : List Byte :=
  ascii "Digest qop=\"auth\", realm=\"" ++ realm ++ ascii "\", nonce=\"" ++ decText nonce.toNat ++
    ascii "\""

/-- A call of `send_authorization_request` whose nonce is drawn. -/
structure Challenge where
  conn : ResponseConn
  realm : Option (List Byte)
  nonce : BitVec 64
  deriving DecidableEq, Repr

def Challenge.realmText (dom : DigestDomain) (ch : Challenge) : List Byte :=
  cstr (ch.realm.getD dom.authenticationDomain)

/-- The response up to the headers that name the content. -/
def Challenge.started (dom : DigestDomain) (ch : Challenge) : ResponseConn :=
  let c := (mgResponseHeaderStart { ch.conn with mustClose := true } 401).2
  let c := sendAdditionalHeader dom (sendNoCacheHeader c)
  addHeader c (ascii "Content-Length") (ascii "0")

/-- The response when `mg_response_header_send` is called. -/
def Challenge.response (dom : DigestDomain) (ch : Challenge) : ResponseConn :=
  let c := ch.started dom
  let (buf, trunc) := mgSnprintf 128 (digestChallenge (ch.realmText dom) ch.nonce)
  if !trunc then addHeader c (ascii "WWW-Authenticate") buf else c

/-- What `send_authorization_request` does when it has its nonce. -/
def sendAuthorizationRequest (gmtTimeString : Nat → List Byte) (dom : DigestDomain)
    (ch : Challenge) : ResponseConn :=
  (mgResponseHeaderSend gmtTimeString (ch.response dom)).2

/-- The nonces of a domain: `drawn` are the calls that have theirs and have not sent the
response, `sent` the ones that have. -/
structure NonceState where
  nonceCount : Nat
  drawn : List Challenge
  sent : List Challenge
  deriving DecidableEq, Repr

/-- The domain when the server has started. -/
def NonceState.start : NonceState := ⟨0, [], []⟩

/-- What threads of the server do with the nonces: a call draws one under the lock of the
context, and the `k`-th call under way sends its response. -/
inductive NonceEvent where
  | draw (conn : ResponseConn) (realm : Option (List Byte))
  | respond (k : Nat)
  deriving DecidableEq, Repr

def nonceStep (dom : DigestDomain) (s : NonceState) : NonceEvent → Option NonceState
  | .draw conn realm =>
    some { s with
      nonceCount := s.nonceCount + 1,
      drawn := s.drawn ++ [⟨conn, realm, dom.key.nonce s.nonceCount⟩] }
  | .respond k =>
    (s.drawn[k]?).map fun ch =>
      { s with drawn := s.drawn.eraseIdx k, sent := s.sent ++ [ch] }

/-- The response is a 401 with the nonce of its call, and where `vsnprintf` can count its lines and the client takes
them it goes out whole. -/
structure Challenge.Carried (dom : DigestDomain) (ch : Challenge) : Prop where
  state : (ch.response dom).requestState = 1
  status : (ch.response dom).statusCode = 401
  header : (⟨ascii "WWW-Authenticate", digestChallenge (ch.realmText dom) ch.nonce⟩ : MgHeader) ∈
    (ch.response dom).responseHeaders
  wire : ∀ gmtTimeString,
    (statusLine ch.conn.requestInfo.httpVersion 401 (ascii "Unauthorized")).length ≤ INT_MAX →
    (∀ h ∈ (ch.response dom).responseHeaders, (headerText h.name h.value).length ≤ INT_MAX) →
    (∀ t, (headerText (ascii "Date") (gmtTimeString t)).length ≤ INT_MAX) → TakesWrites 69 ch.conn.out →
    ∃ t, (sendAuthorizationRequest gmtTimeString dom ch).out.sent = ch.conn.out.sent ++
      responseHead { ch.conn.toConn with mustClose := true } 401 (ch.response dom).responseHeaders (gmtTimeString t)

def noCacheHeaders (conn : Conn) : List MgHeader :=
  [⟨ascii "Cache-Control", ascii "no-cache, no-store, must-revalidate, private, max-age=0"⟩,
    ⟨ascii "Expires", ascii "0"⟩] ++
    if conn.protocolType = PROTOCOL_TYPE_HTTP1 then [⟨ascii "Pragma", ascii "no-cache"⟩] else []

/-- The headers that the configuration of the domain adds to a response. -/
def additionalHeaders (dom : DigestDomain) : List MgHeader :=
  (match dom.strictHttpsMaxAge with
  | none => []
  | some maxAge =>
    let maxAge := (strtoll 10 (maxAge ++ [NUL])).1
    if 0 ≤ maxAge then
      [⟨ascii "Strict-Transport-Security", (mgSnprintf 64 (ascii "max-age=" ++ decText maxAge.toNat)).1⟩]
    else []) ++
  match dom.additionalHeader with
  | none => []
  | some header => if header = [] then [] else (ResponseCall.addLines header).headers

/-- The call answers a request that has got no response yet, the challenge fits into its buffer
and the list has room for the header. -/
structure Challenge.Fits (dom : DigestDomain) (ch : Challenge) : Prop where
  request : ch.conn.isHttpRequest = true
  fresh : ch.conn.requestState = 0
  challenge : (ch.realmText dom).length + (decText ch.nonce.toNat).length ≤ 90
  room : (noCacheHeaders ch.conn.toConn ++ additionalHeaders dom).length + 2 ≤ mgMaxHeaders

/-- Nonces that the domain has issued: the response is sent or under way. -/
def NonceState.issued (s : NonceState) : List (BitVec 64) := (s.drawn ++ s.sent).map (·.nonce)

/-- Each 401 carries a nonce of its own, and a digest header gets by the nonce check if its nonce is
one that was sent, and only with one that was issued. -/
structure NonceState.Sound (dom : DigestDomain) (s : NonceState) : Prop where
  carried : ∀ ch ∈ s.sent, ch.Carried dom
  distinct : (s.sent.map (·.nonce)).Nodup
  accepts : ∀ conn bufSize, ∀ ch ∈ s.sent,
    (parseAuthHeader dom.key s.nonceCount conn bufSize).2.nonce = some (decText ch.nonce.toNat) →
    (parseAuthHeader dom.key s.nonceCount conn bufSize).1 =
      (parseAuthHeader dom.key s.nonceCount conn bufSize).2.user.isSome
  rejects : ∀ conn bufSize nonce,
    (parseAuthHeader dom.key s.nonceCount conn bufSize).2.nonce = some nonce →
    deref (strtoul 10 (nonce ++ [NUL])).2 ≠ NUL ∨
      BitVec.ofNat 64 (strtoul 10 (nonce ++ [NUL])).1 ∉ s.issued →
    (parseAuthHeader dom.key s.nonceCount conn bufSize).1 = false
  missing : ∀ conn bufSize,
    (parseAuthHeader dom.key s.nonceCount conn bufSize).2.type = 2 →
    (parseAuthHeader dom.key s.nonceCount conn bufSize).2.nonce = none →
    (parseAuthHeader dom.key s.nonceCount conn bufSize).1 = false

theorem strtoul_decText (n : Nat) (h : n < 2 ^ 64) : strtoul 10 (decText n ++ [NUL]) = (n, [NUL]) := by
  have hplain : ∀ a, isDigitIn 10 a = true → a ≠ 120 ∧ a ≠ 88 := byte_all _ (by decide +kernel)
  have hread := strtol_digits 10 (decText n) NUL [] (decText_digits n) (decText_ne_nil n) rfl
    (by decide) (fun a ha => hplain a (decText_digits n a ha))
  rw [strtoul, hread, decText_value]
  simp only [Bool.false_eq_true, if_false, ULONG_MAX]
  rw [if_neg (by omega)]

/-- The counter does not run over. -/
def NonceKey.InRange (key : NonceKey) (nonceCount : Nat) : Prop :=
  key.startTime.toNat + nonceCount < 2 ^ 64

theorem inRange_toNat (key : NonceKey) (n i : Nat) (h : key.InRange n) (hi : i ≤ n) :
    (key.startTime + BitVec.ofNat 64 i).toNat = key.startTime.toNat + i := by
  unfold NonceKey.InRange at h
  rw [BitVec.toNat_add, BitVec.toNat_ofNat, Nat.mod_eq_of_lt (by omega : i < 2 ^ 64),
    Nat.mod_eq_of_lt (by omega)]

theorem nonce_unmask (key : NonceKey) (i : Nat) :
    key.nonce i ^^^ key.authNonceMask = key.startTime + BitVec.ofNat 64 i := by
  rw [NonceKey.nonce, BitVec.xor_assoc, BitVec.xor_self, BitVec.xor_zero]

theorem nonce_inj (key : NonceKey) (n i j : Nat) (h : key.InRange n) (hi : i < n) (hj : j < n)
    (heq : key.nonce i = key.nonce j) : i = j := by
  have hsum : key.startTime + BitVec.ofNat 64 i = key.startTime + BitVec.ofNat 64 j := by
    rw [← nonce_unmask, heq, nonce_unmask]
  have hnat := congrArg BitVec.toNat hsum
  rw [inRange_toNat key n i h (by omega), inRange_toNat key n j h (by omega)] at hnat
  omega

/-- Behind the mask, the nonces that were drawn fill the window from the start time on. -/
theorem nonce_window (key : NonceKey) (n : Nat) (v : BitVec 64) (h : key.InRange n) :
    (¬ v ^^^ key.authNonceMask < key.startTime ∧
      ¬ key.startTime + BitVec.ofNat 64 n ≤ v ^^^ key.authNonceMask) ↔
      ∃ i < n, v = key.nonce i := by
  rw [BitVec.lt_def, BitVec.le_def, inRange_toNat key n n h (by omega)]
  constructor
  · rintro ⟨hlow, hhigh⟩
    refine ⟨(v ^^^ key.authNonceMask).toNat - key.startTime.toNat, by omega, ?_⟩
    have hback : key.startTime + BitVec.ofNat 64 ((v ^^^ key.authNonceMask).toNat -
        key.startTime.toNat) = v ^^^ key.authNonceMask := by
      apply BitVec.eq_of_toNat_eq
      rw [inRange_toNat key n _ h (by omega)]
      omega
    rw [NonceKey.nonce, hback, BitVec.xor_assoc, BitVec.xor_self, BitVec.xor_zero]
  · rintro ⟨i, hi, rfl⟩
    rw [nonce_unmask, inRange_toNat key n i h (by omega)]
    omega

/-- The check accepts the numerals of the nonces that were drawn. -/
theorem nonceCheck_iff (key : NonceKey) (n : Nat) (nonce : List Byte) (h : key.InRange n) :
    nonceCheck key n nonce = true ↔ deref (strtoul 10 (nonce ++ [NUL])).2 = NUL ∧
      ∃ i < n, BitVec.ofNat 64 (strtoul 10 (nonce ++ [NUL])).1 = key.nonce i := by
  rw [← nonce_window key n _ h, nonceCheck]
  dsimp only
  split_ifs with h1 h2 h3
  · simp [h1]
  · simp [h2]
  · simp [h3]
  · simp only [ne_eq, not_not] at h1
    simp [h1, h2, h3]

/-- What a header with a nonce, or a digest header without one, comes to. -/
theorem parseAuthHeader_nonce (key : NonceKey) (n : Nat) (conn : Conn) (bufSize : Nat) :
    (∀ nonce, (parseAuthHeader key n conn bufSize).2.nonce = some nonce →
      (parseAuthHeader key n conn bufSize).1 =
        (nonceCheck key n nonce && (parseAuthHeader key n conn bufSize).2.user.isSome)) ∧
    ((parseAuthHeader key n conn bufSize).2.type = 2 →
      (parseAuthHeader key n conn bufSize).2.nonce = none →
      (parseAuthHeader key n conn bufSize).1 = false) := by
  rw [parseAuthHeader]
  split
  · simp [AuthHeader.zero]
  · split_ifs
    · split
      · simp [AuthHeader.zero]
      · dsimp only
        split_ifs <;> simp [AuthHeader.zero]
    · dsimp only
      split
      · next hnone => simp [hnone]
      · next nonce hsome =>
        refine ⟨?_, ?_⟩
        · intro nonce' heq
          have hsame : nonce = nonce' := Option.some.inj (hsome.symm.trans heq)
          rw [hsame]
        · intro _ hnone
          rw [hsome] at hnone
          cases hnone
    · simp [AuthHeader.zero]

theorem maxAge_noNul (n : Nat) : NUL ∉ (mgSnprintf 64 (ascii "max-age=" ++ decText n)).1 := by
  have htext : NUL ∉ ascii "max-age=" ++ decText n := by
    simp only [List.mem_append, not_or]
    exact ⟨by decide, fun hmem => absurd (decText_digits n NUL hmem) (by decide)⟩
  rw [mgSnprintf]
  split_ifs
  · exact htext
  · exact fun hmem => htext (List.mem_of_mem_take hmem)

/-- A 401 that has been started on `start` and was asked to add the headers `hs`. -/
structure Collecting (start c : ResponseConn) (hs : List MgHeader) : Prop where
  same : c.toConn = start.toConn
  out : c.out = start.out
  request : c.isHttpRequest = true
  state : c.requestState = 1
  status : c.statusCode = 401
  headers : c.responseHeaders = hs.take mgMaxHeaders

section Collecting

variable {start c : ResponseConn} {hs : List MgHeader}

theorem Collecting.full (h : Collecting start c hs) : c.responseHeaders.length ≤ mgMaxHeaders := by
  rw [h.headers]
  exact List.length_take_le _ _

theorem Collecting.withHeaders (h : Collecting start c hs) (hs' : List MgHeader) :
    Collecting start (withHeaders c hs') (hs ++ hs') := by
  refine ⟨h.same, h.out, h.request, h.state, h.status, ?_⟩
  rw [CivetWeb.withHeaders, h.headers]
  exact take_append_take hs hs'

theorem Collecting.addHeader (h : Collecting start c hs) (header value : List Byte) :
    Collecting start (addHeader c header value) (hs ++ [⟨cstr header, cstr value⟩]) := by
  rw [CivetWeb.addHeader, mgResponseHeaderAdd_adds c header value (-1) h.request h.state h.full]
  exact h.withHeaders _

theorem Collecting.addLines (h : Collecting start c hs) (text : List Byte) :
    Collecting start (mgResponseHeaderAddLines c text).2
      (hs ++ (ResponseCall.addLines text).headers) := by
  have hadd : (mgResponseHeaderAddLines c text).2 = _ := addLines_run (fun _ => []) c text
  rw [hadd, adds_run (fun _ => []) c _ h.request h.state h.full (addCall_headers text)]
  exact h.withHeaders _

theorem Collecting.noCache (h : Collecting start c hs) :
    Collecting start (sendNoCacheHeader c) (hs ++ noCacheHeaders start.toConn) := by
  have htwo := (h.addHeader (ascii "Cache-Control")
    (ascii "no-cache, no-store, must-revalidate, private, max-age=0")).addHeader
    (ascii "Expires") (ascii "0")
  have hcontrol : cstr (ascii "Cache-Control") = ascii "Cache-Control" := cstr_of_no_nul _ (by decide +kernel)
  have hdirectives : cstr (ascii "no-cache, no-store, must-revalidate, private, max-age=0") =
      ascii "no-cache, no-store, must-revalidate, private, max-age=0" := cstr_of_no_nul _ (by decide +kernel)
  have hexpires : cstr (ascii "Expires") = ascii "Expires" := cstr_of_no_nul _ (by decide +kernel)
  have hzero : cstr (ascii "0") = ascii "0" := cstr_of_no_nul _ (by decide +kernel)
  have hpragma : cstr (ascii "Pragma") = ascii "Pragma" := cstr_of_no_nul _ (by decide +kernel)
  have hnone : cstr (ascii "no-cache") = ascii "no-cache" := cstr_of_no_nul _ (by decide +kernel)
  rw [hcontrol, hdirectives, hexpires, hzero] at htwo
  rw [sendNoCacheHeader, noCacheHeaders, htwo.same]
  split_ifs
  · have hthree := htwo.addHeader (ascii "Pragma") (ascii "no-cache")
    rw [hpragma, hnone, List.append_assoc, List.append_assoc] at hthree
    exact hthree
  · rw [List.append_assoc] at htwo
    exact htwo

theorem Collecting.additional (h : Collecting start c hs) (dom : DigestDomain) :
    Collecting start (sendAdditionalHeader dom c) (hs ++ additionalHeaders dom) := by
  have hlines {c : ResponseConn} {hs : List MgHeader} (h : Collecting start c hs) :
      Collecting start (match dom.additionalHeader with
        | none => c
        | some header => if header = [] then c else (mgResponseHeaderAddLines c header).2)
        (hs ++ match dom.additionalHeader with
          | none => []
          | some header => if header = [] then [] else (ResponseCall.addLines header).headers) := by
    cases dom.additionalHeader with
    | none => simpa using h
    | some header =>
      by_cases hnil : header = []
      · simpa [hnil] using h
      · simpa [hnil] using h.addLines header
  rw [additionalHeaders, ← List.append_assoc, sendAdditionalHeader]
  refine hlines ?_
  cases dom.strictHttpsMaxAge with
  | none => simpa using h
  | some maxAge =>
    obtain ⟨age, hage⟩ : ∃ age, age = (strtoll 10 (maxAge ++ [NUL])).1 := ⟨_, rfl⟩
    simp only [← hage]
    by_cases hpos : 0 ≤ age
    · rw [if_pos hpos, if_pos hpos]
      have hadd := h.addHeader (ascii "Strict-Transport-Security")
        (mgSnprintf 64 (ascii "max-age=" ++ decText age.toNat)).1
      have hname : cstr (ascii "Strict-Transport-Security") = ascii "Strict-Transport-Security" := by
        decide
      rw [hname, cstr_of_no_nul _ (maxAge_noNul age.toNat)] at hadd
      exact hadd
    · rw [if_neg hpos, if_neg hpos, List.append_nil]
      exact h

end Collecting

/-- A call on a connection without a response starts its 401. -/
theorem Challenge.started_collecting (dom : DigestDomain) (ch : Challenge)
    (hrequest : ch.conn.isHttpRequest = true) (hfresh : ch.conn.requestState = 0) :
    Collecting { ch.conn with mustClose := true } (ch.started dom) (noCacheHeaders ch.conn.toConn ++
      additionalHeaders dom ++ [⟨ascii "Content-Length", ascii "0"⟩]) := by
  have hstart : Collecting { ch.conn with mustClose := true }
      (mgResponseHeaderStart { ch.conn with mustClose := true } 401).2 [] := by
    have hrequest' : ResponseConn.isHttpRequest { ch.conn with mustClose := true } = true := hrequest
    rw [mgResponseHeaderStart, if_neg (by decide), hrequest', if_neg (by decide), hfresh,
      if_neg (by decide)]
    exact ⟨rfl, rfl, hrequest, rfl, rfl, rfl⟩
  exact (hstart.noCache.additional dom).addHeader _ _

theorem digestChallenge_length (realm : List Byte) (nonce : BitVec 64) :
    (digestChallenge realm nonce).length = 37 + realm.length + (decText nonce.toNat).length := by
  have hfixed : (ascii "Digest qop=\"auth\", realm=\"").length = 26 ∧
      (ascii "\", nonce=\"").length = 10 ∧ (ascii "\"").length = 1 := by decide
  simp only [digestChallenge, List.length_append]
  omega

theorem digestChallenge_noNul (realm : List Byte) (nonce : BitVec 64) (h : NUL ∉ realm) :
    NUL ∉ digestChallenge realm nonce := by
  have hdigits : NUL ∉ decText nonce.toNat :=
    fun hmem => absurd (decText_digits _ NUL hmem) (by decide)
  have hfixed : NUL ∉ ascii "Digest qop=\"auth\", realm=\"" ∧ NUL ∉ ascii "\", nonce=\"" ∧
      NUL ∉ ascii "\"" := by decide
  simp only [digestChallenge, List.mem_append, not_or]
  exact ⟨⟨⟨⟨hfixed.1, h⟩, hfixed.2.1⟩, hdigits⟩, hfixed.2.2⟩

/-- The headers of a 401; the challenge is left out where it is too long for its buffer. -/
theorem Challenge.response_collecting (dom : DigestDomain) (ch : Challenge)
    (hrequest : ch.conn.isHttpRequest = true) (hfresh : ch.conn.requestState = 0) :
    Collecting { ch.conn with mustClose := true } (ch.response dom) (noCacheHeaders ch.conn.toConn ++
      additionalHeaders dom ++ [⟨ascii "Content-Length", ascii "0"⟩] ++
      if (ch.realmText dom).length + (decText ch.nonce.toNat).length ≤ 90 then
        [⟨ascii "WWW-Authenticate", digestChallenge (ch.realmText dom) ch.nonce⟩]
      else []) := by
  have h := ch.started_collecting dom hrequest hfresh
  have hlen := digestChallenge_length (ch.realmText dom) ch.nonce
  rw [Challenge.response]
  by_cases hfit : (ch.realmText dom).length + (decText ch.nonce.toNat).length ≤ 90
  · have hname : cstr (ascii "WWW-Authenticate") = ascii "WWW-Authenticate" := by decide
    have hvalue : cstr (digestChallenge (ch.realmText dom) ch.nonce) =
        digestChallenge (ch.realmText dom) ch.nonce :=
      cstr_of_no_nul _ (digestChallenge_noNul _ _ (cstr_noNul _))
    have hadd := h.addHeader (ascii "WWW-Authenticate")
      (digestChallenge (ch.realmText dom) ch.nonce)
    rw [hname, hvalue] at hadd
    rw [mgSnprintf_fits 128 _ (by omega), if_pos hfit]
    exact hadd
  · rw [mgSnprintf, if_neg (by omega), if_neg hfit, List.append_nil]
    exact h

theorem noCacheHeaders_noNul (conn : Conn) : ∀ h ∈ noCacheHeaders conn, NUL ∉ h.name := by
  rw [noCacheHeaders]
  split_ifs <;> decide

theorem additionalHeaders_noNul (dom : DigestDomain) : ∀ h ∈ additionalHeaders dom, NUL ∉ h.name := by
  intro h hmem
  rw [additionalHeaders, List.mem_append] at hmem
  rcases hmem with hmem | hmem
  · cases hage : dom.strictHttpsMaxAge with
    | none => simp [hage] at hmem
    | some maxAge =>
      simp only [hage] at hmem
      split_ifs at hmem
      · rw [List.mem_singleton.mp hmem]
        show NUL ∉ ascii "Strict-Transport-Security"
        decide
      · cases hmem
  · cases hheader : dom.additionalHeader with
    | none => simp [hheader] at hmem
    | some header =>
      simp only [hheader] at hmem
      split_ifs at hmem
      · cases hmem
      · exact headers_noNul _ h hmem

/-- The headers of a 401 are names without a NUL. -/
theorem Challenge.response_noNul (dom : DigestDomain) (ch : Challenge)
    (hrequest : ch.conn.isHttpRequest = true) (hfresh : ch.conn.requestState = 0) :
    ∀ h ∈ (ch.response dom).responseHeaders, NUL ∉ h.name := by
  intro h hmem
  rw [(ch.response_collecting dom hrequest hfresh).headers] at hmem
  have hall := List.mem_of_mem_take hmem
  simp only [List.mem_append, List.mem_singleton] at hall
  rcases hall with ((hcache | hadded) | rfl) | hchallenge
  · exact noCacheHeaders_noNul _ h hcache
  · exact additionalHeaders_noNul dom h hadded
  · decide
  · split_ifs at hchallenge
    · rw [List.mem_singleton.mp hchallenge]
      show NUL ∉ ascii "WWW-Authenticate"
      decide
    · cases hchallenge

theorem Challenge.Fits.carried (dom : DigestDomain) (ch : Challenge) (h : ch.Fits dom) :
    ch.Carried dom := by
  have hr := ch.response_collecting dom h.request h.fresh
  have hnul := ch.response_noNul dom h.request h.fresh
  have hroom := h.room
  have hreason : mgGetResponseCodeText 401 = ascii "Unauthorized" := by decide +kernel
  rw [if_pos h.challenge] at hr
  refine ⟨hr.state, hr.status, ?_, fun gmtTimeString hline hlines hdate hnet => ?_⟩
  · rw [hr.headers, List.take_of_length_le (by
      rw [List.length_append, List.length_append, List.length_singleton, List.length_singleton]
      exact hroom)]
    exact List.mem_append_right _ (List.mem_singleton.mpr rfl)
  · obtain ⟨out, t, hsend, hsent, -⟩ := mgResponseHeaderSend_sends gmtTimeString (ch.response dom) 0 hr.request
      hr.state (by rw [hr.status]; decide) hr.full hnul (by rw [hr.status, hreason, hr.same]; exact hline) hlines hdate
      (by rw [hr.out]; exact hnet)
    refine ⟨t, ?_⟩
    rw [sendAuthorizationRequest, hsend]
    dsimp only
    rw [hsent, hr.same, hr.out, hr.status]

/-- The nonces of the calls are the ones counted so far, each once. -/
structure NonceState.Counted (dom : DigestDomain) (s : NonceState) : Prop where
  fits : ∀ ch ∈ s.drawn ++ s.sent, ch.Fits dom
  perm : s.issued.Perm ((List.range s.nonceCount).map dom.key.nonce)

/-- The calls of `send_authorization_request` find room for their challenge. -/
def drawFits (dom : DigestDomain) (s : NonceState) : NonceEvent → Prop
  | .draw conn realm => (Challenge.mk conn realm (dom.key.nonce s.nonceCount)).Fits dom
  | .respond _ => True

theorem nonceStep_counted (dom : DigestDomain) (s : NonceState) (e : NonceEvent) (t : NonceState)
    (h : s.Counted dom) (hok : drawFits dom s e) (hstep : nonceStep dom s e = some t) :
    t.Counted dom := by
  obtain ⟨hfits, hperm⟩ := h
  cases e with
  | draw conn realm =>
    obtain ⟨ch, hch⟩ : ∃ ch, ch = Challenge.mk conn realm (dom.key.nonce s.nonceCount) := ⟨_, rfl⟩
    simp only [nonceStep, ← hch, Option.some.injEq] at hstep
    simp only [drawFits, ← hch] at hok
    subst hstep
    constructor
    · intro ch' hmem
      simp only [List.mem_append, List.mem_singleton] at hmem hfits
      rcases hmem with (hmem | rfl) | hmem
      · exact hfits ch' (Or.inl hmem)
      · exact hok
      · exact hfits ch' (Or.inr hmem)
    · have hnonce : ch.nonce = dom.key.nonce s.nonceCount := by rw [hch]
      have hcount : (List.range (s.nonceCount + 1)).map dom.key.nonce =
          (List.range s.nonceCount).map dom.key.nonce ++ [ch.nonce] := by
        rw [List.range_succ, List.map_append, List.map_singleton, hnonce]
      have hmove : ((s.drawn ++ [ch] ++ s.sent).map (·.nonce)).Perm (s.issued ++ [ch.nonce]) := by
        rw [NonceState.issued, List.map_append, List.map_append, List.map_append, List.append_assoc,
          List.append_assoc]
        exact List.Perm.append_left _ List.perm_append_comm
      exact hcount ▸ hmove.trans (hperm.append_right _)
  | respond k =>
    simp only [nonceStep, Option.map_eq_some_iff] at hstep
    obtain ⟨ch, hk, rfl⟩ := hstep
    obtain ⟨hlt, hget⟩ := List.getElem?_eq_some_iff.mp hk
    have hmove : (s.drawn.eraseIdx k ++ (s.sent ++ [ch])).Perm (s.drawn ++ s.sent) := by
      have hone : (ch :: s.drawn.eraseIdx k).Perm s.drawn := hget ▸ List.getElem_cons_eraseIdx_perm hlt
      rw [← List.append_assoc]
      exact (List.perm_append_singleton ch _).trans (hone.append_right s.sent)
    constructor
    · intro ch' hmem
      exact hfits ch' (hmove.mem_iff.mp hmem)
    · exact (hmove.map _).trans hperm

theorem counted_sound (dom : DigestDomain) (s : NonceState) (h : s.Counted dom)
    (hrange : dom.key.InRange s.nonceCount) : s.Sound dom := by
  have hissued (v : BitVec 64) : v ∈ s.issued ↔ ∃ i < s.nonceCount, v = dom.key.nonce i := by
    rw [h.perm.mem_iff]
    simp [eq_comm]
  have hnodup : s.issued.Nodup := by
    rw [h.perm.nodup_iff]
    refine List.Nodup.map_on ?_ List.nodup_range
    intro i hi j hj heq
    exact nonce_inj dom.key s.nonceCount i j hrange (List.mem_range.mp hi) (List.mem_range.mp hj) heq
  refine ⟨?_, ?_, ?_, ?_, ?_⟩
  · intro ch hmem
    exact (h.fits ch (List.mem_append_right _ hmem)).carried dom ch
  · rw [NonceState.issued, List.map_append] at hnodup
    exact hnodup.of_append_right
  · intro conn bufSize ch hmem hnonce
    have hcheck : nonceCheck dom.key s.nonceCount (decText ch.nonce.toNat) = true := by
      rw [nonceCheck_iff dom.key s.nonceCount _ hrange, strtoul_decText _ ch.nonce.isLt]
      refine ⟨rfl, ?_⟩
      rw [BitVec.ofNat_toNat, BitVec.setWidth_eq]
      exact (hissued _).mp (List.mem_map_of_mem (List.mem_append_right _ hmem))
    rw [(parseAuthHeader_nonce _ _ conn bufSize).1 _ hnonce, hcheck, Bool.true_and]
  · intro conn bufSize nonce hnonce hforeign
    have hcheck : nonceCheck dom.key s.nonceCount nonce = false := by
      rw [← Bool.not_eq_true, nonceCheck_iff dom.key s.nonceCount _ hrange, ← hissued]
      rintro ⟨hend, hmem⟩
      exact hforeign.elim (fun hne => hne hend) (fun hnot => hnot hmem)
    rw [(parseAuthHeader_nonce _ _ conn bufSize).1 _ hnonce, hcheck, Bool.false_and]
  · intro conn bufSize
    exact (parseAuthHeader_nonce _ _ conn bufSize).2

/-- However the calls of the threads interleave, the nonces of the domain are sound as long as
every call finds room for its challenge. -/
theorem nonces_sound (dom : DigestDomain) (es : List NonceEvent)
    (hfits : System.Along (nonceStep dom) (drawFits dom) .start es) :
    System.Always (nonceStep dom)
      (fun s => dom.key.InRange s.nonceCount → s.Sound dom) .start es := by
  have hstart : NonceState.Counted dom .start := ⟨by simp [NonceState.start], List.Perm.nil⟩
  exact (System.always_of_invariant (nonceStep dom) (NonceState.Counted dom) (drawFits dom)
    (nonceStep_counted dom) .start es hstart hfits).imp _ _ _ (fun s => counted_sound dom s) _ _

def plainDomain : DigestDomain where
  key := ⟨1700000000#64, 0x1234567890abcdef#64⟩
  authenticationDomain := ascii "mydomain.com"
  additionalHeader := none
  strictHttpsMaxAge := none

theorem nonces_sound_plain : System.Always (nonceStep plainDomain)
    (fun s => plainDomain.key.InRange s.nonceCount → s.Sound plainDomain) .start
    [.draw requestConn none, .draw requestConn (some (ascii "files")), .respond 1, .respond 0] := by
  have hfits (nonce : BitVec 64) (realm : Option (List Byte))
      (hrealm : (cstr (realm.getD plainDomain.authenticationDomain)).length ≤ 70) :
      (Challenge.mk requestConn realm nonce).Fits plainDomain := by
    have hdigits := decText_length_le nonce.toNat 20 (by decide) (by have := nonce.isLt; omega)
    have hroom : (noCacheHeaders requestConn.toConn ++ additionalHeaders plainDomain).length + 2 ≤
        mgMaxHeaders := by decide
    refine ⟨rfl, rfl, ?_, hroom⟩
    rw [Challenge.realmText]
    dsimp only
    omega
  have hdraws (s : NonceState) : drawFits plainDomain s (.draw requestConn none) ∧
      drawFits plainDomain s (.draw requestConn (some (ascii "files"))) :=
    ⟨hfits _ none (by decide), hfits _ (some (ascii "files")) (by decide)⟩
  exact nonces_sound plainDomain _ (fun _ _ => ⟨(hdraws _).1, fun _ _ => ⟨(hdraws _).2,
    fun _ _ => ⟨trivial, fun _ _ => ⟨trivial, trivial⟩⟩⟩⟩)

def longRealmDomain : DigestDomain where
  key := ⟨1700000000#64, 0x1234567890abcdef#64⟩
  authenticationDomain := List.replicate 91 65
  additionalHeader := none
  strictHttpsMaxAge := none

/-- A realm of 91 letters: the 401 goes out without a challenge. -/
theorem nonces_sound_longRealm : ∃ s ch,
    System.run (nonceStep longRealmDomain) .start [.draw requestConn none, .respond 0] = some s ∧
      longRealmDomain.key.InRange s.nonceCount ∧ s.sent = [ch] ∧
      (ch.response longRealmDomain).requestState = 1 ∧
      (ch.response longRealmDomain).statusCode = 401 ∧
      (∀ h ∈ (ch.response longRealmDomain).responseHeaders, h.name ≠ ascii "WWW-Authenticate") ∧
      ¬ s.Sound longRealmDomain := by
  obtain ⟨ch, hch⟩ : ∃ ch, ch = Challenge.mk requestConn none (longRealmDomain.key.nonce 0) := ⟨_, rfl⟩
  have hr := ch.response_collecting longRealmDomain (by rw [hch]; rfl) (by rw [hch]; rfl)
  have hlong : 91 = (ch.realmText longRealmDomain).length := by
    rw [hch]
    rfl
  rw [if_neg (by omega)] at hr
  have hnames : ∀ h ∈ (ch.response longRealmDomain).responseHeaders,
      h.name ≠ ascii "WWW-Authenticate" := by
    rw [hr.headers, hch]
    decide
  refine ⟨⟨1, [], [ch]⟩, ch, ?_, ?_, rfl, hr.state, hr.status, hnames, ?_⟩
  · rw [hch]
    rfl
  · have hrange : longRealmDomain.key.InRange 1 := by
      rw [NonceKey.InRange]
      decide
    exact hrange
  · intro hsound
    have hcarried := hsound.carried ch (List.mem_singleton.mpr rfl)
    exact hnames _ hcarried.header rfl

end CivetWeb
