import CivetWeb.Http.Percent
import CivetWeb.Response.HeadOnce

namespace CivetWeb

/-! ### The redirect to the HTTPS port -/

/-- What a link has in front of its path. -/
def localLinkBase (ri : LinkInfo) (defineProto : Option (List Byte)) (definePort : Nat) : List Byte :=
  let proto := defineProto.getD (getProtoName ri)
  let port := if 0 < definePort then definePort else ri.serverPort
  let defaultPort :=
    match defineProto with
    | some defineProto => if defineProto = ascii "https" ∨ defineProto = ascii "wss" then 443 else 80
    | none => if ri.isSsl then 443 else 80
  let portstr := if port ≠ defaultPort then ascii ":" ++ decText port else []
  let serverDomain :=
    if ri.enableAuthDomainCheck then ri.authenticationDomain.getD ri.serverIp else ri.serverIp
  proto ++ ascii "://" ++ serverDomain ++ portstr

/-- `mg_construct_local_link`; `none` is its -1. -/
def mgConstructLocalLink (ri : LinkInfo) (buflen : Nat) (defineProto : Option (List Byte)) (definePort : Nat)
    (defineUri : Option (List Byte)) : Option (List Byte) :=
  let uri := defineUri.getD ri.uri
  let (text, truncated) :=
    mgSnprintf buflen (localLinkBase ri defineProto definePort ++ restoreSlashes (mgUrlEncode uri))
  if truncated then none else some text

/-- Without defines it is the link of the request. -/
theorem mgConstructLocalLink_plain (ri : LinkInfo) (buflen : Nat) (h : (linkText ri).length < buflen) :
    mgConstructLocalLink ri buflen none 0 none = some (mgGetRequestLink ri buflen) := by
  have htext : localLinkBase ri none 0 ++ restoreSlashes (mgUrlEncode ri.uri) = linkText ri := rfl
  simp only [mgConstructLocalLink, mgGetRequestLink, Option.getD_none, htext, mgSnprintf_fits _ _ h,
    Bool.false_eq_true, if_false]

/-- The options of a domain that the headers of a redirect depend on. -/
structure RedirectConfig where
  staticFileCacheControl : Option (List Byte)
  staticFileMaxAge : List Byte
  strictHttpsMaxAge : Option (List Byte)
  additionalHeader : Option (List Byte)
  accessControlAllowOrigin : Option (List Byte)
  accessControlAllowCredentials : Option (List Byte)
  accessControlAllowHeaders : Option (List Byte)
  accessControlExposeHeaders : Option (List Byte)
  accessControlAllowMethods : Option (List Byte)
  replaceAsteriskWithOrigin : Option (List Byte)
  deriving DecidableEq, Repr

def noCacheCalls (conn : Conn) : List ResponseCall :=
  addCall ⟨ascii "Cache-Control", ascii "no-cache, no-store, must-revalidate, private, max-age=0"⟩ ::
    addCall ⟨ascii "Expires", ascii "0"⟩ ::
      if conn.protocolType = PROTOCOL_TYPE_HTTP1 then [addCall ⟨ascii "Pragma", ascii "no-cache"⟩] else []

/-- The calls of `send_static_cache_header`. -/
def staticCacheCalls (config : RedirectConfig) (conn : Conn) : List ResponseCall :=
  match config.staticFileCacheControl with
  | some cacheControl => [addCall ⟨ascii "Cache-Control", cacheControl⟩]
  | none =>
    let maxAge := atoi config.staticFileMaxAge
    if maxAge ≤ 0 then noCacheCalls conn
    else [addCall ⟨ascii "Cache-Control", (mgSnprintf 64 (ascii "max-age=" ++ decText maxAge.toNat)).1⟩]

/-- The calls of `send_additional_header`. -/
def additionalCalls (config : RedirectConfig) : List ResponseCall :=
  (match config.strictHttpsMaxAge with
    | none => []
    | some maxAge =>
      let maxAge := (strtoll 10 (maxAge ++ [NUL])).1
      if 0 ≤ maxAge then
        [addCall ⟨ascii "Strict-Transport-Security",
          (mgSnprintf 64 (ascii "max-age=" ++ decText maxAge.toNat)).1⟩]
      else []) ++
    match config.additionalHeader with
    | none => []
    | some header => if header = [] then [] else [.addLines header]

/-- An option that is set to a text. -/
def optionText (option : Option (List Byte)) : Option (List Byte) := option.filter (· ≠ [])

/-- The calls of `send_cors_header`. -/
def corsCalls (config : RedirectConfig) (conn : Conn) : List ResponseCall :=
  let originHdr := optionText (mgGetHeader conn (ascii "Origin"))
  (match optionText config.accessControlAllowOrigin, originHdr, optionText config.replaceAsteriskWithOrigin with
    | some origin, some originHdr, some replace =>
      [addCall ⟨ascii "Access-Control-Allow-Origin",
        if mgStrcasecmp replace (ascii "yes") = 0 ∧ deref origin = 42 then originHdr else origin⟩]
    | _, _, _ => []) ++
  (match optionText config.accessControlAllowCredentials, originHdr with
    | some cred, some _ => [addCall ⟨ascii "Access-Control-Allow-Credentials", cred⟩]
    | _, _ => []) ++
  ((optionText config.accessControlAllowHeaders).toList.map
    fun value => addCall ⟨ascii "Access-Control-Allow-Headers", value⟩) ++
  ((optionText config.accessControlExposeHeaders).toList.map
    fun value => addCall ⟨ascii "Access-Control-Expose-Headers", value⟩) ++
  (optionText config.accessControlAllowMethods).toList.map
    fun value => addCall ⟨ascii "Access-Control-Allow-Methods", value⟩

/-- The calls of `mg_send_http_redirect` up to the one that sends the head. -/
def mgSendHttpRedirect (config : RedirectConfig) (conn : Conn) (targetUrl : List Byte) (redirectCode : Int) :
    List ResponseCall :=
  let redirectCode := if redirectCode = 0 then 307 else redirectCode
  if redirectCode ∉ [301, 302, 303, 307, 308] then []
  else
    .start redirectCode :: addCall ⟨ascii "Location", if targetUrl = [] then [SLASH] else targetUrl⟩ ::
      ((if redirectCode = 301 ∨ redirectCode = 308 then staticCacheCalls config conn else noCacheCalls conn) ++
        additionalCalls config ++ corsCalls config conn ++
        [.add (some (ascii "Content-Length")) (some (ascii "0")) 1])

/-- The request URI as it is split in section 1.1 of `handle_request`. -/
def splitQuery (target : List Byte) : List Byte × Option (List Byte) :=
  (target.takeWhile (· != Match.QUESTION), (strchr target Match.QUESTION).map List.tail)

/-- The link that a connection is redirected to. -/
def Conn.linkInfo (conn : Conn) (serverIp uri : List Byte) : LinkInfo where
  isSsl := conn.ssl
  isWebsocket := conn.protocolType == PROTOCOL_TYPE_WEBSOCKET
  serverPort := conn.lsaPort
  uri := uri
  enableAuthDomainCheck := mgStrcasecmp conn.domain.enableAuthDomainCheck (ascii "yes") == 0
  authenticationDomain := some conn.domain.authenticationDomain
  serverIp := serverIp

/-- `target_url` of `redirect_to_https_port`; `none` where it is too long. -/
def redirectUrl (ri : LinkInfo) (queryString : Option (List Byte)) (port : Nat) : Option (List Byte) :=
  let expectProto := if ri.isWebsocket then ascii "wss" else ascii "https"
  match mgConstructLocalLink ri MG_BUF_LEN (some expectProto) port none, queryString with
  | none, _ => none
  | some targetUrl, none => some targetUrl
  | some targetUrl, some queryString =>
    if targetUrl.length + queryString.length + 2 < MG_BUF_LEN then
      some (targetUrl ++ Match.QUESTION :: queryString)
    else none

/-- How `redirect_to_https_port` answers. -/
inductive HttpsRedirect where
  | error (status : Nat) (message : List Byte)
  | response (conn : ResponseConn) (calls : List ResponseCall)

def redirectToHttpsPort (config : RedirectConfig) (c : ResponseConn) (serverIp : List Byte) (port : Nat) :
    HttpsRedirect :=
  let c := { c with mustClose := true }
  let (uri, queryString) := splitQuery c.requestInfo.requestUri
  match redirectUrl (c.linkInfo serverIp uri) queryString port with
  | none => .error 500 (ascii "Redirect URL too long")
  | some targetUrl => .response c (mgSendHttpRedirect config c.toConn targetUrl 308)

/-- The `Location` of the head that is sent after some calls. -/
def sentLocation (c : ResponseConn) (calls : List ResponseCall) : Option (List Byte) :=
  let c := responseRun (fun _ => []) c calls
  if c.isHttpRequest && c.requestState == 1 then
    (c.responseHeaders.find? fun h => h.name == ascii "Location").map (·.value)
  else none

/-! ### The URL -/

def queryText : Option (List Byte) → List Byte
  | none => []
  | some query => Match.QUESTION :: query

/-- The bytes that a query takes of the buffer for the URL. -/
def queryRoom : Option (List Byte) → Nat
  | none => 0
  | some query => query.length + 2

/-- The protocol, the host and the port that a redirect names. -/
def httpsBase (ri : LinkInfo) (port : Nat) : List Byte :=
  localLinkBase ri (some (if ri.isWebsocket then ascii "wss" else ascii "https")) port

theorem redirectUrl_eq (ri : LinkInfo) (queryString : Option (List Byte)) (port : Nat) :
    redirectUrl ri queryString port =
      if (httpsBase ri port).length + linkPathLength ri.uri + queryRoom queryString < MG_BUF_LEN then
        some (httpsBase ri port ++ (linkPath ri.uri ++ queryText queryString))
      else none := by
  have hlen : (httpsBase ri port ++ linkPath ri.uri).length =
      (httpsBase ri port).length + linkPathLength ri.uri := by
    rw [List.length_append, linkPath_length]
  have hlink : mgConstructLocalLink ri MG_BUF_LEN (some (if ri.isWebsocket then ascii "wss" else ascii "https"))
      port none =
      if (httpsBase ri port).length + linkPathLength ri.uri < MG_BUF_LEN then
        some (httpsBase ri port ++ linkPath ri.uri) else none := by
    rw [← hlen, mgConstructLocalLink, Option.getD_none, ← linkPath, ← httpsBase, mgSnprintf]
    split_ifs
    · rfl
    · rfl
  simp only [redirectUrl, hlink]
  cases queryString with
  | none =>
    rw [queryText, queryRoom, Nat.add_zero, List.append_nil]
    split_ifs
    · rfl
    · rfl
  | some queryString =>
    rw [queryText, queryRoom]
    by_cases hfit : (httpsBase ri port).length + linkPathLength ri.uri < MG_BUF_LEN
    · simp only [if_pos hfit, hlen, List.append_assoc, Nat.add_assoc]
    · rw [if_neg hfit, if_neg (by omega)]

/-! ### The head -/

theorem staticCacheCalls_open (config : RedirectConfig) (conn : Conn) :
    ∀ call ∈ staticCacheCalls config conn, call.closes = false := by
  rw [staticCacheCalls, noCacheCalls]
  cases config.staticFileCacheControl with
  | some cacheControl => simp [addCall, ResponseCall.closes]
  | none =>
    dsimp only
    split_ifs
    all_goals simp [addCall, ResponseCall.closes]

theorem additionalCalls_open (config : RedirectConfig) : ∀ call ∈ additionalCalls config, call.closes = false := by
  intro call hmem
  rcases List.mem_append.mp hmem with hage | hlines
  · cases hmax : config.strictHttpsMaxAge with
    | none => simp [hmax] at hage
    | some maxAge =>
      simp only [hmax] at hage
      split_ifs at hage
      · rw [List.mem_singleton.mp hage]
        rfl
      · cases hage
  · cases hheader : config.additionalHeader with
    | none => simp [hheader] at hlines
    | some header =>
      simp only [hheader] at hlines
      split_ifs at hlines
      · cases hlines
      · rw [List.mem_singleton.mp hlines]
        rfl

theorem corsCalls_open (config : RedirectConfig) (conn : Conn) :
    ∀ call ∈ corsCalls config conn, call.closes = false := by
  have hadd (h : MgHeader) : (addCall h).closes = false := rfl
  have hoption (name : List Byte) (option : Option (List Byte)) :
      ∀ call ∈ (optionText option).toList.map fun value => addCall ⟨name, value⟩, call.closes = false := by
    intro call hmem
    obtain ⟨value, -, rfl⟩ := List.mem_map.mp hmem
    exact hadd _
  intro call hmem
  simp only [corsCalls, List.mem_append] at hmem
  rcases hmem with (((hmem | hmem) | hmem) | hmem) | hmem
  · split at hmem
    · rw [List.mem_singleton.mp hmem]
      exact hadd _
    · cases hmem
  · split at hmem
    · rw [List.mem_singleton.mp hmem]
      exact hadd _
    · cases hmem
  · exact hoption _ _ call hmem
  · exact hoption _ _ call hmem
  · exact hoption _ _ call hmem

/-- The calls of a permanent redirect: a start, the location, and further headers. -/
theorem mgSendHttpRedirect_permanent (config : RedirectConfig) (conn : Conn) {url : List Byte} (hurl : url ≠ []) :
    ∃ more, mgSendHttpRedirect config conn url 308 = .start 308 :: addCall ⟨ascii "Location", url⟩ :: more ∧
      ∀ call ∈ more, call.closes = false := by
  refine ⟨staticCacheCalls config conn ++ additionalCalls config ++ corsCalls config conn ++
    [ResponseCall.add (some (ascii "Content-Length")) (some (ascii "0")) 1], ?_, ?_⟩
  · rw [mgSendHttpRedirect, if_neg (by decide), if_neg (by decide), if_neg hurl, if_pos (by decide)]
  · intro call hmem
    simp only [List.mem_append, List.mem_singleton] at hmem
    rcases hmem with ((hmem | hmem) | hmem) | rfl
    · exact staticCacheCalls_open config conn call hmem
    · exact additionalCalls_open config call hmem
    · exact corsCalls_open config conn call hmem
    · rfl

/-- A connection that is not answered by HTTP takes no header. -/
theorem refused_call (gmtTimeString : Nat → List Byte) (c : ResponseConn) (call : ResponseCall)
    (hserver : c.isHttpRequest = false) (hcall : call.closes = false) :
    (responseCall gmtTimeString c call).2 = c := by
  have hadd (header value : Option (List Byte)) (valueLen : Int) :
      (mgResponseHeaderAdd c header value valueLen).2 = c := by
    cases header with
    | none => rfl
    | some header =>
      cases value with
      | none => rfl
      | some value => simp [mgResponseHeaderAdd, hserver]
  cases call with
  | start status =>
    simp only [responseCall, mgResponseHeaderStart, hserver, Bool.not_false, if_true]
    split_ifs
    · rfl
    · rfl
  | add header value valueLen => exact hadd header value valueLen
  | addLines text =>
    rw [addLines_run]
    induction (ResponseCall.addLines text).headers with
    | nil => rfl
    | cons h hs ih =>
      rw [List.map_cons, responseRun_cons]
      simp only [responseCall, addCall, hadd]
      exact ih
  | send => cases hcall
  | write buf =>
    have hlong : INT_MAX < buf.length := by simpa [ResponseCall.closes] using hcall
    simp [responseCall, ResponseConn.write, hlong]

theorem refused_run (gmtTimeString : Nat → List Byte) (c : ResponseConn) (calls : List ResponseCall)
    (hserver : c.isHttpRequest = false) (hcalls : ∀ call ∈ calls, call.closes = false) :
    responseRun gmtTimeString c calls = c := by
  induction calls with
  | nil => rfl
  | cons call calls ih =>
    rw [responseRun_cons, refused_call gmtTimeString c call hserver (hcalls call (by simp))]
    exact ih fun call' hmem => hcalls call' (by simp [hmem])

/-- A permanent redirect sends its location, and nothing to a connection that is no HTTP request. -/
theorem sentLocation_redirect (config : RedirectConfig) (c : ResponseConn) {url : List Byte} (hurl : url ≠ [])
    (hplain : NUL ∉ url) (hfresh : c.requestState = 0) :
    sentLocation c (mgSendHttpRedirect config c.toConn url 308) = if c.isHttpRequest then some url else none := by
  obtain ⟨more, hcalls, hopen⟩ := mgSendHttpRedirect_permanent config c.toConn hurl
  have hadds : ∀ call ∈ addCall ⟨ascii "Location", url⟩ :: more, call.closes = false := by
    intro call hmem
    rcases List.mem_cons.mp hmem with rfl | hmem
    · rfl
    · exact hopen call hmem
  rw [sentLocation, hcalls]
  cases hserver : c.isHttpRequest with
  | false =>
    have hall : ∀ call ∈ .start 308 :: addCall ⟨ascii "Location", url⟩ :: more, call.closes = false := by
      intro call hmem
      rcases List.mem_cons.mp hmem with rfl | hmem
      · rfl
      · exact hadds call hmem
    rw [refused_run _ c _ hserver hall]
    simp [hserver]
  | true =>
    have hname : cstr (ascii "Location") = ascii "Location" := by decide
    have hrun := opened_run (fun _ => []) c (.start 308 :: addCall ⟨ascii "Location", url⟩ :: more) 308
      (addCall ⟨ascii "Location", url⟩ :: more) hserver hfresh ⟨[], by simp, rfl, hadds, rfl⟩
    obtain ⟨n, hmax⟩ : ∃ n, mgMaxHeaders = n + 1 := ⟨mgMaxHeaders - 1, rfl⟩
    have hfirst : acceptedHeaders (addCall ⟨ascii "Location", url⟩ :: more) =
        ⟨ascii "Location", url⟩ :: (more.flatMap ResponseCall.headers).take n := by
      rw [acceptedHeaders, List.flatMap_cons, hmax]
      simp only [addCall, ResponseCall.headers, hname, cstr_of_no_nul url hplain]
      rfl
    rw [hrun, hfirst]
    have hhttp : ResponseConn.isHttpRequest { startedConn c 308 with
        responseHeaders := ⟨ascii "Location", url⟩ :: (more.flatMap ResponseCall.headers).take n } = true := hserver
    simp only [hhttp]
    rfl

/-! ### The redirect leads to the same resource -/

/-- Unless it is answered by 500, the location is made of a host, of a path that decodes to what the
requested one decodes to, and of the requested query. -/
def LeadsBack (config : RedirectConfig) (c : ResponseConn) (serverIp : List Byte) (port : Nat) : Prop :=
  let target := splitQuery c.requestInfo.requestUri
  match redirectToHttpsPort config c serverIp port with
  | .error status _ => status = 500
  | .response conn calls => ∃ path,
      sentLocation conn calls =
        some (httpsBase (c.linkInfo serverIp target.1) port ++ (path ++ queryText target.2)) ∧
      path.head? = some SLASH ∧ Match.QUESTION ∉ path ∧ percentDecode path = percentDecode target.1

/-- The URL is longer than its buffer. -/
def RedirectTooLong (c : ResponseConn) (serverIp : List Byte) (port : Nat) : Prop :=
  let target := splitQuery c.requestInfo.requestUri
  MG_BUF_LEN ≤ (httpsBase (c.linkInfo serverIp target.1) port).length + linkPathLength target.1 +
    queryRoom target.2

theorem splitQuery_noNul {target : List Byte} (h : NUL ∉ target) :
    NUL ∉ (splitQuery target).1 ∧ NUL ∉ queryText (splitQuery target).2 := by
  have hsub (s : List Byte) (hs : ∀ c ∈ s, c ∈ target) : NUL ∉ s := fun hmem => h (hs NUL hmem)
  refine ⟨hsub _ fun c hc => List.takeWhile_subset _ hc, ?_⟩
  rw [splitQuery, strchr]
  split_ifs with hnil
  · exact List.not_mem_nil
  · rw [Option.map_some, queryText, List.mem_cons, not_or]
    exact ⟨by decide, hsub _ fun c hc => (List.dropWhile_suffix _).subset (List.mem_of_mem_tail hc)⟩

theorem httpsBase_noNul {ri : LinkInfo} (port : Nat) (hip : NUL ∉ ri.serverIp)
    (hdomain : ∀ domain ∈ ri.authenticationDomain, NUL ∉ domain) : NUL ∉ httpsBase ri port := by
  have hdigits (n : Nat) : NUL ∉ decText n := fun hmem => absurd (decText_digits n NUL hmem) (by decide)
  have hserver : NUL ∉ if ri.enableAuthDomainCheck then ri.authenticationDomain.getD ri.serverIp else ri.serverIp := by
    split_ifs
    · cases hd : ri.authenticationDomain with
      | none => exact hip
      | some domain => exact hdomain domain hd
    · exact hip
  rw [httpsBase, localLinkBase]
  simp only [List.mem_append, not_or]
  refine ⟨⟨⟨?_, by decide⟩, hserver⟩, ?_⟩
  · rw [Option.getD_some]
    split_ifs
    · decide
    · decide
  · split_ifs
    all_goals simp only [List.mem_append, not_or, List.not_mem_nil, not_false_eq_true, hdigits, and_true]
    all_goals decide

theorem httpsBase_ne_nil (ri : LinkInfo) (port : Nat) : httpsBase ri port ≠ [] := by
  intro h
  have hlen := congrArg List.length h
  rw [httpsBase, localLinkBase] at hlen
  simp only [List.length_append, List.length_nil] at hlen
  have hcolon : (ascii "://").length = 3 := by decide
  omega

/-- The redirect leads back to the requested resource exactly where the path has no escape and the
request is an HTTP one for a path of this server. -/
theorem leadsBack_iff (config : RedirectConfig) (c : ResponseConn) (serverIp : List Byte) (port : Nat)
    (hconn : c.connectionType = .request) (hfresh : c.requestState = 0)
    (htarget : NUL ∉ c.requestInfo.requestUri)
    (hhost : NUL ∉ serverIp ∧ NUL ∉ c.domain.authenticationDomain) :
    LeadsBack config c serverIp port ↔ RedirectTooLong c serverIp port ∨
      c.protocolType ≠ PROTOCOL_TYPE_WEBSOCKET ∧
        (splitQuery c.requestInfo.requestUri).1.head? = some SLASH ∧
        ¬ HasEscape (splitQuery c.requestInfo.requestUri).1 := by
  obtain ⟨uri, query, htq⟩ : ∃ uri query, splitQuery c.requestInfo.requestUri = (uri, query) := ⟨_, _, rfl⟩
  obtain ⟨-, hquery⟩ := splitQuery_noNul htarget
  rw [htq] at hquery
  have hurl := redirectUrl_eq (c.linkInfo serverIp uri) query port
  have hrequest : ResponseConn.isHttpRequest { c with mustClose := true } =
      (c.protocolType != PROTOCOL_TYPE_WEBSOCKET) := by
    rw [ResponseConn.isHttpRequest, hconn]
    rfl
  have hne : httpsBase (c.linkInfo serverIp uri) port ++ (linkPath uri ++ queryText query) ≠ [] :=
    List.append_ne_nil_of_left_ne_nil (httpsBase_ne_nil _ _) _
  have hsent := sentLocation_redirect config { c with mustClose := true } hne
    (by
      rw [List.mem_append, List.mem_append, not_or, not_or]
      exact ⟨httpsBase_noNul port hhost.1 (by simpa [Conn.linkInfo] using hhost.2), (linkPath_plain uri).1, hquery⟩)
    hfresh
  rw [hrequest] at hsent
  have hinfo : Conn.linkInfo { c.toConn with mustClose := true } serverIp uri = c.linkInfo serverIp uri := rfl
  simp only [LeadsBack, RedirectTooLong, redirectToHttpsPort, htq, hinfo, hurl]
  have huri : (c.linkInfo serverIp uri).uri = uri := rfl
  rw [huri]
  by_cases hfit : (httpsBase (c.linkInfo serverIp uri) port).length + linkPathLength uri + queryRoom query < MG_BUF_LEN
  swap
  · simp only [if_neg hfit, true_iff]
    exact .inl (by omega)
  simp only [if_pos hfit, hsent]
  rw [or_iff_right (by omega)]
  by_cases hws : c.protocolType = PROTOCOL_TYPE_WEBSOCKET
  · simp [hws]
  · have hhttp : (c.protocolType != PROTOCOL_TYPE_WEBSOCKET) = true := by simpa using hws
    simp only [hhttp, if_true, Option.some.injEq, List.append_cancel_left_eq, List.append_cancel_right_eq]
    constructor
    · rintro ⟨path, rfl, hhead, -, hdecode⟩
      rw [percentDecode_linkPath] at hdecode
      exact ⟨hws, (linkPath_head uri).mp hhead, (percentDecode_eq_self uri).mp hdecode.symm⟩
    · rintro ⟨-, hhead, hesc⟩
      exact ⟨linkPath uri, rfl, (linkPath_head uri).mpr hhead, (linkPath_plain uri).2,
        by rw [percentDecode_linkPath, (percentDecode_eq_self uri).mpr hesc]⟩

def plainRedirect : RedirectConfig := ⟨none, ascii "3600", none, none, none, none, none, none, none, none⟩

def redirectedConn (target : String) : ResponseConn := { requestConn with
  requestInfo := ⟨ascii "GET", ascii target, ascii "1.1", []⟩ }

theorem leadsBack_iff_query : LeadsBack plainRedirect (redirectedConn "/a b?q=%20") (ascii "10.0.0.1") 443 := by
  refine (leadsBack_iff plainRedirect (redirectedConn "/a b?q=%20") (ascii "10.0.0.1") 443 rfl rfl (by decide)
    ⟨by decide, by decide⟩).mpr (.inr ⟨by decide, by decide, ?_⟩)
  rw [← percentDecode_eq_self]
  decide

/-- An escape in the path is escaped once more. -/
theorem leadsBack_escape :
    redirectUrl ((redirectedConn "/a%20b").linkInfo (ascii "10.0.0.1") (ascii "/a%20b")) none 443 =
        some (ascii "https://10.0.0.1/a%2520b") ∧
      ¬ LeadsBack plainRedirect (redirectedConn "/a%20b") (ascii "10.0.0.1") 443 := by
  have hurl : redirectUrl ((redirectedConn "/a%20b").linkInfo (ascii "10.0.0.1") (ascii "/a%20b")) none 443 =
      some (ascii "https://10.0.0.1/a%2520b") := by decide +kernel
  have hsplit : splitQuery (redirectedConn "/a%20b").requestInfo.requestUri = (ascii "/a%20b", none) := by decide
  have hsent : sentLocation { redirectedConn "/a%20b" with mustClose := true }
      (mgSendHttpRedirect plainRedirect { redirectedConn "/a%20b" with mustClose := true }.toConn
        (ascii "https://10.0.0.1/a%2520b") 308) = some (ascii "https://10.0.0.1" ++ ascii "/a%2520b") := by
    decide +kernel
  have hbase : httpsBase ((redirectedConn "/a%20b").linkInfo (ascii "10.0.0.1") (ascii "/a%20b")) 443 =
      ascii "https://10.0.0.1" := by decide
  refine ⟨hurl, fun h => ?_⟩
  have hinfo : Conn.linkInfo { (redirectedConn "/a%20b").toConn with mustClose := true } (ascii "10.0.0.1")
      (ascii "/a%20b") = (redirectedConn "/a%20b").linkInfo (ascii "10.0.0.1") (ascii "/a%20b") := rfl
  simp only [LeadsBack, redirectToHttpsPort, hsplit, hinfo, hurl, hsent, hbase, queryText, List.append_nil,
    Option.some.injEq, List.append_cancel_left_eq] at h
  obtain ⟨path, rfl, -, -, hdecode⟩ := h
  exact absurd hdecode (by decide)

end CivetWeb
