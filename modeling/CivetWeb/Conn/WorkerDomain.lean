import CivetWeb.Conn.Process
import CivetWeb.Conn.RequestLen
import CivetWeb.Lib.System

namespace CivetWeb

/-- `init_connection`; that `must_close` is set in it is undone with the first request. -/
def initConnection (conn : Conn) : Conn :=
  { conn with dataLen := 0, handledRequests := 0, protocolType := PROTOCOL_TYPE_HTTP1 }

/-- The domain that `ssl_servername_callback` puts into `dom_ctx`; `servername` is NULL without the
extension. -/
def servernameDomain (domains : List DomainContext) (servername : Option (List Byte)) : Nat :=
  match servername with
  | none => 0
  | some name =>
    if name = [] then 0
    else (domains.findIdx? fun dom => mgStrcasecmp name dom.authenticationDomain == 0).getD 0

def sslServernameCallback (conn : Conn) (servername : Option (List Byte)) : Conn :=
  { conn with domCtx := servernameDomain conn.domains servername }

/-- The state of `worker_thread_run`: its connection, and whether it is in the loop of
`process_new_connection`. -/
structure Worker where
  conn : Conn
  serving : Bool
  deriving DecidableEq, Repr

/-- What a worker thread does next. In a handshake `hello` is the server name if the callback is called,
and `accepted` what `sslize` returns. -/
inductive WorkerEvent where
  | accept (sock : List NetEvent) (lsaPort : Nat)
  | acceptTls (sock : List NetEvent) (lsaPort : Nat) (hello : Option (Option (List Byte)))
      (accepted : Bool)
  | request (handler : Conn → Handler)

namespace Worker

/-- A worker thread starts with the default domain. -/
def start (conn : Conn) : Worker := ⟨{ conn with domCtx := 0 }, false⟩

def step (w : Worker) : WorkerEvent → Option Worker
  | .accept sock lsaPort =>
    if w.serving then none
    else some ⟨initConnection { w.conn with sock := sock, lsaPort := lsaPort, ssl := false }, true⟩
  | .acceptTls sock lsaPort hello accepted =>
    if w.serving then none
    else
      let conn := { w.conn with sock := sock, lsaPort := lsaPort, ssl := true }
      let conn :=
        match hello with
        | none => conn
        | some servername => sslServernameCallback conn servername
      if accepted then some ⟨initConnection conn, true⟩ else some ⟨conn, false⟩
  | .request handler =>
    if w.serving then
      let turn := processTurn handler w.conn
      some ⟨turn.conn, turn.again⟩
    else none

end Worker

/-- The connection in `get_request` where a request was parsed. -/
def readRequest (conn : Conn) : Option Conn :=
  match getMessage conn with
  | (some _, _) => none
  | (none, conn) =>
    match parseHttpRequest conn.buf conn.buf.length with
    | .error _ => none
    | .ok r => some { conn with requestInfo := r.info, buf := r.buf }

/-- The first domain with the name of the host that a request is for. -/
def namedDomain (domains : List DomainContext) (ri : RequestInfo) : Option Nat :=
  (getHostFromRequestInfo ri).bind fun host =>
    domains.findIdx? fun dom => dom.authenticationDomain.map tolower == host.map tolower

/-- The domain that a request is for: the one it names, or the default domain. -/
def requestDomain (domains : List DomainContext) (ri : RequestInfo) : Nat :=
  (namedDomain domains ri).getD 0

namespace Worker

/-- The domain that an event chooses, if it chooses one. -/
def chosen (w : Worker) : WorkerEvent → Option Nat
  | .accept _ _ => none
  | .acceptTls _ _ hello _ => hello.map (servernameDomain w.conn.domains)
  | .request _ =>
    (readRequest w.conn).bind fun c => if c.ssl then none else namedDomain c.domains c.requestInfo

/-- The domain that was chosen last along a run, at first the default domain. -/
def lastChosen (w : Worker) (domain : Nat) : List WorkerEvent → Nat
  | [] => domain
  | event :: events =>
    match w.step event with
    | none => domain
    | some t => lastChosen t ((w.chosen event).getD domain) events

/-- Behind the events `before` a worker reads the request of `c`, on a connection without TLS. -/
structure Reads (w : Worker) (before : List WorkerEvent) (t : Worker) (c : Conn) : Prop where
  run : System.run step w before = some t
  serving : t.serving = true
  read : readRequest t.conn = some c
  plain : c.ssl = false

end Worker

theorem headersLoop_values (n : Nat) (buf : List Byte) :
    ∀ h ∈ (headersLoop n buf).headers, NUL ∉ h.value := by
  have hvalue (s : List Byte) : NUL ∉ s.takeWhile valueByte := by
    intro hmem
    have hbyte := List.mem_takeWhile_imp hmem
    cases hbyte
  have hstep (buf written rest : List Byte) (h : MgHeader) (stop : Bool)
      (hfield : headerStep buf = .field h written rest stop) : NUL ∉ h.value := by
    unfold headerStep at hfield
    dsimp only at hfield
    split_ifs at hfield
    · cases hfield
      exact hvalue _
    · cases hfield
      exact hvalue _
    · cases hfield
      exact hvalue _
  induction n generalizing buf with
  | zero =>
    intro h hmem
    cases hmem
  | succ n ih =>
    unfold headersLoop
    cases hfield : headerStep buf with
    | endOfHeaders =>
      intro h hmem
      cases hmem
    | invalid =>
      intro h hmem
      cases hmem
    | field h written rest stop =>
      have hfirst := hstep buf written rest h stop hfield
      dsimp only
      split_ifs
      · intro h' hmem
        rw [List.mem_singleton.mp hmem]
        exact hfirst
      · intro h' hmem
        rcases List.mem_cons.mp hmem with rfl | hmem
        · exact hfirst
        · exact ih rest h' hmem

theorem getHostFromRequestInfo_noNul (ri : RequestInfo) (host : List Byte)
    (hvalues : ∀ h ∈ ri.httpHeaders, NUL ∉ h.value) (hhost : getHostFromRequestInfo ri = some host) :
    NUL ∉ host := by
  unfold getHostFromRequestInfo at hhost
  cases hheader : getHeader ri.httpHeaders (ascii "Host") with
  | none =>
    rw [hheader] at hhost
    cases hhost
  | some header =>
    obtain ⟨h, hfound, rfl⟩ := Option.map_eq_some_iff.mp hheader
    have hnul := hvalues h (List.mem_of_find?_eq_some hfound)
    rw [hheader] at hhost
    dsimp only at hhost
    intro hmem
    split_ifs at hhost
    · rw [← Option.some.inj hhost] at hmem
      exact hnul (List.mem_of_mem_take hmem)
    · rw [← Option.some.inj hhost] at hmem
      exact hnul ((List.takeWhile_sublist _).mem hmem)

/-- A host and a domain are the same up to upper and lower case. -/
theorem sameHost_iff (host domName : List Byte) (hhost : NUL ∉ host) :
    sameHost host domName = true ↔ domName.map tolower = host.map tolower := by
  rw [sameHost, Bool.and_eq_true, beq_iff_eq, beq_iff_eq, mgStrncasecmp_eq_zero host domName hhost]
  constructor
  · rintro ⟨hlen, hbegins⟩
    exact (hbegins.eq_of_length (by rw [List.length_map, List.length_map, hlen])).symm
  · intro hsame
    have hlen := congrArg List.length hsame
    rw [List.length_map, List.length_map] at hlen
    exact ⟨hlen, [], by rw [hsame, List.append_nil]⟩

/-- On a connection without TLS the request goes to the domain it names; one that names no domain leaves
the domain as it is. -/
theorem switchDomainContext_plain (conn : Conn) (hssl : conn.ssl = false)
    (hvalues : ∀ h ∈ conn.requestInfo.httpHeaders, NUL ∉ h.value) :
    switchDomainContext conn = some { conn with
      domCtx := (namedDomain conn.domains conn.requestInfo).getD conn.domCtx } := by
  unfold switchDomainContext namedDomain
  cases hhost : getHostFromRequestInfo conn.requestInfo with
  | none => rfl
  | some host =>
    have hsame : (fun dom : DomainContext => sameHost host dom.authenticationDomain) =
        fun dom => dom.authenticationDomain.map tolower == host.map tolower := by
      funext dom
      rw [Bool.eq_iff_iff, beq_iff_eq]
      exact sameHost_iff host _ (getHostFromRequestInfo_noNul _ host hvalues hhost)
    have hplain : ¬ conn.ssl = true := by
      rw [hssl]
      exact Bool.false_ne_true
    dsimp only
    rw [if_neg hplain, Option.bind_some, hsame]
    cases conn.domains.findIdx? fun dom => dom.authenticationDomain.map tolower == host.map tolower with
    | none => rfl
    | some i => rfl

theorem switchDomainContext_tls (conn c : Conn) (hssl : conn.ssl = true)
    (h : switchDomainContext conn = some c) : c = conn := by
  unfold switchDomainContext at h
  cases hhost : getHostFromRequestInfo conn.requestInfo with
  | none =>
    rw [hhost] at h
    exact (Option.some.inj h).symm
  | some host =>
    rw [hhost, hssl] at h
    dsimp only at h
    rw [if_pos rfl] at h
    cases hdom : conn.domains[conn.domCtx]? with
    | none =>
      rw [hdom] at h
      exact (Option.some.inj h).symm
    | some dom =>
      rw [hdom] at h
      dsimp only at h
      split_ifs at h
      exact (Option.some.inj h).symm

/-- The parts of a connection that belong to the server: they stay as they are from one request to the
next. -/
structure SameServer (conn c : Conn) : Prop where
  domains : c.domains = conn.domains
  ssl : c.ssl = conn.ssl

theorem getMessage_server (conn : Conn) :
    SameServer conn (getMessage conn).2 ∧ (getMessage conn).2.domCtx = conn.domCtx := by
  unfold getMessage
  dsimp only
  split_ifs
  all_goals exact ⟨⟨rfl, rfl⟩, rfl⟩

theorem setBodyFraming_server (conn : Conn) :
    SameServer conn (setBodyFraming conn).2 ∧ (setBodyFraming conn).2.domCtx = conn.domCtx := by
  unfold setBodyFraming
  dsimp only
  split_ifs
  · exact ⟨⟨rfl, rfl⟩, rfl⟩
  · exact ⟨⟨rfl, rfl⟩, rfl⟩
  · cases getHeader conn.requestInfo.httpHeaders (ascii "Content-Length") with
    | none => exact ⟨⟨rfl, rfl⟩, rfl⟩
    | some h =>
      dsimp only
      split_ifs
      · exact ⟨⟨rfl, rfl⟩, rfl⟩
      · exact ⟨⟨rfl, rfl⟩, rfl⟩

theorem readRequest_some (conn c : Conn) (h : readRequest conn = some c) :
    SameServer conn c ∧ c.domCtx = conn.domCtx ∧ ∀ hd ∈ c.requestInfo.httpHeaders, NUL ∉ hd.value := by
  have hserver := getMessage_server conn
  unfold readRequest at h
  generalize getMessage conn = message at h hserver
  obtain ⟨e, c1⟩ := message
  cases e with
  | some e => cases h
  | none =>
    dsimp only at h
    cases hparse : parseHttpRequest c1.buf c1.buf.length with
    | error e =>
      rw [hparse] at h
      cases h
    | ok r =>
      rw [hparse] at h
      obtain ⟨ws, pre, rest, text, -, -, -, -, -, -, -, -, htext, -⟩ :=
        parseHttpRequest_ok _ _ r hparse
      obtain ⟨ws1, ws2, version, b, ws3, next, -, -, -, -, -, -, -, -, -, -, -, hheaders⟩ :=
        parseRequestText_some _ _ _ _ htext
      rw [← Option.some.inj h]
      refine ⟨⟨hserver.1.domains, hserver.1.ssl⟩, hserver.2, ?_⟩
      rw [hheaders]
      exact headersLoop_values _ _

/-- The domain that a request is handled with is the one it names, where it names one and there is no TLS,
and otherwise the one that was there before. -/
theorem getRequest_domCtx (conn : Conn) :
    SameServer conn (getRequest conn).2 ∧ (getRequest conn).2.domCtx =
      (((readRequest conn).bind fun c =>
        if c.ssl then none else namedDomain c.domains c.requestInfo).getD conn.domCtx) := by
  have hserver := getMessage_server conn
  have hread := readRequest_some conn
  unfold getRequest
  unfold readRequest at hread ⊢
  generalize getMessage conn = message at hread hserver
  obtain ⟨e, c1⟩ := message
  cases e with
  | some e => exact hserver
  | none =>
    dsimp only at hread ⊢
    generalize parseHttpRequest c1.buf c1.buf.length = parsed at hread
    cases parsed with
    | error e => exact hserver
    | ok r =>
      dsimp only at hread ⊢
      obtain ⟨hsame, hdom, hvalues⟩ := hread _ rfl
      rw [Option.bind_some]
      generalize ({ c1 with requestInfo := r.info, buf := r.buf } : Conn) = c at hsame hdom hvalues
      by_cases hssl : c.ssl = true
      · rw [if_pos hssl, Option.getD_none]
        cases hswitch : switchDomainContext c with
        | none => exact ⟨hsame, hdom⟩
        | some c' =>
          obtain rfl := switchDomainContext_tls c c' hssl hswitch
          obtain ⟨hsame', hdom'⟩ := setBodyFraming_server c'
          exact ⟨⟨hsame'.domains.trans hsame.domains, hsame'.ssl.trans hsame.ssl⟩, hdom'.trans hdom⟩
      · rw [if_neg hssl, switchDomainContext_plain c (Bool.not_eq_true _ ▸ hssl) hvalues]
        dsimp only
        obtain ⟨hsame', hdom'⟩ := setBodyFraming_server
          { c with domCtx := (namedDomain c.domains c.requestInfo).getD c.domCtx }
        refine ⟨⟨hsame'.domains.trans hsame.domains, hsame'.ssl.trans hsame.ssl⟩, hdom'.trans ?_⟩
        dsimp only
        rw [hdom]

/-- A turn of the worker keeps the domain that the request was handled with. -/
theorem processTurn_domCtx (handler : Conn → Handler) (conn : Conn) :
    (processTurn handler conn).conn.domCtx = (getRequest conn).2.domCtx ∧
      (processTurn handler conn).conn.domains = conn.domains := by
  have hserver := (getRequest_domCtx conn).1
  have hserve : (serveRequest handler conn).2.domCtx = (getRequest conn).2.domCtx ∧
      (serveRequest handler conn).2.domains = conn.domains := by
    cases hreq : getRequest conn with
    | mk e c =>
      rw [hreq] at hserver
      cases e with
      | some e =>
        rw [serveRequest_error handler conn c e hreq]
        exact ⟨rfl, hserver.domains⟩
      | none =>
        obtain ⟨run, p, uri, c', hc', hrun, -⟩ := serveRequest_handled handler conn c hreq
        obtain ⟨c2, hframe, hc2⟩ := handler_frame run c'
        rw [hrun]
        dsimp only
        rw [hc2, hframe.frame, hc']
        exact ⟨rfl, hserver.domains⟩
  unfold processTurn
  generalize serveRequest handler conn = result at hserve
  obtain ⟨served, c⟩ := result
  dsimp only
  split_ifs
  all_goals exact hserve

namespace Worker

theorem step_domCtx (w t : Worker) (event : WorkerEvent) (hstep : w.step event = some t) :
    t.conn.domCtx = (w.chosen event).getD w.conn.domCtx ∧ t.conn.domains = w.conn.domains := by
  cases event with
  | accept sock lsaPort =>
    rw [step] at hstep
    split_ifs at hstep
    rw [← Option.some.inj hstep]
    exact ⟨rfl, rfl⟩
  | acceptTls sock lsaPort hello accepted =>
    rw [step] at hstep
    dsimp only at hstep
    split_ifs at hstep
    · rw [← Option.some.inj hstep]
      cases hello with
      | none => exact ⟨rfl, rfl⟩
      | some servername => exact ⟨rfl, rfl⟩
    · rw [← Option.some.inj hstep]
      cases hello with
      | none => exact ⟨rfl, rfl⟩
      | some servername => exact ⟨rfl, rfl⟩
  | request handler =>
    rw [step] at hstep
    dsimp only at hstep
    split_ifs at hstep
    rw [← Option.some.inj hstep]
    obtain ⟨hdom, hdoms⟩ := processTurn_domCtx handler w.conn
    exact ⟨hdom.trans (getRequest_domCtx w.conn).2, hdoms⟩

/-- Along a run the worker has the domain that was chosen last. -/
theorem run_domCtx (w t : Worker) (events : List WorkerEvent) (hrun : System.run step w events = some t) :
    t.conn.domCtx = lastChosen w w.conn.domCtx events ∧ t.conn.domains = w.conn.domains := by
  induction events generalizing w with
  | nil =>
    rw [← Option.some.inj hrun]
    exact ⟨rfl, rfl⟩
  | cons event events ih =>
    obtain ⟨u, hstep, hrest⟩ := System.run_cons_cases step w t event events hrun
    obtain ⟨hdom, hdoms⟩ := step_domCtx w u event hstep
    obtain ⟨hdom', hdoms'⟩ := ih u hrest
    rw [lastChosen, hstep]
    dsimp only
    rw [← hdom]
    exact ⟨hdom', hdoms'.trans hdoms⟩

/-- The domain of a request is the one it names or else the one that was chosen last. -/
theorem Reads.domCtx (w t : Worker) (before : List WorkerEvent) (c : Conn) (h : Reads w before t c) :
    (getRequest t.conn).2.domCtx =
        (namedDomain c.domains c.requestInfo).getD (lastChosen w w.conn.domCtx before) ∧
      c.domains = w.conn.domains := by
  obtain ⟨hdom, hdoms⟩ := run_domCtx w t before h.run
  have hplain : ¬ c.ssl = true := by
    rw [h.plain]
    exact Bool.false_ne_true
  rw [(getRequest_domCtx t.conn).2, h.read, Option.bind_some, if_neg hplain, hdom]
  exact ⟨rfl, (readRequest_some t.conn c h.read).1.domains.trans hdoms⟩

/-- A request that names no domain comes when the default domain was chosen last. -/
def Undisturbed (w : Worker) (before : List WorkerEvent) (c : Conn) : Prop :=
  namedDomain c.domains c.requestInfo = none → lastChosen w 0 before = 0

theorem Reads.right (conn : Conn) (t : Worker) (before : List WorkerEvent) (c : Conn)
    (h : Reads (start conn) before t c) :
    (getRequest t.conn).2.domCtx = requestDomain c.domains c.requestInfo ↔
      Undisturbed (start conn) before c := by
  have hdom := (h.domCtx (start conn) t before c).1
  rw [hdom, requestDomain, Undisturbed]
  cases namedDomain c.domains c.requestInfo with
  | none => exact ⟨fun hright _ => hright, fun hlast => hlast rfl⟩
  | some i => exact ⟨fun _ hnone => (by cases hnone), fun _ => rfl⟩

end Worker

/-- The requests of a run without TLS are handled with their own domain exactly where none of them that
names no domain comes behind another choice than the default domain. Two workers then handle the same
request with the same domain, whatever they did before. -/
theorem requests_ownDomain (conn : Conn) (events : List WorkerEvent) :
    ((∀ before, before <+: events → ∀ t c, Worker.Reads (Worker.start conn) before t c →
        (getRequest t.conn).2.domCtx = requestDomain c.domains c.requestInfo) ↔
      ∀ before, before <+: events → ∀ t c, Worker.Reads (Worker.start conn) before t c →
        Worker.Undisturbed (Worker.start conn) before c) ∧
    ∀ conn' t t' c c' before before', conn'.domains = conn.domains →
      Worker.Reads (Worker.start conn) before t c → Worker.Reads (Worker.start conn') before' t' c' →
      Worker.Undisturbed (Worker.start conn) before c → Worker.Undisturbed (Worker.start conn') before' c' →
      c.requestInfo = c'.requestInfo → (getRequest t.conn).2.domCtx = (getRequest t'.conn).2.domCtx := by
  constructor
  · constructor
    · intro h before hbefore t c hreads
      exact (hreads.right conn t before c).mp (h before hbefore t c hreads)
    · intro h before hbefore t c hreads
      exact (hreads.right conn t before c).mpr (h before hbefore t c hreads)
  · intro conn' t t' c c' before before' hdoms hreads hreads' hfree hfree' hinfo
    have hc := (hreads.domCtx (Worker.start conn) t before c).2
    have hc' := (hreads'.domCtx (Worker.start conn') t' before' c').2
    rw [(hreads.right conn t before c).mpr hfree, (hreads'.right conn' t' before' c').mpr hfree', hinfo,
      hc, hc']
    rw [show (Worker.start conn').conn.domains = (Worker.start conn).conn.domains from hdoms]

/-- The connection of a worker of a server with the domains `a`, the default domain, and `b`. -/
def twoDomainsConn : Conn := { freshConn 64 [] with
  domains := [⟨ascii "a", ascii "no", ascii "yes"⟩, ⟨ascii "b", ascii "no", ascii "yes"⟩] }

/-- A client that asks for `/` on a host. -/
def getFromHost (host : String) : WorkerEvent :=
  .accept [.data (ascii "GET / HTTP/1.1\r\nHost: " ++ ascii host ++ ascii "\r\n\r\n")] 80

/-- A fresh worker and one that has handled a request for `a` read a request for `b`. -/
theorem requests_ownDomain_fresh : ∃ t t' c c',
    Worker.Reads (Worker.start twoDomainsConn) [getFromHost "b:80"] t c ∧
      Worker.Reads (Worker.start twoDomainsConn)
        [getFromHost "a", .request fun _ => .done true, getFromHost "b:80"] t' c' ∧
      (getRequest t.conn).2.domCtx = (getRequest t'.conn).2.domCtx := by
  obtain ⟨t, c, hreads, hfree, hinfo⟩ : ∃ t c,
      Worker.Reads (Worker.start twoDomainsConn) [getFromHost "b:80"] t c ∧
        namedDomain c.domains c.requestInfo = some 1 ∧
        c.requestInfo = ⟨ascii "GET", ascii "/", ascii "1.1", [⟨ascii "Host", ascii "b:80"⟩]⟩ :=
    ⟨_, _, ⟨rfl, rfl, rfl, rfl⟩, by decide +kernel, by decide +kernel⟩
  obtain ⟨t', c', hreads', hfree', hinfo'⟩ : ∃ t c,
      Worker.Reads (Worker.start twoDomainsConn)
        [getFromHost "a", .request fun _ => .done true, getFromHost "b:80"] t c ∧
        namedDomain c.domains c.requestInfo = some 1 ∧
        c.requestInfo = ⟨ascii "GET", ascii "/", ascii "1.1", [⟨ascii "Host", ascii "b:80"⟩]⟩ :=
    ⟨_, _, ⟨rfl, rfl, rfl, rfl⟩, by decide +kernel, by decide +kernel⟩
  refine ⟨t, t', c, c', hreads, hreads', ?_⟩
  apply (requests_ownDomain twoDomainsConn []).2 twoDomainsConn t t' c c' _ _ rfl hreads hreads'
  · intro hnone
    rw [hfree] at hnone
    cases hnone
  · intro hnone
    rw [hfree'] at hnone
    cases hnone
  · rw [hinfo, hinfo']

/-- A request for `b`, and behind it one for a host that is no domain: it is handled with `b`. -/
theorem requests_otherDomain : ¬ ∀ conn before t c, Worker.Reads (Worker.start conn) before t c →
    (getRequest t.conn).2.domCtx = requestDomain c.domains c.requestInfo := by
  intro h
  obtain ⟨t, c, hreads, hdom, hown⟩ : ∃ t c,
      Worker.Reads (Worker.start twoDomainsConn)
        [getFromHost "b", .request fun _ => .done true, getFromHost "c"] t c ∧
        (getRequest t.conn).2.domCtx = 1 ∧ requestDomain c.domains c.requestInfo = 0 :=
    ⟨_, _, ⟨rfl, rfl, rfl, rfl⟩, by decide +kernel, by decide +kernel⟩
  have heq := h _ _ t c hreads
  rw [hdom, hown] at heq
  cases heq

end CivetWeb
