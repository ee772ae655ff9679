import CivetWeb.Conn.Message
import CivetWeb.Http.Received
import CivetWeb.Strtol

namespace CivetWeb

/-- `get_host_from_request_info`; `none` where `host->ptr` stays NULL. -/
def getHostFromRequestInfo (ri : RequestInfo) : Option (List Byte) :=
  match getHeader ri.httpHeaders (ascii "Host") with
  | none => none
  | some hostHeader =>
    if deref hostHeader = 91 then
      let pos := (hostHeader.takeWhile (· != 93)).length
      if pos = hostHeader.length then none else some (hostHeader.take (pos + 1))
    else some (hostHeader.takeWhile (· != COLON))

def sameHost (host domName : List Byte) : Bool :=
  domName.length == host.length && mgStrncasecmp host domName host.length == 0

/-- `switch_domain_context`; `none` where it returns 0. -/
def switchDomainContext (conn : Conn) : Option Conn :=
  match getHostFromRequestInfo conn.requestInfo with
  | none => some conn
  | some host =>
    if conn.ssl then
      match conn.domains[conn.domCtx]? with
      | none => some conn
      | some dom =>
        if conn.domCtx ≠ 0 ∧ sameHost host dom.authenticationDomain = false then none
        else some conn
    else
      match conn.domains.findIdx? (fun dom => sameHost host dom.authenticationDomain) with
      | none => some conn
      | some i => some { conn with domCtx := i }

/-- The last part of `get_request`: how long the body is. -/
def setBodyFraming (conn : Conn) : Option RequestError × Conn :=
  let hChunk := getHeader conn.requestInfo.httpHeaders (ascii "Transfer-Encoding")
  let hLen := getHeader conn.requestInfo.httpHeaders (ascii "Content-Length")
  if hChunk.any (fun h => mgStrcasecmp h (ascii "identity") != 0) then
    if hChunk.any (fun h => mgStrcasecmp h (ascii "chunked") != 0) || hLen.isSome then
      (some ⟨400, "Bad request"⟩, conn)
    else (none, { conn with isChunked := 1, contentLen := 0 })
  else
    match hLen with
    | some h =>
      let n := strtoll 10 h
      let conn := { conn with contentLen := n.1 }
      if n.2 = h ∨ n.1 < 0 then (some ⟨411, "Bad request"⟩, conn)
      else (none, { conn with infoContentLength := n.1 })
    | none => (none, { conn with contentLen := 0 })

/-- `get_request`; it returns 1 where there is no error. -/
def getRequest (conn : Conn) : Option RequestError × Conn :=
  match getMessage conn with
  | (some e, conn) => (some e, conn)
  | (none, conn) =>
    match parseHttpRequest conn.buf conn.buf.length with
    | .error _ => (some ⟨400, "Bad request"⟩, conn)
    | .ok r =>
      let conn := { conn with requestInfo := r.info, buf := r.buf }
      match switchDomainContext conn with
      | none => (some ⟨400, "Bad request: Host mismatch"⟩, conn)
      | some conn => setBodyFraming conn

theorem switchDomainContext_some (conn c : Conn) (h : switchDomainContext conn = some c) :
    c = { conn with domCtx := c.domCtx } := by
  unfold switchDomainContext at h
  split at h
  · cases h
    rfl
  · split_ifs at h with hssl
    · split at h
      · cases h
        rfl
      · split_ifs at h
        cases h
        rfl
    · split at h
      · cases h
        rfl
      · cases h
        rfl

/-- The domain of a TLS connection is the one that its handshake chose. -/
theorem switchDomainContext_ssl (conn c : Conn) (h : switchDomainContext conn = some c) (hssl : conn.ssl = true) :
    c.domCtx = conn.domCtx := by
  unfold switchDomainContext at h
  split at h
  · cases h
    rfl
  · rw [if_pos hssl] at h
    split at h
    · cases h
      rfl
    · split_ifs at h
      cases h
      rfl

/-- Whether the domain of a request is accepted rests on the connection's domain and on the request. -/
theorem switchDomainContext_isSome (c c' : Conn) (hinfo : c.requestInfo = c'.requestInfo) (hssl : c.ssl = c'.ssl)
    (hdomains : c.domains = c'.domains) (hctx : c'.ssl = true → c.domCtx = c'.domCtx) :
    (switchDomainContext c).isSome = (switchDomainContext c').isSome := by
  unfold switchDomainContext
  rw [hinfo, hssl, hdomains]
  cases getHostFromRequestInfo c'.requestInfo with
  | none => rfl
  | some host =>
    cases hs : c'.ssl with
    | true =>
      rw [hctx hs]
      dsimp only
      cases c'.domains[c'.domCtx]? with
      | none => rfl
      | some dom =>
        simp only [if_true]
        split_ifs <;> rfl
    | false =>
      simp only [Bool.false_eq_true, if_false]
      cases c'.domains.findIdx? (fun dom => sameHost host dom.authenticationDomain) <;> rfl

/-- The three ways in which a body is framed. -/
theorem setBodyFraming_none (conn c : Conn) (h : setBodyFraming conn = (none, c)) :
    let hChunk := getHeader conn.requestInfo.httpHeaders (ascii "Transfer-Encoding")
    let hLen := getHeader conn.requestInfo.httpHeaders (ascii "Content-Length")
    (∃ v, hChunk = some v ∧ mgStrcasecmp v (ascii "identity") ≠ 0 ∧
        mgStrcasecmp v (ascii "chunked") = 0 ∧ hLen = none ∧
        c = { conn with isChunked := 1, contentLen := 0 }) ∨
      ((∀ v ∈ hChunk, mgStrcasecmp v (ascii "identity") = 0) ∧
        ((∃ v, hLen = some v ∧ (strtoll 10 v).2 ≠ v ∧ 0 ≤ (strtoll 10 v).1 ∧
            c = { conn with contentLen := (strtoll 10 v).1, infoContentLength := (strtoll 10 v).1 }) ∨
          (hLen = none ∧ c = { conn with contentLen := 0 }))) := by
  intro hChunk hLen
  unfold setBodyFraming at h
  simp only [show getHeader conn.requestInfo.httpHeaders (ascii "Transfer-Encoding") = hChunk from rfl,
    show getHeader conn.requestInfo.httpHeaders (ascii "Content-Length") = hLen from rfl] at h
  by_cases hcoded : hChunk.any (fun h => mgStrcasecmp h (ascii "identity") != 0) = true
  · rw [if_pos hcoded] at h
    cases hc : hChunk with
    | none => simp [hc] at hcoded
    | some v =>
      simp only [hc, Option.any_some, bne_iff_ne] at hcoded h
      by_cases hbad : (mgStrcasecmp v (ascii "chunked") != 0 || hLen.isSome) = true
      · rw [if_pos hbad] at h
        cases h
      · rw [if_neg hbad] at h
        cases h
        simp only [Bool.or_eq_true, bne_iff_ne, not_or, not_not, Bool.not_eq_true,
          Option.isSome_eq_false_iff, Option.isNone_iff_eq_none] at hbad
        exact Or.inl ⟨v, rfl, hcoded, hbad.1, hbad.2, rfl⟩
  · rw [if_neg hcoded] at h
    refine Or.inr ⟨?_, ?_⟩
    · intro v hv
      by_contra hne
      apply hcoded
      rw [Option.mem_def.mp hv]
      simpa using hne
    · cases hl : hLen with
      | none =>
        rw [hl] at h
        cases h
        exact Or.inr ⟨rfl, rfl⟩
      | some v =>
        rw [hl] at h
        by_cases hbad : (strtoll 10 v).2 = v ∨ (strtoll 10 v).1 < 0
        · simp only [if_pos hbad] at h
          cases h
        · simp only [if_neg hbad] at h
          cases h
          rw [not_or, Int.not_lt] at hbad
          exact Or.inl ⟨v, rfl, hbad.1, hbad.2, rfl⟩

theorem setBodyFraming_frame (conn c : Conn) (h : setBodyFraming conn = (none, c)) :
    c = { conn with
      isChunked := c.isChunked, contentLen := c.contentLen,
      infoContentLength := c.infoContentLength } := by
  rcases setBodyFraming_none conn c h with ⟨v, -, -, -, -, rfl⟩ | ⟨-, ⟨v, -, -, -, rfl⟩ | ⟨-, rfl⟩⟩
  · rfl
  · rfl
  · rfl

/-- A request that was read: the message, the parse, and what became of them. -/
structure RequestRead (conn c c1 : Conn) (r : ParsedRequest) : Prop where
  message : getMessage conn = (none, c1)
  parsed : parseHttpRequest c1.buf c1.buf.length = .ok r
  framing : ∃ i, setBodyFraming { c1 with requestInfo := r.info, buf := r.buf, domCtx := i } =
    (none, c)
  host : c1.ssl = true → c.domCtx = c1.domCtx
  frame : c = { c1 with
    requestInfo := r.info, buf := r.buf, domCtx := c.domCtx, isChunked := c.isChunked,
    contentLen := c.contentLen, infoContentLength := c.infoContentLength }

theorem getRequest_read (conn c : Conn) (h : getRequest conn = (none, c)) :
    ∃ c1 r, RequestRead conn c c1 r := by
  unfold getRequest at h
  split at h
  · cases h
  rename_i c1 hmessage
  split at h
  · cases h
  rename_i r hparse
  dsimp only at h
  split at h
  · cases h
  rename_i c2 hswitch
  have hc2 := switchDomainContext_some _ c2 hswitch
  have hc := setBodyFraming_frame c2 c h
  have hctx := switchDomainContext_ssl _ c2 hswitch
  refine ⟨c1, r, hmessage, hparse, ⟨c2.domCtx, ?_⟩, fun hssl => ?_, ?_⟩
  · rw [hc2] at h
    exact h
  · rw [hc]
    exact hctx hssl
  · rw [hc2] at hc
    rw [hc]

end CivetWeb
