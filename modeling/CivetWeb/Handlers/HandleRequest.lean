import CivetWeb.Conn.KeepAlive
import CivetWeb.Handlers.Registry

namespace CivetWeb

open LinkedList

/-- The compile time options that `handle_request` depends on. -/
structure Build where
  useWebsocket : Bool
  useHttp2 : Bool
  deriving DecidableEq, Repr

/-- What `interpret_uri` finds out about a file. -/
structure Resource where
  isFound : Bool
  isScriptResource : Bool
  isPutOrDeleteRequest : Bool
  isWebdavRequest : Bool
  isTemplateTextFile : Bool
  isDirectory : Bool
  deriving DecidableEq, Repr

/-- What `handle_request` reads of a connection, and what the functions that it calls come to. The answers
of authorization may differ from one time to the next. -/
structure RequestInput where
  requestMethod : List Byte
  localUri : List Byte
  protocolType : Int
  handlers : Option Addr
  isSsl : Bool
  sslRedir : Bool
  sslListener : Bool
  mgStrdup : Bool
  beginRequest : Option Int
  corsPreflight : Bool
  enableWebdav : Bool
  documentRoot : Bool
  putDeletePasswordsFile : Bool
  enableDirectoryListing : Bool
  interpretUri : Resource
  mustHideFile : Bool
  slashMissing : Bool
  isNotModified : Bool
  callbackHandler : Pointer → Pointer → Int
  authHandler : Nat → Pointer → Pointer → Bool
  checkAuthorization : Nat → Bool
  isAuthorizedForPut : Bool

/-- How a request ends: the function that answers it, or the status of the error. -/
inductive Action where
  | redirectToHttpsPort
  | sendHttpError (status : Nat)
  | outOfMemory
  | beginRequest (status : Int)
  | undocumented
  | preflight
  | mustUseHttp1
  | authHandlerRejected
  | sendAuthorizationRequest
  | callback (status : Int)
  | handleWebsocketRequest (callback : Bool) (given : HandlerInfo)
  | websocketNotBuilt
  | handleFileBasedRequest
  | putFile
  | deleteFile
  | davMkcol
  | davMoveFile (copy : Bool)
  | davLockFile
  | davUnlockFile
  | davProppatch
  | redirectDirectory
  | handlePropfind
  | sendOptions
  | handleDirectoryRequest
  | notModified
  | handleStaticFile
  deriving DecidableEq, Repr

/-- The local variables of `handle_request`; `given` is what `get_request_handler` gave back for the
request, `pass` counts the authorization checks. -/
structure RequestLocals where
  isCallbackResource : Bool
  isScriptResource : Bool
  isWebsocketRequest : Bool
  isPutOrDeleteRequest : Bool
  isWebdavRequest : Bool
  handlerInfo : Option Addr
  given : HandlerInfo
  pass : Nat
  deriving DecidableEq, Repr

/-- The places between two sections of `handle_request` where other threads may come in; `rejected` and
`served` are in front of a release of the handler. -/
inductive RequestPc where
  | url
  | lookup
  | noCallbackResource
  | webdav
  | authorization
  | rejected (action : Action)
  | resource
  | served (i : Int)
  | done (action : Action)
  deriving DecidableEq, Repr

structure Activation where
  input : RequestInput
  pc : RequestPc
  locals : RequestLocals

def isPutOrDeleteMethod (s : List Byte) : Bool :=
  s == ascii "PUT" || s == ascii "DELETE" || s == ascii "MKCOL" || s == ascii "PATCH" ||
    s == ascii "LOCK" || s == ascii "UNLOCK" || s == ascii "PROPPATCH" || s == ascii "MOVE" ||
    s == ascii "COPY"

/-- The test of `HTTP1_only`. -/
def http1Only (build : Build) (input : RequestInput) : Bool :=
  build.useHttp2 && input.protocolType == PROTOCOL_TYPE_HTTP2

def isWebsocketRequest (input : RequestInput) : Bool := input.protocolType == PROTOCOL_TYPE_WEBSOCKET

def requestHandlerType (build : Build) (input : RequestInput) : HandlerType :=
  if build.useWebsocket && isWebsocketRequest input then .websocket else .request

/-- Sections 0 to 4: an answer that needs no handler. -/
def urlAction (input : RequestInput) : Option Action :=
  let cors :=
    if input.requestMethod = ascii "OPTIONS" ∧ input.corsPreflight then some .preflight else none
  if !input.isSsl && input.sslRedir then
    some (if input.sslListener then .redirectToHttpsPort else .sendHttpError 503)
  else if !input.mgStrdup then some .outOfMemory
  else
    match input.beginRequest with
    | none => cors
    | some i => if 0 < i then some (.beginRequest i) else if i = 0 then cors else some .undocumented

/-- The variables behind section 5.2.1. -/
def callbackLocals (build : Build) (input : RequestInput) (a : Addr) (info : HandlerInfo) : RequestLocals where
  isCallbackResource := true
  isScriptResource := true
  isWebsocketRequest := isWebsocketRequest input
  isPutOrDeleteRequest := isPutOrDeleteMethod input.requestMethod
  isWebdavRequest := false
  handlerInfo := if requestHandlerType build input = .request then some a else none
  given := info
  pass := 0

/-- The variables behind section 5.2.2; what was there of a handler stays. -/
def fileLocals (build : Build) (input : RequestInput) (l : RequestLocals) : RequestLocals :=
  { l with
    isCallbackResource := false
    isScriptResource := input.interpretUri.isScriptResource
    isWebsocketRequest := build.useWebsocket && isWebsocketRequest input
    isPutOrDeleteRequest := input.interpretUri.isPutOrDeleteRequest
    isWebdavRequest := input.interpretUri.isWebdavRequest }

/-- Pointers that are all `NULL`. -/
def noHandler : HandlerInfo := ⟨[], .request, 0, 0, false, 0, 0, 0, 0, 0, 0, 0⟩

/-- Behind an authorization check. -/
def RequestLocals.passed (l : RequestLocals) : RequestLocals := { l with pass := l.pass + 1 }

/-- The variables at the start of the function. -/
def startLocals : RequestLocals := ⟨false, false, false, false, false, none, noHandler, 0⟩

/-- How section 6 goes on; only `rejected` releases the handler. -/
inductive Verdict where
  | granted
  | rejected (action : Action)
  | ended (action : Action)
  deriving DecidableEq, Repr

/-- Section 6, with the entry of the authorization handler if there is one. -/
def authorization (build : Build) (input : RequestInput) (l : RequestLocals)
    (auth : Option (Addr × HandlerInfo)) : Verdict :=
  match auth with
  | some (_, info) =>
    if input.authHandler l.pass info.authHandler info.cbdata then .granted
    else .rejected .authHandlerRejected
  | none =>
    if l.isPutOrDeleteRequest && !l.isScriptResource && !l.isCallbackResource then
      if http1Only build input then .ended .mustUseHttp1
      else if !input.documentRoot || !input.putDeletePasswordsFile then .ended (.sendHttpError 405)
      else if !input.isAuthorizedForPut then .ended .sendAuthorizationRequest
      else .granted
    else if !input.checkAuthorization l.pass then .rejected .sendAuthorizationRequest
    else .granted

/-- Section 11: the methods that change files. -/
def putOrDeleteAction (method : List Byte) : Action :=
  if method = ascii "PUT" then .putFile
  else if method = ascii "DELETE" then .deleteFile
  else if method = ascii "MKCOL" then .davMkcol
  else if method = ascii "MOVE" then .davMoveFile false
  else if method = ascii "COPY" then .davMoveFile true
  else if method = ascii "LOCK" then .davLockFile
  else if method = ascii "UNLOCK" then .davUnlockFile
  else if method = ascii "PROPPATCH" then .davProppatch
  else .sendHttpError 405

/-- Sections 8 to 17: a request without a callback. -/
def fileAction (build : Build) (input : RequestInput) (l : RequestLocals) : Action :=
  if build.useWebsocket && l.isWebsocketRequest then
    if http1Only build input then .mustUseHttp1
    else if l.isScriptResource then .handleWebsocketRequest false noHandler
    else .sendHttpError 404
  else if !input.documentRoot then .sendHttpError 404
  else if l.isScriptResource then
    if http1Only build input then .mustUseHttp1 else .handleFileBasedRequest
  else if l.isPutOrDeleteRequest then
    if http1Only build input then .mustUseHttp1 else putOrDeleteAction input.requestMethod
  else if !input.interpretUri.isFound || input.mustHideFile then .sendHttpError 404
  else if input.interpretUri.isDirectory && input.slashMissing then .redirectDirectory
  else if input.requestMethod = ascii "PROPFIND" then .handlePropfind
  else if input.requestMethod = ascii "OPTIONS" then .sendOptions
  else if input.requestMethod ≠ ascii "GET" ∧ input.requestMethod ≠ ascii "HEAD" then .sendHttpError 405
  else if input.interpretUri.isDirectory then
    if input.enableDirectoryListing then .handleDirectoryRequest else .sendHttpError 403
  else if input.interpretUri.isTemplateTextFile then
    if http1Only build input then .mustUseHttp1 else .handleFileBasedRequest
  else if input.isNotModified then .notModified
  else .handleStaticFile

namespace Activation

def start (input : RequestInput) : Activation := ⟨input, .url, startLocals⟩

/-- From one place of `handle_request` to the next. -/
def next (build : Build) (mem : HandlerMemory) (act : Activation) : HandlerMemory × Activation :=
  let input := act.input
  let l := act.locals
  match act.pc with
  | .url =>
    match urlAction input with
    | some action => (mem, { act with pc := .done action })
    | none => (mem, { act with pc := .lookup })
  | .lookup =>
    if isWebsocketRequest input && http1Only build input then (mem, { act with pc := .done .mustUseHttp1 })
    else
      match getRequestHandler mem input.handlers (requestHandlerType build input) input.localUri with
      | (some (a, info), mem) =>
        (mem, { act with pc := .webdav, locals := callbackLocals build input a info })
      | (none, mem) => (mem, { act with pc := .noCallbackResource })
  | .noCallbackResource => (mem, { act with pc := .webdav, locals := fileLocals build input l })
  | .webdav =>
    if l.isWebdavRequest && !input.enableWebdav then
      (mem, { act with pc := .done (.sendHttpError 405) })
    else (mem, { act with pc := .authorization })
  | .authorization =>
    let (auth, mem) := getRequestHandler mem input.handlers .auth input.localUri
    match authorization build input l auth with
    | .granted => (mem, { act with pc := .resource, locals := l.passed })
    | .rejected action => (mem, { act with pc := .rejected action })
    | .ended action => (mem, { act with pc := .done action })
  | .rejected action => (releaseHandlerRef mem l.handlerInfo, { act with pc := .done action })
  | .resource =>
    if l.isCallbackResource then
      if http1Only build input then (mem, { act with pc := .done .mustUseHttp1 })
      else if !l.isWebsocketRequest then
        (mem, { act with pc := .served (input.callbackHandler l.given.handler l.given.cbdata) })
      else if build.useWebsocket then (mem, { act with pc := .done (.handleWebsocketRequest true l.given) })
      else (mem, { act with pc := .done .websocketNotBuilt })
    else (mem, { act with pc := .done (fileAction build input l) })
  | .served i =>
    let mem := releaseHandlerRef mem l.handlerInfo
    if 0 < i then (mem, { act with pc := .done (.callback i) })
    else (mem, { act with pc := .noCallbackResource })
  | .done _ => (mem, act)

end Activation

end CivetWeb
