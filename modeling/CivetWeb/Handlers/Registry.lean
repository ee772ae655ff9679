import CivetWeb.Bytes
import CivetWeb.Lib.LinkedList
import Mathlib.Data.List.Basic

namespace CivetWeb

open LinkedList

/-! ### Patterns -/

/-- Where `*` or `**` may take up to `len` bytes: the longest piece behind which the rest of the pattern
matches, `tryRest` being that rest. -/
def longestMatch (tryRest : List Byte → Option Nat) (str : List Byte) : Nat → Option Nat
  | 0 => tryRest str
  | len + 1 =>
    match tryRest (str.drop (len + 1)) with
    | some ret => some (len + 1 + ret)
    | none => longestMatch tryRest str len

/-- `mg_match_impl` without a match context; `none` is its -1. -/
def mgMatchImpl : List Byte → List Byte → Option Nat
  | [], _ => some 0
  | p :: pat, str =>
    if p = 63 ∧ str ≠ [] ∧ deref str ≠ 47 then (mgMatchImpl pat str.tail).map (· + 1)
    else if p = 36 then if str = [] then some 0 else none
    else if p = 42 then
      match pat with
      | 42 :: pat => longestMatch (mgMatchImpl pat) str str.length
      | pat => longestMatch (mgMatchImpl pat) str (str.takeWhile (· != 47)).length
    else if tolower p = tolower (deref str) then (mgMatchImpl pat str.tail).map (· + 1)
    else none

/-- `match_prefix`: the alternatives between `|` are tried one after another. -/
def matchPrefix (pattern str : List Byte) : Option Nat :=
  (pattern.splitOn 124).findSome? fun alternative => mgMatchImpl alternative str

/-! ### The handlers of a domain -/

abbrev Addr := Nat

/-- A function of the application, or its data for one; 0 is `NULL`. -/
abbrev Pointer := Nat

inductive HandlerType where
  | request
  | websocket
  | auth
  deriving DecidableEq, Repr

/-- `struct mg_handler_info` but for `next`. The count of references is an `unsigned int` there; here a
release too many shows as a negative count. -/
structure HandlerInfo where
  uri : List Byte
  handlerType : HandlerType
  handler : Pointer
  refcount : Int
  removing : Bool
  connectHandler : Pointer
  readyHandler : Pointer
  dataHandler : Pointer
  closeHandler : Pointer
  subprotocols : Pointer
  authHandler : Pointer
  cbdata : Pointer
  deriving DecidableEq, Repr

abbrev HandlerMemory := Memory Addr HandlerInfo

/-- The test of `get_request_handler` for an entry at one of its three steps. -/
def HandlerInfo.matched (info : HandlerInfo) (uri : List Byte) (step : Nat) : Bool :=
  if step = 0 then info.uri.length == uri.length && info.uri == uri
  else if step = 1 then
    decide (info.uri.length < uri.length) && uri.getD info.uri.length 0 == 47 &&
      info.uri == uri.take info.uri.length
  else
    match matchPrefix info.uri uri with
    | some n => decide (0 < n)
    | none => false

def HandlerInfo.addRefs (n : Int) (info : HandlerInfo) : HandlerInfo :=
  { info with refcount := info.refcount + n }

def HandlerInfo.markRemoving (info : HandlerInfo) : HandlerInfo := { info with removing := true }

/-- The entry at which the loops of `get_request_handler` stop. -/
def findHandler (entries : List (Addr × HandlerInfo)) (handlerType : HandlerType) (uri : List Byte) :
    Option (Addr × HandlerInfo) :=
  [0, 1, 2].findSome? fun step =>
    entries.find? fun e => e.2.handlerType == handlerType && e.2.matched uri step

/-- `get_request_handler` on the list at `handlers`: the entry found, of which the caller gets a copy, and
the memory with the reference to it. -/
def getRequestHandler (mem : HandlerMemory) (handlers : Option Addr) (handlerType : HandlerType)
    (uri : List Byte) : Option (Addr × HandlerInfo) × HandlerMemory :=
  match findHandler ((listAt mem handlers).getD []) handlerType uri with
  | none => (none, mem)
  | some (a, info) =>
    if handlerType = .request then
      if info.removing then (none, mem)
      else
        (some (a, info), modifyValue mem a (HandlerInfo.addRefs 1))
    else (some (a, info), mem)

def releaseHandlerRef (mem : HandlerMemory) (handlerInfo : Option Addr) : HandlerMemory :=
  match handlerInfo with
  | none => mem
  | some a => modifyValue mem a (HandlerInfo.addRefs (-1))

/-! ### Setting handlers -/

/-- The arguments of `mg_set_handler_type` behind the contexts. -/
structure HandlerArgs where
  uri : List Byte
  handlerType : HandlerType
  isDeleteRequest : Bool
  handler : Pointer
  subprotocols : Pointer
  connectHandler : Pointer
  readyHandler : Pointer
  dataHandler : Pointer
  closeHandler : Pointer
  authHandler : Pointer
  cbdata : Pointer
  deriving DecidableEq, Repr

/-- The call of `mg_set_handler_type` that `mg_set_request_handler` is. -/
def mgSetRequestHandler (uri : List Byte) (handler cbdata : Pointer) : HandlerArgs :=
  ⟨uri, .request, handler == 0, handler, 0, 0, 0, 0, 0, 0, cbdata⟩

/-- The one of `mg_set_websocket_handler_with_subprotocols`. -/
def mgSetWebsocketHandler (uri : List Byte)
    (subprotocols connectHandler readyHandler dataHandler closeHandler cbdata : Pointer) : HandlerArgs :=
  let isDeleteRequest :=
    connectHandler == 0 && readyHandler == 0 && dataHandler == 0 && closeHandler == 0
  ⟨uri, .websocket, isDeleteRequest, 0, subprotocols, connectHandler, readyHandler, dataHandler,
    closeHandler, 0, cbdata⟩

def mgSetAuthHandler (uri : List Byte) (handler cbdata : Pointer) : HandlerArgs :=
  ⟨uri, .auth, handler == 0, 0, 0, 0, 0, 0, 0, handler, cbdata⟩

namespace HandlerArgs

/-- The tests in front of the lock. -/
def accepted (args : HandlerArgs) : Bool :=
  let noWebsocket := args.connectHandler == 0 && args.readyHandler == 0 && args.dataHandler == 0 &&
    args.closeHandler == 0
  match args.handlerType with
  | .websocket =>
    args.handler == 0 && (args.isDeleteRequest || !noWebsocket) && args.authHandler == 0
  | .request => noWebsocket && (args.isDeleteRequest || args.handler != 0) && args.authHandler == 0
  | .auth => args.handler == 0 && noWebsocket && (args.isDeleteRequest || args.authHandler != 0)

/-- The entry is the one that the arguments name. -/
def names (args : HandlerArgs) (info : HandlerInfo) : Bool :=
  info.handlerType == args.handlerType && args.uri.length == info.uri.length && info.uri == args.uri

/-- The fields of an entry that a call sets. -/
def update (args : HandlerArgs) (info : HandlerInfo) : HandlerInfo :=
  match args.handlerType with
  | .request => { info with handler := args.handler, cbdata := args.cbdata }
  | .websocket =>
    { info with
      subprotocols := args.subprotocols
      connectHandler := args.connectHandler
      readyHandler := args.readyHandler
      dataHandler := args.dataHandler
      closeHandler := args.closeHandler
      cbdata := args.cbdata }
  | .auth => { info with authHandler := args.authHandler, cbdata := args.cbdata }

/-- An entry that was just made. -/
def newEntry (args : HandlerArgs) : HandlerInfo :=
  args.update ⟨args.uri, args.handlerType, 0, 0, false, 0, 0, 0, 0, 0, 0, 0⟩

end HandlerArgs

/-- The memory of the entries, and `ctx->dd.handlers`. -/
structure Registry where
  mem : HandlerMemory
  handlers : Option Addr
  deriving DecidableEq, Repr

namespace Registry

def entries (reg : Registry) : List (Addr × HandlerInfo) := (listAt reg.mem reg.handlers).getD []

/-- What `mg_set_handler_type` does from `mg_lock_context` to `mg_unlock_context`; `false` says that the
entry is in use, so that it sleeps and searches again. `calloc` is the address of a new entry, if there is
memory for one. -/
def setHandlerRound (reg : Registry) (args : HandlerArgs) (calloc : Option Addr) : Bool × Registry :=
  let front := reg.entries.takeWhile fun e => !args.names e.2
  let lastref := lastCell front
  match reg.entries.dropWhile fun e => !args.names e.2 with
  | (a, info) :: _ =>
    if args.handlerType = .request ∧ info.refcount ≠ 0 then
      if !args.isDeleteRequest then (false, reg)
      else
        (false, { reg with mem := modifyValue reg.mem a HandlerInfo.markRemoving })
    else if !args.isDeleteRequest then
      (true, { reg with mem := modifyValue reg.mem a args.update })
    else
      let (mem, handlers) := remove reg.mem reg.handlers lastref a
      (true, ⟨mem, handlers⟩)
  | [] =>
    if args.isDeleteRequest then (true, reg)
    else
      match calloc with
      | none => (true, reg)
      | some a =>
        let (mem, handlers) := insertLast reg.mem reg.handlers lastref a args.newEntry
        (true, ⟨mem, handlers⟩)

end Registry

end CivetWeb
