import CivetWeb.Ports.SetPorts
import CivetWeb.Pool.SocketQueue

namespace CivetWeb

open Ledger

/-- What `mg_start2` and `mg_stop` take and give back: memory, synchronisation objects, sockets and threads. -/
inductive StartResource where
  | context
  | threadMutex
  | sqEmpty
  | sqFull
  | nonceMutex
  | userShutdown
  | threadShutdown
  | config (i : Nat)
  | squeue
  | systemName
  | sslCtx
  | port (r : PortResource)
  | workerThreadids
  | workerConnections
  | clientWaitEvents
  | clientSocks
  | waitEvent (i : Nat)
  | timers
  | timerMutex
  | timerThread
  | worker (i : Nat)
  | masterThread
  deriving DecidableEq

/-- `ALTERNATIVE_QUEUE` and `USE_TIMERS`; `configOptions` are the names and defaults in `config_options`. -/
structure StartBuild where
  alternativeQueue : Bool
  useTimers : Bool
  ports : PortBuild
  configOptions : List (List Byte × Option (List Byte))

/-- What the calls of `mg_start2` come to. `tls` is the return value of the TLS initialisation, `sslReady` says that
TLS is left out or has a context, and `sslOwned` that the server has to free it. -/
structure StartAnswers where
  context : Bool
  threadMutex : Bool
  sqEmpty : Bool
  sqFull : Bool
  nonceMutex : Bool
  socketpair : Bool
  squeue : Bool
  systemName : Bool
  gpass : Bool
  tls : Bool
  sslReady : Bool
  sslOwned : Bool
  ports : Nat → PortAnswers
  uid : Bool
  acl : Bool
  workerThreadids : Bool
  workerConnections : Bool
  clientWaitEvents : Bool
  clientSocks : Bool
  event : Nat → Bool
  timers : Bool
  timerMutex : Bool
  timerThread : Bool
  worker : Nat → Bool
  masterThread : Bool

/-- Where `mg_start2` gives up. -/
inductive StartFailure where
  | context
  | sync
  | options
  | maxRequestSize
  | connectionQueue
  | squeue
  | numThreads
  | gpass
  | tls
  | ports
  | uid
  | acl
  | workerThreadids
  | workerConnections
  | clientWaitEvents
  | clientSocks
  | event (i : Nat)
  | timers
  | firstWorker
  deriving DecidableEq

/-- The pointers of a context and what it counts; `waitEvents` items of `client_wait_events` are set. -/
structure ServerContext where
  config : List (Option (List Byte))
  userShutdown : Bool
  threadShutdown : Bool
  squeue : Bool
  systemName : Bool
  sslCtx : Bool
  listeners : Listeners
  workerThreadids : Bool
  workerConnections : Bool
  clientWaitEvents : Bool
  clientSocks : Bool
  cfgMaxWorkerThreads : Nat
  waitEvents : Nat
  timers : Bool
  spawnedWorkerThreads : Nat
  masterThread : Bool

abbrev StartLog := List (Ledger.Action StartResource)

/-- `free` of a pointer that may be null. -/
def giveIf (held : Bool) (r : StartResource) : StartLog := if held then [.give r] else []

/-- The strings that are freed at the options from the option `i` on. -/
def giveConfig (i : Nat) : List (Option (List Byte)) → StartLog
  | [] => []
  | some _ :: config => .give (.config i) :: giveConfig (i + 1) config
  | none :: config => giveConfig (i + 1) config

section Start

variable (build : StartBuild)

/-- `free_context`; the list of the handlers is left out. -/
def freeContext (c : ServerContext) : StartLog :=
  [Action.give StartResource.threadMutex] ++
    (if build.alternativeQueue then
      giveIf c.clientSocks .clientSocks ++
        if c.clientWaitEvents then
          ((List.range c.spawnedWorkerThreads).map fun i => Action.give (StartResource.waitEvent i)) ++
            [Action.give StartResource.clientWaitEvents]
        else []
    else [Action.give StartResource.sqEmpty, Action.give StartResource.sqFull] ++ giveIf c.squeue .squeue) ++
    [Action.give StartResource.nonceMutex] ++ giveIf c.userShutdown .userShutdown ++
    giveIf c.threadShutdown .threadShutdown ++ giveConfig 0 c.config ++ giveIf c.sslCtx .sslCtx ++
    giveIf c.workerThreadids .workerThreadids ++ giveIf c.workerConnections .workerConnections ++
    giveIf c.systemName .systemName ++ [Action.give StartResource.context]

/-- A part of `mg_start2`: where it gives up, the context, and the actions. -/
abbrev StartStep := ServerContext → Option StartFailure × ServerContext × StartLog

/-- `mg_start2` gives up: what was done since the last step, and `free_context`. -/
def giveUp (e : StartFailure) (c : ServerContext) (log : StartLog) : Option StartFailure × ServerContext × StartLog :=
  (some e, c, log ++ freeContext build c)

def getOptionIndex (name : List Byte) : Option Nat :=
  build.configOptions.findIdx? fun option => option.1 == name

/-- The value of an option that has a default. -/
def optionValue (c : ServerContext) (name : List Byte) : List Byte :=
  match (getOptionIndex build name).bind (c.config[·]?) with
  | some (some value) => value
  | _ => []

def optionNumber (c : ServerContext) (name : List Byte) : Int := atoi (optionValue build c name)

/-- The loop that stores the options, with memory for the copies. -/
def storeStartOptions (c : ServerContext) :
    List (List Byte × Option (List Byte)) → Option StartFailure × ServerContext × StartLog
  | [] => (none, c, [])
  | (name, value) :: options =>
    match getOptionIndex build name, value with
    | some i, some value =>
      let old := giveIf ((c.config[i]?.getD none).isSome) (.config i)
      let rest := storeStartOptions { c with config := c.config.set i (some value) } options
      (rest.1, rest.2.1, old ++ .take (.config i) :: rest.2.2)
    | _, _ => giveUp build .options c []

/-- The loop that sets the defaults of the options from the option `i` on. -/
def setDefaults (i : Nat) (c : ServerContext) :
    List (List Byte × Option (List Byte)) → ServerContext × StartLog
  | [] => (c, [])
  | (_, default) :: options =>
    match c.config[i]?.getD none, default with
    | none, some value =>
      let rest := setDefaults (i + 1) { c with config := c.config.set i (some value) } options
      (rest.1, .take (.config i) :: rest.2)
    | _, _ => setDefaults (i + 1) c options

/-- A step that only checks. -/
def check (ok : ServerContext → Bool) (e : StartFailure) : StartStep := fun c =>
  if ok c then (none, c, []) else giveUp build e c []

/-- An allocation without which the server does not start. -/
def allocate (ok : Bool) (r : StartResource) (set : ServerContext → ServerContext) (e : StartFailure) :
    StartStep := fun c =>
  if ok then (none, set c, [.take r]) else giveUp build e c []

def workerthreadcount (c : ServerContext) : Int := optionNumber build c (ascii "num_threads")

def prespawnthreadcount (c : ServerContext) : Int :=
  let prespawn := optionNumber build c (ascii "prespawn_threads")
  if prespawn < 0 ∨ workerthreadcount build c < prespawn then workerthreadcount build c else prespawn

/-- The call of `set_ports_option`. -/
def portsStep (a : StartAnswers) : StartStep := fun c =>
  let r := setPortsOption build.ports a.sslReady (optionValue build c (ascii "listen_backlog"))
    (optionValue build c (ascii "listening_ports")) a.ports
  let log := r.2.2.map (Ledger.Action.map StartResource.port)
  if r.1 = 0 then giveUp build .ports c log else (none, { c with listeners := r.2.1 }, log)

/-- The loop over `event_create`, from the event `i` on with `n` left. -/
def createEvents (a : StartAnswers) (c : ServerContext) (i : Nat) : Nat → Option StartFailure × ServerContext × StartLog
  | 0 => (none, c, [])
  | n + 1 =>
    if a.event i then
      let rest := createEvents a { c with waitEvents := i + 1 } (i + 1) n
      (rest.1, rest.2.1, .take (.waitEvent i) :: rest.2.2)
    else
      giveUp build (.event i) c (((List.range i).reverse.map fun j => .give (.waitEvent j)) ++
        [.give .clientSocks, .give .clientWaitEvents, .give .workerThreadids])

/-- `timers_init`: its outcome, the actions, and whether `ctx->timers` is set. -/
def timersInit (a : StartAnswers) : Bool × StartLog :=
  if !a.timers then (false, [])
  else if !a.timerMutex then (false, [.take .timers, .give .timers])
  else if !a.timerThread then (false, [.take .timers, .take .timerMutex, .give .timerMutex, .give .timers])
  else (true, [.take .timers, .take .timerMutex, .take .timerThread])

def timersStep (a : StartAnswers) : StartStep := fun c =>
  let init := timersInit a
  if init.1 then (none, { c with timers := true }, init.2) else giveUp build .timers c init.2

/-- The loop that starts `n` more worker threads. -/
def startWorkers (a : StartAnswers) (c : ServerContext) : Nat → Option StartFailure × ServerContext × StartLog
  | 0 => (none, c, [])
  | n + 1 =>
    if c.spawnedWorkerThreads < c.cfgMaxWorkerThreads ∧ a.worker c.spawnedWorkerThreads = true then
      let rest := startWorkers a { c with spawnedWorkerThreads := c.spawnedWorkerThreads + 1 } n
      (rest.1, rest.2.1, .take (.worker c.spawnedWorkerThreads) :: rest.2.2)
    else if 0 < c.spawnedWorkerThreads then (none, c, [])
    else giveUp build .firstWorker c []

/-- `mg_start_thread_with_id` for the master thread, whose result is not looked at. -/
def startMaster (a : StartAnswers) : StartStep := fun c =>
  (none, { c with masterThread := a.masterThread }, if a.masterThread then [.take .masterThread] else [])

/-- The part of `mg_start2` behind the synchronisation objects. -/
def startSteps (options : List (List Byte × Option (List Byte))) (a : StartAnswers) : List StartStep :=
  [fun c => storeStartOptions build c options,
    fun c => let r := setDefaults 0 c build.configOptions; (none, r.1, r.2),
    check build (fun c => 1024 ≤ optionNumber build c (ascii "max_request_size")) .maxRequestSize] ++
  (if build.alternativeQueue then []
    else [check build (fun c => 1 ≤ optionNumber build c (ascii "connection_queue")) .connectionQueue,
      allocate build a.squeue .squeue (fun c => { c with squeue := true }) .squeue]) ++
  [check build (fun c => 0 < workerthreadcount build c && workerthreadcount build c ≤ MAX_WORKER_THREADS) .numThreads,
    fun c => (none, { c with systemName := a.systemName }, if a.systemName then [.take .systemName] else []),
    check build (fun _ => a.gpass) .gpass,
    fun c =>
      let c := { c with sslCtx := a.sslOwned }
      let log := if a.sslOwned then [.take .sslCtx] else []
      if a.tls then (none, c, log) else giveUp build .tls c log,
    portsStep build a,
    check build (fun _ => a.uid) .uid,
    check build (fun _ => a.acl) .acl,
    fun c => allocate build a.workerThreadids .workerThreadids
      (fun c => { c with workerThreadids := true, cfgMaxWorkerThreads := (workerthreadcount build c).toNat })
      .workerThreadids c,
    allocate build a.workerConnections .workerConnections (fun c => { c with workerConnections := true })
      .workerConnections] ++
  (if build.alternativeQueue then
    [fun c => if a.clientWaitEvents then (none, { c with clientWaitEvents := true }, [.take .clientWaitEvents])
        else giveUp build .clientWaitEvents c [.give .workerThreadids],
      fun c => if a.clientSocks then (none, { c with clientSocks := true }, [.take .clientSocks])
        else giveUp build .clientSocks c [.give .clientWaitEvents, .give .workerThreadids],
      fun c => createEvents build a c 0 c.cfgMaxWorkerThreads]
    else []) ++
  (if build.useTimers then [timersStep build a] else []) ++
  [fun c => startWorkers build a c (prespawnthreadcount build c).toNat, startMaster a]

/-- The steps one after the other, up to the first that gives up. -/
def runSteps : List StartStep → StartStep
  | [], c => (none, c, [])
  | step :: steps, c =>
    match step c with
    | (some e, c, log) => (some e, c, log)
    | (none, c, log) =>
      let rest := runSteps steps c
      (rest.1, rest.2.1, log ++ rest.2.2)

/-- A context that has just been allocated, with its two sockets. -/
def freshContext : ServerContext :=
  ⟨build.configOptions.map fun _ => none, true, true, false, false, false, ⟨[], none, none⟩, false, false, false,
    false, 0, 0, false, 0, false⟩

/-- The synchronisation objects and the socket pair: those that could be made. -/
def syncObjects (a : StartAnswers) : List StartResource :=
  (if a.threadMutex then [StartResource.threadMutex] else []) ++
    (if build.alternativeQueue then []
      else (if a.sqEmpty then [StartResource.sqEmpty] else []) ++
        if a.sqFull then [StartResource.sqFull] else []) ++
    (if a.nonceMutex then [StartResource.nonceMutex] else []) ++
    if a.socketpair then [StartResource.userShutdown, StartResource.threadShutdown] else []

def syncOk (a : StartAnswers) : Bool :=
  a.threadMutex && (build.alternativeQueue || a.sqEmpty && a.sqFull) && a.nonceMutex && a.socketpair

/-- `mg_start2`: where it gives up, the context, and what it takes and gives back. -/
def mgStart2 (options : List (List Byte × Option (List Byte))) (a : StartAnswers) :
    Option StartFailure × ServerContext × StartLog :=
  let c := freshContext build
  if !a.context then (some .context, c, [])
  else
    let log := .take .context :: (syncObjects build a).map .take
    if !syncOk build a then (some .sync, c, log ++ [.give .context])
    else
      let r := runSteps (startSteps build options a) c
      (r.1, r.2.1, log ++ r.2.2)

/-- `timers_exit` -/
def timersExit (c : ServerContext) : StartLog :=
  if c.timers then [.give .timerThread, .give .timerMutex, .give .timers] else []

/-- `master_thread_run` behind its accept loop. -/
def stopMaster (c : ServerContext) : StartLog :=
  ((closeAllListeningSockets c.listeners).2.map (Ledger.Action.map StartResource.port)) ++
    (List.range c.spawnedWorkerThreads).map fun i => .give (.worker i)

/-- `mg_stop`; `none` is a call that does not come back: the master thread has returned without an array to poll and
never sets `stop_flag` to 2. -/
def mgStop (c : ServerContext) : Option StartLog :=
  if !c.masterThread then some []
  else if c.listeners.fdsPtr = none then none
  else
    some (.give .userShutdown :: timersExit c ++ stopMaster c ++ [.give .masterThread] ++
      freeContext build { c with userShutdown := false, timers := false })

end Start

end CivetWeb
