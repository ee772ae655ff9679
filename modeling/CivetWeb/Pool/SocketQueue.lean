import CivetWeb.Conn.Connection
import CivetWeb.Lib.System

namespace CivetWeb

def MAX_WORKER_THREADS : Nat := 1024 * 64

theorem one_le_INT_MAX : 1 ≤ INT_MAX := by decide

theorem two_le_MAX_WORKER_THREADS : 2 ≤ MAX_WORKER_THREADS := by decide

theorem one_le_MAX_WORKER_THREADS : 1 ≤ MAX_WORKER_THREADS :=
  one_le_two.trans two_le_MAX_WORKER_THREADS

/-- What `mg_start2` has settled for the socket queue and the worker threads when it starts them. -/
structure PoolConfig where
  sqSize : Nat
  cfgMaxWorkerThreads : Nat
  prespawnthreadcount : Nat
  sqSize_pos : 1 ≤ sqSize
  sqSize_int : sqSize ≤ INT_MAX
  workers_pos : 1 ≤ cfgMaxWorkerThreads
  workers_max : cfgMaxWorkerThreads ≤ MAX_WORKER_THREADS
  prespawn_le : prespawnthreadcount ≤ cfgMaxWorkerThreads
  deriving DecidableEq

/-- Who calls `mg_start_worker_thread`: `mg_start2`, with `left` more workers to start, or `produce_socket`. -/
inductive Starter where
  | mgStart2 (left : Nat)
  | produceSocket
  deriving DecidableEq, Repr

def Starter.onlyIfNoIdleThreads : Starter → Bool
  | .mgStart2 _ => false
  | .produceSocket => true

/-- Where the thread is that starts the server and then accepts: in `mg_start2`, in `produce_socket` with a
socket (before the lock, waiting for `sq_empty`, or woken and waiting for the mutex), in
`mg_start_worker_thread`, or outside. -/
inductive MasterThread (σ : Type*) where
  | prespawns (left : Nat)
  | polls
  | accepts
  | produces (sp : σ)
  | waits (sp : σ)
  | woken (sp : σ)
  | starts (caller : Starter)
  | creates (caller : Starter)
  | counts (caller : Starter)
  | shutsDown
  | joins
  | finished
  deriving DecidableEq, Repr

/-- Where a worker thread is: before its first `consume_socket`, waiting there for `sq_full`, woken and waiting
for the mutex, behind the mutex with what it took, at work, or at its end. -/
inductive PoolWorker (σ : Type*) where
  | starting
  | waiting
  | woken
  | returning (sp : Option σ)
  | busy
  | gone
  deriving DecidableEq, Repr

def PoolWorker.isWaiting {σ : Type*} : PoolWorker σ → Bool
  | .waiting => true
  | _ => false

/-- The thread behind a call of `mg_start_worker_thread`; `mg_start2` goes on without more workers if one cannot
be started, and gives up if there is none. -/
def Starter.back {σ : Type*} (started : Bool) (spawned : Nat) : Starter → MasterThread σ
  | .mgStart2 left => if started then .prespawns left else if 0 < spawned then .polls else .finished
  | .produceSocket => .polls

/-- The socket queue with its threads. The counters are read as integers: an `int` holds them as long as they
are not beyond `INT_MAX`. The fields from `passed` on keep the history: the sockets that `produce_socket` was
called with, those it put into the queue, those a call of `consume_socket` took (with the worker), and those
its caller went on to process. -/
structure Pool (σ : Type*) where
  squeue : List σ
  sqHead : Int
  sqTail : Int
  sqBlocked : Bool
  idleWorkerThreadCount : Int
  spawnedWorkerThreads : Nat
  stopFlag : Bool
  master : MasterThread σ
  workers : List (PoolWorker σ)
  passed : List σ
  produced : List σ
  returned : List (Nat × σ)
  processed : List σ
  deriving DecidableEq, Repr

/-- What happens next: `produce` and `consume` are the sections under the mutex, up to the unlock or to the wait;
`wake` is the worker that the signal of `sq_full` wakes. -/
inductive PoolLabel (σ : Type*) where
  | prespawn
  | poll
  | accept (sp : Option σ)
  | produce (wake : Option Nat)
  | wakeMaster
  | startWorker
  | create (ok : Bool)
  | count
  | broadcast
  | join
  | consume (w : Nat)
  | wakeWorker (w : Nat)
  | returns (w : Nat)
  | initFails (w : Nat)
  | stop
  deriving DecidableEq, Repr

/-- `while (sq_tail > sq_size)`, with `sq_head` and `sq_tail`. -/
def wrapPointers (sqSize : Int) : Nat → Int → Int → Int × Int
  | 0, head, tail => (head, tail)
  | fuel + 1, head, tail =>
    if sqSize < tail then wrapPointers sqSize fuel (head - sqSize) (tail - sqSize) else (head, tail)

namespace Pool

variable {σ : Type*} (cfg : PoolConfig)

def setWorker (s : Pool σ) (w : Nat) (worker : PoolWorker σ) : Pool σ := { s with workers := s.workers.set w worker }

/-- `pthread_cond_signal` for the workers: one that waits is woken, if there is one. -/
def signalFull (s : Pool σ) : Option Nat → Option (Pool σ)
  | none => if s.workers.any PoolWorker.isWaiting then none else some s
  | some w =>
    match s.workers[w]? with
    | some .waiting => some (s.setWorker w .woken)
    | _ => none

def signalEmpty (s : Pool σ) : Pool σ :=
  match s.master with
  | .waits sp => { s with master := .woken sp }
  | _ => s

/-- Copy socket to the queue and increment head. -/
def push (s : Pool σ) (sp : σ) : Pool σ :=
  if s.sqHead - s.sqTail < cfg.sqSize then
    { s with
      squeue := s.squeue.set (s.sqHead.tmod cfg.sqSize).toNat sp
      sqHead := s.sqHead + 1
      produced := s.produced ++ [sp] }
  else s

/-- `produce_socket` from the test of the fill level on, up to its call of `mg_start_worker_thread`. -/
def produceSocket (s : Pool σ) (sp : σ) (wake : Option Nat) : Option (Pool σ) :=
  if s.stopFlag = false ∧ cfg.sqSize ≤ s.sqHead - s.sqTail then
    some { s with sqBlocked := true, master := .waits sp }
  else ((s.push cfg sp).signalFull wake).map fun s => { s with master := .starts .produceSocket }

/-- Copy socket from the queue and increment tail. -/
def pop (s : Pool σ) (w : Nat) : Option σ × Pool σ :=
  if s.sqTail < s.sqHead then
    let sp := s.squeue[(s.sqTail.tmod cfg.sqSize).toNat]?
    let (head, tail) := wrapPointers cfg.sqSize (s.sqTail + 1).toNat s.sqHead (s.sqTail + 1)
    (sp, { s with sqHead := head, sqTail := tail, returned := s.returned ++ sp.toList.map fun sp => (w, sp) })
  else (none, s)

/-- `consume_socket` of worker `w` from the test for an empty queue on, up to the unlock. -/
def consumeSocket (s : Pool σ) (w : Nat) : Pool σ :=
  if s.sqHead = s.sqTail ∧ s.stopFlag = false then s.setWorker w .waiting
  else
    let (sp, s) := s.pop cfg w
    let s := s.signalEmpty
    { s with idleWorkerThreadCount := s.idleWorkerThreadCount - 1 }.setWorker w (.returning sp)

/-- `mg_start_worker_thread` up to the creation of the thread. -/
def mgStartWorkerThread (s : Pool σ) (caller : Starter) : Pool σ :=
  if cfg.cfgMaxWorkerThreads ≤ s.spawnedWorkerThreads then
    { s with master := caller.back false s.spawnedWorkerThreads }
  else if caller.onlyIfNoIdleThreads ∧ s.sqHead - s.sqTail < s.idleWorkerThreadCount then
    { s with master := caller.back false s.spawnedWorkerThreads }
  else { s with idleWorkerThreadCount := s.idleWorkerThreadCount + 1, master := .creates caller }

def step (s : Pool σ) : PoolLabel σ → Option (Pool σ)
  | .prespawn =>
    match s.master with
    | .prespawns 0 => some { s with master := .polls }
    | .prespawns (left + 1) => some { s with master := .starts (.mgStart2 left) }
    | _ => none
  | .poll =>
    match s.master with
    | .polls => some { s with master := if s.stopFlag then .shutsDown else .accepts }
    | _ => none
  | .accept sp =>
    match s.master, sp with
    | .accepts, none => some { s with master := .polls }
    | .accepts, some sp => some { s with master := .produces sp, passed := s.passed ++ [sp] }
    | _, _ => none
  | .produce wake =>
    match s.master with
    | .produces sp => s.produceSocket cfg sp wake
    | .woken sp => { s with sqBlocked := false }.produceSocket cfg sp wake
    | _ => none
  | .wakeMaster =>
    match s.master with
    | .waits sp => some { s with master := .woken sp }
    | _ => none
  | .startWorker =>
    match s.master with
    | .starts caller => some (s.mgStartWorkerThread cfg caller)
    | _ => none
  | .create ok =>
    match s.master with
    | .creates caller =>
      if ok then some { s with workers := s.workers ++ [.starting], master := .counts caller }
      else
        some { s with
          idleWorkerThreadCount := s.idleWorkerThreadCount - 1
          master := caller.back false s.spawnedWorkerThreads }
    | _ => none
  | .count =>
    match s.master with
    | .counts caller =>
      some { s with
        spawnedWorkerThreads := s.spawnedWorkerThreads + 1
        master := caller.back true (s.spawnedWorkerThreads + 1) }
    | _ => none
  | .broadcast =>
    match s.master with
    | .shutsDown =>
      some { s with
        workers := s.workers.map fun w => if w.isWaiting then .woken else w
        master := .joins }
    | _ => none
  | .join =>
    match s.master with
    | .joins =>
      if s.workers.all fun w => match w with | .gone => true | _ => false then some { s with master := .finished }
      else none
    | _ => none
  | .consume w =>
    match s.workers[w]? with
    | some .starting | some .woken => some (s.consumeSocket cfg w)
    | some .busy => some ({ s with idleWorkerThreadCount := s.idleWorkerThreadCount + 1 }.consumeSocket cfg w)
    | _ => none
  | .wakeWorker w =>
    match s.workers[w]? with
    | some .waiting => some (s.setWorker w .woken)
    | _ => none
  | .returns w =>
    match s.workers[w]? with
    | some (.returning sp) =>
      if s.stopFlag then some (s.setWorker w .gone)
      else some { s.setWorker w .busy with processed := s.processed ++ sp.toList }
    | _ => none
  | .initFails w =>
    match s.workers[w]? with
    | some .starting => some (s.setWorker w .gone)
    | _ => none
  | .stop => some { s with stopFlag := true }

/-- Before `mg_start2` starts the workers, with a queue of zeros. -/
def initial (zero : σ) : Pool σ where
  squeue := List.replicate cfg.sqSize zero
  sqHead := 0
  sqTail := 0
  sqBlocked := false
  idleWorkerThreadCount := 0
  spawnedWorkerThreads := 0
  stopFlag := false
  master := .prespawns cfg.prespawnthreadcount
  workers := []
  passed := []
  produced := []
  returned := []
  processed := []

end Pool

end CivetWeb
