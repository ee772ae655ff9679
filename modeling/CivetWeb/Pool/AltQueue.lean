import CivetWeb.Pool.SocketQueue

namespace CivetWeb

/-- What `mg_start2` has settled for the worker threads of the alternative queue. -/
structure AltConfig where
  cfgMaxWorkerThreads : Nat
  prespawnthreadcount : Nat
  workers_pos : 1 ≤ cfgMaxWorkerThreads
  workers_max : cfgMaxWorkerThreads ≤ MAX_WORKER_THREADS
  prespawn_le : prespawnthreadcount ≤ cfgMaxWorkerThreads

/-- Who calls `mg_start_worker_thread`: `mg_start2`, with `left` more workers to start, or `produce_socket` with
its socket. -/
inductive AltStarter (σ : Type*) where
  | mgStart2 (left : Nat)
  | produceSocket (sp : σ)
  deriving DecidableEq, Repr

def AltStarter.onlyIfNoIdleThreads {σ : Type*} : AltStarter σ → Bool
  | .mgStart2 _ => false
  | .produceSocket _ => true

/-- Where the thread is that starts the server and then accepts: in `mg_start2`, in `mg_start_worker_thread`, in
`produce_socket` with a socket (at the test of the loop, at slot `i`, before the mutex for it), at the signal for
the slot that it has filled, or outside; at the end it signals the slots from `i` on. -/
inductive AltMaster (σ : Type*) where
  | prespawns (left : Nat)
  | polls
  | accepts
  | starts (caller : AltStarter σ)
  | creates (caller : AltStarter σ)
  | counts (caller : AltStarter σ)
  | tests (sp : σ)
  | looks (sp : σ) (i : Nat)
  | locks (sp : σ) (i : Nat)
  | signals (i : Nat)
  | wakesAll (i : Nat)
  | joins
  | finished
  deriving DecidableEq, Repr

/-- Where a worker thread is: before its first `consume_socket`, in `event_wait`, behind it and before the mutex,
at work, or at its end. -/
inductive AltWorker where
  | starting
  | waiting
  | woken
  | busy
  | gone
  deriving DecidableEq, Repr

/-- What belongs to a worker index: `client_socks[i]` with its `in_use`, whether `client_wait_events[i]` is
signalled, and the thread, if it is created. -/
structure AltSlot (σ : Type*) where
  sock : Option σ
  inUse : Nat
  event : Bool
  thread : Option AltWorker
  deriving DecidableEq, Repr

/-- The alternative socket queue with its threads. The fields from `passed` on keep the history: the sockets that
`produce_socket` was called with, those that workers went on to process, those that were closed unprocessed; and
whether a `DEBUG_ASSERT(0)` was reached. -/
structure AltPool (σ : Type*) where
  slots : List (AltSlot σ)
  idleWorkerThreadCount : Int
  spawnedWorkerThreads : Nat
  stopFlag : Bool
  master : AltMaster σ
  passed : List σ
  processed : List σ
  closed : List σ
  asserted : Bool
  deriving DecidableEq, Repr

/-- What happens next: `handOver` and `grab` are the sections under the mutex; `goIdle` is the one of
`consume_socket` in front of `event_wait`, `wake` the return of `event_wait` behind a signal and `waitFails` its return
with an error, which `consume_socket` does not look at. -/
inductive AltLabel (σ : Type*) where
  | prespawn
  | poll
  | accept (sp : Option σ)
  | startWorker
  | create (ok : Bool)
  | count
  | test
  | look
  | handOver
  | signal
  | signalNext
  | join
  | goIdle (w : Nat)
  | wake (w : Nat)
  | waitFails (w : Nat)
  | grab (w : Nat)
  | initFails (w : Nat)
  | stop
  deriving DecidableEq, Repr

/-- The thread behind a call of `mg_start_worker_thread`. -/
def AltStarter.back {σ : Type*} (started : Bool) (spawned : Nat) : AltStarter σ → AltMaster σ
  | .mgStart2 left => if started then .prespawns left else if 0 < spawned then .polls else .finished
  | .produceSocket sp => .tests sp

namespace AltPool

variable {σ : Type*} (cfg : AltConfig)

def initial : AltPool σ where
  slots := List.replicate cfg.cfgMaxWorkerThreads ⟨none, 0, false, none⟩
  idleWorkerThreadCount := 0
  spawnedWorkerThreads := 0
  stopFlag := false
  master := .prespawns cfg.prespawnthreadcount
  passed := []
  processed := []
  closed := []
  asserted := false

/-- `mg_start_worker_thread` up to the creation of the thread. -/
def mgStartWorkerThread (s : AltPool σ) (caller : AltStarter σ) : AltPool σ :=
  if cfg.cfgMaxWorkerThreads ≤ s.spawnedWorkerThreads then
    { s with master := caller.back false s.spawnedWorkerThreads }
  else if caller.onlyIfNoIdleThreads ∧ 0 < s.idleWorkerThreadCount then
    { s with master := caller.back false s.spawnedWorkerThreads }
  else { s with idleWorkerThreadCount := s.idleWorkerThreadCount + 1, master := .creates caller }

/-- `produce_socket` at the slot whose `in_use` it has found to be 2, up to the unlock. -/
def handOver (s : AltPool σ) (sp : σ) (i : Nat) : Option (AltPool σ) :=
  s.slots[i]?.map fun slot =>
    if slot.inUse = 2 ∧ s.stopFlag = false then
      { s with slots := s.slots.set i { slot with sock := some sp, inUse := 1 }, master := .signals i }
    else { s with master := .looks sp (i + 1) }

/-- `consume_socket` of worker `w` up to `event_wait`; its first call does not count it as idle. -/
def goIdle (s : AltPool σ) (w : Nat) (slot : AltSlot σ) (first : Bool) : AltPool σ :=
  { s with
    idleWorkerThreadCount := if first then s.idleWorkerThreadCount else s.idleWorkerThreadCount + 1
    slots := s.slots.set w { slot with inUse := 2, thread := some .waiting } }

/-- `consume_socket` of worker `w` behind `event_wait`, and the test of its value in `worker_thread_run`. -/
def grab (s : AltPool σ) (w : Nat) (slot : AltSlot σ) : AltPool σ :=
  if s.stopFlag then
    { s with
      slots := s.slots.set w { slot with thread := some .gone }
      closed := if slot.inUse = 1 then s.closed ++ slot.sock.toList else s.closed }
  else
    let s := { s with idleWorkerThreadCount := s.idleWorkerThreadCount - 1 }
    if slot.inUse = 1 then
      { s with
        slots := s.slots.set w { slot with thread := some .busy }
        processed := s.processed ++ slot.sock.toList }
    else { s with slots := s.slots.set w { slot with thread := some .gone }, asserted := true }

def step (s : AltPool σ) : AltLabel σ → Option (AltPool σ)
  | .prespawn =>
    match s.master with
    | .prespawns 0 => some { s with master := .polls }
    | .prespawns (left + 1) => some { s with master := .starts (.mgStart2 left) }
    | _ => none
  | .poll =>
    match s.master with
    | .polls => some { s with master := if s.stopFlag then .wakesAll 0 else .accepts }
    | _ => none
  | .accept sp =>
    match s.master, sp with
    | .accepts, none => some { s with master := .polls }
    | .accepts, some sp => some { s with master := .starts (.produceSocket sp), passed := s.passed ++ [sp] }
    | _, _ => none
  | .startWorker =>
    match s.master with
    | .starts caller => some (s.mgStartWorkerThread cfg caller)
    | _ => none
  | .create ok =>
    match s.master with
    | .creates caller =>
      if ok then
        s.slots[s.spawnedWorkerThreads]?.map fun slot =>
          { s with
            slots := s.slots.set s.spawnedWorkerThreads { slot with thread := some .starting }
            master := .counts caller }
      else
        some { s with
          idleWorkerThreadCount := s.idleWorkerThreadCount - 1
          master := caller.back false s.spawnedWorkerThreads }
    | _ => none
  | .count =>
    match s.master with
    | .counts caller =>
      some { s with
        spawnedWorkerThreads := s.spawnedWorkerThreads + 1
        master := caller.back true (s.spawnedWorkerThreads + 1) }
    | _ => none
  | .test =>
    match s.master with
    | .tests sp =>
      if s.stopFlag then some { s with master := .polls, closed := s.closed ++ [sp] }
      else some { s with master := .looks sp 0 }
    | _ => none
  | .look =>
    match s.master with
    | .looks sp i =>
      -- no mutex is held for this look at `in_use`; behind the last slot the thread sleeps
      if i < s.spawnedWorkerThreads then
        s.slots[i]?.map fun slot => { s with master := if slot.inUse = 2 then .locks sp i else .looks sp (i + 1) }
      else some { s with master := .tests sp }
    | _ => none
  | .handOver =>
    match s.master with
    | .locks sp i => s.handOver sp i
    | _ => none
  | .signal =>
    match s.master with
    | .signals i =>
      s.slots[i]?.map fun slot => { s with slots := s.slots.set i { slot with event := true }, master := .polls }
    | _ => none
  | .signalNext =>
    match s.master with
    | .wakesAll i =>
      if i < s.spawnedWorkerThreads then
        s.slots[i]?.map fun slot =>
          { s with slots := s.slots.set i { slot with event := true }, master := .wakesAll (i + 1) }
      else some { s with master := .joins }
    | _ => none
  | .join =>
    match s.master with
    | .joins =>
      if s.slots.all fun slot => slot.thread = none ∨ slot.thread = some .gone then
        some { s with master := .finished }
      else none
    | _ => none
  | .goIdle w =>
    match s.slots[w]? with
    | some slot =>
      match slot.thread with
      | some .starting => some (s.goIdle w slot true)
      | some .busy => some (s.goIdle w slot false)
      | _ => none
    | none => none
  | .wake w =>
    match s.slots[w]? with
    | some slot =>
      if slot.thread = some .waiting ∧ slot.event = true then
        some { s with slots := s.slots.set w { slot with event := false, thread := some .woken } }
      else none
    | none => none
  | .waitFails w =>
    match s.slots[w]? with
    | some slot =>
      if slot.thread = some .waiting then some { s with slots := s.slots.set w { slot with thread := some .woken } }
      else none
    | none => none
  | .grab w =>
    match s.slots[w]? with
    | some slot => if slot.thread = some .woken then some (s.grab w slot) else none
    | none => none
  | .initFails w =>
    match s.slots[w]? with
    | some slot =>
      if slot.thread = some .starting then
        some { s with slots := s.slots.set w { slot with thread := some .gone } }
      else none
    | none => none
  | .stop => some { s with stopFlag := true }

/-! ### What a step can do -/

/-- The steps of the thread that accepts which change nothing but where it is. -/
inductive Move (s : AltPool σ) : AltLabel σ → AltMaster σ → Prop
  | serves (hm : s.master = .prespawns 0) : Move s .prespawn .polls
  | prespawns (left : Nat) (hm : s.master = .prespawns (left + 1)) : Move s .prespawn (.starts (.mgStart2 left))
  | accepts (hm : s.master = .polls) (hstop : s.stopFlag = false) : Move s .poll .accepts
  | shutsDown (hm : s.master = .polls) (hstop : s.stopFlag = true) : Move s .poll (.wakesAll 0)
  | refuses (hm : s.master = .accepts) : Move s (.accept none) .polls
  | limit (caller : AltStarter σ) (hm : s.master = .starts caller) :
      Move s .startWorker (caller.back false s.spawnedWorkerThreads)
  | searches (sp : σ) (hm : s.master = .tests sp) (hstop : s.stopFlag = false) : Move s .test (.looks sp 0)
  | sees (sp : σ) (i : Nat) (slot : AltSlot σ) (hm : s.master = .looks sp i) (hi : i < s.spawnedWorkerThreads)
      (hslot : s.slots[i]? = some slot) : Move s .look (.locks sp i)
  | passesBy (sp : σ) (i : Nat) (hm : s.master = .looks sp i) (hi : i < s.spawnedWorkerThreads) :
      Move s .look (.looks sp (i + 1))
  | sleeps (sp : σ) (i : Nat) (hm : s.master = .looks sp i) : Move s .look (.tests sp)
  | misses (sp : σ) (i : Nat) (hm : s.master = .locks sp i) : Move s .handOver (.looks sp (i + 1))
  | wokeAll (i : Nat) (hm : s.master = .wakesAll i) (hi : s.spawnedWorkerThreads ≤ i) : Move s .signalNext .joins
  | joins (hm : s.master = .joins) (hgone : ∀ slot ∈ s.slots, slot.thread = none ∨ slot.thread = some .gone) :
      Move s .join .finished

inductive Effect (s : AltPool σ) : AltLabel σ → AltPool σ → Prop
  | moves (l : AltLabel σ) (m : AltMaster σ) (hmove : Move s l m) : Effect s l { s with master := m }
  | passes (sp : σ) (hm : s.master = .accepts) :
      Effect s (.accept (some sp)) { s with master := .starts (.produceSocket sp), passed := s.passed ++ [sp] }
  | announces (caller : AltStarter σ) (hm : s.master = .starts caller)
      (hmax : s.spawnedWorkerThreads < cfg.cfgMaxWorkerThreads) :
      Effect s .startWorker { s with
        idleWorkerThreadCount := s.idleWorkerThreadCount + 1
        master := .creates caller }
  | creates (caller : AltStarter σ) (slot : AltSlot σ) (hm : s.master = .creates caller)
      (hslot : s.slots[s.spawnedWorkerThreads]? = some slot) :
      Effect s (.create true) { s with
        slots := s.slots.set s.spawnedWorkerThreads { slot with thread := some .starting }
        master := .counts caller }
  | createFails (caller : AltStarter σ) (hm : s.master = .creates caller) :
      Effect s (.create false) { s with
        idleWorkerThreadCount := s.idleWorkerThreadCount - 1
        master := caller.back false s.spawnedWorkerThreads }
  | counts (caller : AltStarter σ) (hm : s.master = .counts caller) :
      Effect s .count { s with
        spawnedWorkerThreads := s.spawnedWorkerThreads + 1
        master := caller.back true (s.spawnedWorkerThreads + 1) }
  | closes (sp : σ) (hm : s.master = .tests sp) (hstop : s.stopFlag = true) :
      Effect s .test { s with master := .polls, closed := s.closed ++ [sp] }
  | hands (sp : σ) (i : Nat) (slot : AltSlot σ) (hm : s.master = .locks sp i) (hslot : s.slots[i]? = some slot)
      (huse : slot.inUse = 2) (hstop : s.stopFlag = false) :
      Effect s .handOver { s with
        slots := s.slots.set i { slot with sock := some sp, inUse := 1 }
        master := .signals i }
  | signals (i : Nat) (slot : AltSlot σ) (hm : s.master = .signals i) (hslot : s.slots[i]? = some slot) :
      Effect s .signal { s with slots := s.slots.set i { slot with event := true }, master := .polls }
  | signalsNext (i : Nat) (slot : AltSlot σ) (hm : s.master = .wakesAll i) (hi : i < s.spawnedWorkerThreads)
      (hslot : s.slots[i]? = some slot) :
      Effect s .signalNext { s with slots := s.slots.set i { slot with event := true }, master := .wakesAll (i + 1) }
  | goesIdle (w : Nat) (slot : AltSlot σ) (n : Int) (hslot : s.slots[w]? = some slot)
      (hthread : slot.thread = some .starting ∨ slot.thread = some .busy) :
      Effect s (.goIdle w) { s with
        idleWorkerThreadCount := n
        slots := s.slots.set w { slot with inUse := 2, thread := some .waiting } }
  | wakes (w : Nat) (slot : AltSlot σ) (hslot : s.slots[w]? = some slot) (hthread : slot.thread = some .waiting)
      (hevent : slot.event = true) :
      Effect s (.wake w) { s with slots := s.slots.set w { slot with event := false, thread := some .woken } }
  | waitFails (w : Nat) (slot : AltSlot σ) (hslot : s.slots[w]? = some slot) (hthread : slot.thread = some .waiting) :
      Effect s (.waitFails w) { s with slots := s.slots.set w { slot with thread := some .woken } }
  | ends (w : Nat) (slot : AltSlot σ) (hslot : s.slots[w]? = some slot) (hthread : slot.thread = some .woken)
      (hstop : s.stopFlag = true) :
      Effect s (.grab w) { s with
        slots := s.slots.set w { slot with thread := some .gone }
        closed := if slot.inUse = 1 then s.closed ++ slot.sock.toList else s.closed }
  | processes (w : Nat) (slot : AltSlot σ) (hslot : s.slots[w]? = some slot) (hthread : slot.thread = some .woken)
      (hstop : s.stopFlag = false) (huse : slot.inUse = 1) :
      Effect s (.grab w) { s with
        idleWorkerThreadCount := s.idleWorkerThreadCount - 1
        slots := s.slots.set w { slot with thread := some .busy }
        processed := s.processed ++ slot.sock.toList }
  | asserts (w : Nat) (slot : AltSlot σ) (hslot : s.slots[w]? = some slot) (hthread : slot.thread = some .woken)
      (hstop : s.stopFlag = false) (huse : slot.inUse ≠ 1) :
      Effect s (.grab w) { s with
        idleWorkerThreadCount := s.idleWorkerThreadCount - 1
        slots := s.slots.set w { slot with thread := some .gone }
        asserted := true }
  | initFails (w : Nat) (slot : AltSlot σ) (hslot : s.slots[w]? = some slot) (hthread : slot.thread = some .starting) :
      Effect s (.initFails w) { s with slots := s.slots.set w { slot with thread := some .gone } }
  | stop : Effect s .stop { s with stopFlag := true }

theorem startWorker_effect {s : AltPool σ} {caller : AltStarter σ} (hm : s.master = .starts caller) :
    Effect cfg s .startWorker (s.mgStartWorkerThread cfg caller) := by
  unfold mgStartWorkerThread
  by_cases hmax : cfg.cfgMaxWorkerThreads ≤ s.spawnedWorkerThreads
  · rw [if_pos hmax]
    exact .moves _ _ (.limit caller hm)
  · rw [if_neg hmax]
    by_cases hidle : caller.onlyIfNoIdleThreads ∧ 0 < s.idleWorkerThreadCount
    · rw [if_pos hidle]
      exact .moves _ _ (.limit caller hm)
    · rw [if_neg hidle]
      exact .announces caller hm (not_le.mp hmax)

theorem look_effect {s : AltPool σ} {sp : σ} {i : Nat} {slot : AltSlot σ} (hm : s.master = .looks sp i)
    (hi : i < s.spawnedWorkerThreads) (hslot : s.slots[i]? = some slot) :
    Effect cfg s .look { s with master := if slot.inUse = 2 then .locks sp i else .looks sp (i + 1) } := by
  by_cases huse : slot.inUse = 2
  · rw [if_pos huse]
    exact .moves _ _ (.sees sp i slot hm hi hslot)
  · rw [if_neg huse]
    exact .moves _ _ (.passesBy sp i hm hi)

theorem handOver_effect {s t : AltPool σ} {sp : σ} {i : Nat} (hm : s.master = .locks sp i)
    (h : s.handOver sp i = some t) : Effect cfg s .handOver t := by
  obtain ⟨slot, hslot, rfl⟩ := Option.map_eq_some_iff.mp h
  by_cases hfree : slot.inUse = 2 ∧ s.stopFlag = false
  · rw [if_pos hfree]
    exact .hands sp i slot hm hslot hfree.1 hfree.2
  · rw [if_neg hfree]
    exact .moves _ _ (.misses sp i hm)

theorem grab_effect {s : AltPool σ} {w : Nat} {slot : AltSlot σ} (hslot : s.slots[w]? = some slot)
    (hthread : slot.thread = some .woken) : Effect cfg s (.grab w) (s.grab w slot) := by
  unfold grab
  by_cases hstop : s.stopFlag = true
  · rw [if_pos hstop]
    exact .ends w slot hslot hthread hstop
  · rw [if_neg hstop]
    by_cases huse : slot.inUse = 1
    · dsimp only
      rw [if_pos huse]
      exact .processes w slot hslot hthread (Bool.not_eq_true _ ▸ hstop) huse
    · dsimp only
      rw [if_neg huse]
      exact .asserts w slot hslot hthread (Bool.not_eq_true _ ▸ hstop) huse

theorem step_effect {s t : AltPool σ} {l : AltLabel σ} (h : step cfg s l = some t) : Effect cfg s l t := by
  cases l with
  | prespawn =>
    rw [step] at h
    split at h
    · next hm => cases h; exact .moves _ _ (.serves hm)
    · next left hm => cases h; exact .moves _ _ (.prespawns left hm)
    · cases h
  | poll =>
    rw [step] at h
    split at h
    · next hm =>
      cases h
      by_cases hstop : s.stopFlag = true
      · rw [if_pos hstop]
        exact .moves _ _ (.shutsDown hm hstop)
      · rw [if_neg hstop]
        exact .moves _ _ (.accepts hm (Bool.not_eq_true _ ▸ hstop))
    · cases h
  | accept sp =>
    unfold step at h
    dsimp only at h
    split at h
    · next hm => cases h; exact .moves _ _ (.refuses hm)
    · next sp hm => cases h; exact .passes sp hm
    · cases h
  | startWorker =>
    rw [step] at h
    split at h
    · next caller hm => cases h; exact startWorker_effect cfg hm
    · cases h
  | create ok =>
    rw [step] at h
    split at h
    · next caller hm =>
      cases ok with
      | true =>
        obtain ⟨slot, hslot, rfl⟩ := Option.map_eq_some_iff.mp h
        exact .creates caller slot hm hslot
      | false =>
        cases h
        exact .createFails caller hm
    · cases h
  | count =>
    rw [step] at h
    split at h
    · next caller hm => cases h; exact .counts caller hm
    · cases h
  | test =>
    rw [step] at h
    split at h
    · next sp hm =>
      by_cases hstop : s.stopFlag = true
      · rw [if_pos hstop] at h
        cases h
        exact .closes sp hm hstop
      · rw [if_neg hstop] at h
        cases h
        exact .moves _ _ (.searches sp hm (Bool.not_eq_true _ ▸ hstop))
    · cases h
  | look =>
    rw [step] at h
    split at h
    · next sp i hm =>
      by_cases hi : i < s.spawnedWorkerThreads
      · rw [if_pos hi] at h
        obtain ⟨slot, hslot, rfl⟩ := Option.map_eq_some_iff.mp h
        exact look_effect cfg hm hi hslot
      · rw [if_neg hi] at h
        cases h
        exact .moves _ _ (.sleeps sp i hm)
    · cases h
  | handOver =>
    rw [step] at h
    split at h
    · next sp i hm => exact handOver_effect cfg hm h
    · cases h
  | signal =>
    rw [step] at h
    split at h
    · next i hm =>
      obtain ⟨slot, hslot, rfl⟩ := Option.map_eq_some_iff.mp h
      exact .signals i slot hm hslot
    · cases h
  | signalNext =>
    rw [step] at h
    split at h
    · next i hm =>
      by_cases hi : i < s.spawnedWorkerThreads
      · rw [if_pos hi] at h
        obtain ⟨slot, hslot, rfl⟩ := Option.map_eq_some_iff.mp h
        exact .signalsNext i slot hm hi hslot
      · rw [if_neg hi] at h
        cases h
        exact .moves _ _ (.wokeAll i hm (not_lt.mp hi))
    · cases h
  | join =>
    rw [step] at h
    split at h
    · next hm =>
      split_ifs at h with hall
      cases h
      refine .moves _ _ (.joins hm fun slot hslot => ?_)
      exact of_decide_eq_true (List.all_eq_true.mp hall slot hslot)
    · cases h
  | goIdle w =>
    rw [step] at h
    split at h
    · next slot hslot =>
      split at h
      · next hthread => cases h; exact .goesIdle w slot _ hslot (.inl hthread)
      · next hthread => cases h; exact .goesIdle w slot _ hslot (.inr hthread)
      · cases h
    · cases h
  | wake w =>
    rw [step] at h
    split at h
    · next slot hslot =>
      split_ifs at h with hready
      cases h
      exact .wakes w slot hslot hready.1 hready.2
    · cases h
  | waitFails w =>
    rw [step] at h
    split at h
    · next slot hslot =>
      split_ifs at h with hthread
      cases h
      exact .waitFails w slot hslot hthread
    · cases h
  | grab w =>
    rw [step] at h
    split at h
    · next slot hslot =>
      split_ifs at h with hthread
      cases h
      exact grab_effect cfg hslot hthread
    · cases h
  | initFails w =>
    rw [step] at h
    split at h
    · next slot hslot =>
      split_ifs at h with hthread
      cases h
      exact .initFails w slot hslot hthread
    · cases h
  | stop =>
    rw [step] at h
    cases h
    exact .stop

end AltPool

end CivetWeb
