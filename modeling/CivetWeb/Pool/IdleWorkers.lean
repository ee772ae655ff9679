import CivetWeb.Pool.Fifo

namespace CivetWeb

/-- In `produce_socket`, from its call up to its return. -/
def MasterThread.inProduceSocket {σ : Type*} : MasterThread σ → Prop
  | .produces _ | .waits _ | .woken _ => True
  | .starts caller | .creates caller | .counts caller => caller = .produceSocket
  | _ => False

namespace Pool

open System

variable {σ : Type*} (cfg : PoolConfig)

def isStarting : PoolWorker σ → Bool
  | .starting => true
  | _ => false

/-- In `pthread_cond_wait` of `consume_socket`, woken or not. -/
def isInside : PoolWorker σ → Bool
  | .waiting | .woken => true
  | _ => false

/-- The threads that `mg_start_worker_thread` counts before it creates them. -/
def announced : MasterThread σ → Nat
  | .creates _ => 1
  | _ => 0

/-- The workers that start up, from the count that is made for them on. -/
def startingUp (s : Pool σ) : Nat := s.workers.countP isStarting + announced s.master

def waitingInside (s : Pool σ) : Nat := s.workers.countP isInside

/-- The idle count is that of the workers that start up or wait, and there are as many of them as there are sockets
in the queue, as long as there can be more workers. -/
structure WorkersSound (s : Pool σ) : Prop where
  idle : s.idleWorkerThreadCount = s.startingUp + s.waitingInside
  spawned : s.spawnedWorkerThreads ≤ cfg.cfgMaxWorkerThreads
  enough : ¬ s.master.inProduceSocket →
    s.queued.length ≤ s.idleWorkerThreadCount ∨ s.spawnedWorkerThreads = cfg.cfgMaxWorkerThreads

/-- No thread fails to be created or to initialise. -/
def succeeds : PoolLabel σ → Bool
  | .create ok => ok
  | .initFails _ => false
  | _ => true

/-! ### What the counts keep -/

def counted (w : PoolWorker σ) : Bool := isStarting w || isInside w

/-- Threads that are on their way to be counted as spawned. -/
def unspawned : MasterThread σ → Nat
  | .creates _ | .counts _ => 1
  | _ => 0

/-- A socket was queued, and whether a worker must be started for it is not yet tested. -/
def untested : MasterThread σ → Nat
  | .starts .produceSocket => 1
  | _ => 0

structure IdleInv (s : Pool σ) : Prop where
  idle : s.idleWorkerThreadCount = s.workers.countP counted + announced s.master
  spawned : s.spawnedWorkerThreads + unspawned s.master ≤ cfg.cfgMaxWorkerThreads
  enough : s.sqHead - s.sqTail ≤ s.idleWorkerThreadCount + untested s.master ∨
    s.spawnedWorkerThreads = cfg.cfgMaxWorkerThreads

theorem back_settled (caller : Starter) (started : Bool) (spawned : Nat) :
    announced (caller.back started spawned : MasterThread σ) = 0 ∧
      unspawned (caller.back started spawned : MasterThread σ) = 0 ∧
      untested (caller.back started spawned : MasterThread σ) = 0 := by
  cases caller with
  | produceSocket => exact ⟨rfl, rfl, rfl⟩
  | mgStart2 left =>
    rw [Starter.back]
    split_ifs <;> exact ⟨rfl, rfl, rfl⟩

theorem producing_settled {s : Pool σ} {sp : σ} (hm : s.master = .produces sp ∨ s.master = .woken sp) :
    announced s.master = 0 ∧ unspawned s.master = 0 ∧ untested s.master = 0 := by
  rcases hm with hm | hm
  · rw [hm]
    exact ⟨rfl, rfl, rfl⟩
  · rw [hm]
    exact ⟨rfl, rfl, rfl⟩

theorem signalEmpty_settled (s : Pool σ) :
    announced s.signalEmpty.master = announced s.master ∧ unspawned s.signalEmpty.master = unspawned s.master ∧
      untested s.signalEmpty.master = untested s.master := by
  rw [signalEmpty]
  split
  · next sp hm =>
    rw [hm]
    exact ⟨rfl, rfl, rfl⟩
  · exact ⟨rfl, rfl, rfl⟩

theorem signalled_counted {workers workers' : List (PoolWorker σ)} (h : Signalled workers workers') :
    (workers'.countP counted : Int) = workers.countP counted := by
  cases h with
  | nobody hnone => rfl
  | wakes w hw =>
    rw [countP_set counted .woken hw]
    exact Int.sub_add_cancel _ 1

/-- A worker on its way into `consume_socket` is counted by then. -/
theorem counted_entry {x : PoolWorker σ} {n : Int} (h : entry x = some n) :
    ((counted x).toNat : Int) = 1 - n ∧ 0 ≤ n := by
  cases x with
  | starting => cases h; exact ⟨rfl, le_rfl⟩
  | woken => cases h; exact ⟨rfl, le_rfl⟩
  | busy => cases h; exact ⟨rfl, zero_le_one⟩
  | _ => cases h

theorem idleInv_initial (zero : σ) : IdleInv cfg (initial cfg zero) where
  idle := rfl
  spawned := Nat.zero_le _
  enough := .inl (le_refl 0)

/-- A thread that goes on from `m` to `m'` where neither counts for anything. -/
theorem IdleInv.goes {s : Pool σ} {m m' : MasterThread σ} (h : IdleInv cfg s) (hm : s.master = m)
    (hannounced : announced m = announced m') (hunspawned : unspawned m = unspawned m')
    (huntested : untested m = untested m') : IdleInv cfg { s with master := m' } where
  idle := by
    rw [← hannounced, ← hm]
    exact h.idle
  spawned := by
    rw [← hunspawned, ← hm]
    exact h.spawned
  enough := by
    rw [← huntested, ← hm]
    exact h.enough

theorem idleInv_move {s : Pool σ} {l : PoolLabel σ} {m : MasterThread σ} (h : IdleInv cfg s) (hmove : Move cfg s l m) :
    IdleInv cfg { s with master := m } := by
  cases hmove with
  | serves hm => exact h.goes cfg hm rfl rfl rfl
  | prespawns left hm => exact h.goes cfg hm rfl rfl rfl
  | accepts hm hstop => exact h.goes cfg hm rfl rfl rfl
  | shutsDown hm hstop => exact h.goes cfg hm rfl rfl rfl
  | refuses hm => exact h.goes cfg hm rfl rfl rfl
  | woken sp hm => exact h.goes cfg hm rfl rfl rfl
  | joins hm hgone => exact h.goes cfg hm rfl rfl rfl
  | limit caller hm hmax =>
    obtain ⟨hidle, hspawned, -⟩ := h
    obtain ⟨hannounced, hunspawned, -⟩ := back_settled (σ := σ) caller false s.spawnedWorkerThreads
    rw [hm] at hidle hspawned
    refine ⟨?_, ?_, .inr ?_⟩
    · rw [hannounced]
      exact hidle
    · rw [hunspawned]
      exact hspawned
    · exact le_antisymm hspawned hmax
  | enough hm hfill =>
    obtain ⟨hidle, hspawned, -⟩ := h
    rw [hm] at hidle hspawned
    refine ⟨hidle, hspawned, .inl ?_⟩
    show s.sqHead - s.sqTail ≤ s.idleWorkerThreadCount + 0
    omega

theorem idleInv_step {s t : Pool σ} {l : PoolLabel σ} (hfifo : FifoInv cfg s) (h : IdleInv cfg s)
    (hl : succeeds l = true) (hstep : step cfg s l = some t) : IdleInv cfg t := by
  obtain ⟨hidle, hspawned, henough⟩ := h
  -- a worker `x` that counts as `counted x` turns to `y`
  have hset : ∀ (w : Nat) (x y : PoolWorker σ), s.workers[w]? = some x →
      ((s.workers.set w y).countP counted : Int) =
        s.workers.countP counted - (counted x).toNat + (counted y).toNat := fun w x y => countP_set counted y
  cases step_effect cfg hstep with
  | moves l m hmove => exact idleInv_move cfg ⟨hidle, hspawned, henough⟩ hmove
  | passes sp hm =>
    rw [hm] at hidle hspawned henough
    exact ⟨hidle, hspawned, henough⟩
  | blocks sp wake hm hstop hfull =>
    obtain ⟨hannounced, hunspawned, huntested⟩ := producing_settled hm
    rw [hannounced] at hidle
    rw [hunspawned] at hspawned
    rw [huntested] at henough
    exact ⟨hidle, hspawned, henough⟩
  | pushes sp wake blocked workers hm hroom hsignal =>
    obtain ⟨hannounced, hunspawned, huntested⟩ := producing_settled hm
    rw [hannounced] at hidle
    rw [hunspawned] at hspawned
    rw [huntested] at henough
    refine ⟨?_, hspawned, ?_⟩
    · show s.idleWorkerThreadCount = (workers.countP counted : Int) + 0
      rw [signalled_counted hsignal]
      exact hidle
    · show s.sqHead + 1 - s.sqTail ≤ s.idleWorkerThreadCount + 1 ∨ _
      rcases henough with hfill | hmax
      · left
        omega
      · exact .inr hmax
  | drops sp wake blocked workers hm hstop hsignal =>
    obtain ⟨hannounced, hunspawned, huntested⟩ := producing_settled hm
    rw [hannounced] at hidle
    rw [hunspawned] at hspawned
    rw [huntested] at henough
    refine ⟨?_, hspawned, ?_⟩
    · show s.idleWorkerThreadCount = (workers.countP counted : Int) + 0
      rw [signalled_counted hsignal]
      exact hidle
    · show s.sqHead - s.sqTail ≤ s.idleWorkerThreadCount + 1 ∨ _
      rcases henough with hfill | hmax
      · left
        omega
      · exact .inr hmax
  | announces caller hm hmax hmore =>
    rw [hm] at hidle henough
    refine ⟨?_, hmax, ?_⟩
    · show s.idleWorkerThreadCount + 1 = (s.workers.countP counted : Int) + 1
      exact congrArg (· + (1 : Int)) hidle
    · show s.sqHead - s.sqTail ≤ s.idleWorkerThreadCount + 1 + 0 ∨ _
      rcases henough with hfill | hmax
      · left
        have hone : untested (σ := σ) (.starts caller) ≤ 1 := by
          cases caller with
          | mgStart2 left => exact Nat.zero_le 1
          | produceSocket => exact le_rfl
        omega
      · exact .inr hmax
  | creates caller hm =>
    rw [hm] at hidle hspawned henough
    refine ⟨?_, hspawned, henough⟩
    show s.idleWorkerThreadCount = ((s.workers ++ [PoolWorker.starting]).countP counted : Int) + 0
    rw [List.countP_append]
    exact hidle
  | createFails caller hm => cases hl
  | counts caller hm =>
    rw [hm] at hidle hspawned henough
    obtain ⟨hannounced, hunspawned, huntested⟩ :=
      back_settled (σ := σ) caller true (s.spawnedWorkerThreads + 1)
    refine ⟨?_, ?_, ?_⟩
    · rw [hannounced]
      exact hidle
    · rw [hunspawned]
      exact hspawned
    · rw [huntested]
      rcases henough with hfill | hmax
      · exact .inl hfill
      · exact absurd hspawned (by rw [hmax]; exact Nat.not_succ_le_self _)
  | broadcast hm =>
    rw [hm] at hidle hspawned henough
    refine ⟨?_, hspawned, henough⟩
    show s.idleWorkerThreadCount = ((s.workers.map _).countP counted : Int) + 0
    rw [List.countP_map]
    have hsame : (counted ∘ fun w : PoolWorker σ => if w.isWaiting then .woken else w) = counted := by
      funext w
      cases w <;> rfl
    rw [hsame]
    exact hidle
  | waits w x n hw hx hempty hstop =>
    obtain ⟨hone, hn⟩ := counted_entry hx
    have hcount := hset w x .waiting hw
    refine ⟨?_, hspawned, ?_⟩
    · show s.idleWorkerThreadCount + n = ((s.workers.set w .waiting).countP counted : Int) + announced s.master
      rw [hcount, show (counted (.waiting : PoolWorker σ)).toNat = 1 from rfl]
      omega
    · rcases henough with hfill | hmax
      · left
        show s.sqHead - s.sqTail ≤ s.idleWorkerThreadCount + n + untested s.master
        omega
      · exact .inr hmax
  | takes w x n sp head tail hw hx hfilled hsp hwrap =>
    obtain ⟨hone, hn⟩ := counted_entry hx
    obtain ⟨hannounced, hunspawned, huntested⟩ := signalEmpty_settled s
    have hcount := hset w x (.returning sp) hw
    have hless := hfifo.takes_fill hwrap
    refine ⟨?_, ?_, ?_⟩
    · show s.idleWorkerThreadCount + n - 1 =
        ((s.workers.set w (.returning sp)).countP counted : Int) + announced s.signalEmpty.master
      rw [hcount, hannounced, show (counted (.returning sp : PoolWorker σ)).toNat = 0 from rfl]
      omega
    · show s.spawnedWorkerThreads + unspawned s.signalEmpty.master ≤ _
      rw [hunspawned]
      exact hspawned
    · rcases henough with hfill | hmax
      · left
        show head - tail ≤ s.idleWorkerThreadCount + n - 1 + untested s.signalEmpty.master
        rw [huntested]
        omega
      · exact .inr hmax
  | leaves w x n hw hx hleft hstop =>
    obtain ⟨hone, hn⟩ := counted_entry hx
    obtain ⟨hannounced, hunspawned, huntested⟩ := signalEmpty_settled s
    have hcount := hset w x (.returning none) hw
    rw [show (counted (.returning none : PoolWorker σ)).toNat = 0 from rfl] at hcount
    refine ⟨?_, ?_, .inl ?_⟩
    · show s.idleWorkerThreadCount + n - 1 =
        ((s.workers.set w (.returning none)).countP counted : Int) + announced s.signalEmpty.master
      rw [hcount, hannounced]
      omega
    · show s.spawnedWorkerThreads + unspawned s.signalEmpty.master ≤ _
      rw [hunspawned]
      exact hspawned
    · show s.sqHead - s.sqTail ≤ s.idleWorkerThreadCount + n - 1 + untested s.signalEmpty.master
      omega
  | wakesWorker w hw =>
    refine ⟨?_, hspawned, henough⟩
    show s.idleWorkerThreadCount = ((s.workers.set w .woken).countP counted : Int) + _
    rw [hset w _ .woken hw]
    exact hidle.trans (congrArg (· + (announced s.master : Int)) (Int.sub_add_cancel _ 1).symm)
  | processes w sp hw hstop =>
    refine ⟨?_, hspawned, henough⟩
    show s.idleWorkerThreadCount = ((s.workers.set w .busy).countP counted : Int) + _
    rw [hset w _ .busy hw]
    exact hidle.trans (congrArg (· + (announced s.master : Int)) (Int.sub_add_cancel _ 0).symm)
  | ends w sp hw hstop =>
    refine ⟨?_, hspawned, henough⟩
    show s.idleWorkerThreadCount = ((s.workers.set w .gone).countP counted : Int) + _
    rw [hset w _ .gone hw]
    exact hidle.trans (congrArg (· + (announced s.master : Int)) (Int.sub_add_cancel _ 0).symm)
  | initFails w hw => cases hl
  | stop => exact ⟨hidle, hspawned, henough⟩

/-! ### The workers in every run -/

theorem counted_split (workers : List (PoolWorker σ)) :
    workers.countP counted = workers.countP isStarting + workers.countP isInside := by
  induction workers with
  | nil => rfl
  | cons w workers ih =>
    rw [List.countP_cons, List.countP_cons, List.countP_cons, ih]
    have hone : (if counted w = true then 1 else 0) =
        (if isStarting w = true then 1 else 0) + if isInside w = true then 1 else 0 := by
      cases w <;> rfl
    omega

theorem workersSound_of_inv {s : Pool σ} (hfifo : FifoInv cfg s) (h : IdleInv cfg s) : WorkersSound cfg s where
  idle := by
    rw [h.idle, counted_split, startingUp, waitingInside]
    omega
  spawned := (Nat.le_add_right _ _).trans h.spawned
  enough := by
    intro houtside
    have huntested : untested s.master = 0 := by
      cases hm : s.master with
      | starts caller =>
        cases caller with
        | mgStart2 left => rfl
        | produceSocket => exact absurd (by rw [hm]; rfl) houtside
      | _ => rfl
    have henough := h.enough
    rwa [huntested, Nat.cast_zero, add_zero, ← hfifo.length_queued] at henough

/-- As long as no thread fails to start, the idle workers are counted and suffice for the sockets in the queue, or
all workers are spawned, in every state of every run. -/
theorem idleWorkers_sound (zero : σ) (ls : List (PoolLabel σ)) (hls : ∀ l ∈ ls, succeeds l = true) :
    Always (step cfg) (WorkersSound cfg) (initial cfg zero) ls := by
  refine Always.imp (step cfg) (fun s => FifoInv cfg s ∧ IdleInv cfg s) _ ?_ _ _ ?_
  · intro s h
    exact workersSound_of_inv cfg h.1 h.2
  · refine always_of_invariant (step cfg) _ (fun _ l => succeeds l = true) ?_ _ _
      ⟨fifoInv_initial cfg zero, idleInv_initial cfg zero⟩ (along_of_forall (step cfg) _ _ ls hls)
    intro s l t h hl hstep
    exact ⟨fifoInv_step cfg h.1 hstep, idleInv_step cfg h.1 h.2 hl hstep⟩

theorem one_le_two_workers : 1 ≤ 2 := Nat.le_succ 1

/-- A queue of one socket and up to two workers, one of them started in advance. -/
def smallPool : PoolConfig where
  sqSize := 1
  cfgMaxWorkerThreads := 2
  prespawnthreadcount := 1
  sqSize_pos := Nat.one_pos
  sqSize_int := one_le_INT_MAX
  workers_pos := Nat.two_pos
  workers_max := two_le_MAX_WORKER_THREADS
  prespawn_le := one_le_two_workers

/-- The second worker is started with the first socket; the third socket waits for room until the second worker has
taken the second one. -/
def smallPoolRun : List (PoolLabel Nat) :=
  [.prespawn, .startWorker, .create true, .count, .prespawn, .consume 0, .poll, .accept (some 1), .produce (some 0),
    .startWorker, .create true, .count, .consume 0, .returns 0, .poll, .accept (some 2), .produce none,
    .startWorker, .poll, .accept (some 3), .produce none, .consume 1, .produce none, .startWorker]

theorem idleWorkers_sound_small :
    (run (step smallPool) (initial smallPool 0) smallPoolRun).isSome = true ∧
      Always (step smallPool) (WorkersSound smallPool) (initial smallPool 0) smallPoolRun :=
  ⟨by decide +kernel, idleWorkers_sound smallPool 0 smallPoolRun (by decide)⟩

end Pool

end CivetWeb
