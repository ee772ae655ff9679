import CivetWeb.Pool.Fifo

namespace CivetWeb

namespace Pool

open System

variable {σ : Type*} (cfg : PoolConfig)

theorem queueSound_of_inv {s : Pool σ} (hfifo : FifoInv cfg s) (hwake : WakeInv cfg s)
    (hint : 2 * cfg.sqSize ≤ INT_MAX) : QueueSound cfg s := by
  have htail := hfifo.tail
  have hfill := hfifo.fill
  have hcounters : s.sqHead ≤ 2 * cfg.sqSize := by omega
  refine ⟨?_, ?_, ?_, ?_, hfifo.order, ?_, ?_⟩
  · omega
  · omega
  · omega
  · intro hfilled head tail hwrap
    have hsize : (1 : Int) ≤ cfg.sqSize := by exact_mod_cast cfg.sqSize_pos
    obtain ⟨k, hk, hpos, -⟩ := wrapPointers_spec hsize (s.sqTail + 1).toNat s.sqHead (s.sqTail + 1) (by omega)
      (by omega)
    rw [hwrap, Prod.mk.injEq] at hk
    obtain ⟨rfl, rfl⟩ := hk
    have hhead : 0 ≤ s.sqHead - k * cfg.sqSize := by omega
    exact ⟨tmod_sub_rounds (by omega) hhead, tmod_sub_rounds (by omega) hpos⟩
  · intro hne hwaiting
    have hcount := hwake.consumer hwaiting
    have hlength := hfifo.length_queued
    have hpos : 0 < s.queued.length := List.length_pos_iff.mpr hne
    obtain ⟨w, hw, hwoken⟩ := List.countP_pos_iff.mp (show 0 < s.workers.countP isWoken by omega)
    cases w with
    | woken => exact hw
    | _ => cases hwoken
  · intro sp hm
    exact not_lt.mpr (hwake.producer sp hm)

theorem queueInv_always (zero : σ) (ls : List (PoolLabel σ)) :
    Always (step cfg) (fun s => FifoInv cfg s ∧ WakeInv cfg s) (initial cfg zero) ls := by
  refine always_of_kept (step cfg) _ ?_ (initial cfg zero) ls
    ⟨fifoInv_initial cfg zero, wakeInv_initial cfg zero⟩
  intro s l t h hstep
  exact ⟨fifoInv_step cfg h.1 hstep, wakeInv_step cfg h.1 h.2 hstep⟩

/-! ### How far the counters get -/

/-- The server accepts, and its workers are at work or about to call `consume_socket`. -/
structure Ready (s : Pool σ) : Prop where
  fifo : FifoInv cfg s
  going : s.stopFlag = false
  workers : ∀ w ∈ s.workers, w = .starting ∨ w = .busy
  first : s.workers = [] → s.spawnedWorkerThreads = 0 ∧ s.idleWorkerThreadCount ≤ 0

theorem fifoInv_reaches {s t : Pool σ} (h : FifoInv cfg s) (hst : Reaches (step cfg) s t) : FifoInv cfg t := by
  obtain ⟨ls, hrun⟩ := hst
  exact run_invariant (step cfg) (FifoInv cfg) (fun s l t => fifoInv_step cfg) s t ls h hrun

/-- A thread that is announced is created and counted. -/
theorem reaches_created {s : Pool σ} {caller : Starter} (hm : s.master = .creates caller) :
    Reaches (step cfg) s { s with
      workers := s.workers ++ [.starting]
      spawnedWorkerThreads := s.spawnedWorkerThreads + 1
      master := caller.back true (s.spawnedWorkerThreads + 1) } := by
  have hcreate : step cfg s (.create true) =
      some { s with workers := s.workers ++ [.starting], master := .counts caller } := by
    rw [step, hm]
    rfl
  exact (Reaches.of_step (step cfg) hcreate).trans (step cfg) (Reaches.of_step (step cfg) (l := .count) rfl)

theorem ready_created {s t : Pool σ} (h : Ready cfg s) (hfifo : FifoInv cfg t) (hgoing : t.stopFlag = s.stopFlag)
    (hworkers : t.workers = s.workers ++ [.starting]) : Ready cfg t where
  fifo := hfifo
  going := hgoing.trans h.going
  workers := by
    intro w hw
    rw [hworkers] at hw
    rcases List.mem_append.mp hw with hmem | hmem
    · exact h.workers w hmem
    · exact .inl (List.mem_singleton.mp hmem)
  first := by
    intro hnil
    rw [hworkers] at hnil
    exact absurd hnil (List.append_ne_nil_of_right_ne_nil _ (List.cons_ne_nil _ _))

/-- `mg_start2` starts its workers one by one. -/
theorem reaches_prespawned (n : Nat) (s : Pool σ) (h : Ready cfg s) (hm : s.master = .prespawns n)
    (hmax : s.spawnedWorkerThreads + n ≤ cfg.cfgMaxWorkerThreads) :
    ∃ t, Reaches (step cfg) s t ∧ Ready cfg t ∧ t.master = .polls ∧ t.sqHead = s.sqHead ∧ t.sqTail = s.sqTail := by
  induction n generalizing s with
  | zero =>
    have hstep : step cfg s .prespawn = some { s with master := .polls } := by
      rw [step, hm]
    have hreach := Reaches.of_step (step cfg) hstep
    exact ⟨_, hreach, ⟨fifoInv_reaches cfg h.fifo hreach, h.going, h.workers, h.first⟩, rfl, rfl, rfl⟩
  | succ n ih =>
    have hstep : step cfg s .prespawn = some { s with master := .starts (.mgStart2 n) } := by
      rw [step, hm]
    have hstart : step cfg { s with master := .starts (.mgStart2 n) } .startWorker =
        some { s with
          idleWorkerThreadCount := s.idleWorkerThreadCount + 1
          master := .creates (.mgStart2 n) } := by
      have hspawned : ¬ cfg.cfgMaxWorkerThreads ≤ s.spawnedWorkerThreads := by omega
      rw [step]
      dsimp only
      rw [mgStartWorkerThread, if_neg hspawned, if_neg (by simp [Starter.onlyIfNoIdleThreads])]
    have hreach := ((Reaches.of_step (step cfg) hstep).trans (step cfg) (Reaches.of_step (step cfg) hstart)).trans
      (step cfg) (reaches_created cfg rfl)
    obtain ⟨t, ht, hready, hpolls, hhead, htail⟩ :=
      ih _ (ready_created cfg h (fifoInv_reaches cfg h.fifo hreach) rfl rfl) rfl
        (by dsimp only; omega)
    exact ⟨t, hreach.trans (step cfg) ht, hready, hpolls, hhead, htail⟩

/-- A connection is accepted and its socket queued; a worker is started for it if there is none. -/
theorem reaches_pushed {s : Pool σ} (h : Ready cfg s) (hm : s.master = .polls)
    (hroom : s.sqHead - s.sqTail < cfg.sqSize) (sp : σ) :
    ∃ t, Reaches (step cfg) s t ∧ Ready cfg t ∧ t.master = .polls ∧ t.workers ≠ [] ∧ t.sqHead = s.sqHead + 1 ∧
      t.sqTail = s.sqTail := by
  have hpoll : step cfg s .poll = some { s with master := .accepts } := by
    rw [step, hm]
    dsimp only
    rw [h.going]
    rfl
  have hproduce : step cfg { s with master := .produces sp, passed := s.passed ++ [sp] } (.produce none) =
      some { s with
        squeue := s.squeue.set (s.sqHead.tmod cfg.sqSize).toNat sp
        sqHead := s.sqHead + 1
        master := .starts .produceSocket
        passed := s.passed ++ [sp]
        produced := s.produced ++ [sp] } := by
    have hfull : ¬ (s.stopFlag = false ∧ (cfg.sqSize : Int) ≤ s.sqHead - s.sqTail) := fun hfull =>
      absurd hroom (not_lt.mpr hfull.2)
    have hnobody : ¬ s.workers.any PoolWorker.isWaiting = true := by
      intro hany
      obtain ⟨w, hw, hwaiting⟩ := List.any_eq_true.mp hany
      rcases h.workers w hw with rfl | rfl
      · cases hwaiting
      · cases hwaiting
    rw [step]
    dsimp only
    rw [produceSocket, if_neg hfull, push, if_pos hroom, signalFull, if_neg hnobody]
    rfl
  have hqueued := ((Reaches.of_step (step cfg) hpoll).trans (step cfg)
    (Reaches.of_step (step cfg) (l := .accept (some sp)) rfl)).trans (step cfg) (Reaches.of_step (step cfg) hproduce)
  have hstart : ∀ u, (some (mgStartWorkerThread cfg { s with
        squeue := s.squeue.set (s.sqHead.tmod cfg.sqSize).toNat sp
        sqHead := s.sqHead + 1
        master := .starts .produceSocket
        passed := s.passed ++ [sp]
        produced := s.produced ++ [sp] } .produceSocket)) = some u → Reaches (step cfg) s u :=
    fun u hu => hqueued.trans (step cfg) (Reaches.of_step (step cfg) (l := .startWorker) hu)
  have hfirst : cfg.cfgMaxWorkerThreads ≤ s.spawnedWorkerThreads ∨
      s.sqHead + 1 - s.sqTail < s.idleWorkerThreadCount → s.workers ≠ [] := by
    intro hnone hnil
    obtain ⟨hspawned, hidle⟩ := h.first hnil
    have hpos := cfg.workers_pos
    have hfill := h.fifo.fill.1
    rcases hnone with hmax | hmore
    · omega
    · omega
  rw [mgStartWorkerThread] at hstart
  by_cases hmax : cfg.cfgMaxWorkerThreads ≤ s.spawnedWorkerThreads
  · rw [if_pos hmax] at hstart
    have hreach := hstart _ rfl
    exact ⟨_, hreach, ⟨fifoInv_reaches cfg h.fifo hreach, h.going, h.workers, h.first⟩, rfl, hfirst (.inl hmax), rfl,
      rfl⟩
  · rw [if_neg hmax] at hstart
    by_cases hidle : s.sqHead + 1 - s.sqTail < s.idleWorkerThreadCount
    · rw [if_pos ⟨rfl, hidle⟩] at hstart
      have hreach := hstart _ rfl
      exact ⟨_, hreach, ⟨fifoInv_reaches cfg h.fifo hreach, h.going, h.workers, h.first⟩, rfl, hfirst (.inr hidle),
        rfl, rfl⟩
    · rw [if_neg fun hboth => hidle hboth.2] at hstart
      have hreach := (hstart _ rfl).trans (step cfg) (reaches_created cfg rfl)
      refine ⟨_, hreach, ready_created cfg h (fifoInv_reaches cfg h.fifo hreach) rfl rfl, rfl, ?_, rfl, rfl⟩
      exact List.append_ne_nil_of_right_ne_nil _ (List.cons_ne_nil _ _)

theorem wrapPointers_of_le {size head tail : Int} (fuel : Nat) (h : tail ≤ size) :
    wrapPointers size fuel head tail = (head, tail) := by
  cases fuel with
  | zero => rfl
  | succ fuel => rw [wrapPointers, if_neg (not_lt.mpr h)]

/-- The first worker takes a socket and goes to work on it. -/
theorem reaches_popped {s : Pool σ} (h : Ready cfg s) (hm : s.master = .polls) (hworkers : s.workers ≠ [])
    (hfilled : s.sqTail < s.sqHead) (hwrap : s.sqTail < cfg.sqSize) :
    ∃ t, Reaches (step cfg) s t ∧ Ready cfg t ∧ t.master = .polls ∧ t.sqHead = s.sqHead ∧
      t.sqTail = s.sqTail + 1 := by
  obtain ⟨x, ws, hws⟩ := List.exists_cons_of_ne_nil hworkers
  have hx : s.workers[0]? = some x := by rw [hws]; rfl
  obtain ⟨u, hu⟩ : ∃ u, step cfg s (.consume 0) = some u := by
    rw [step, hx]
    rcases h.workers x (List.mem_of_getElem? hx) with rfl | rfl
    · exact ⟨_, rfl⟩
    · exact ⟨_, rfl⟩
  have hreach := Reaches.of_step (step cfg) hu
  cases step_effect cfg hu with
  | moves l m hmove => cases hmove
  | waits w y n hw hy hempty hstop => exact absurd hempty.symm hfilled.ne
  | leaves w y n hw hy hleft hstop => exact absurd hfilled (not_lt.mpr hleft)
  | takes w y n sp head tail hw hy _ hsp hcounters =>
    rw [wrapPointers_of_le _ (by omega), Prod.mk.injEq] at hcounters
    obtain ⟨rfl, rfl⟩ := hcounters
    have hreturns : ∀ t, some t = some { s with
          sqHead := s.sqHead
          sqTail := s.sqTail + 1
          idleWorkerThreadCount := s.idleWorkerThreadCount + n - 1
          master := s.signalEmpty.master
          workers := (PoolWorker.busy : PoolWorker σ) :: ws
          returned := s.returned ++ sp.toList.map fun sp => (0, sp)
          processed := s.processed ++ sp.toList } → Reaches (step cfg) s t := by
      intro t ht
      refine hreach.trans (step cfg) (Reaches.of_step (step cfg) (l := .returns 0) ?_)
      rw [ht, step, hws]
      dsimp only [List.set_cons_zero, List.getElem?_cons_zero]
      rw [h.going]
      rfl
    have hreach := hreturns _ rfl
    have hmaster : s.signalEmpty.master = .polls := by
      rw [signalEmpty, hm]
      exact hm
    refine ⟨_, hreach, ⟨fifoInv_reaches cfg h.fifo hreach, h.going, ?_, ?_⟩, hmaster, rfl, rfl⟩
    · intro w hw
      rcases List.mem_cons.mp hw with rfl | hmem
      · exact .inr rfl
      · exact h.workers w (by rw [hws]; exact List.mem_cons_of_mem _ hmem)
    · exact fun hnil => absurd hnil (List.cons_ne_nil _ _)

theorem reaches_counters (zero : σ) (k m : Nat) (hk : k ≤ cfg.sqSize) (hm : m ≤ cfg.sqSize) :
    ∃ t, Reaches (step cfg) (initial cfg zero) t ∧ Ready cfg t ∧ t.master = .polls ∧ t.sqHead = k + m ∧
      t.sqTail = k := by
  induction m with
  | zero =>
    induction k with
    | zero =>
      obtain ⟨t, ht, hready, hpolls, hhead, htail⟩ := reaches_prespawned cfg cfg.prespawnthreadcount
        (initial cfg zero) ⟨fifoInv_initial cfg zero, rfl, nofun, fun _ => ⟨rfl, le_refl 0⟩⟩ rfl
        (by rw [initial, Nat.zero_add]; exact cfg.prespawn_le)
      exact ⟨t, ht, hready, hpolls, hhead, htail⟩
    | succ k ih =>
      obtain ⟨t, ht, hready, hpolls, hhead, htail⟩ := ih (by omega)
      obtain ⟨u, hu, hready', hpolls', hworkers, hhead', htail'⟩ :=
        reaches_pushed cfg hready hpolls (by have := cfg.sqSize_pos; omega) zero
      obtain ⟨v, hv, hready'', hpolls'', hhead'', htail''⟩ :=
        reaches_popped cfg hready' hpolls' hworkers (by omega) (by omega)
      exact ⟨v, (ht.trans (step cfg) hu).trans (step cfg) hv, hready'', hpolls'', by omega, by omega⟩
  | succ m ih =>
    obtain ⟨t, ht, hready, hpolls, hhead, htail⟩ := ih (by omega)
    obtain ⟨u, hu, hready', hpolls', hworkers, hhead', htail'⟩ :=
      reaches_pushed cfg hready hpolls (by omega) zero
    exact ⟨u, ht.trans (step cfg) hu, hready', hpolls', by omega, by omega⟩

/-- Before the server is stopped, the socket queue is sound in every state of every run exactly if an `int`
holds twice its size. -/
theorem socketQueue_sound_iff (zero : σ) :
    (∀ ls, Always (step cfg) (fun s => s.stopFlag = false → QueueSound cfg s) (initial cfg zero) ls) ↔
      2 * cfg.sqSize ≤ INT_MAX := by
  constructor
  · intro h
    obtain ⟨t, ⟨ls, hrun⟩, hready, -, hhead, -⟩ :=
      reaches_counters cfg zero cfg.sqSize cfg.sqSize le_rfl le_rfl
    have hint := ((h ls).run (step cfg) _ _ _ _ hrun hready.going).int.2
    omega
  · intro hint ls
    refine (queueInv_always cfg zero ls).imp (step cfg) _ _ ?_ _ _
    intro s h _
    exact queueSound_of_inv cfg h.1 h.2 hint

theorem zero_le_one_worker : 0 ≤ 1 := Nat.zero_le 1

/-- `connection_queue` at the largest number that `atoi` reads, with one worker thread. -/
def largestQueue : PoolConfig where
  sqSize := INT_MAX
  cfgMaxWorkerThreads := 1
  prespawnthreadcount := 0
  sqSize_pos := one_le_INT_MAX
  sqSize_int := le_refl INT_MAX
  workers_pos := Nat.one_pos
  workers_max := one_le_MAX_WORKER_THREADS
  prespawn_le := zero_le_one_worker

theorem socketQueue_overflows :
    ¬ ∀ ls, Always (step largestQueue) (fun s => s.stopFlag = false → QueueSound largestQueue s)
      (initial largestQueue 0) ls := by
  intro h
  obtain ⟨t, ⟨ls, hrun⟩, hready, -, hhead, -⟩ :=
    reaches_counters largestQueue 0 INT_MAX 1 le_rfl (by decide)
  have hint := ((h ls).run (step largestQueue) _ _ _ _ hrun hready.going).int.2
  omega

end Pool

end CivetWeb
