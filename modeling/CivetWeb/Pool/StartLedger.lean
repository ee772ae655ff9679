import CivetWeb.Pool.StartStop
import CivetWeb.Ports.PortLedger

namespace CivetWeb

open Ledger

/-! ### What a context holds -/

def heldIf (held : Bool) (r : StartResource) : Multiset StartResource := if held then {r} else 0

/-- The strings of the options from the option `i` on. -/
def configHeld (i : Nat) : List (Option (List Byte)) → Multiset StartResource
  | [] => 0
  | some _ :: config => .config i ::ₘ configHeld (i + 1) config
  | none :: config => configHeld (i + 1) config

/-- The items from `i` to `j` of an array. -/
def itemsHeld (item : Nat → StartResource) (i j : Nat) : Multiset StartResource :=
  ↑((List.range' i (j - i)).map item)

def timersHeld (held : Bool) : Multiset StartResource := if held then {.timers, .timerMutex, .timerThread} else 0

def listenersHeld (c : Listeners) : Multiset StartResource := c.owned.map .port

section Held

variable (build : StartBuild)

/-- What `free_context` gives back of the queue. -/
def queueHeld (c : ServerContext) : Multiset StartResource :=
  if build.alternativeQueue then
    heldIf c.clientSocks .clientSocks +
      if c.clientWaitEvents then itemsHeld .waitEvent 0 c.spawnedWorkerThreads + {.clientWaitEvents} else 0
  else {.sqEmpty} + {.sqFull} + heldIf c.squeue .squeue

/-- What `free_context` gives back. -/
def freedHeld (c : ServerContext) : Multiset StartResource :=
  {.threadMutex} + queueHeld build c + {.nonceMutex} + heldIf c.userShutdown .userShutdown +
    heldIf c.threadShutdown .threadShutdown + configHeld 0 c.config + heldIf c.sslCtx .sslCtx +
    heldIf c.workerThreadids .workerThreadids + heldIf c.workerConnections .workerConnections +
    heldIf c.systemName .systemName + {.context}

/-- What `free_context` leaves. -/
def leftHeld (c : ServerContext) : Multiset StartResource :=
  listenersHeld c.listeners + itemsHeld .waitEvent c.spawnedWorkerThreads c.waitEvents + timersHeld c.timers +
    itemsHeld .worker 0 c.spawnedWorkerThreads + heldIf c.masterThread .masterThread

def ownedHeld (c : ServerContext) : Multiset StartResource := freedHeld build c + leftHeld c

theorem giveIf_run (held : Bool) (r : StartResource) (more : Multiset StartResource) :
    run (heldIf held r + more) (giveIf held r) = some more := by
  cases held <;> simp [heldIf, giveIf]

theorem giveConfig_run (i : Nat) (config : List (Option (List Byte))) (more : Multiset StartResource) :
    run (configHeld i config + more) (giveConfig i config) = some more := by
  induction config generalizing i with
  | nil => simp [configHeld, giveConfig]
  | cons value config ih =>
    cases value with
    | none => exact ih (i + 1)
    | some value =>
      rw [configHeld, giveConfig, Multiset.cons_add, run_give_head]
      exact ih (i + 1)

theorem items_run (item : Nat → StartResource) (n : Nat) (more : Multiset StartResource) :
    run (itemsHeld item 0 n + more) ((List.range n).map fun i => .give (item i)) = some more := by
  have hgives := run_gives ((List.range n).map item) more
  simpa [itemsHeld, List.range_eq_range', Function.comp_def] using hgives

/-- `free_context` gives back what it is to give back, each thing once. -/
theorem freeContext_run (c : ServerContext) (more : Multiset StartResource) :
    run (freedHeld build c + more) (freeContext build c) = some more := by
  have hone (r : StartResource) (more : Multiset StartResource) : run ({r} + more) [.give r] = some more := by simp
  have hqueue (more : Multiset StartResource) :
      run (queueHeld build c + more) (if build.alternativeQueue then
        giveIf c.clientSocks .clientSocks ++
          if c.clientWaitEvents then
            ((List.range c.spawnedWorkerThreads).map fun i => Action.give (StartResource.waitEvent i)) ++
              [Action.give StartResource.clientWaitEvents]
          else []
      else [Action.give StartResource.sqEmpty, Action.give StartResource.sqFull] ++ giveIf c.squeue .squeue) =
        some more := by
    unfold queueHeld
    cases build.alternativeQueue with
    | false =>
      simp only [Bool.false_eq_true, if_false, List.cons_append, List.nil_append, Multiset.singleton_add,
        Multiset.cons_add, run_give_head]
      exact giveIf_run _ _ _
    | true =>
      simp only [if_true, add_assoc]
      rw [run_append_some (giveIf_run _ _ _)]
      cases c.clientWaitEvents with
      | false => simp
      | true =>
        simp only [if_true, add_assoc]
        rw [run_append_some (items_run _ _ _)]
        exact hone _ _
  simp only [freedHeld, freeContext, add_assoc, List.append_assoc]
  rw [run_append_some (hone _ _), run_append_some (hqueue _), run_append_some (hone _ _),
    run_append_some (giveIf_run _ _ _), run_append_some (giveIf_run _ _ _), run_append_some (giveConfig_run _ _ _),
    run_append_some (giveIf_run _ _ _), run_append_some (giveIf_run _ _ _), run_append_some (giveIf_run _ _ _),
    run_append_some (giveIf_run _ _ _), hone]

/-! ### The end of a server -/

theorem closePorts_run {c : Listeners} (hkept : ArraysKept c) (more : Multiset StartResource) :
    run (listenersHeld c + more)
      ((closeAllListeningSockets c).2.map (Ledger.Action.map StartResource.port)) = some more := by
  have hclose := closeAll_run hkept 0
  rw [add_zero] at hclose
  have hports := run_map (fun _ _ h => StartResource.port.inj h) c.owned (closeAllListeningSockets c).2
  rw [hclose, Option.map_some, Multiset.map_zero] at hports
  have hframe := run_frame hports more
  rwa [zero_add] at hframe

theorem timersExit_run (c : ServerContext) (more : Multiset StartResource) :
    run (timersHeld c.timers + more) (timersExit c) = some more := by
  unfold timersHeld timersExit
  cases c.timers with
  | false => simp
  | true =>
    have horder : ({.timers, .timerMutex, .timerThread} : Multiset StartResource) + more =
        .timerThread ::ₘ .timerMutex ::ₘ .timers ::ₘ more := by
      simp only [Multiset.insert_eq_cons, ← Multiset.singleton_add]
      abel
    rw [if_pos rfl, if_pos rfl, horder, run_give_head, run_give_head, run_give_head, run_nil]

/-- `mg_stop` of a running server does not come back exactly where no socket listens. Where it does, it gives back what
the server has, each thing once, but for the events of the worker threads that were never started. -/
theorem mgStop_run (c : ServerContext) (more : Multiset StartResource) (hkept : ArraysKept c.listeners)
    (hmaster : c.masterThread = true) (hshutdown : c.userShutdown = true) :
    (mgStop build c = none ↔ c.listeners.sockets = []) ∧
      ∀ log, mgStop build c = some log → run (ownedHeld build c + more) log =
        some (itemsHeld .waitEvent c.spawnedWorkerThreads c.waitEvents + more) := by
  have hfds : c.listeners.fdsPtr = none ↔ c.listeners.sockets = [] := by
    rw [hkept.fds]
    exact hkept.sockets
  have howned : ownedHeld build c + more = .userShutdown ::ₘ (timersHeld c.timers + (listenersHeld c.listeners +
      (itemsHeld .worker 0 c.spawnedWorkerThreads + (.masterThread ::ₘ
        (freedHeld build { c with userShutdown := false, timers := false } +
          (itemsHeld .waitEvent c.spawnedWorkerThreads c.waitEvents + more)))))) := by
    simp only [ownedHeld, leftHeld, freedHeld, queueHeld, heldIf, hmaster, hshutdown, if_true, Bool.false_eq_true,
      if_false, ← Multiset.singleton_add]
    abel
  rw [mgStop, hmaster, if_neg (by simp)]
  by_cases hnone : c.listeners.fdsPtr = none
  · rw [if_pos hnone]
    exact ⟨iff_of_true rfl (hfds.mp hnone), nofun⟩
  · rw [if_neg hnone]
    refine ⟨iff_of_false nofun fun h => hnone (hfds.mpr h), ?_⟩
    rintro log ⟨⟩
    rw [howned]
    simp only [List.cons_append, List.append_assoc, stopMaster, List.nil_append]
    rw [run_give_head, run_append_some (timersExit_run c _), run_append_some (closePorts_run hkept _),
      run_append_some (items_run _ _ _), run_give_head]
    exact freeContext_run build _ _

end Held

end CivetWeb
