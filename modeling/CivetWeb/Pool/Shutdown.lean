import CivetWeb.Pool.AltQueueRuns

namespace CivetWeb

namespace AltPool

open System

variable {σ : Type*} (cfg : AltConfig)

/-! ### How far a stopped server is from its end -/

/-- The steps that a worker has left at most. -/
def threadRank (slot : AltSlot σ) : Nat :=
  match slot.thread with
  | some .starting | some .busy => 3
  | some .waiting => 2
  | some .woken => 1
  | some .gone | none => 0

/-- The workers that a caller of `mg_start_worker_thread` still starts, with the steps for each. -/
def callerRank : AltStarter σ → Nat
  | .mgStart2 left => 10 * left
  | .produceSocket _ => 0

/-- The steps that the thread that accepts has left at most, with those of the workers it creates. -/
def masterRank (spawned : Nat) : AltMaster σ → Nat
  | .finished => 0
  | .joins => 1
  | .wakesAll i => 2 + (spawned - i)
  | .polls => 3 + spawned
  | .signals _ => 4 + spawned
  | .tests _ => 4 + spawned
  | .locks _ i => 6 + spawned + 2 * (spawned - (i + 1))
  | .looks _ i => 5 + spawned + 2 * (spawned - i)
  | .prespawns left => 4 + spawned + 10 * left
  | .counts caller => 6 + spawned + callerRank caller
  | .creates caller => 10 + spawned + callerRank caller
  | .starts caller => 11 + spawned + callerRank caller
  | .accepts => 12 + spawned

def rank (s : AltPool σ) : Nat := masterRank s.spawnedWorkerThreads s.master + (s.slots.map threadRank).sum

end AltPool

end CivetWeb
