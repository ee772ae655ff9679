import CivetWeb.Lib.Ring
import CivetWeb.Pool.Steps

namespace CivetWeb

namespace Pool

variable {σ : Type*} (cfg : PoolConfig)

/-- The sockets in the queue, the oldest first. -/
def queued (s : Pool σ) : List σ := Ring.items s.squeue s.sqTail.toNat (s.sqHead - s.sqTail).toNat

def isWoken : PoolWorker σ → Bool
  | .woken => true
  | _ => false

/-- The socket queue is a bounded queue: its counters fit an `int` and keep their slots when they are wrapped,
every socket that was put into it is in it or was taken by one call, in the order of the calls, and who waits
for it although there is something to do has a wake-up under way. -/
structure QueueSound (s : Pool σ) : Prop where
  fill : 0 ≤ s.sqHead - s.sqTail ∧ s.sqHead - s.sqTail ≤ cfg.sqSize
  counters : 0 ≤ s.sqTail ∧ s.sqTail ≤ 2 * cfg.sqSize ∧ 0 ≤ s.sqHead ∧ s.sqHead ≤ 2 * cfg.sqSize
  int : s.sqTail ≤ INT_MAX ∧ s.sqHead ≤ INT_MAX
  wrapped : s.sqTail < s.sqHead → ∀ head tail,
    wrapPointers cfg.sqSize (s.sqTail + 1).toNat s.sqHead (s.sqTail + 1) = (head, tail) →
    head.tmod cfg.sqSize = s.sqHead.tmod cfg.sqSize ∧ tail.tmod cfg.sqSize = (s.sqTail + 1).tmod cfg.sqSize
  order : s.produced = s.returned.map Prod.snd ++ s.queued
  consumer : s.queued ≠ [] → .waiting ∈ s.workers → .woken ∈ s.workers
  producer : ∀ sp, s.master = .waits sp → ¬ s.sqHead - s.sqTail < cfg.sqSize

/-! ### The queue -/

structure FifoInv (s : Pool σ) : Prop where
  slots : s.squeue.length = cfg.sqSize
  tail : 0 ≤ s.sqTail ∧ s.sqTail ≤ cfg.sqSize
  fill : s.sqTail ≤ s.sqHead ∧ s.sqHead ≤ s.sqTail + cfg.sqSize
  order : s.produced = s.returned.map Prod.snd ++ s.queued

/-- The counters are moved back by whole rounds, until the tail is within the slots. -/
theorem wrapPointers_spec {size : Int} (hsize : 1 ≤ size) (fuel : Nat) (head tail : Int) (h0 : 0 ≤ tail)
    (hfuel : tail ≤ fuel) :
    ∃ k : Nat, wrapPointers size fuel head tail = (head - k * size, tail - k * size) ∧
      0 ≤ tail - k * size ∧ tail - k * size ≤ size := by
  induction fuel generalizing head tail with
  | zero =>
    refine ⟨0, ?_, ?_, ?_⟩
    · rw [wrapPointers, Nat.cast_zero, zero_mul, sub_zero, sub_zero]
    · omega
    · omega
  | succ fuel ih =>
    rw [wrapPointers]
    by_cases hwrap : size < tail
    · rw [if_pos hwrap]
      obtain ⟨k, hk, hpos, hle⟩ := ih (head - size) (tail - size) (by omega) (by omega)
      have hround : ∀ x : Int, x - size - k * size = x - (k + 1 : Nat) * size := by
        intro x
        rw [Nat.cast_add, Nat.cast_one, add_mul, one_mul]
        omega
      rw [hround] at hpos hle
      refine ⟨k + 1, ?_, hpos, hle⟩
      rw [hk, hround, hround]
    · rw [if_neg hwrap]
      refine ⟨0, ?_, ?_, ?_⟩
      · rw [Nat.cast_zero, zero_mul, sub_zero, sub_zero]
      · omega
      · omega

theorem tmod_sub_rounds {size x : Int} {k : Nat} (hx : 0 ≤ x) (hk : 0 ≤ x - k * size) :
    (x - k * size).tmod size = x.tmod size := by
  rw [Int.tmod_eq_emod_of_nonneg hk, Int.tmod_eq_emod_of_nonneg hx, Int.sub_mul_emod_self_right]

theorem slot_eq {x : Int} (hx : 0 ≤ x) (n : Nat) : (x.tmod n).toNat = x.toNat % n := by
  obtain ⟨k, rfl⟩ := Int.eq_ofNat_of_zero_le hx
  rfl

namespace FifoInv

variable {cfg} {s : Pool σ}

theorem squeue_ne (h : FifoInv cfg s) : s.squeue ≠ [] := by
  rw [← List.length_pos_iff, h.slots]
  exact cfg.sqSize_pos

theorem length_queued (h : FifoInv cfg s) : (s.queued.length : Int) = s.sqHead - s.sqTail := by
  rw [queued, Ring.length_items h.squeue_ne]
  exact Int.toNat_of_nonneg (by have := h.fill; omega)

/-- What one call of `consume_socket` takes is the oldest socket, whatever the counters are moved back by. -/
theorem queued_cons (h : FifoInv cfg s) (hfilled : s.sqTail < s.sqHead) (k : Nat)
    (hk : 0 ≤ s.sqTail + 1 - k * cfg.sqSize) :
    s.queued = s.squeue[(s.sqTail.tmod cfg.sqSize).toNat]?.toList ++
      Ring.items s.squeue (s.sqTail + 1 - k * cfg.sqSize).toNat (s.sqHead - s.sqTail - 1).toNat := by
  have htail := h.tail.1
  have hn : (s.sqHead - s.sqTail).toNat = (s.sqHead - s.sqTail - 1).toNat + 1 := by omega
  have hround : s.sqTail.toNat + 1 = (s.sqTail + 1 - k * cfg.sqSize).toNat + k * s.squeue.length := by
    rw [h.slots]
    have hcast : ((k * cfg.sqSize : Nat) : Int) = k * cfg.sqSize := Nat.cast_mul k cfg.sqSize
    omega
  rw [queued, hn, Ring.items, slot_eq htail, h.slots, hround, Ring.items_add_mul]

theorem takes_fill (h : FifoInv cfg s) {head tail : Int}
    (hwrap : wrapPointers cfg.sqSize (s.sqTail + 1).toNat s.sqHead (s.sqTail + 1) = (head, tail)) :
    head - tail = s.sqHead - s.sqTail - 1 := by
  have hsize : (1 : Int) ≤ cfg.sqSize := by exact_mod_cast cfg.sqSize_pos
  have htail := h.tail.1
  obtain ⟨k, hk, -⟩ := wrapPointers_spec hsize (s.sqTail + 1).toNat s.sqHead (s.sqTail + 1) (by omega) (by omega)
  rw [hwrap, Prod.mk.injEq] at hk
  omega

theorem takes (h : FifoInv cfg s) (hfilled : s.sqTail < s.sqHead) {head tail : Int}
    (hwrap : wrapPointers cfg.sqSize (s.sqTail + 1).toNat s.sqHead (s.sqTail + 1) = (head, tail)) {t : Pool σ}
    (w : Nat) (hhead : t.sqHead = head) (htail : t.sqTail = tail) (hsqueue : t.squeue = s.squeue)
    (hproduced : t.produced = s.produced)
    (hreturned : t.returned = s.returned ++
      s.squeue[(s.sqTail.tmod cfg.sqSize).toNat]?.toList.map fun sp => (w, sp)) : FifoInv cfg t := by
  have hsize : (1 : Int) ≤ cfg.sqSize := by exact_mod_cast cfg.sqSize_pos
  have hfill := h.fill
  have htail0 := h.tail.1
  obtain ⟨k, hk, hpos, hle⟩ := wrapPointers_spec hsize (s.sqTail + 1).toNat s.sqHead (s.sqTail + 1) (by omega)
    (by omega)
  rw [hwrap, Prod.mk.injEq] at hk
  obtain ⟨rfl, rfl⟩ := hk
  refine ⟨?_, ?_, ?_, ?_⟩
  · rw [hsqueue]
    exact h.slots
  · rw [htail]
    exact ⟨hpos, hle⟩
  · rw [hhead, htail]
    omega
  · have hrest : t.queued =
        Ring.items s.squeue (s.sqTail + 1 - k * cfg.sqSize).toNat (s.sqHead - s.sqTail - 1).toNat := by
      rw [queued, hsqueue, htail, hhead]
      congr 2
      omega
    have hmap : ∀ l : List σ, (l.map fun sp => (w, sp)).map Prod.snd = l := by
      intro l
      rw [List.map_map]
      exact List.map_id l
    rw [hproduced, h.order, hreturned, List.map_append, hmap, hrest, List.append_assoc, h.queued_cons hfilled k hpos]

theorem pushes (h : FifoInv cfg s) (hroom : s.sqHead - s.sqTail < cfg.sqSize) (sp : σ) {t : Pool σ}
    (hhead : t.sqHead = s.sqHead + 1) (htail : t.sqTail = s.sqTail)
    (hsqueue : t.squeue = s.squeue.set (s.sqHead.tmod cfg.sqSize).toNat sp)
    (hproduced : t.produced = s.produced ++ [sp]) (hreturned : t.returned = s.returned) : FifoInv cfg t := by
  have hfill := h.fill
  have htail0 := h.tail.1
  refine ⟨?_, ?_, ?_, ?_⟩
  · rw [hsqueue, List.length_set]
    exact h.slots
  · rw [htail]
    exact h.tail
  · rw [hhead, htail]
    omega
  · have hslot : (s.sqHead.tmod cfg.sqSize).toNat =
        (s.sqTail.toNat + (s.sqHead - s.sqTail).toNat) % s.squeue.length := by
      rw [slot_eq (by omega), h.slots]
      congr 1
      omega
    have hn : (s.sqHead + 1 - s.sqTail).toNat = (s.sqHead - s.sqTail).toNat + 1 := by omega
    have hlt : (s.sqHead - s.sqTail).toNat < s.squeue.length := by
      rw [h.slots]
      omega
    have hpush : t.queued = s.queued ++ [sp] := by
      rw [queued, hsqueue, htail, hhead, hslot, hn, Ring.items_push s.squeue _ _ sp hlt, queued]
    rw [hproduced, h.order, hreturned, hpush, List.append_assoc]

end FifoInv

theorem fifoInv_initial (zero : σ) : FifoInv cfg (initial cfg zero) where
  slots := List.length_replicate
  tail := ⟨le_refl 0, Int.natCast_nonneg cfg.sqSize⟩
  fill := by
    refine ⟨le_refl 0, ?_⟩
    rw [initial, zero_add]
    exact Int.natCast_nonneg cfg.sqSize
  order := rfl

theorem fifoInv_step {s t : Pool σ} {l : PoolLabel σ} (h : FifoInv cfg s) (hstep : step cfg s l = some t) :
    FifoInv cfg t := by
  cases step_effect cfg hstep with
  | pushes sp wake blocked workers hm hroom hsignal => exact h.pushes hroom sp rfl rfl rfl rfl rfl
  | takes w x n sp head tail hw hx hfilled hsp hwrap =>
    subst hsp
    exact h.takes hfilled hwrap w rfl rfl rfl rfl rfl
  -- the other steps leave the queue alone
  | _ => exact ⟨h.slots, h.tail, h.fill, h.order⟩

/-! ### The wake-ups -/

structure WakeInv (s : Pool σ) : Prop where
  consumer : .waiting ∈ s.workers → s.sqHead - s.sqTail ≤ s.workers.countP isWoken
  producer : ∀ sp, s.master = .waits sp → (cfg.sqSize : Int) ≤ s.sqHead - s.sqTail

theorem wakeInv_initial (zero : σ) : WakeInv cfg (initial cfg zero) where
  consumer := nofun
  producer := nofun

/-- A signal of `sq_full` adds a woken worker as long as there is one that waits. -/
theorem signalled_consumer {workers workers' : List (PoolWorker σ)} (h : Signalled workers workers')
    (hwaiting : .waiting ∈ workers') :
    .waiting ∈ workers ∧ (workers'.countP isWoken : Int) = workers.countP isWoken + 1 := by
  cases h with
  | nobody hnone => exact absurd rfl (hnone _ hwaiting)
  | wakes w hw =>
    refine ⟨List.mem_of_getElem? hw, ?_⟩
    rw [countP_set isWoken .woken hw]
    exact congrArg (· + (1 : Int)) (Int.sub_zero _)

/-- One worker turns from `x` to `y`, which is not waiting. -/
theorem set_consumer {workers : List (PoolWorker σ)} {w : Nat} {x y : PoolWorker σ} {fill : Int}
    (h : .waiting ∈ workers → fill ≤ workers.countP isWoken) (hw : workers[w]? = some x) (hy : y ≠ .waiting)
    (hwaiting : .waiting ∈ workers.set w y) :
    fill - (isWoken x).toNat ≤ ((workers.set w y).countP isWoken : Int) := by
  have hbefore : .waiting ∈ workers := by
    rcases List.mem_or_eq_of_mem_set hwaiting with hmem | heq
    · exact hmem
    · exact absurd heq.symm hy
  have hfill := h hbefore
  rw [countP_set isWoken y hw]
  omega

/-- As long as it was not woken before, the others that are woken suffice. -/
theorem set_consumer_idle {workers : List (PoolWorker σ)} {w : Nat} {x y : PoolWorker σ} {fill : Int}
    (h : .waiting ∈ workers → fill ≤ workers.countP isWoken) (hw : workers[w]? = some x) (hx : isWoken x = false)
    (hy : y ≠ .waiting) (hwaiting : .waiting ∈ workers.set w y) :
    fill ≤ ((workers.set w y).countP isWoken : Int) := by
  have hfill := set_consumer h hw hy hwaiting
  rwa [hx, Bool.toNat_false, Nat.cast_zero, sub_zero] at hfill

theorem move_ne_waits {s : Pool σ} {l : PoolLabel σ} {m : MasterThread σ} (h : Move cfg s l m) (sp : σ) :
    m ≠ .waits sp := by
  cases h with
  | limit caller hm hmax => exact back_ne_waits caller _ _ sp
  | _ => nofun

theorem wakeInv_step {s t : Pool σ} {l : PoolLabel σ} (hfifo : FifoInv cfg s) (h : WakeInv cfg s)
    (hstep : step cfg s l = some t) : WakeInv cfg t := by
  cases step_effect cfg hstep with
  | moves l m hmove => exact ⟨h.consumer, fun sp hm => absurd hm (move_ne_waits cfg hmove sp)⟩
  | passes sp hm => exact ⟨h.consumer, nofun⟩
  | blocks sp wake hm hstop hfull => exact ⟨h.consumer, fun _ _ => hfull⟩
  | pushes sp wake blocked workers hm hroom hsignal =>
    refine ⟨?_, nofun⟩
    intro hwaiting
    obtain ⟨hbefore, hone⟩ := signalled_consumer hsignal hwaiting
    have hfill := h.consumer hbefore
    show s.sqHead + 1 - s.sqTail ≤ (workers.countP isWoken : Int)
    omega
  | drops sp wake blocked workers hm hstop hsignal =>
    refine ⟨?_, nofun⟩
    intro hwaiting
    obtain ⟨hbefore, hone⟩ := signalled_consumer hsignal hwaiting
    have hfill := h.consumer hbefore
    show s.sqHead - s.sqTail ≤ (workers.countP isWoken : Int)
    omega
  | announces caller hm hmax hidle => exact ⟨h.consumer, nofun⟩
  | creates caller hm =>
    refine ⟨?_, nofun⟩
    intro hwaiting
    have hbefore : .waiting ∈ s.workers := by
      rcases List.mem_append.mp hwaiting with hmem | hmem
      · exact hmem
      · cases List.mem_singleton.mp hmem
    show s.sqHead - s.sqTail ≤ ((s.workers ++ [PoolWorker.starting]).countP isWoken : Int)
    rw [List.countP_append]
    exact h.consumer hbefore
  | createFails caller hm => exact ⟨h.consumer, fun sp hm => absurd hm (back_ne_waits caller _ _ sp)⟩
  | counts caller hm => exact ⟨h.consumer, fun sp hm => absurd hm (back_ne_waits caller _ _ sp)⟩
  | broadcast hm =>
    refine ⟨?_, nofun⟩
    intro hwaiting
    obtain ⟨w, hw, heq⟩ := List.mem_map.mp hwaiting
    cases w <;> cases heq
  | waits w x n hw hx hempty hstop =>
    refine ⟨?_, h.producer⟩
    intro _
    show s.sqHead - s.sqTail ≤ _
    omega
  | takes w x n sp head tail hw hx hfilled hsp hwrap =>
    have hone := hfifo.takes_fill hwrap
    refine ⟨?_, fun sp hm => absurd hm (signalEmpty_ne_waits s sp)⟩
    intro hwaiting
    have hfill := set_consumer h.consumer hw (show PoolWorker.returning sp ≠ .waiting from nofun) hwaiting
    have hle := Bool.toNat_le (isWoken x)
    show head - tail ≤ ((s.workers.set w (.returning sp)).countP isWoken : Int)
    omega
  | leaves w x n hw hx hleft hstop =>
    refine ⟨?_, fun sp hm => absurd hm (signalEmpty_ne_waits s sp)⟩
    intro _
    show s.sqHead - s.sqTail ≤ _
    omega
  | wakesWorker w hw =>
    refine ⟨?_, h.producer⟩
    exact set_consumer_idle h.consumer hw rfl (show PoolWorker.woken ≠ .waiting from nofun)
  | processes w sp hw hstop =>
    refine ⟨?_, h.producer⟩
    exact set_consumer_idle h.consumer hw rfl (show PoolWorker.busy ≠ .waiting from nofun)
  | ends w sp hw hstop =>
    refine ⟨?_, h.producer⟩
    exact set_consumer_idle h.consumer hw rfl (show PoolWorker.gone ≠ .waiting from nofun)
  | initFails w hw =>
    refine ⟨?_, h.producer⟩
    exact set_consumer_idle h.consumer hw rfl (show PoolWorker.gone ≠ .waiting from nofun)
  | stop => exact ⟨h.consumer, h.producer⟩

end Pool

end CivetWeb
