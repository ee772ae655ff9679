import CivetWeb.Lib.Slots
import CivetWeb.Pool.IdleWorkers

namespace CivetWeb

namespace Pool

open System

variable {σ : Type*} (cfg : PoolConfig)

/-- The socket that `produce_socket` has not queued yet. -/
def held : MasterThread σ → List σ
  | .produces sp | .waits sp | .woken sp => [sp]
  | _ => []

/-- The socket of a worker that has taken it and has not read the stop flag yet. -/
def carried : PoolWorker σ → List σ
  | .returning sp => sp.toList
  | _ => []

/-- The sockets between the call of `produce_socket` and the return of `consume_socket`. -/
def inFlight (s : Pool σ) : List σ := held s.master ++ s.queued ++ s.workers.flatMap carried

/-- The server is stopped while no socket is under way, and none is passed to `produce_socket` behind the stop. -/
def Lossless (s : Pool σ) : PoolLabel σ → Prop
  | .stop => s.stopFlag = false → s.inFlight = []
  | .accept (some _) => s.stopFlag = false
  | _ => True

/-! ### What becomes of the sockets -/

structure Accounted (s : Pool σ) : Prop where
  sockets : s.passed.Perm (s.processed ++ s.inFlight)
  stopped : s.stopFlag = true → s.inFlight = []

structure Leaked (s : Pool σ) : Prop where
  stopped : s.stopFlag = true
  fewer : s.processed.length < s.passed.length

theorem carried_set {workers : List (PoolWorker σ)} {w : Nat} {x : PoolWorker σ} (y : PoolWorker σ)
    (h : workers[w]? = some x) :
    (carried x ++ (workers.set w y).flatMap carried).Perm (carried y ++ workers.flatMap carried) :=
  Slots.flatMap_set carried y h

/-- A worker that carries nothing turns to one that carries nothing. -/
theorem carried_set_empty {workers : List (PoolWorker σ)} {w : Nat} {x y : PoolWorker σ} (h : workers[w]? = some x)
    (hx : carried x = []) (hy : carried y = []) : (workers.set w y).flatMap carried = workers.flatMap carried :=
  Slots.flatMap_set_same carried h (hy.trans hx.symm)

theorem signalled_carried {workers workers' : List (PoolWorker σ)} (h : Signalled workers workers') :
    workers'.flatMap carried = workers.flatMap carried := by
  cases h with
  | nobody hnone => rfl
  | wakes w hw => exact carried_set_empty hw rfl rfl

theorem back_held (caller : Starter) (started : Bool) (spawned : Nat) :
    held (caller.back started spawned : MasterThread σ) = [] := by
  cases caller with
  | produceSocket => rfl
  | mgStart2 left =>
    rw [Starter.back]
    split_ifs <;> rfl

theorem signalEmpty_held (s : Pool σ) : held s.signalEmpty.master = held s.master := by
  rw [signalEmpty]
  split
  · next sp hm =>
    rw [hm]
    rfl
  · rfl

theorem move_held {s : Pool σ} {l : PoolLabel σ} {m : MasterThread σ} (h : Move cfg s l m) :
    held m = held s.master := by
  cases h with
  | limit caller hm hmax =>
    rw [hm]
    exact back_held caller _ _
  | serves hm => rw [hm]; rfl
  | prespawns left hm => rw [hm]; rfl
  | accepts hm hstop => rw [hm]; rfl
  | shutsDown hm hstop => rw [hm]; rfl
  | refuses hm => rw [hm]; rfl
  | woken sp hm => rw [hm]; rfl
  | enough hm hidle => rw [hm]; rfl
  | joins hm hgone => rw [hm]; rfl

theorem entry_carried {x : PoolWorker σ} {n : Int} (h : entry x = some n) : carried x = [] := by
  cases x with
  | returning sp => cases h
  | _ => rfl

/-- A state with the same sockets in the same places. -/
theorem Accounted.of_same {s t : Pool σ} (h : Accounted s) (hpassed : t.passed = s.passed)
    (hprocessed : t.processed = s.processed) (hflight : t.inFlight = s.inFlight) (hstop : t.stopFlag = s.stopFlag) :
    Accounted t where
  sockets := by
    rw [hpassed, hprocessed, hflight]
    exact h.sockets
  stopped := by
    rw [hstop, hflight]
    exact h.stopped

/-- What is put into the queue comes behind what is there. -/
theorem queued_pushes {s t : Pool σ} {sp : σ} (hfifo : FifoInv cfg s) (hfifo' : FifoInv cfg t)
    (hproduced : t.produced = s.produced ++ [sp]) (hreturned : t.returned = s.returned) :
    t.queued = s.queued ++ [sp] := by
  have horder := hfifo'.order
  rw [hproduced, hfifo.order, hreturned, List.append_assoc] at horder
  exact (List.append_cancel_left horder).symm

/-- What is taken out of the queue was the first in it. -/
theorem queued_takes {s t : Pool σ} {sp : Option σ} {w : Nat} (hfifo : FifoInv cfg s) (hfifo' : FifoInv cfg t)
    (hproduced : t.produced = s.produced)
    (hreturned : t.returned = s.returned ++ sp.toList.map fun sp => (w, sp)) :
    s.queued = sp.toList ++ t.queued := by
  have horder := hfifo'.order
  have hmap : ∀ l : List σ, (l.map fun sp => (w, sp)).map Prod.snd = l := by
    intro l
    rw [List.map_map]
    exact List.map_id l
  rw [hproduced, hfifo.order, hreturned, List.map_append, hmap, List.append_assoc] at horder
  exact List.append_cancel_left horder

theorem Accounted.producing {s : Pool σ} {sp : σ} (h : Accounted s)
    (hm : s.master = .produces sp ∨ s.master = .woken sp) :
    s.stopFlag = false ∧ held s.master = [sp] := by
  have hheld : held s.master = [sp] := by
    rcases hm with hm | hm
    · rw [hm]
      rfl
    · rw [hm]
      rfl
  refine ⟨?_, hheld⟩
  rw [← Bool.not_eq_true]
  intro hstop
  have hempty := h.stopped hstop
  rw [inFlight, hheld, List.cons_append, List.cons_append] at hempty
  exact absurd hempty (List.cons_ne_nil _ _)

theorem accounted_step {s t : Pool σ} {l : PoolLabel σ} (hfifo : FifoInv cfg s) (h : Accounted s) (hl : Lossless s l)
    (hstep : step cfg s l = some t) : Accounted t := by
  classical
  have hfifo' := fifoInv_step cfg hfifo hstep
  have hcount := fun a => (List.perm_iff_count.mp h.sockets) a
  cases step_effect cfg hstep with
  | moves l m hmove =>
    refine h.of_same rfl rfl ?_ rfl
    show held m ++ s.queued ++ s.workers.flatMap carried = _
    rw [move_held cfg hmove, inFlight]
  | passes sp hm =>
    refine ⟨List.perm_iff_count.mpr fun a => ?_, fun hstop => absurd (hl.symm.trans hstop) Bool.false_ne_true⟩
    have hbefore := hcount a
    rw [inFlight, hm] at hbefore
    show (s.passed ++ [sp]).count a = (s.processed ++ ([sp] ++ s.queued ++ s.workers.flatMap carried)).count a
    simp only [held, List.count_append, List.nil_append] at hbefore ⊢
    omega
  | blocks sp wake hm hstop hfull =>
    refine h.of_same rfl rfl ?_ rfl
    show [sp] ++ s.queued ++ s.workers.flatMap carried = _
    rw [inFlight, (h.producing hm).2]
  | pushes sp wake blocked workers hm hroom hsignal =>
    obtain ⟨hstop, hheld⟩ := h.producing hm
    have hqueued := queued_pushes cfg hfifo hfifo' rfl rfl
    refine ⟨List.perm_iff_count.mpr fun a => ?_, fun hstopped => absurd (hstop.symm.trans hstopped) Bool.false_ne_true⟩
    have hbefore := hcount a
    rw [inFlight, hheld] at hbefore
    rw [inFlight, hqueued, signalled_carried hsignal]
    simp only [held, List.count_append, List.nil_append] at hbefore ⊢
    omega
  | drops sp wake blocked workers hm hstop hsignal =>
    exact absurd ((h.producing hm).1.symm.trans hstop) Bool.false_ne_true
  | announces caller hm hmax hidle =>
    refine h.of_same rfl rfl ?_ rfl
    show [] ++ s.queued ++ s.workers.flatMap carried = _
    rw [inFlight, hm]
    rfl
  | creates caller hm =>
    refine h.of_same rfl rfl ?_ rfl
    show [] ++ s.queued ++ (s.workers ++ [PoolWorker.starting]).flatMap carried = _
    rw [inFlight, hm, List.flatMap_append]
    exact congrArg (s.queued ++ ·) (List.append_nil _)
  | createFails caller hm =>
    refine h.of_same rfl rfl ?_ rfl
    show held (caller.back _ _) ++ s.queued ++ s.workers.flatMap carried = _
    rw [inFlight, hm, back_held]
    rfl
  | counts caller hm =>
    refine h.of_same rfl rfl ?_ rfl
    show held (caller.back _ _) ++ s.queued ++ s.workers.flatMap carried = _
    rw [inFlight, hm, back_held]
    rfl
  | broadcast hm =>
    refine h.of_same rfl rfl ?_ rfl
    show [] ++ s.queued ++ (s.workers.map _).flatMap carried = _
    rw [inFlight, hm, List.flatMap_map]
    have hsame : (fun w : PoolWorker σ => carried (if w.isWaiting then .woken else w)) = carried := by
      funext w
      cases w <;> rfl
    rw [hsame]
    rfl
  | waits w x n hw hx hempty hstop =>
    refine h.of_same rfl rfl ?_ rfl
    show held s.master ++ s.queued ++ (s.workers.set w .waiting).flatMap carried = _
    rw [carried_set_empty hw (entry_carried hx) rfl, inFlight]
  | takes w x n sp head tail hw hx hfilled hsp hwrap =>
    have hqueued := queued_takes cfg hfifo hfifo' rfl rfl
    have hcarried := carried_set (.returning sp) hw
    rw [entry_carried hx, List.nil_append, carried] at hcarried
    refine ⟨List.perm_iff_count.mpr fun a => ?_, fun hstop => ?_⟩
    · have hbefore := hcount a
      have hone := (List.perm_iff_count.mp hcarried) a
      rw [inFlight, hqueued] at hbefore
      rw [inFlight]
      show s.passed.count a = (s.processed ++ (held s.signalEmpty.master ++ _ ++
        (s.workers.set w (.returning sp)).flatMap carried)).count a
      rw [signalEmpty_held]
      simp only [List.count_append] at hbefore hone ⊢
      omega
    · have hempty := h.stopped hstop
      have hnone : s.queued = [] := (List.append_eq_nil_iff.mp (List.append_eq_nil_iff.mp hempty).1).2
      have hlength := hfifo.length_queued
      rw [hnone, List.length_nil] at hlength
      omega
  | leaves w x n hw hx hleft hstop =>
    refine h.of_same rfl rfl ?_ rfl
    show held s.signalEmpty.master ++ s.queued ++ (s.workers.set w (.returning none)).flatMap carried = _
    rw [signalEmpty_held, carried_set_empty hw (entry_carried hx) rfl, inFlight]
  | wakesWorker w hw =>
    refine h.of_same rfl rfl ?_ rfl
    show held s.master ++ s.queued ++ (s.workers.set w .woken).flatMap carried = _
    rw [carried_set_empty hw rfl rfl, inFlight]
  | processes w sp hw hstop =>
    have hcarried := carried_set .busy hw
    refine ⟨List.perm_iff_count.mpr fun a => ?_, fun hstopped => absurd (hstop.symm.trans hstopped) Bool.false_ne_true⟩
    have hbefore := hcount a
    have hone := (List.perm_iff_count.mp hcarried) a
    rw [inFlight] at hbefore
    show s.passed.count a = (s.processed ++ sp.toList ++ (held s.master ++ s.queued ++
      (s.workers.set w .busy).flatMap carried)).count a
    simp only [carried, List.count_append, List.nil_append] at hbefore hone ⊢
    omega
  | ends w sp hw hstop =>
    have hempty := h.stopped hstop
    have hnone : carried (.returning sp) = [] :=
      List.flatMap_eq_nil_iff.mp (List.append_eq_nil_iff.mp hempty).2 _ (List.mem_of_getElem? hw)
    refine h.of_same rfl rfl ?_ rfl
    show held s.master ++ s.queued ++ (s.workers.set w .gone).flatMap carried = _
    rw [carried_set_empty hw hnone rfl, inFlight]
  | initFails w hw =>
    refine h.of_same rfl rfl ?_ rfl
    show held s.master ++ s.queued ++ (s.workers.set w .gone).flatMap carried = _
    rw [carried_set_empty hw rfl rfl, inFlight]
  | stop =>
    refine ⟨h.sockets, fun _ => ?_⟩
    cases hstop : s.stopFlag with
    | false => exact hl hstop
    | true => exact h.stopped hstop

/-- A socket that is under way at the stop, or comes behind it, is missing from then on. -/
theorem leaked_of_accounted {s t : Pool σ} {l : PoolLabel σ} (h : Accounted s) (hl : ¬ Lossless s l)
    (hstep : step cfg s l = some t) : Leaked t := by
  have hlength := h.sockets.length_eq
  rw [List.length_append] at hlength
  cases step_effect cfg hstep with
  | stop =>
    refine ⟨rfl, ?_⟩
    have hne : s.inFlight ≠ [] := fun hempty => hl fun _ => hempty
    have hpos := List.length_pos_iff.mpr hne
    show s.processed.length < s.passed.length
    omega
  | passes sp hm =>
    have hstop : s.stopFlag = true := by
      rw [← Bool.not_eq_false]
      exact hl
    refine ⟨hstop, ?_⟩
    show s.processed.length < (s.passed ++ [sp]).length
    rw [List.length_append, List.length_singleton]
    omega
  | moves l m hmove => cases hmove <;> exact absurd trivial hl
  | _ => exact absurd trivial hl

theorem leaked_step {s t : Pool σ} {l : PoolLabel σ} (h : Leaked s) (hstep : step cfg s l = some t) : Leaked t := by
  cases step_effect cfg hstep with
  | passes sp hm =>
    refine ⟨h.stopped, ?_⟩
    show s.processed.length < (s.passed ++ [sp]).length
    rw [List.length_append]
    exact Nat.lt_add_right _ h.fewer
  | processes w sp hw hstop => exact absurd (hstop.symm.trans h.stopped) Bool.false_ne_true
  | stop => exact ⟨rfl, h.fewer⟩
  | _ => exact ⟨h.stopped, h.fewer⟩

/-- Before the server accepts, and where it has given up without, no socket was passed to `produce_socket`. -/
def Unserved (s : Pool σ) : Prop :=
  match s.master with
  | .prespawns _ | .starts (.mgStart2 _) | .creates (.mgStart2 _) | .counts (.mgStart2 _) => s.passed = []
  | .shutsDown | .joins | .finished => s.stopFlag = false → s.passed = []
  | _ => True

theorem Unserved.back {s t : Pool σ} {caller : Starter} {started : Bool} {spawned : Nat} (hpassed : t.passed = s.passed)
    (hempty : ∀ left, caller = .mgStart2 left → s.passed = []) (hm : t.master = caller.back started spawned) :
    Unserved t := by
  rw [Unserved, hm]
  cases caller with
  | produceSocket => trivial
  | mgStart2 left =>
    have hnone : t.passed = [] := hpassed.trans (hempty left rfl)
    rw [Starter.back]
    by_cases hstarted : started = true
    · rw [if_pos hstarted]
      exact hnone
    · rw [if_neg hstarted]
      by_cases hspawned : 0 < spawned
      · rw [if_pos hspawned]
        trivial
      · rw [if_neg hspawned]
        exact fun _ => hnone

theorem Unserved.signalled {s t : Pool σ} (h : Unserved s) (hm : t.master = s.signalEmpty.master)
    (hpassed : t.passed = s.passed) (hstop : t.stopFlag = s.stopFlag) : Unserved t := by
  rw [signalEmpty] at hm
  split at hm
  · rw [Unserved, hm]
    trivial
  · rw [Unserved, hm, hpassed, hstop]
    exact h

theorem unserved_step {s t : Pool σ} {l : PoolLabel σ} (h : Unserved s) (hstep : step cfg s l = some t) :
    Unserved t := by
  cases step_effect cfg hstep with
  | moves l m hmove =>
    rw [Unserved] at h
    cases hmove with
    | serves hm => trivial
    | prespawns left hm =>
      rw [hm] at h
      exact h
    | accepts hm hstop => trivial
    | shutsDown hm hstop => exact fun hgoing => absurd (hgoing.symm.trans hstop) Bool.false_ne_true
    | refuses hm => trivial
    | woken sp hm => trivial
    | limit caller hm hmax =>
      rw [hm] at h
      refine Unserved.back (s := s) rfl ?_ rfl
      rintro left rfl
      exact h
    | enough hm hidle => trivial
    | joins hm hgone =>
      rw [hm] at h
      exact h
  | passes sp hm => trivial
  | blocks sp wake hm hstop hfull => trivial
  | pushes sp wake blocked workers hm hroom hsignal => trivial
  | drops sp wake blocked workers hm hstop hsignal => trivial
  | announces caller hm hmax hidle =>
    rw [Unserved, hm] at h
    cases caller with
    | mgStart2 left => exact h
    | produceSocket => trivial
  | creates caller hm =>
    rw [Unserved, hm] at h
    cases caller with
    | mgStart2 left => exact h
    | produceSocket => trivial
  | createFails caller hm =>
    rw [Unserved, hm] at h
    refine Unserved.back (s := s) rfl ?_ rfl
    rintro left rfl
    exact h
  | counts caller hm =>
    rw [Unserved, hm] at h
    refine Unserved.back (s := s) rfl ?_ rfl
    rintro left rfl
    exact h
  | broadcast hm =>
    rw [Unserved, hm] at h
    exact h
  | takes w x n sp head tail hw hx hfilled hsp hwrap => exact h.signalled rfl rfl rfl
  | leaves w x n hw hx hleft hstop => exact h.signalled rfl rfl rfl
  | stop =>
    rw [Unserved] at h ⊢
    cases hm : s.master with
    | shutsDown => exact nofun
    | joins => exact nofun
    | finished => exact nofun
    | starts caller =>
      rw [hm] at h
      cases caller with
      | mgStart2 left => exact h
      | produceSocket => trivial
    | creates caller =>
      rw [hm] at h
      cases caller with
      | mgStart2 left => exact h
      | produceSocket => trivial
    | counts caller =>
      rw [hm] at h
      cases caller with
      | mgStart2 left => exact h
      | produceSocket => trivial
    | _ =>
      rw [hm] at h
      exact h
  | _ => exact h

/-! ### Every run to its end -/

theorem accounted_initial (zero : σ) : Accounted (initial cfg zero) where
  sockets := List.Perm.refl []
  stopped := fun _ => rfl

/-- When all threads have finished, all sockets that were passed to `produce_socket` have been processed exactly if
none was under way at the stop and none came behind it; nothing on these ways closes one. -/
theorem sockets_processed_iff (zero : σ) (ls : List (PoolLabel σ)) (t : Pool σ)
    (hrun : run (step cfg) (initial cfg zero) ls = some t) (hfinished : t.master = .finished) :
    t.passed.Perm t.processed ↔ Along (step cfg) Lossless (initial cfg zero) ls := by
  have hunserved : Unserved t :=
    run_invariant (step cfg) Unserved (fun s l u => unserved_step cfg) (initial cfg zero) t ls rfl hrun
  have hcases := run_along_or (step cfg) (fun s : Pool σ => FifoInv cfg s ∧ Accounted s) Leaked Lossless
    (fun s l u h hl hstep => ⟨fifoInv_step cfg h.1 hstep, accounted_step cfg h.1 h.2 hl hstep⟩)
    (fun s l u h hl hstep => leaked_of_accounted cfg h.2 hl hstep) (fun s l u h hstep => leaked_step cfg h hstep)
    (initial cfg zero) t ls ⟨fifoInv_initial cfg zero, accounted_initial cfg zero⟩ hrun
  rcases hcases with ⟨halong, -, haccounted⟩ | ⟨hnot, hleaked⟩
  · refine iff_of_true ?_ halong
    have hsockets := haccounted.sockets
    have hempty : t.inFlight = [] := by
      cases hstop : t.stopFlag with
      | true => exact haccounted.stopped hstop
      | false =>
        rw [Unserved, hfinished] at hunserved
        have hlength := hsockets.length_eq
        rw [hunserved hstop, List.length_append, List.length_nil] at hlength
        exact List.eq_nil_of_length_eq_zero (by omega)
    rwa [hempty, List.append_nil] at hsockets
  · refine iff_of_false ?_ hnot
    intro hperm
    have hlength := hperm.length_eq
    have hfewer := hleaked.fewer
    omega

/-- One socket is served before the stop; then both workers leave. -/
def servedRun : List (PoolLabel Nat) :=
  [.prespawn, .startWorker, .create true, .count, .prespawn, .consume 0, .poll, .accept (some 1), .produce (some 0),
    .startWorker, .create true, .count, .consume 1, .returns 1, .consume 0, .stop, .poll, .broadcast, .consume 0,
    .returns 0, .consume 1, .returns 1, .join]

theorem sockets_processed_served :
    (∃ t, run (step smallPool) (initial smallPool 0) servedRun = some t ∧ t.master = .finished ∧
      t.passed = [1] ∧ t.passed.Perm t.processed) ∧
      Along (step smallPool) Lossless (initial smallPool 0) servedRun := by
  obtain ⟨t, ht, hfinished, hpassed, hprocessed⟩ : ∃ t, run (step smallPool) (initial smallPool 0) servedRun = some t ∧
      t.master = .finished ∧ t.passed = [1] ∧ t.processed = [1] := ⟨_, rfl, rfl, rfl, rfl⟩
  have hperm : t.passed.Perm t.processed := by rw [hpassed, hprocessed]
  exact ⟨⟨t, ht, hfinished, hpassed, hperm⟩, (sockets_processed_iff smallPool 0 servedRun t ht hfinished).mp hperm⟩

/-- The server is stopped while the only socket is in the queue. -/
def stoppedRun : List (PoolLabel Nat) :=
  [.prespawn, .startWorker, .create true, .count, .prespawn, .poll, .accept (some 1), .produce none, .stop,
    .startWorker, .create true, .count, .poll, .broadcast, .consume 0, .returns 0, .consume 1, .returns 1, .join]

theorem sockets_processed_stopped :
    ¬ ∀ (ls : List (PoolLabel Nat)) (t : Pool Nat), run (step smallPool) (initial smallPool 0) ls = some t →
      t.master = .finished → t.passed.Perm t.processed := by
  intro h
  obtain ⟨t, ht, hfinished, hpassed, hprocessed⟩ : ∃ t, run (step smallPool) (initial smallPool 0) stoppedRun = some t ∧
      t.master = .finished ∧ t.passed = [1] ∧ t.processed = [] := ⟨_, rfl, rfl, rfl, rfl⟩
  have hlength := (h stoppedRun t ht hfinished).length_eq
  rw [hpassed, hprocessed] at hlength
  cases hlength

end Pool

end CivetWeb
