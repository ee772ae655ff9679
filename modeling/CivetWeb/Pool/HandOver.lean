import CivetWeb.Pool.AltQueueRuns

namespace CivetWeb

namespace AltPool

open System

variable {σ : Type*} (cfg : AltConfig)

/-! ### What becomes of the sockets -/

/-- The socket that `produce_socket` has and no slot has got yet. -/
def hand : AltMaster σ → List σ
  | .starts (.produceSocket sp) | .creates (.produceSocket sp) | .counts (.produceSocket sp) => [sp]
  | .tests sp | .looks sp _ | .locks sp _ => [sp]
  | _ => []

/-- The socket of a slot that its worker has not taken yet. -/
def pending (slot : AltSlot σ) : List σ :=
  match slot.thread with
  | some .waiting | some .woken => if slot.inUse = 1 then slot.sock.toList else []
  | _ => []

/-- The sockets between the call of `produce_socket` and the return of `consume_socket`. -/
def transit (s : AltPool σ) : List σ := hand s.master ++ s.slots.flatMap pending

/-- Every socket that `produce_socket` was called with is in one place: with a worker that processes or has
processed it, closed, or under way. -/
structure Kept (s : AltPool σ) : Prop where
  sockets : s.passed.Perm (s.processed ++ s.closed ++ s.transit)
  closed : s.stopFlag = false → s.closed = []

theorem Kept.of_same {s t : AltPool σ} (h : Kept s) (hpassed : t.passed = s.passed)
    (hprocessed : t.processed = s.processed) (hclosed : t.closed = s.closed) (htransit : t.transit = s.transit)
    (hstop : s.stopFlag = true → t.stopFlag = true) : Kept t where
  sockets := by
    rw [hpassed, hprocessed, hclosed, htransit]
    exact h.sockets
  closed := by
    intro hfalse
    rw [hclosed]
    refine h.closed (Bool.eq_false_iff.mpr fun htrue => ?_)
    exact absurd (hfalse.symm.trans (hstop htrue)) Bool.false_ne_true

theorem back_hand (caller : AltStarter σ) (started : Bool) (spawned : Nat) :
    hand (caller.back started spawned) = hand (.starts caller) := by
  cases caller with
  | produceSocket sp => rfl
  | mgStart2 left =>
    rw [AltStarter.back]
    split_ifs <;> rfl

theorem move_hand {s : AltPool σ} {l : AltLabel σ} {m : AltMaster σ} (h : Move s l m) : hand m = hand s.master := by
  cases h with
  | limit caller hm => rw [hm, back_hand]
  | serves hm => rw [hm]; rfl
  | prespawns left hm => rw [hm]; rfl
  | accepts hm hstop => rw [hm]; rfl
  | shutsDown hm hstop => rw [hm]; rfl
  | refuses hm => rw [hm]; rfl
  | searches sp hm hstop => rw [hm]; rfl
  | sees sp i slot hm hi hslot => rw [hm]; rfl
  | passesBy sp i hm hi => rw [hm]; rfl
  | sleeps sp i hm => rw [hm]; rfl
  | misses sp i hm => rw [hm]; rfl
  | wokeAll i hm hi => rw [hm]; rfl
  | joins hm hgone => rw [hm]; rfl

theorem creates_hand (caller : AltStarter σ) :
    hand (.creates caller) = hand (.starts caller) ∧ hand (.counts caller) = hand (.starts caller) := by
  cases caller with
  | mgStart2 left => exact ⟨rfl, rfl⟩
  | produceSocket sp => exact ⟨rfl, rfl⟩

theorem pending_live {slot : AltSlot σ} (h : slot.thread ≠ some .waiting ∧ slot.thread ≠ some .woken) :
    pending slot = [] := by
  unfold pending
  cases hthread : slot.thread with
  | none => rfl
  | some x =>
    cases x with
    | waiting => exact absurd hthread h.1
    | woken => exact absurd hthread h.2
    | _ => rfl

/-- A write to a slot that keeps what is under way there. -/
theorem transit_set {s : AltPool σ} {m : AltMaster σ} {i : Nat} {slot slot' : AltSlot σ}
    (hslot : s.slots[i]? = some slot) (hhand : hand m = hand s.master) (hpending : pending slot' = pending slot) :
    hand m ++ (s.slots.set i slot').flatMap pending = s.transit := by
  rw [hhand, Slots.flatMap_set_same pending hslot hpending]
  rfl

theorem kept_step {s t : AltPool σ} {l : AltLabel σ} (hinv : Inv cfg s) (h : Kept s)
    (hstep : step cfg s l = some t) : Kept t := by
  classical
  have hcount := fun a => (List.perm_iff_count.mp h.sockets) a
  cases step_effect cfg hstep with
  | moves l m hmove =>
    refine h.of_same rfl rfl rfl ?_ id
    show hand m ++ s.slots.flatMap pending = _
    rw [move_hand hmove]
    rfl
  | passes sp hm =>
    refine ⟨List.perm_iff_count.mpr fun a => ?_, h.closed⟩
    have hbefore := hcount a
    rw [transit, hm] at hbefore
    show (s.passed ++ [sp]).count a = (s.processed ++ s.closed ++ ([sp] ++ s.slots.flatMap pending)).count a
    simp only [hand, List.count_append, List.nil_append] at hbefore ⊢
    omega
  | announces caller hm hmax =>
    refine h.of_same rfl rfl rfl ?_ id
    show hand (.creates caller) ++ s.slots.flatMap pending = _
    rw [(creates_hand caller).1, ← hm]
    rfl
  | creates caller slot hm hslot =>
    have hnone : slot.thread = none := (hinv.created _ slot hslot).mpr (by rw [hm]; exact le_rfl)
    refine h.of_same rfl rfl rfl (transit_set hslot ?_ ?_) id
    · rw [hm, (creates_hand caller).1, (creates_hand caller).2]
    · have hbefore : pending slot = [] := pending_live (by rw [hnone]; decide)
      rw [hbefore]
      rfl
  | createFails caller hm =>
    refine h.of_same rfl rfl rfl ?_ id
    show hand (caller.back _ _) ++ s.slots.flatMap pending = _
    rw [back_hand, ← (creates_hand caller).1, ← hm]
    rfl
  | counts caller hm =>
    refine h.of_same rfl rfl rfl ?_ id
    show hand (caller.back _ _) ++ s.slots.flatMap pending = _
    rw [back_hand, ← (creates_hand caller).2, ← hm]
    rfl
  | closes sp hm hstop =>
    refine ⟨List.perm_iff_count.mpr fun a => ?_, fun hfalse => absurd (hfalse.symm.trans hstop) Bool.false_ne_true⟩
    have hbefore := hcount a
    rw [transit, hm] at hbefore
    show s.passed.count a = (s.processed ++ (s.closed ++ [sp]) ++ ([] ++ s.slots.flatMap pending)).count a
    simp only [hand, List.count_append, List.nil_append] at hbefore ⊢
    omega
  | hands sp i slot hm hslot huse hstop =>
    -- the socket goes from the thread that accepts into the slot of a worker that waits
    obtain ⟨hwaits, -⟩ := hinv.free_waits cfg hslot huse hstop
    refine ⟨List.perm_iff_count.mpr fun a => ?_, h.closed⟩
    have hbefore := hcount a
    have hone := (List.perm_iff_count.mp
      (Slots.flatMap_set pending { slot with sock := some sp, inUse := 1 } hslot)) a
    rw [transit, hm] at hbefore
    show s.passed.count a = (s.processed ++ s.closed ++ ([] ++ (s.slots.set i _).flatMap pending)).count a
    simp only [pending, hwaits, huse, hand, List.count_append, List.nil_append, Option.toList_some, if_true,
      Nat.reduceEqDiff, if_false] at hbefore hone ⊢
    omega
  | signals i slot hm hslot => exact h.of_same rfl rfl rfl (transit_set hslot (by rw [hm]; rfl) rfl) id
  | signalsNext i slot hm hi hslot => exact h.of_same rfl rfl rfl (transit_set hslot (by rw [hm]; rfl) rfl) id
  | goesIdle w slot n hslot hthread =>
    refine h.of_same rfl rfl rfl (transit_set hslot rfl ?_) id
    have hbefore : pending slot = [] :=
      pending_live (by rcases hthread with hthread | hthread <;> rw [hthread] <;> decide)
    rw [hbefore]
    rfl
  | wakes w slot hslot hthread hevent =>
    refine h.of_same rfl rfl rfl (transit_set hslot rfl ?_) id
    unfold pending
    rw [hthread]
  | waitFails w slot hslot hthread =>
    refine h.of_same rfl rfl rfl (transit_set hslot rfl ?_) id
    unfold pending
    rw [hthread]
  | ends w slot hslot hthread hstop =>
    refine ⟨List.perm_iff_count.mpr fun a => ?_, fun hfalse => absurd (hfalse.symm.trans hstop) Bool.false_ne_true⟩
    have hbefore := hcount a
    have hone := (List.perm_iff_count.mp (Slots.flatMap_set pending { slot with thread := some .gone } hslot)) a
    show s.passed.count a = (s.processed ++ (if slot.inUse = 1 then s.closed ++ slot.sock.toList else s.closed) ++
      (hand s.master ++ (s.slots.set w _).flatMap pending)).count a
    by_cases huse : slot.inUse = 1
    · rw [if_pos huse]
      simp only [transit, pending, hthread, huse, if_true, List.count_append, List.nil_append] at hbefore hone ⊢
      omega
    · rw [if_neg huse]
      simp only [transit, pending, hthread, huse, if_false, List.count_append, List.nil_append] at hbefore hone ⊢
      omega
  | processes w slot hslot hthread hstop huse =>
    refine ⟨List.perm_iff_count.mpr fun a => ?_, h.closed⟩
    have hbefore := hcount a
    have hone := (List.perm_iff_count.mp (Slots.flatMap_set pending { slot with thread := some .busy } hslot)) a
    show s.passed.count a = (s.processed ++ slot.sock.toList ++ s.closed ++
      (hand s.master ++ (s.slots.set w _).flatMap pending)).count a
    simp only [transit, pending, hthread, huse, if_true, List.count_append, List.nil_append] at hbefore hone ⊢
    omega
  | asserts w slot hslot hthread hstop huse =>
    refine h.of_same rfl rfl rfl (transit_set hslot rfl ?_) id
    unfold pending
    rw [hthread]
    exact (if_neg huse).symm
  | initFails w slot hslot hthread =>
    refine h.of_same rfl rfl rfl (transit_set hslot rfl ?_) id
    unfold pending
    rw [hthread]
  | stop => exact h.of_same rfl rfl rfl rfl fun _ => rfl

theorem kept_initial : Kept (initial cfg : AltPool σ) where
  sockets := by
    have hnone : (initial cfg : AltPool σ).slots.flatMap pending = [] := by
      refine List.flatMap_eq_nil_iff.mpr fun slot hslot => ?_
      rw [List.eq_of_mem_replicate hslot]
      rfl
    rw [transit, hnone]
    exact List.Perm.refl _
  closed := fun _ => rfl

theorem transit_finished {s : AltPool σ} (h : Inv cfg s) (hm : s.master = .finished) : s.transit = [] := by
  have hmaster := h.master
  rw [MasterFits, hm] at hmaster
  have hnone : s.slots.flatMap pending = [] := by
    refine List.flatMap_eq_nil_iff.mpr fun slot hslot => pending_live ?_
    rcases hmaster slot hslot with hthread | hthread <;> rw [hthread] <;> decide
  rw [transit, hm, hnone]
  rfl

/-- In every state of every run of the alternative queue in which no `event_wait` fails: each socket that
`produce_socket` was called with is processed once, closed once or under way, none is closed before the server is
stopped, and none is left at the end; no worker comes out of `consume_socket` without a socket before the stop. -/
theorem altQueue_keeps (ls : List (AltLabel σ)) (hwaits : ∀ w, AltLabel.waitFails w ∉ ls) :
    Always (step cfg) (fun s => s.passed.Perm (s.processed ++ s.closed ++ s.transit) ∧
      (s.stopFlag = false → s.closed = []) ∧ (s.master = .finished → s.passed.Perm (s.processed ++ s.closed)) ∧
      s.asserted = false) (initial cfg) ls := by
  have hinv : Always (step cfg) (fun s => Inv cfg s ∧ Kept s) (initial cfg : AltPool σ) ls := by
    refine always_of_invariant (step cfg) _ (fun _ l => ∀ w, l ≠ .waitFails w) (fun s l t h hl hstep => ?_) _ ls
      ⟨inv_initial cfg, kept_initial cfg⟩ (along_of_forall (step cfg) _ _ ls fun l hmem w hl => ?_)
    · exact ⟨inv_step cfg h.1 hl hstep, kept_step cfg h.1 h.2 hstep⟩
    · exact hwaits w (hl ▸ hmem)
  refine hinv.imp (step cfg) _ _ (fun s h => ?_) _ _
  refine ⟨h.2.sockets, h.2.closed, fun hm => ?_, h.1.unasserted⟩
  have hsockets := h.2.sockets
  rwa [transit_finished cfg h.1 hm, List.append_nil] at hsockets

/-- One worker thread at most, none started beforehand. -/
def oneWorker : AltConfig where
  cfgMaxWorkerThreads := 1
  prespawnthreadcount := 0
  workers_pos := le_rfl
  workers_max := one_le_MAX_WORKER_THREADS
  prespawn_le := Nat.zero_le 1

/-- The worker gets socket 7, and its event. -/
def servedRun : List (AltLabel Nat) :=
  [.prespawn, .poll, .accept (some 7), .startWorker, .create true, .count, .goIdle 0, .test, .look, .handOver, .signal,
    .wake 0, .grab 0]

theorem altQueue_keeps_served : Always (step oneWorker) (fun s => s.passed.Perm (s.processed ++ s.closed ++ s.transit) ∧
    (s.stopFlag = false → s.closed = []) ∧ (s.master = .finished → s.passed.Perm (s.processed ++ s.closed)) ∧
    s.asserted = false) (initial oneWorker) servedRun :=
  altQueue_keeps oneWorker servedRun fun w => by simp [servedRun]

/-- The worker's first `event_wait` fails, and it takes its socket 7 before the event for that is signalled; its next
`event_wait` takes that event for a socket, so that it ends at the `DEBUG_ASSERT(0)`, with `in_use` 2, and the socket 8
that is put into its slot is lost. -/
example : (run (step oneWorker) (initial oneWorker) ([.prespawn, .poll, .accept (some 7), .startWorker, .create true,
    .count, .goIdle 0, .waitFails 0, .test, .look, .handOver, .grab 0, .signal, .goIdle 0, .wake 0, .grab 0, .poll,
    .accept (some 8), .startWorker, .test, .look, .handOver])).map
      (fun s => (s.asserted, s.passed, s.processed, s.closed, s.transit)) = some (true, [7, 8], [7], [], []) := by
  decide

end AltPool

end CivetWeb
