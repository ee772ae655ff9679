import CivetWeb.Pool.SocketQueue

namespace CivetWeb

namespace Pool

variable {σ : Type*} (cfg : PoolConfig)

/-! ### What a step can do -/

/-- The steps of the thread that accepts which change nothing but where it is. -/
inductive Move (s : Pool σ) : PoolLabel σ → MasterThread σ → Prop
  | serves (hm : s.master = .prespawns 0) : Move s .prespawn .polls
  | prespawns (left : Nat) (hm : s.master = .prespawns (left + 1)) : Move s .prespawn (.starts (.mgStart2 left))
  | accepts (hm : s.master = .polls) (hstop : s.stopFlag = false) : Move s .poll .accepts
  | shutsDown (hm : s.master = .polls) (hstop : s.stopFlag = true) : Move s .poll .shutsDown
  | refuses (hm : s.master = .accepts) : Move s (.accept none) .polls
  | woken (sp : σ) (hm : s.master = .waits sp) : Move s .wakeMaster (.woken sp)
  | limit (caller : Starter) (hm : s.master = .starts caller)
      (hmax : cfg.cfgMaxWorkerThreads ≤ s.spawnedWorkerThreads) :
      Move s .startWorker (caller.back false s.spawnedWorkerThreads)
  | enough (hm : s.master = .starts .produceSocket) (hidle : s.sqHead - s.sqTail < s.idleWorkerThreadCount) :
      Move s .startWorker .polls
  | joins (hm : s.master = .joins) (hgone : ∀ w ∈ s.workers, w = .gone) : Move s .join .finished

/-- What `pthread_cond_signal` of `sq_full` makes of the workers. -/
inductive Signalled (workers : List (PoolWorker σ)) : List (PoolWorker σ) → Prop
  | nobody (hnone : ∀ w ∈ workers, w ≠ .waiting) : Signalled workers workers
  | wakes (w : Nat) (hw : workers[w]? = some .waiting) : Signalled workers (workers.set w .woken)

/-- What a worker adds to the idle count on its way to the test for an empty queue, if it can come there. -/
def entry : PoolWorker σ → Option Int
  | .starting | .woken => some 0
  | .busy => some 1
  | _ => none

inductive Effect (s : Pool σ) : PoolLabel σ → Pool σ → Prop
  | moves (l : PoolLabel σ) (m : MasterThread σ) (hmove : Move cfg s l m) : Effect s l { s with master := m }
  | passes (sp : σ) (hm : s.master = .accepts) :
      Effect s (.accept (some sp)) { s with master := .produces sp, passed := s.passed ++ [sp] }
  | blocks (sp : σ) (wake : Option Nat) (hm : s.master = .produces sp ∨ s.master = .woken sp)
      (hstop : s.stopFlag = false) (hfull : cfg.sqSize ≤ s.sqHead - s.sqTail) :
      Effect s (.produce wake) { s with sqBlocked := true, master := .waits sp }
  | pushes (sp : σ) (wake : Option Nat) (blocked : Bool) (workers : List (PoolWorker σ))
      (hm : s.master = .produces sp ∨ s.master = .woken sp) (hroom : s.sqHead - s.sqTail < cfg.sqSize)
      (hsignal : Signalled s.workers workers) :
      Effect s (.produce wake) { s with
        squeue := s.squeue.set (s.sqHead.tmod cfg.sqSize).toNat sp
        sqHead := s.sqHead + 1
        sqBlocked := blocked
        master := .starts .produceSocket
        workers := workers
        produced := s.produced ++ [sp] }
  | drops (sp : σ) (wake : Option Nat) (blocked : Bool) (workers : List (PoolWorker σ))
      (hm : s.master = .produces sp ∨ s.master = .woken sp) (hstop : s.stopFlag = true)
      (hsignal : Signalled s.workers workers) :
      Effect s (.produce wake) { s with
        sqBlocked := blocked
        master := .starts .produceSocket
        workers := workers }
  | announces (caller : Starter) (hm : s.master = .starts caller)
      (hmax : s.spawnedWorkerThreads < cfg.cfgMaxWorkerThreads)
      (hidle : caller = .produceSocket → s.idleWorkerThreadCount ≤ s.sqHead - s.sqTail) :
      Effect s .startWorker { s with
        idleWorkerThreadCount := s.idleWorkerThreadCount + 1
        master := .creates caller }
  | creates (caller : Starter) (hm : s.master = .creates caller) :
      Effect s (.create true) { s with workers := s.workers ++ [.starting], master := .counts caller }
  | createFails (caller : Starter) (hm : s.master = .creates caller) :
      Effect s (.create false) { s with
        idleWorkerThreadCount := s.idleWorkerThreadCount - 1
        master := caller.back false s.spawnedWorkerThreads }
  | counts (caller : Starter) (hm : s.master = .counts caller) :
      Effect s .count { s with
        spawnedWorkerThreads := s.spawnedWorkerThreads + 1
        master := caller.back true (s.spawnedWorkerThreads + 1) }
  | broadcast (hm : s.master = .shutsDown) :
      Effect s .broadcast { s with
        workers := s.workers.map fun w => if w.isWaiting then .woken else w
        master := .joins }
  | waits (w : Nat) (x : PoolWorker σ) (n : Int) (hw : s.workers[w]? = some x) (hx : entry x = some n)
      (hempty : s.sqHead = s.sqTail) (hstop : s.stopFlag = false) :
      Effect s (.consume w) { s with
        idleWorkerThreadCount := s.idleWorkerThreadCount + n
        workers := s.workers.set w .waiting }
  | takes (w : Nat) (x : PoolWorker σ) (n : Int) (sp : Option σ) (head tail : Int) (hw : s.workers[w]? = some x)
      (hx : entry x = some n) (hfilled : s.sqTail < s.sqHead)
      (hsp : sp = s.squeue[(s.sqTail.tmod cfg.sqSize).toNat]?)
      (hwrap : wrapPointers cfg.sqSize (s.sqTail + 1).toNat s.sqHead (s.sqTail + 1) = (head, tail)) :
      Effect s (.consume w) { s with
        sqHead := head
        sqTail := tail
        idleWorkerThreadCount := s.idleWorkerThreadCount + n - 1
        master := s.signalEmpty.master
        workers := s.workers.set w (.returning sp)
        returned := s.returned ++ sp.toList.map fun sp => (w, sp) }
  | leaves (w : Nat) (x : PoolWorker σ) (n : Int) (hw : s.workers[w]? = some x) (hx : entry x = some n)
      (hleft : s.sqHead ≤ s.sqTail) (hstop : s.sqHead = s.sqTail → s.stopFlag = true) :
      Effect s (.consume w) { s with
        idleWorkerThreadCount := s.idleWorkerThreadCount + n - 1
        master := s.signalEmpty.master
        workers := s.workers.set w (.returning none) }
  | wakesWorker (w : Nat) (hw : s.workers[w]? = some .waiting) :
      Effect s (.wakeWorker w) { s with workers := s.workers.set w .woken }
  | processes (w : Nat) (sp : Option σ) (hw : s.workers[w]? = some (.returning sp)) (hstop : s.stopFlag = false) :
      Effect s (.returns w) { s with
        workers := s.workers.set w .busy
        processed := s.processed ++ sp.toList }
  | ends (w : Nat) (sp : Option σ) (hw : s.workers[w]? = some (.returning sp)) (hstop : s.stopFlag = true) :
      Effect s (.returns w) { s with workers := s.workers.set w .gone }
  | initFails (w : Nat) (hw : s.workers[w]? = some .starting) :
      Effect s (.initFails w) { s with workers := s.workers.set w .gone }
  | stop : Effect s .stop { s with stopFlag := true }

theorem signalFull_signalled {s t : Pool σ} {wake : Option Nat} (h : s.signalFull wake = some t) :
    ∃ workers, Signalled s.workers workers ∧ t = { s with workers := workers } := by
  cases wake with
  | none =>
    rw [signalFull] at h
    by_cases hany : s.workers.any PoolWorker.isWaiting = true
    · rw [if_pos hany] at h
      cases h
    · rw [if_neg hany] at h
      refine ⟨s.workers, .nobody ?_, (Option.some.inj h).symm⟩
      rintro w hw rfl
      exact hany (List.any_eq_true.mpr ⟨_, hw, rfl⟩)
  | some w =>
    rw [signalFull] at h
    split at h
    · next hw => exact ⟨s.workers.set w .woken, .wakes w hw, (Option.some.inj h).symm⟩
    · cases h

theorem produceSocket_effect {s t : Pool σ} {sp : σ} {wake : Option Nat} {blocked : Bool}
    (hm : s.master = .produces sp ∨ s.master = .woken sp)
    (h : { s with sqBlocked := blocked }.produceSocket cfg sp wake = some t) : Effect cfg s (.produce wake) t := by
  rw [produceSocket] at h
  by_cases hfull : s.stopFlag = false ∧ (cfg.sqSize : Int) ≤ s.sqHead - s.sqTail
  · rw [if_pos hfull] at h
    cases h
    exact .blocks sp wake hm hfull.1 hfull.2
  · rw [if_neg hfull] at h
    obtain ⟨u, hu, rfl⟩ := Option.map_eq_some_iff.mp h
    obtain ⟨workers, hsignal, rfl⟩ := signalFull_signalled hu
    by_cases hroom : s.sqHead - s.sqTail < cfg.sqSize
    · rw [push, if_pos hroom] at hsignal ⊢
      exact .pushes sp wake blocked workers hm hroom hsignal
    · rw [push, if_neg hroom] at hsignal ⊢
      have hstop : s.stopFlag = true := by
        rw [← Bool.not_eq_false]
        exact fun hstop => hfull ⟨hstop, not_lt.mp hroom⟩
      exact .drops sp wake blocked workers hm hstop hsignal

theorem consumeSocket_effect {s : Pool σ} {w : Nat} {x : PoolWorker σ} {n : Int} (hw : s.workers[w]? = some x)
    (hx : entry x = some n) :
    Effect cfg s (.consume w)
      ({ s with idleWorkerThreadCount := s.idleWorkerThreadCount + n }.consumeSocket cfg w) := by
  rw [consumeSocket]
  by_cases hempty : s.sqHead = s.sqTail ∧ s.stopFlag = false
  · rw [if_pos hempty]
    exact .waits w x n hw hx hempty.1 hempty.2
  · rw [if_neg hempty]
    by_cases hfilled : s.sqTail < s.sqHead
    · rw [pop, if_pos hfilled]
      obtain ⟨⟨head, tail⟩, hwrap⟩ :
          ∃ p, wrapPointers cfg.sqSize (s.sqTail + 1).toNat s.sqHead (s.sqTail + 1) = p := ⟨_, rfl⟩
      have heffect : Effect cfg _ _ _ := .takes w x n _ head tail hw hx hfilled rfl hwrap
      simp only [hwrap]
      cases hm : s.master <;> simpa only [signalEmpty, setWorker, hm] using heffect
    · rw [pop, if_neg hfilled]
      have hstop : s.sqHead = s.sqTail → s.stopFlag = true := by
        intro heq
        rw [← Bool.not_eq_false]
        exact fun hstop => hempty ⟨heq, hstop⟩
      have heffect : Effect cfg _ _ _ := .leaves w x n hw hx (not_lt.mp hfilled) hstop
      cases hm : s.master <;> simpa only [signalEmpty, setWorker, hm] using heffect

theorem step_effect {s t : Pool σ} {l : PoolLabel σ} (h : step cfg s l = some t) : Effect cfg s l t := by
  cases l with
  | prespawn =>
    rw [step] at h
    split at h
    · next hm => cases h; exact .moves _ _ (.serves hm)
    · next left hm => cases h; exact .moves _ _ (.prespawns left hm)
    · cases h
  | poll =>
    rw [step] at h
    split at h
    · next hm =>
      cases h
      by_cases hstop : s.stopFlag = true
      · rw [if_pos hstop]
        exact .moves _ _ (.shutsDown hm hstop)
      · rw [if_neg hstop]
        exact .moves _ _ (.accepts hm (Bool.not_eq_true _ ▸ hstop))
    · cases h
  | accept sp =>
    unfold step at h
    dsimp only at h
    split at h
    · next hm => cases h; exact .moves _ _ (.refuses hm)
    · next sp hm => cases h; exact .passes sp hm
    · cases h
  | produce wake =>
    rw [step] at h
    split at h
    · next sp hm => exact produceSocket_effect cfg (.inl hm) h
    · next sp hm => exact produceSocket_effect cfg (.inr hm) h
    · cases h
  | wakeMaster =>
    rw [step] at h
    split at h
    · next sp hm => cases h; exact .moves _ _ (.woken sp hm)
    · cases h
  | startWorker =>
    rw [step] at h
    split at h
    · next caller hm =>
      cases h
      rw [mgStartWorkerThread]
      split_ifs with hmax hidle
      · exact .moves _ _ (.limit caller hm hmax)
      · cases caller with
        | mgStart2 left => cases hidle.1
        | produceSocket => exact .moves _ _ (.enough hm hidle.2)
      · refine .announces caller hm (not_le.mp hmax) ?_
        rintro rfl
        exact not_lt.mp fun hlt => hidle ⟨rfl, hlt⟩
    · cases h
  | create ok =>
    rw [step] at h
    split at h
    · next caller hm =>
      cases ok with
      | true => cases h; exact .creates caller hm
      | false => cases h; exact .createFails caller hm
    · cases h
  | count =>
    rw [step] at h
    split at h
    · next caller hm => cases h; exact .counts caller hm
    · cases h
  | broadcast =>
    rw [step] at h
    split at h
    · next hm => cases h; exact .broadcast hm
    · cases h
  | join =>
    rw [step] at h
    split at h
    · next hm =>
      split at h
      · next hgone =>
        cases h
        refine .moves _ _ (.joins hm ?_)
        intro w hw
        have hworker := List.all_eq_true.mp hgone w hw
        cases w with
        | gone => rfl
        | starting => cases hworker
        | waiting => cases hworker
        | woken => cases hworker
        | returning sp => cases hworker
        | busy => cases hworker
      · cases h
    · cases h
  | consume w =>
    rw [step] at h
    split at h
    · next hw =>
      cases h
      have heffect := consumeSocket_effect cfg hw (show entry .starting = some 0 from rfl)
      rwa [add_zero] at heffect
    · next hw =>
      cases h
      have heffect := consumeSocket_effect cfg hw (show entry .woken = some 0 from rfl)
      rwa [add_zero] at heffect
    · next hw =>
      cases h
      exact consumeSocket_effect cfg hw rfl
    · cases h
  | wakeWorker w =>
    rw [step] at h
    split at h
    · next hw => cases h; exact .wakesWorker w hw
    · cases h
  | returns w =>
    rw [step] at h
    split at h
    · next sp hw =>
      cases hstop : s.stopFlag with
      | false =>
        rw [hstop] at h
        cases h
        exact .processes w sp hw hstop
      | true =>
        rw [hstop] at h
        cases h
        exact .ends w sp hw hstop
    · cases h
  | initFails w =>
    rw [step] at h
    split at h
    · next hw => cases h; exact .initFails w hw
    · cases h
  | stop => cases h; exact .stop

/-! ### Where the threads are -/

theorem back_ne_waits (caller : Starter) (started : Bool) (spawned : Nat) (sp : σ) :
    caller.back started spawned ≠ .waits sp := by
  cases caller with
  | produceSocket => nofun
  | mgStart2 left =>
    rw [Starter.back]
    split_ifs <;> nofun

theorem signalEmpty_ne_waits (s : Pool σ) (sp : σ) : s.signalEmpty.master ≠ .waits sp := by
  rw [signalEmpty]
  split
  · nofun
  · next hm => exact hm sp

theorem countP_set {α : Type*} (p : α → Bool) {l : List α} {i : Nat} {x : α} (y : α) (h : l[i]? = some x) :
    ((l.set i y).countP p : Int) = l.countP p - (p x).toNat + (p y).toNat := by
  obtain ⟨hi, rfl⟩ := List.getElem?_eq_some_iff.mp h
  have hpos : p l[i] = true → 0 < l.countP p := fun hp => List.countP_pos_iff.mpr ⟨_, List.getElem_mem hi, hp⟩
  rw [List.countP_set hi]
  cases hx : p l[i] with
  | false => cases p y <;> simp
  | true =>
    have := hpos hx
    cases p y <;> simp <;> omega

end Pool

end CivetWeb
