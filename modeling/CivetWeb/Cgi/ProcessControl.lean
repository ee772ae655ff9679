import CivetWeb.Lib.System
import Mathlib.Algebra.Order.Ring.Rat

namespace CivetWeb

/-- How a process ends: with an exit code, or by a signal. -/
inductive ChildEnd where
  | exited (code : Fin 256)
  | signaled (sig : { n : Nat // 0 < n ∧ n < 127 }) (core : Bool)
  deriving DecidableEq

/-- The status that `waitpid` stores. -/
def ChildEnd.status : ChildEnd → Nat
  | .exited code => code.val * 256
  | .signaled sig core => sig.val + if core then 128 else 0

theorem ChildEnd.status_eq_zero (e : ChildEnd) : e.status = 0 ↔ e = .exited 0 := by
  cases e with
  | exited code =>
    rw [status, ChildEnd.exited.injEq, Fin.ext_iff, Fin.val_zero]
    omega
  | signaled sig core =>
    have hsig := sig.2.1
    rw [status]
    refine iff_of_false (by omega) ?_
    rintro ⟨⟩

/-- What a pid names. A child of the server is that of the CGI request or, where the pid has been used again, the
child of another request; a child that has ended keeps the pid until it is waited for. -/
inductive PidUse where
  | unused
  | running (cgi : Bool)
  | zombie (cgi : Bool) (e : ChildEnd)
  | foreign
  deriving DecidableEq

/-- The pid names a child of the server that has not been waited for. -/
def PidUse.IsChild : PidUse → Prop
  | .running _ | .zombie _ _ => True
  | .unused | .foreign => False

/-- What `waitpid` returns for the pid and stores in a `status` of 0, with `WNOHANG`, and what the pid names
behind that. -/
def PidUse.waitNoHang (use : PidUse) (pid : Nat) : Int × Nat × PidUse :=
  match use with
  | .running _ => (0, 0, use)
  | .zombie _ e => (pid, e.status, .unused)
  | .unused | .foreign => (-1, 0, use)

/-- A `process_control_data`. -/
structure ProcessControlData where
  pid : Nat
  references : Int
  deriving DecidableEq

/-- Where a call of `abort_cgi_process` is. -/
inductive AbortPoint where
  | test
  | kill
  | reap
  | release
  | free
  | done
  deriving DecidableEq

/-- Where `handle_cgi_request` is. -/
inductive CgiThread where
  | start
  | allocated
  | spawned (pid : Nat)
  | stored
  | arming
  | serving
  | aborting (p : AbortPoint)
  | ended
  deriving DecidableEq

/-- What has become of the timer of the request. -/
inductive CgiTimer where
  | unset
  | listed
  | action (p : AbortPoint)
  deriving DecidableEq

/-- Where the timer thread is in its loop. -/
inductive TimerLoop where
  | head
  | looks
  | acts
  | left
  deriving DecidableEq

/-- A CGI request with its process, timer and control data. `use` is what the pid of the process names, and `proc`
the memory of the control data, which is not forgotten when it is freed. `signalled` is what `kill` has hit. -/
structure CgiControl where
  use : PidUse
  proc : Option ProcessControlData
  request : CgiThread
  timer : CgiTimer
  thread : TimerLoop
  stopFlag : Bool
  frees : Nat
  signalled : List PidUse
  deriving DecidableEq

inductive CgiLabel where
  | giveUp
  | malloc (mem : Option ProcessControlData)
  | spawn (pid : Option Nat)
  | store
  | arm
  | timerAdd (accepted : Bool)
  | finish
  | request (interrupted : Bool)
  | timer (interrupted : Bool)
  | look
  | fire
  | sleep
  | actionReturns
  | stop
  | childEnds (e : ChildEnd)
  | pidReused (own : Bool)
  | foreignEnds
  | otherRequestWaits
  deriving DecidableEq

namespace CgiControl

/-- A step of `abort_cgi_process`; a signal handler of the server can interrupt the `waitpid` that blocks. -/
def abortCgiProcess (s : CgiControl) (proc : ProcessControlData) (interrupted : Bool) :
    AbortPoint → Option (CgiControl × AbortPoint)
  | .test =>
    let (retPid, status, use) := s.use.waitNoHang proc.pid
    some ({ s with use := use }, if retPid ≠ -1 ∧ status = 0 then .kill else .release)
  | .kill => some ({ s with signalled := s.signalled ++ [s.use] }, .reap)
  | .reap =>
    if interrupted then some (s, .release)
    else
      match s.use with
      | .running _ => none
      | .zombie _ _ => some ({ s with use := .unused }, .reap)
      | .unused | .foreign => some (s, .release)
  | .release =>
    let refs := proc.references - 1
    some ({ s with proc := some { proc with references := refs } }, if refs = 0 then .free else .done)
  | .free => some ({ s with frees := s.frees + 1 }, .done)
  | .done => none

/-- The steps of `handle_cgi_request`, of the timer thread and of the other processes. `cgiTimeout` is `none` without
`USE_TIMERS`. -/
def step (cgiTimeout : Option ℚ) (s : CgiControl) : CgiLabel → Option CgiControl
  | .giveUp =>
    match s.request with
    | .start => some { s with request := .ended }
    | _ => none
  | .malloc mem =>
    match s.request, mem with
    | .start, none => some { s with request := .ended }
    | .start, some mem => some { s with proc := some mem, request := .allocated }
    | _, _ => none
  | .spawn pid =>
    match s.request, pid with
    | .allocated, none => some { s with frees := s.frees + 1, request := .ended }
    | .allocated, some pid => some { s with use := .running true, request := .spawned pid }
    | _, _ => none
  | .store =>
    match s.request with
    | .spawned pid => some { s with proc := some ⟨pid, 1⟩, request := .stored }
    | _ => none
  | .arm =>
    match s.request, s.proc with
    | .stored, some proc =>
      if 0 < cgiTimeout.getD 0 then
        some { s with proc := some { proc with references := 2 }, request := .arming }
      else some { s with request := .serving }
    | _, _ => none
  | .timerAdd accepted =>
    match s.request with
    -- the result of `timer_add` is not looked at
    | .arming => some { s with timer := if accepted then .listed else s.timer, request := .serving }
    | _ => none
  | .finish =>
    match s.request with
    | .serving => some { s with request := .aborting .test }
    | _ => none
  | .request interrupted =>
    match s.request, s.proc with
    | .aborting p, some proc =>
      (s.abortCgiProcess proc interrupted p).map fun (s, p) => { s with request := .aborting p }
    | _, _ => none
  | .timer interrupted =>
    match s.timer, s.proc with
    | .action p, some proc =>
      (s.abortCgiProcess proc interrupted p).map fun (s, p) => { s with timer := .action p }
    | _, _ => none
  | .look =>
    match s.thread with
    | .head => some { s with thread := if s.stopFlag then .left else .looks }
    | _ => none
  | .fire =>
    match s.thread, s.timer with
    | .looks, .listed => some { s with thread := .acts, timer := .action .test }
    | _, _ => none
  | .sleep =>
    match s.thread with
    | .looks => some { s with thread := .head }
    | _ => none
  | .actionReturns =>
    match s.thread, s.timer with
    -- `abort_cgi_process` returns 0, and there is no function to cancel; the action can be that of another timer
    | .acts, .action .done | .acts, .unset | .acts, .listed => some { s with thread := .head }
    | _, _ => none
  | .stop => some { s with stopFlag := true }
  | .childEnds e =>
    match s.use with
    | .running cgi => some { s with use := .zombie cgi e }
    | _ => none
  | .pidReused own =>
    match s.use with
    | .unused => some { s with use := if own then .running false else .foreign }
    | _ => none
  | .foreignEnds =>
    match s.use with
    | .foreign => some { s with use := .unused }
    | _ => none
  | .otherRequestWaits =>
    match s.use with
    | .zombie false _ => some { s with use := .unused }
    | _ => none

/-- The start of a CGI request, wherever the timer thread is. -/
def initial (thread : TimerLoop) (stopFlag : Bool) : CgiControl :=
  ⟨.unused, none, .start, .unset, thread, stopFlag, 0, []⟩

/-! ### What a step can do -/

inductive AbortEffect (s : CgiControl) (proc : ProcessControlData) :
    AbortPoint → Bool → CgiControl → AbortPoint → Prop
  | runs (cgi interrupted : Bool) (huse : s.use = .running cgi) : AbortEffect s proc .test interrupted s .kill
  | waits (cgi interrupted : Bool) (e : ChildEnd) (p : AbortPoint) (huse : s.use = .zombie cgi e)
      (hp : p = if e = .exited 0 then .kill else .release) :
      AbortEffect s proc .test interrupted { s with use := .unused } p
  | noChild (interrupted : Bool) (huse : ¬ s.use.IsChild) : AbortEffect s proc .test interrupted s .release
  | kills (interrupted : Bool) :
      AbortEffect s proc .kill interrupted { s with signalled := s.signalled ++ [s.use] } .reap
  | reaps (cgi : Bool) (e : ChildEnd) (huse : s.use = .zombie cgi e) :
      AbortEffect s proc .reap false { s with use := .unused } .reap
  | leaves (interrupted : Bool) : AbortEffect s proc .reap interrupted s .release
  | releases (interrupted : Bool) (p : AbortPoint)
      (hp : p = if proc.references - 1 = 0 then .free else .done) :
      AbortEffect s proc .release interrupted { s with
        proc := some { proc with references := proc.references - 1 } } p
  | frees (interrupted : Bool) : AbortEffect s proc .free interrupted { s with frees := s.frees + 1 } .done

theorem use_self {s : CgiControl} {use : PidUse} (h : s.use = use) : { s with use := use } = s := by
  rw [← h]

theorem abortCgiProcess_effect {s t : CgiControl} {proc : ProcessControlData} {interrupted : Bool}
    {p p' : AbortPoint} (h : s.abortCgiProcess proc interrupted p = some (t, p')) :
    AbortEffect s proc p interrupted t p' := by
  cases p with
  | test =>
    cases huse : s.use with
    | running cgi =>
      simp only [abortCgiProcess, huse, PidUse.waitNoHang] at h
      obtain ⟨rfl, rfl⟩ := Prod.mk.inj (Option.some.inj h)
      rw [use_self huse]
      exact .runs cgi interrupted huse
    | zombie cgi e =>
      simp only [abortCgiProcess, huse, PidUse.waitNoHang] at h
      obtain ⟨rfl, rfl⟩ := Prod.mk.inj (Option.some.inj h)
      refine .waits cgi interrupted e _ huse ?_
      have hpid : (proc.pid : Int) ≠ -1 := by omega
      exact if_congr ((and_iff_right hpid).trans e.status_eq_zero) rfl rfl
    | unused | foreign =>
      simp only [abortCgiProcess, huse, PidUse.waitNoHang] at h
      obtain ⟨rfl, rfl⟩ := Prod.mk.inj (Option.some.inj h)
      rw [use_self huse]
      exact .noChild interrupted (by rw [huse]; exact id)
  | kill =>
    obtain ⟨rfl, rfl⟩ := Prod.mk.inj (Option.some.inj h)
    exact .kills interrupted
  | reap =>
    cases interrupted with
    | true =>
      obtain ⟨rfl, rfl⟩ := Prod.mk.inj (Option.some.inj h)
      exact .leaves true
    | false =>
      simp only [abortCgiProcess, Bool.false_eq_true, if_false] at h
      cases huse : s.use with
      | running cgi =>
        rw [huse] at h
        cases h
      | zombie cgi e =>
        rw [huse] at h
        obtain ⟨rfl, rfl⟩ := Prod.mk.inj (Option.some.inj h)
        exact .reaps cgi e huse
      | unused | foreign =>
        rw [huse] at h
        obtain ⟨rfl, rfl⟩ := Prod.mk.inj (Option.some.inj h)
        exact .leaves false
  | release =>
    obtain ⟨rfl, rfl⟩ := Prod.mk.inj (Option.some.inj h)
    exact .releases interrupted _ rfl
  | free =>
    obtain ⟨rfl, rfl⟩ := Prod.mk.inj (Option.some.inj h)
    exact .frees interrupted
  | done => cases h

/-- What the processes do to a pid that is not waited for: no child is lost. -/
inductive Happens : PidUse → CgiLabel → PidUse → Prop
  | childEnds (cgi : Bool) (e : ChildEnd) : Happens (.running cgi) (.childEnds e) (.zombie cgi e)
  | pidReused (own : Bool) : Happens .unused (.pidReused own) (if own then .running false else .foreign)
  | foreignEnds : Happens .foreign .foreignEnds .unused

theorem Happens.isChild {use use' : PidUse} {l : CgiLabel} (h : Happens use l use') (huse : use.IsChild) :
    use'.IsChild := by
  cases h with
  | childEnds cgi e => trivial
  | pidReused own => cases huse
  | foreignEnds => cases huse

inductive Effect (s : CgiControl) : CgiLabel → CgiControl → Prop
  | givesUp (l : CgiLabel) (hreq : s.request = .start) : Effect s l { s with request := .ended }
  | allocates (mem : ProcessControlData) (hreq : s.request = .start) :
      Effect s (.malloc (some mem)) { s with proc := some mem, request := .allocated }
  | spawnFails (hreq : s.request = .allocated) :
      Effect s (.spawn none) { s with frees := s.frees + 1, request := .ended }
  | spawns (pid : Nat) (hreq : s.request = .allocated) :
      Effect s (.spawn (some pid)) { s with use := .running true, request := .spawned pid }
  | stores (pid : Nat) (hreq : s.request = .spawned pid) :
      Effect s .store { s with proc := some ⟨pid, 1⟩, request := .stored }
  | arms (proc : ProcessControlData) (hreq : s.request = .stored) (hproc : s.proc = some proc) :
      Effect s .arm { s with proc := some { proc with references := 2 }, request := .arming }
  | noTimeout (hreq : s.request = .stored) : Effect s .arm { s with request := .serving }
  | adds (hreq : s.request = .arming) :
      Effect s (.timerAdd true) { s with timer := .listed, request := .serving }
  | addFails (hreq : s.request = .arming) : Effect s (.timerAdd false) { s with request := .serving }
  | finishes (hreq : s.request = .serving) : Effect s .finish { s with request := .aborting .test }
  | requestAborts (proc : ProcessControlData) (p p' : AbortPoint) (interrupted : Bool) (t : CgiControl)
      (hreq : s.request = .aborting p) (hproc : s.proc = some proc) (habort : AbortEffect s proc p interrupted t p') :
      Effect s (.request interrupted) { t with request := .aborting p' }
  | timerAborts (proc : ProcessControlData) (p p' : AbortPoint) (interrupted : Bool) (t : CgiControl)
      (htimer : s.timer = .action p) (hproc : s.proc = some proc) (habort : AbortEffect s proc p interrupted t p') :
      Effect s (.timer interrupted) { t with timer := .action p' }
  | fires (hthread : s.thread = .looks) (htimer : s.timer = .listed) :
      Effect s .fire { s with thread := .acts, timer := .action .test }
  | leaves (hstop : s.stopFlag = true) : Effect s .look { s with thread := .left }
  | turns (l : CgiLabel) (thread : TimerLoop) (hthread : thread ≠ .left) : Effect s l { s with thread := thread }
  | stop : Effect s .stop { s with stopFlag := true }
  | happens (l : CgiLabel) (use : PidUse) (h : Happens s.use l use) : Effect s l { s with use := use }
  | otherWaits (e : ChildEnd) (huse : s.use = .zombie false e) :
      Effect s .otherRequestWaits { s with use := .unused }

theorem step_effect {cgiTimeout : Option ℚ} {s t : CgiControl} {l : CgiLabel} (h : step cgiTimeout s l = some t) :
    Effect s l t := by
  cases l with
  | giveUp =>
    rw [step] at h
    split at h
    · next hreq =>
      cases h
      exact .givesUp _ hreq
    · cases h
  | malloc mem =>
    unfold step at h
    dsimp only at h
    split at h
    · next hreq =>
      cases h
      exact .givesUp _ hreq
    · next mem hreq =>
      cases h
      exact .allocates mem hreq
    · cases h
  | spawn pid =>
    unfold step at h
    dsimp only at h
    split at h
    · next hreq =>
      cases h
      exact .spawnFails hreq
    · next pid hreq =>
      cases h
      exact .spawns pid hreq
    · cases h
  | store =>
    rw [step] at h
    split at h
    · next pid hreq =>
      cases h
      exact .stores pid hreq
    · cases h
  | arm =>
    rw [step] at h
    split at h
    · next proc hreq hproc =>
      split_ifs at h
      · cases h
        exact .arms proc hreq hproc
      · cases h
        exact .noTimeout hreq
    · cases h
  | timerAdd accepted =>
    rw [step] at h
    split at h
    · next hreq =>
      cases h
      cases accepted with
      | false => exact .addFails hreq
      | true => exact .adds hreq
    · cases h
  | finish =>
    rw [step] at h
    split at h
    · next hreq =>
      cases h
      exact .finishes hreq
    · cases h
  | request interrupted =>
    rw [step] at h
    split at h
    · next p proc hreq hproc =>
      obtain ⟨⟨t, p'⟩, habort, rfl⟩ := Option.map_eq_some_iff.mp h
      exact .requestAborts proc p p' interrupted t hreq hproc (abortCgiProcess_effect habort)
    · cases h
  | timer interrupted =>
    rw [step] at h
    split at h
    · next p proc htimer hproc =>
      obtain ⟨⟨t, p'⟩, habort, rfl⟩ := Option.map_eq_some_iff.mp h
      exact .timerAborts proc p p' interrupted t htimer hproc (abortCgiProcess_effect habort)
    · cases h
  | look =>
    rw [step] at h
    split at h
    · cases h
      by_cases hstop : s.stopFlag = true
      · rw [if_pos hstop]
        exact .leaves hstop
      · rw [if_neg hstop]
        exact .turns _ .looks (by decide)
    · cases h
  | fire =>
    rw [step] at h
    split at h
    · next hthread htimer =>
      cases h
      exact .fires hthread htimer
    · cases h
  | sleep =>
    rw [step] at h
    split at h
    · cases h
      exact .turns _ .head (by decide)
    · cases h
  | actionReturns =>
    rw [step] at h
    split at h
    · cases h
      exact .turns _ .head (by decide)
    · cases h
      exact .turns _ .head (by decide)
    · cases h
      exact .turns _ .head (by decide)
    · cases h
  | stop =>
    cases h
    exact .stop
  | childEnds e =>
    rw [step] at h
    split at h
    · next cgi huse =>
      cases h
      exact .happens _ _ (by rw [huse]; exact .childEnds cgi e)
    · cases h
  | pidReused own =>
    rw [step] at h
    split at h
    · next huse =>
      cases h
      exact .happens _ _ (by rw [huse]; exact .pidReused own)
    · cases h
  | foreignEnds =>
    rw [step] at h
    split at h
    · next huse =>
      cases h
      exact .happens _ _ (by rw [huse]; exact .foreignEnds)
    · cases h
  | otherRequestWaits =>
    rw [step] at h
    split at h
    · next e huse =>
      cases h
      exact .otherWaits e huse
    · cases h

end CgiControl

end CivetWeb
