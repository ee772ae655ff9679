import CivetWeb.Cgi.ProcessControl

namespace CivetWeb

/-- The call of `abort_cgi_process` that the request is in. -/
def CgiThread.point : CgiThread → Option AbortPoint
  | .aborting p => some p
  | _ => none

def CgiTimer.point : CgiTimer → Option AbortPoint
  | .action p => some p
  | _ => none

/-- The request is not done with the control data. -/
def CgiThread.Holds : CgiThread → Prop
  | .start | .ended | .aborting .done => False
  | _ => True

/-- The references that a call of `abort_cgi_process` is still to give back. -/
def AbortPoint.held : AbortPoint → Nat
  | .free | .done => 0
  | _ => 1

/-- How often a call that has given back the last reference is still to free the data. -/
def AbortPoint.freeing : AbortPoint → Nat
  | .free => 1
  | _ => 0

def CgiTimer.held : CgiTimer → Nat
  | .unset => 0
  | .listed => 1
  | .action p => p.held

def CgiTimer.freeing : CgiTimer → Nat
  | .action p => p.freeing
  | _ => 0

namespace CgiControl

variable (cgiTimeout : Option ℚ)

/-- The timer is not done with the control data; a timer that is still in the list when its thread has left the loop
is not looked at again. -/
def TimerHolds (s : CgiControl) : Prop :=
  match s.timer with
  | .unset | .action .done => False
  | .listed => s.thread ≠ .left
  | .action _ => True

/-- Only children that have not been waited for are signalled, and the control data is freed once, when nobody holds
it any more. -/
structure Controlled (s : CgiControl) : Prop where
  signals : ∀ use ∈ s.signalled, use.IsChild
  once : s.frees ≤ 1
  last : s.frees = 1 → ¬ s.request.Holds ∧ ¬ s.TimerHolds
  freed : s.proc ≠ none → ¬ s.request.Holds → ¬ s.TimerHolds → s.frees = 1

/-- A call at `p` does not take away a child that a call is about to signal: its own `WNOHANG` does not find it ended
with exit code 0, and no `waitpid` of it finds it ended while the `other` call is in front of its `kill`. -/
def SparesChild (s : CgiControl) (interrupted : Bool) (p other : Option AbortPoint) : Prop :=
  ∀ cgi e, s.use = .zombie cgi e →
    (p = some .test → e ≠ .exited 0 ∧ other ≠ some .kill) ∧
    (p = some .reap → interrupted = false → other ≠ some .kill)

/-- Steps that keep the process under control: none waits for the child between the test and the `kill` of
`abort_cgi_process`, `timer_add` accepts the timer while the timer thread is in its loop, and that does not leave the
loop in front of the timer. -/
def KeepsControl (s : CgiControl) : CgiLabel → Prop
  | .request interrupted => s.SparesChild interrupted s.request.point s.timer.point
  | .timer interrupted => s.SparesChild interrupted s.timer.point s.request.point
  | .otherRequestWaits => s.request.point ≠ some .kill ∧ s.timer.point ≠ some .kill
  | .timerAdd accepted => accepted = true ∧ s.thread ≠ .left
  | .look => s.stopFlag = true → s.timer ≠ .listed
  | _ => True

/-! ### The references -/

/-- The references are those that are still to be given back, and the data is freed, or is going to be, exactly when
there are none. -/
structure Balanced (s : CgiControl) (held freeing : Nat) : Prop where
  references : ∃ proc, s.proc = some proc ∧ proc.references = held
  frees : s.frees + freeing = if held = 0 then 1 else 0

theorem Balanced.of_same {s t : CgiControl} {held freeing : Nat} (h : Balanced s held freeing)
    (hproc : t.proc = s.proc) (hfrees : t.frees = s.frees) : Balanced t held freeing := by
  obtain ⟨hreferences, hcount⟩ := h
  refine ⟨?_, ?_⟩
  · rw [hproc]
    exact hreferences
  · rw [hfrees]
    exact hcount

/-- A step of `abort_cgi_process` next to `n` other references. -/
theorem balanced_abort {s t : CgiControl} {proc : ProcessControlData} {interrupted : Bool} {p p' : AbortPoint}
    {n m : Nat} (hproc : s.proc = some proc) (h : Balanced s (p.held + n) (p.freeing + m))
    (habort : AbortEffect s proc p interrupted t p') : Balanced t (p'.held + n) (p'.freeing + m) := by
  obtain ⟨⟨proc', hproc', hreferences⟩, hcount⟩ := h
  obtain rfl : proc = proc' := Option.some.inj (hproc.symm.trans hproc')
  cases habort with
  | runs cgi interrupted huse => exact ⟨⟨proc, hproc, hreferences⟩, hcount⟩
  | waits cgi interrupted e p huse hp =>
    have hkeep : p'.held = 1 ∧ p'.freeing = 0 := by
      rw [hp]
      split_ifs
      · exact ⟨rfl, rfl⟩
      · exact ⟨rfl, rfl⟩
    rw [hkeep.1, hkeep.2]
    exact ⟨⟨proc, hproc, hreferences⟩, hcount⟩
  | noChild interrupted huse => exact ⟨⟨proc, hproc, hreferences⟩, hcount⟩
  | kills interrupted => exact ⟨⟨proc, hproc, hreferences⟩, hcount⟩
  | reaps cgi e huse => exact ⟨⟨proc, hproc, hreferences⟩, hcount⟩
  | leaves interrupted => exact ⟨⟨proc, hproc, hreferences⟩, hcount⟩
  | releases interrupted p hp =>
    have hheld : proc.references = ((1 + n : Nat) : Int) := hreferences
    have hcount : s.frees + (0 + m) = if 1 + n = 0 then 1 else 0 := hcount
    rw [if_neg (by omega)] at hcount
    by_cases hlast : n = 0
    · rw [hp, if_pos (by omega)]
      refine ⟨⟨_, rfl, ?_⟩, ?_⟩
      · show proc.references - 1 = ((0 + n : Nat) : Int)
        omega
      · show s.frees + (1 + m) = if 0 + n = 0 then 1 else 0
        rw [if_pos (by omega)]
        omega
    · rw [hp, if_neg (by omega)]
      refine ⟨⟨_, rfl, ?_⟩, ?_⟩
      · show proc.references - 1 = ((0 + n : Nat) : Int)
        omega
      · show s.frees + (0 + m) = if 0 + n = 0 then 1 else 0
        rw [if_neg (by omega)]
        exact hcount
  | frees interrupted =>
    refine ⟨⟨proc, hproc, hreferences⟩, ?_⟩
    have hcount : s.frees + (1 + m) = if 0 + n = 0 then 1 else 0 := hcount
    show s.frees + 1 + (0 + m) = if 0 + n = 0 then 1 else 0
    omega

/-- The control data from its allocation to the last reference. -/
inductive Phase (s : CgiControl) : CgiThread → Prop
  | start (htimer : s.timer = .unset) (hproc : s.proc = none) (hfrees : s.frees = 0) : Phase s .start
  | allocated (htimer : s.timer = .unset) (hproc : s.proc ≠ none) (hfrees : s.frees = 0) : Phase s .allocated
  | spawned (pid : Nat) (htimer : s.timer = .unset) (hproc : s.proc ≠ none) (hfrees : s.frees = 0) :
      Phase s (.spawned pid)
  | stored (htimer : s.timer = .unset) (h : Balanced s 1 0) : Phase s .stored
  | arming (htimer : s.timer = .unset) (h : Balanced s 2 0) : Phase s .arming
  | serving (h : Balanced s (1 + s.timer.held) (0 + s.timer.freeing)) : Phase s .serving
  | aborting (p : AbortPoint) (h : Balanced s (p.held + s.timer.held) (p.freeing + s.timer.freeing)) :
      Phase s (.aborting p)
  | ended (htimer : s.timer = .unset) (hfrees : s.frees = if s.proc = none then 0 else 1) : Phase s .ended

theorem Phase.of_same {s t : CgiControl} {r : CgiThread} (h : Phase s r) (hproc : t.proc = s.proc)
    (htimer : t.timer = s.timer) (hfrees : t.frees = s.frees) : Phase t r := by
  cases h with
  | start hunset hnone hzero => exact .start (htimer.trans hunset) (hproc.trans hnone) (hfrees.trans hzero)
  | allocated hunset hsome hzero =>
    exact .allocated (htimer.trans hunset) (fun h => hsome (hproc.symm.trans h)) (hfrees.trans hzero)
  | spawned pid hunset hsome hzero =>
    exact .spawned pid (htimer.trans hunset) (fun h => hsome (hproc.symm.trans h)) (hfrees.trans hzero)
  | stored hunset h => exact .stored (htimer.trans hunset) (h.of_same hproc hfrees)
  | arming hunset h => exact .arming (htimer.trans hunset) (h.of_same hproc hfrees)
  | serving h =>
    refine .serving ?_
    rw [htimer]
    exact h.of_same hproc hfrees
  | aborting p h =>
    refine .aborting p ?_
    rw [htimer]
    exact h.of_same hproc hfrees
  | ended hunset hcount =>
    refine .ended (htimer.trans hunset) ?_
    rw [hfrees, hproc]
    exact hcount

/-! ### What is kept under control -/

structure Sound (s : CgiControl) : Prop where
  signals : ∀ use ∈ s.signalled, use.IsChild
  ready : s.request.point = some .kill ∨ s.timer.point = some .kill → s.use.IsChild
  served : s.timer = .listed → s.thread ≠ .left
  phase : Phase s s.request

theorem Sound.of_same {s t : CgiControl} (h : Sound s) (hrequest : t.request = s.request) (htimer : t.timer = s.timer)
    (hsignalled : t.signalled = s.signalled) (hproc : t.proc = s.proc) (hfrees : t.frees = s.frees)
    (huse : s.use.IsChild → t.use.IsChild) (hthread : t.thread = .left → t.timer ≠ .listed) : Sound t := by
  refine ⟨?_, ?_, ?_, ?_⟩
  · rw [hsignalled]
    exact h.signals
  · rw [hrequest, htimer]
    exact fun hkill => huse (h.ready hkill)
  · exact fun hlisted hleft => hthread hleft hlisted
  · rw [hrequest]
    exact h.phase.of_same hproc htimer hfrees

/-- A step of `abort_cgi_process` that spares the child leaves the timer and the threads alone, signals only a
child, and comes to the next `kill`, or leaves the other call in front of its own, only with a child. -/
theorem spared_abort {s t : CgiControl} {proc : ProcessControlData} {interrupted : Bool} {p p' : AbortPoint}
    {other : Option AbortPoint} (hsignals : ∀ use ∈ s.signalled, use.IsChild)
    (hready : p = .kill ∨ other = some .kill → s.use.IsChild) (hspares : s.SparesChild interrupted (some p) other)
    (habort : AbortEffect s proc p interrupted t p') :
    (∀ use ∈ t.signalled, use.IsChild) ∧ (p' = .kill ∨ other = some .kill → t.use.IsChild) := by
  cases habort with
  | runs cgi interrupted huse =>
    refine ⟨hsignals, ?_⟩
    intro _
    rw [huse]
    trivial
  | waits cgi interrupted e p huse hp =>
    obtain ⟨hzero, hother⟩ := (hspares cgi e huse).1 rfl
    refine ⟨hsignals, ?_⟩
    rintro (hkill | hkill)
    · rw [hp, if_neg hzero] at hkill
      cases hkill
    · exact absurd hkill hother
  | noChild interrupted huse =>
    refine ⟨hsignals, ?_⟩
    rintro (hkill | hkill)
    · cases hkill
    · exact hready (.inr hkill)
  | kills interrupted =>
    refine ⟨?_, ?_⟩
    · intro use huse
      rcases List.mem_append.mp huse with hold | hnew
      · exact hsignals use hold
      · rw [List.mem_singleton.mp hnew]
        exact hready (.inl rfl)
    · rintro (hkill | hkill)
      · cases hkill
      · exact hready (.inr hkill)
  | reaps cgi e huse =>
    refine ⟨hsignals, ?_⟩
    rintro (hkill | hkill)
    · cases hkill
    · exact absurd hkill ((hspares cgi e huse).2 rfl rfl)
  | leaves interrupted =>
    refine ⟨hsignals, ?_⟩
    rintro (hkill | hkill)
    · cases hkill
    · exact hready (.inr hkill)
  | releases interrupted p hp =>
    refine ⟨hsignals, ?_⟩
    rintro (hkill | hkill)
    · rw [hp] at hkill
      split_ifs at hkill
    · exact hready (.inr hkill)
  | frees interrupted =>
    refine ⟨hsignals, ?_⟩
    rintro (hkill | hkill)
    · cases hkill
    · exact hready (.inr hkill)

/-- Of the request, `abort_cgi_process` changes only the process, the control data and what is recorded. -/
theorem abort_frame {s t : CgiControl} {proc : ProcessControlData} {interrupted : Bool} {p p' : AbortPoint}
    (habort : AbortEffect s proc p interrupted t p') :
    t.request = s.request ∧ t.timer = s.timer ∧ t.thread = s.thread := by
  cases habort with
  | _ => exact ⟨rfl, rfl, rfl⟩

/-- A step of the request that is not its `abort_cgi_process`. -/
theorem Sound.advance {s t : CgiControl} (h : Sound s) (huse : t.use = s.use) (hsignalled : t.signalled = s.signalled)
    (htimer : t.timer = s.timer) (hthread : t.thread = s.thread) (hpoint : t.request.point ≠ some .kill)
    (hphase : Phase t t.request) : Sound t := by
  refine ⟨?_, ?_, ?_, hphase⟩
  · rw [hsignalled]
    exact h.signals
  · rw [huse, htimer]
    rintro (hkill | hkill)
    · exact absurd hkill hpoint
    · exact h.ready (.inr hkill)
  · rw [htimer, hthread]
    exact h.served

/-- A step of the timer, which gives back references only in its own call. -/
theorem Phase.of_timer {s t : CgiControl} {r : CgiThread} (h : Phase s r) (hset : s.timer ≠ .unset)
    (hmove : ∀ n m, Balanced s (s.timer.held + n) (s.timer.freeing + m) →
      Balanced t (t.timer.held + n) (t.timer.freeing + m)) : Phase t r := by
  cases h with
  | serving hbalanced =>
    rw [Nat.add_comm, Nat.add_comm 0] at hbalanced
    have hnext := hmove 1 0 hbalanced
    rw [Nat.add_comm, Nat.add_comm _ 0] at hnext
    exact .serving hnext
  | aborting p hbalanced =>
    rw [Nat.add_comm, Nat.add_comm p.freeing] at hbalanced
    have hnext := hmove p.held p.freeing hbalanced
    rw [Nat.add_comm, Nat.add_comm _ p.freeing] at hnext
    exact .aborting p hnext
  | start htimer hproc hfrees => exact absurd htimer hset
  | allocated htimer hproc hfrees => exact absurd htimer hset
  | spawned pid htimer hproc hfrees => exact absurd htimer hset
  | stored htimer hbalanced => exact absurd htimer hset
  | arming htimer hbalanced => exact absurd htimer hset
  | ended htimer hfrees => exact absurd htimer hset

theorem sound_step {s t : CgiControl} {l : CgiLabel} (h : Sound s) (hl : s.KeepsControl l)
    (hstep : step cgiTimeout s l = some t) : Sound t := by
  have hphase := h.phase
  cases step_effect hstep with
  | givesUp l hreq =>
    rw [hreq] at hphase
    cases hphase with
    | start htimer hproc hfrees =>
      refine h.advance rfl rfl rfl rfl nofun (.ended htimer ?_)
      rw [if_pos hproc]
      exact hfrees
  | allocates mem hreq =>
    rw [hreq] at hphase
    cases hphase with
    | start htimer hproc hfrees =>
      exact h.advance rfl rfl rfl rfl nofun (.allocated htimer (Option.some_ne_none mem) hfrees)
  | spawnFails hreq =>
    rw [hreq] at hphase
    cases hphase with
    | allocated htimer hproc hfrees =>
      refine h.advance rfl rfl rfl rfl nofun (.ended htimer ?_)
      rw [if_neg hproc]
      exact congrArg (· + 1) hfrees
  | spawns pid hreq =>
    rw [hreq] at hphase
    cases hphase with
    | allocated htimer hproc hfrees =>
      exact ⟨h.signals, fun _ => trivial, h.served, .spawned pid htimer hproc hfrees⟩
  | stores pid hreq =>
    rw [hreq] at hphase
    cases hphase with
    | spawned pid htimer hproc hfrees =>
      exact h.advance rfl rfl rfl rfl nofun (.stored htimer ⟨⟨_, rfl, rfl⟩, hfrees⟩)
  | arms proc hreq hproc =>
    rw [hreq] at hphase
    cases hphase with
    | stored htimer hbalanced =>
      exact h.advance rfl rfl rfl rfl nofun (.arming htimer ⟨⟨_, rfl, rfl⟩, hbalanced.frees⟩)
  | noTimeout hreq =>
    rw [hreq] at hphase
    cases hphase with
    | stored htimer hbalanced =>
      refine h.advance rfl rfl rfl rfl nofun (.serving ?_)
      show Balanced _ (1 + s.timer.held) (0 + s.timer.freeing)
      rw [htimer]
      exact hbalanced.of_same rfl rfl
  | adds hreq =>
    rw [hreq] at hphase
    cases hphase with
    | arming htimer hbalanced =>
      refine ⟨h.signals, ?_, fun _ => hl.2, .serving (hbalanced.of_same rfl rfl)⟩
      rintro (hkill | hkill)
      · cases hkill
      · cases hkill
  | addFails hreq => exact absurd hl.1 Bool.false_ne_true
  | finishes hreq =>
    rw [hreq] at hphase
    cases hphase with
    | serving hbalanced =>
      exact h.advance rfl rfl rfl rfl nofun (.aborting .test (hbalanced.of_same rfl rfl))
  | requestAborts proc p p' interrupted t hreq hproc habort =>
    obtain ⟨-, htimer, hthread⟩ := abort_frame habort
    have hready : p = .kill ∨ s.timer.point = some .kill → s.use.IsChild := by
      rintro (rfl | hkill)
      · exact h.ready (.inl (by rw [hreq]; rfl))
      · exact h.ready (.inr hkill)
    have hspares : s.SparesChild interrupted (some p) s.timer.point := by
      have hl : s.SparesChild interrupted s.request.point s.timer.point := hl
      rw [hreq] at hl
      exact hl
    obtain ⟨hsignals, hready'⟩ := spared_abort h.signals hready hspares habort
    rw [hreq] at hphase
    cases hphase with
    | aborting p hbalanced =>
      refine ⟨hsignals, ?_, ?_, .aborting p' ?_⟩
      · rintro (hkill | hkill)
        · exact hready' (.inl (Option.some.inj hkill))
        · exact hready' (.inr (htimer ▸ hkill))
      · show t.timer = .listed → t.thread ≠ .left
        rw [htimer, hthread]
        exact h.served
      · show Balanced _ (p'.held + t.timer.held) (p'.freeing + t.timer.freeing)
        rw [htimer]
        exact (balanced_abort hproc hbalanced habort).of_same rfl rfl
  | timerAborts proc p p' interrupted t htimer hproc habort =>
    obtain ⟨hrequest, -, hthread⟩ := abort_frame habort
    have hready : p = .kill ∨ s.request.point = some .kill → s.use.IsChild := by
      rintro (rfl | hkill)
      · exact h.ready (.inr (by rw [htimer]; rfl))
      · exact h.ready (.inl hkill)
    have hspares : s.SparesChild interrupted (some p) s.request.point := by
      have hl : s.SparesChild interrupted s.timer.point s.request.point := hl
      rw [htimer] at hl
      exact hl
    obtain ⟨hsignals, hready'⟩ := spared_abort h.signals hready hspares habort
    refine ⟨hsignals, ?_, ?_, ?_⟩
    · rintro (hkill | hkill)
      · exact hready' (.inr (hrequest ▸ hkill))
      · exact hready' (.inl (Option.some.inj hkill))
    · rintro ⟨⟩
    · show Phase _ t.request
      rw [hrequest]
      refine hphase.of_timer (by rw [htimer]; rintro ⟨⟩) ?_
      intro n m hbalanced
      rw [htimer] at hbalanced
      exact (balanced_abort hproc hbalanced habort).of_same rfl rfl
  | fires hthread htimer =>
    refine ⟨h.signals, ?_, ?_, ?_⟩
    · rintro (hkill | hkill)
      · exact h.ready (.inl hkill)
      · cases hkill
    · rintro ⟨⟩
    · refine hphase.of_timer (by rw [htimer]; rintro ⟨⟩) ?_
      intro n m hbalanced
      rw [htimer] at hbalanced
      exact hbalanced.of_same rfl rfl
  | leaves hstop =>
    exact h.of_same rfl rfl rfl rfl rfl id fun _ => hl hstop
  | turns l thread hthread =>
    exact h.of_same rfl rfl rfl rfl rfl id fun hleft => absurd hleft hthread
  | stop => exact h.of_same rfl rfl rfl rfl rfl id fun hleft hlisted => h.served hlisted hleft
  | happens l use hhappens =>
    exact h.of_same rfl rfl rfl rfl rfl hhappens.isChild fun hleft hlisted => h.served hlisted hleft
  | otherWaits e huse =>
    refine ⟨h.signals, ?_, h.served, h.phase.of_same rfl rfl rfl⟩
    rintro (hkill | hkill)
    · exact absurd hkill hl.1
    · exact absurd hkill hl.2

/-- Who holds the control data has a reference, or is about to free it. -/
theorem point_holds (p : AbortPoint) :
    p.held + p.freeing ≤ 1 ∧ ((CgiThread.aborting p).Holds ↔ p.held + p.freeing = 1) := by
  cases p with
  | done => exact ⟨by decide, iff_of_false id (by decide)⟩
  | _ => exact ⟨by decide, iff_of_true trivial rfl⟩

theorem timer_holds {s : CgiControl} (h : s.timer = .listed → s.thread ≠ .left) :
    s.timer.held + s.timer.freeing ≤ 1 ∧ (s.TimerHolds ↔ s.timer.held + s.timer.freeing = 1) := by
  unfold TimerHolds
  cases htimer : s.timer with
  | unset => exact ⟨by decide, iff_of_false id (by decide)⟩
  | listed => exact ⟨by decide, iff_of_true (h htimer) rfl⟩
  | action p =>
    cases p with
    | done => exact ⟨by decide, iff_of_false id (by decide)⟩
    | _ => exact ⟨by decide, iff_of_true trivial rfl⟩

theorem Sound.frees {s : CgiControl} (h : Sound s) :
    (s.frees = 1 ∧ ¬ s.request.Holds ∧ ¬ s.TimerHolds) ∨
      (s.frees = 0 ∧ (s.proc = none ∨ s.request.Holds ∨ s.TimerHolds)) := by
  obtain ⟨htimer, hholds⟩ := timer_holds h.served
  have hphase := h.phase
  generalize s.request = r at hphase
  cases hphase with
  | start hunset hproc hfrees => exact .inr ⟨hfrees, .inl hproc⟩
  | allocated hunset hproc hfrees => exact .inr ⟨hfrees, .inr (.inl trivial)⟩
  | spawned pid hunset hproc hfrees => exact .inr ⟨hfrees, .inr (.inl trivial)⟩
  | stored hunset hbalanced => exact .inr ⟨hbalanced.frees, .inr (.inl trivial)⟩
  | arming hunset hbalanced => exact .inr ⟨hbalanced.frees, .inr (.inl trivial)⟩
  | serving hbalanced =>
    have hcount := hbalanced.frees
    rw [if_neg (by omega)] at hcount
    exact .inr ⟨by omega, .inr (.inl trivial)⟩
  | aborting p hbalanced =>
    obtain ⟨hpoint, hrequest⟩ := point_holds p
    have hcount := hbalanced.frees
    rw [hrequest, hholds]
    by_cases hlast : p.held + s.timer.held = 0
    · rw [if_pos hlast] at hcount
      omega
    · rw [if_neg hlast] at hcount
      omega
  | ended hunset hfrees =>
    by_cases hproc : s.proc = none
    · rw [if_pos hproc] at hfrees
      exact .inr ⟨hfrees, .inl hproc⟩
    · rw [if_neg hproc] at hfrees
      refine .inl ⟨hfrees, id, ?_⟩
      rw [hholds, hunset]
      decide

theorem Sound.controlled {s : CgiControl} (h : Sound s) : Controlled s := by
  rcases h.frees with ⟨hfrees, hrequest, htimer⟩ | ⟨hfrees, hholds⟩
  · exact ⟨h.signals, hfrees.le, fun _ => ⟨hrequest, htimer⟩, fun _ _ _ => hfrees⟩
  · refine ⟨h.signals, by omega, fun hone => by omega, ?_⟩
    intro hproc hrequest htimer
    rcases hholds with hnone | hheld | hheld
    · exact absurd hnone hproc
    · exact absurd hheld hrequest
    · exact absurd hheld htimer

/-- The steps under which the process of a request stays under control: whatever the child, the timer and the server
do, only a child that has not been waited for is signalled, and the control data is freed once, behind the last
holder. -/
theorem cgiProcess_controlled (thread : TimerLoop) (stopFlag : Bool) (ls : List CgiLabel)
    (hkeeps : System.Along (step cgiTimeout) KeepsControl (initial thread stopFlag) ls) :
    System.Always (step cgiTimeout) Controlled (initial thread stopFlag) ls := by
  have hinitial : Sound (initial thread stopFlag) := by
    refine ⟨?_, ?_, ?_, .start rfl rfl rfl⟩
    · intro use huse
      cases huse
    · rintro (hkill | hkill)
      · cases hkill
      · cases hkill
    · rintro ⟨⟩
  refine System.Always.imp _ Sound Controlled (fun s => Sound.controlled) _ ls ?_
  exact System.always_of_invariant (step cgiTimeout) Sound KeepsControl
    (fun s l t hs hl ht => sound_step cgiTimeout hs hl ht) _ ls hinitial hkeeps

/-- The timer and the request both signal the child, which ends by the first signal. -/
def timeoutRun : List CgiLabel :=
  [.malloc (some ⟨0, 0⟩), .spawn (some 7), .store, .arm, .timerAdd true, .look, .fire, .timer false, .finish,
    .request false, .request false, .timer false, .childEnds (.signaled ⟨6, by decide⟩ true), .timer false,
    .timer false, .request false, .timer false, .request false, .request false, .actionReturns]

theorem cgiProcess_controlled_timeout :
    (System.run (step (some 1)) (initial .head false) timeoutRun).map (fun t => (t.signalled, t.frees, t.request)) =
        some ([.running true, .running true], 1, .aborting .done) ∧
      System.Always (step (some 1)) Controlled (initial .head false) timeoutRun := by
  have hkeeps : System.Along (step (some 1)) KeepsControl (initial .head false) timeoutRun := by
    refine System.along_cons _ _ _ _ _ _ rfl trivial ?_
    refine System.along_cons _ _ _ _ _ _ rfl trivial ?_
    refine System.along_cons _ _ _ _ _ _ rfl trivial ?_
    refine System.along_cons _ _ _ _ _ _ rfl trivial ?_
    refine System.along_cons _ _ _ _ _ _ rfl ⟨rfl, by decide⟩ ?_
    refine System.along_cons _ _ _ _ _ _ rfl nofun ?_
    refine System.along_cons _ _ _ _ _ _ rfl trivial ?_
    refine System.along_cons _ _ _ _ _ _ rfl nofun ?_
    refine System.along_cons _ _ _ _ _ _ rfl trivial ?_
    refine System.along_cons _ _ _ _ _ _ rfl nofun ?_
    refine System.along_cons _ _ _ _ _ _ rfl nofun ?_
    refine System.along_cons _ _ _ _ _ _ rfl nofun ?_
    refine System.along_cons _ _ _ _ _ _ rfl trivial ?_
    -- the child has ended, and nobody is in front of a `kill`
    refine System.along_cons _ _ _ _ _ _ rfl (fun _ _ _ => ⟨nofun, nofun⟩) ?_
    refine System.along_cons _ _ _ _ _ _ rfl nofun ?_
    refine System.along_cons _ _ _ _ _ _ rfl nofun ?_
    refine System.along_cons _ _ _ _ _ _ rfl nofun ?_
    refine System.along_cons _ _ _ _ _ _ rfl nofun ?_
    refine System.along_cons _ _ _ _ _ _ rfl nofun ?_
    refine System.along_cons _ _ _ _ _ _ rfl trivial ?_
    trivial
  exact ⟨by decide +kernel, cgiProcess_controlled (some 1) .head false timeoutRun hkeeps⟩

/-- The child exits with code 0, and the pid is used again before the `kill`. -/
def exitedRun : List CgiLabel :=
  [.malloc (some ⟨0, 0⟩), .spawn (some 7), .store, .arm, .finish, .childEnds (.exited 0), .request false,
    .pidReused false, .request false]

/-- There is no room for the timer. -/
def rejectedRun : List CgiLabel :=
  [.malloc (some ⟨0, 0⟩), .spawn (some 7), .store, .arm, .timerAdd false, .finish, .childEnds (.exited 1),
    .request false, .request false]

theorem cgiProcess_controlled_exited :
    (System.run (step none) (initial .head false) exitedRun).map (·.signalled) = some [.foreign] ∧
      (System.run (step (some 1)) (initial .head false) rejectedRun).map
        (fun t => (t.request, t.timer, t.proc.isSome, t.frees)) = some (.aborting .done, .unset, true, 0) ∧
      ¬ System.Always (step none) Controlled (initial .head false) exitedRun ∧
      ¬ System.Always (step (some 1)) Controlled (initial .head false) rejectedRun := by
  have hexited : (System.run (step none) (initial .head false) exitedRun).map (·.signalled) = some [.foreign] := by
    decide +kernel
  have hrejected : (System.run (step (some 1)) (initial .head false) rejectedRun).map
      (fun t => (t.request, t.timer, t.proc.isSome, t.frees)) = some (.aborting .done, .unset, true, 0) := by
    decide +kernel
  refine ⟨hexited, hrejected, ?_, ?_⟩
  · intro h
    obtain ⟨t, hrun, ht⟩ := Option.map_eq_some_iff.mp hexited
    have hend := h.run _ Controlled _ t exitedRun hrun
    exact hend.signals .foreign (by rw [ht]; exact List.mem_cons_self)
  · intro h
    obtain ⟨t, hrun, ht⟩ := Option.map_eq_some_iff.mp hrejected
    have hend := h.run _ Controlled _ t rejectedRun hrun
    simp only [Prod.mk.injEq] at ht
    obtain ⟨hrequest, htimer, hproc, hfrees⟩ := ht
    have hfreed := hend.freed (Option.isSome_iff_ne_none.mp hproc) (by rw [hrequest]; exact id)
      (by rw [TimerHolds, htimer]; exact id)
    rw [hfrees] at hfreed
    cases hfreed

end CgiControl

end CivetWeb
