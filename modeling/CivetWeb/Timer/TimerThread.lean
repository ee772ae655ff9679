import CivetWeb.Lib.System
import CivetWeb.Timer.Timers

namespace CivetWeb

/-- The arguments of a call of `timer_add`. -/
structure TimerArgs where
  nextTime : ℚ
  period : ℚ
  isRelative : Bool
  action : Nat
  arg : Nat
  cancel : Option Nat
  deriving DecidableEq

/-- The time of a timer, from the clock that `timer_add` reads. -/
def timerTime (now nextTime : ℚ) (isRelative : Bool) : ℚ :=
  let nextTime := if isRelative then nextTime + now else nextTime
  if nextTime < now then now else nextTime

/-- Where the timer thread is, with the clock value `d` that it has read. -/
inductive TimerThread where
  | start
  | head (d : ℚ)
  | sleeping
  | action (t : TTimer) (d : ℚ)
  | adding (t : TTimer) (d : ℚ)
  | leaving (u : Nat)
  | done
  deriving DecidableEq

/-- The timers of a server. `adders` are the calls of `timer_add` that have read the clock and wait for the
mutex. The fields from `stamp` on keep the history: the insertions, the timers that were accepted, those that
were finished, and the calls of cancel functions with the timer they were for. -/
structure TimerState where
  ts : Timers
  clock : ℚ
  stopFlag : Bool
  adders : List TimerArgs
  thread : TimerThread
  stamp : Nat
  accepted : List TTimer
  finished : List Nat
  calls : List (Nat × Nat × Nat)

inductive TimerLabel where
  | tick (now : ℚ)
  | stop
  | call (args : TimerArgs)
  | insert (i : Nat) (realloc : Bool)
  | readClock
  | look
  | actionReturns (res : Int)
  | addAgain (realloc : Bool)
  | cancelNext
  deriving DecidableEq

namespace TimerState

/-- The timer that an accepted call puts into the list. -/
def newTimer (s : TimerState) (args : TimerArgs) : TTimer :=
  ⟨args.nextTime, args.period, args.action, args.arg, args.cancel, s.stamp, s.stamp⟩

/-- A timer ends: `cancel` is called where there is one. -/
def finish (s : TimerState) (t : TTimer) : TimerState :=
  { s with
    finished := s.finished ++ [t.id]
    calls := s.calls ++ (t.cancel.map fun c => (t.id, c, t.arg)).toList }

def step (s : TimerState) : TimerLabel → Option TimerState
  | .tick now => if s.clock ≤ now then some { s with clock := now } else none
  | .stop => some { s with stopFlag := true }
  | .call args =>
    let nextTime := timerTime s.clock args.nextTime args.isRelative
    some { s with adders := s.adders ++ [{ args with nextTime := nextTime }] }
  | .insert i realloc =>
    match s.adders[i]? with
    | none => none
    | some args =>
      let t := s.newTimer args
      let s := { s with adders := s.adders.eraseIdx i }
      match s.ts.add realloc t with
      | (true, _) => some s
      | (false, ts) =>
        some { s with ts := ts, stamp := s.stamp + 1, accepted := s.accepted ++ [t] }
  | .readClock =>
    match s.thread with
    | .start | .sleeping => some { s with thread := .head s.clock }
    | _ => none
  | .look =>
    match s.thread with
    | .head d =>
      if s.stopFlag then some { s with thread := .leaving 0 }
      else
        match s.ts.take d with
        | some (t, ts) => some { s with ts := ts, thread := .action t d }
        | none => some { s with thread := .sleeping }
    | _ => none
  | .actionReturns res =>
    match s.thread with
    | .action t d =>
      if 0 < res ∧ 0 < t.period then
        let nextTime := timerTime s.clock (t.time + t.period) false
        some { s with thread := .adding { t with time := nextTime } d }
      else some { s.finish t with thread := .head d }
    | _ => none
  | .addAgain realloc =>
    match s.thread with
    | .adding t d =>
      -- the result of `timer_add` is not looked at
      let (_, ts) := s.ts.add realloc { t with stamp := s.stamp }
      some { s with ts := ts, stamp := s.stamp + 1, thread := .head d }
    | _ => none
  | .cancelNext =>
    match s.thread with
    | .leaving u =>
      if u < s.ts.timerCount then some { s.finish (s.ts.timers u) with thread := .leaving (u + 1) }
      else some { s with thread := .done }
    | _ => none

/-- The timers behind `timers_init`. -/
def initial (timers : Nat → TTimer) (clock : ℚ) : TimerState :=
  ⟨⟨timers, 0, 0⟩, clock, false, [], .start, 0, [], [], []⟩

end TimerState

end CivetWeb
