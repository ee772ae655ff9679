import Mathlib.Algebra.Order.Ring.Rat
import Mathlib.Data.List.Pairwise
import Mathlib.Data.List.GetD
import Mathlib.Logic.Function.Basic

namespace CivetWeb

/-- `MAX_TIMERS`, the default of `MAX_WORKER_THREADS`. -/
def MAX_TIMERS : Nat := 1024 * 64

/-- A `ttimer`; functions and their arguments are numbers. The last two fields are not in the source: which
accepted call the timer comes from, and how many timers were put into the list before. -/
structure TTimer where
  time : ℚ
  period : ℚ
  action : Nat
  arg : Nat
  cancel : Option Nat
  id : Nat
  stamp : Nat
  deriving DecidableEq

/-- A `ttimers`; `timers` is the memory that the list stands in. -/
structure Timers where
  timers : Nat → TTimer
  timerCount : Nat
  timerCapacity : Nat

/-- The entries of the list. -/
def Timers.list (ts : Timers) : List TTimer := (List.range ts.timerCount).map ts.timers

/-- The loop of `timer_add` from the place `u` down: the memory, and the place that gets free. -/
def shiftUp (nextTime : ℚ) (timers : Nat → TTimer) : Nat → (Nat → TTimer) × Nat
  | 0 => (timers, 0)
  | u + 1 =>
    if nextTime < (timers u).time then shiftUp nextTime (Function.update timers (u + 1) (timers u)) u
    else (timers, u + 1)

/-- Room for one more timer; `none` where it is missing. `realloc` says whether there is more memory. -/
def Timers.grow (ts : Timers) (realloc : Bool) : Option Timers :=
  if ts.timerCount = MAX_TIMERS then none
  else if ts.timerCount = ts.timerCapacity then
    if realloc then some { ts with timerCapacity := ts.timerCapacity * 2 + 1 } else none
  else some ts

/-- The part of `timer_add` that holds the mutex: its `error`, and the list. -/
def Timers.add (ts : Timers) (realloc : Bool) (t : TTimer) : Bool × Timers :=
  match ts.grow realloc with
  | none => (true, ts)
  | some ts =>
    let (timers, u) := shiftUp t.time ts.timers ts.timerCount
    (false, { ts with timers := Function.update timers u t, timerCount := ts.timerCount + 1 })

/-- The loop of `timer_thread_run` that closes the gap behind the first timer; `n` turns from `u` on. -/
def shiftDown : Nat → Nat → (Nat → TTimer) → Nat → TTimer
  | 0, _, timers => timers
  | n + 1, u, timers => shiftDown n (u + 1) (Function.update timers (u - 1) (timers u))

/-- The first timer, taken out of the list where its time has come. -/
def Timers.take (ts : Timers) (d : ℚ) : Option (TTimer × Timers) :=
  if 0 < ts.timerCount ∧ (ts.timers 0).time ≤ d then
    some (ts.timers 0,
      { ts with
        timers := shiftDown (ts.timerCount - 1) 1 ts.timers, timerCount := ts.timerCount - 1 })
  else none

theorem Timers.list_length (ts : Timers) : ts.list.length = ts.timerCount := by
  simp [Timers.list]

theorem Timers.list_get (ts : Timers) (j : Nat) (h : j < ts.list.length) :
    ts.list[j] = ts.timers j := by
  simp [Timers.list]

/-- What the loop of `timer_add` does: the entries behind the free place are one place further, and these are
the ones that are later. -/
structure Shifted (nextTime : ℚ) (timers : Nat → TTimer) (count : Nat) (timers' : Nat → TTimer)
    (u : Nat) : Prop where
  le : u ≤ count
  front : ∀ j < u, timers' j = timers j
  back : ∀ j, u ≤ j → j < count → timers' (j + 1) = timers j
  above : ∀ j, count < j → timers' j = timers j
  later : ∀ j, u ≤ j → j < count → nextTime < (timers j).time
  stop : u = 0 ∨ (timers (u - 1)).time ≤ nextTime

theorem shiftUp_shifted (nextTime : ℚ) (count : Nat) (timers : Nat → TTimer) :
    Shifted nextTime timers count (shiftUp nextTime timers count).1
      (shiftUp nextTime timers count).2 := by
  induction count generalizing timers with
  | zero =>
    exact ⟨Nat.le_refl 0, fun _ _ => rfl, fun j _ h => absurd h (Nat.not_lt_zero j),
      fun _ _ => rfl, fun j _ h => absurd h (Nat.not_lt_zero j), Or.inl rfl⟩
  | succ u ih =>
    rw [shiftUp]
    split_ifs with hlater
    · have h := ih (Function.update timers (u + 1) (timers u))
      generalize shiftUp nextTime (Function.update timers (u + 1) (timers u)) u = r at h
      have hsame : ∀ j, j ≠ u + 1 → Function.update timers (u + 1) (timers u) j = timers j :=
        fun j hj => Function.update_of_ne hj _ _
      have hle := h.le
      refine ⟨by omega, ?_, ?_, ?_, ?_, ?_⟩
      · intro j hj
        rw [h.front j hj, hsame j (by omega)]
      · intro j hj hlt
        by_cases htop : j = u
        · -- the entry that is moved first is not touched again
          rw [htop, h.above (u + 1) (by omega), Function.update_self]
        · rw [h.back j hj (by omega), hsame j (by omega)]
      · intro j hj
        rw [h.above j (by omega), hsame j (by omega)]
      · intro j hj hlt
        by_cases htop : j = u
        · rw [htop]
          exact hlater
        · have hj' := h.later j hj (by omega)
          rwa [hsame j (by omega)] at hj'
      · refine h.stop.imp id ?_
        rw [hsame (r.2 - 1) (by omega)]
        exact id
    · exact ⟨Nat.le_refl _, fun _ _ => rfl, fun j h h' => absurd h' (by omega), fun _ _ => rfl,
        fun j h h' => absurd h' (by omega), Or.inr (not_lt.mp hlater)⟩

/-- Where a timer gets into a list: `front` stays in front of it, and `back` gets behind it. -/
structure InsertedAt (t : TTimer) (front back list' : List TTimer) : Prop where
  list : list' = front ++ t :: back
  back : ∀ e ∈ back, t.time < e.time
  front : ∀ e, front.getLast? = some e → e.time ≤ t.time

/-- Insertion puts the timer between the entries, and loses none of them. -/
theorem shifted_list (ts : Timers) (t : TTimer) (timers' : Nat → TTimer) (u : Nat)
    (h : Shifted t.time ts.timers ts.timerCount timers' u) :
    InsertedAt t (ts.list.take u) (ts.list.drop u)
      { ts with timers := Function.update timers' u t, timerCount := ts.timerCount + 1 }.list := by
  have hle := h.le
  have hlen := ts.list_length
  refine ⟨?_, ?_, ?_⟩
  · apply List.ext_getElem
    · rw [Timers.list_length, List.length_append, List.length_cons, List.length_take, List.length_drop]
      dsimp only
      omega
    · intro j hj hj'
      rw [Timers.list_length] at hj
      dsimp only at hj
      rw [Timers.list_get]
      dsimp only
      rcases Nat.lt_trichotomy j u with hlt | heq | hgt
      · rw [Function.update_of_ne (by omega), h.front j hlt,
          List.getElem_append_left (by rw [List.length_take]; omega), List.getElem_take,
          Timers.list_get]
      · subst heq
        rw [Function.update_self, List.getElem_append_right (by rw [List.length_take]; omega)]
        simp [hlen, hle]
      · obtain ⟨k, rfl⟩ : ∃ k, j = k + 1 := ⟨j - 1, by omega⟩
        rw [Function.update_of_ne (by omega), h.back k (by omega) (by omega),
          List.getElem_append_right (by rw [List.length_take]; omega)]
        have hidx : k + 1 - (ts.list.take u).length = (k - u) + 1 := by
          rw [List.length_take]
          omega
        simp only [hidx, List.getElem_cons_succ, List.getElem_drop, Timers.list_get]
        congr 1
        omega
  · intro e he
    obtain ⟨j, hj, rfl⟩ := List.mem_iff_getElem.mp he
    rw [List.length_drop] at hj
    rw [List.getElem_drop, Timers.list_get]
    exact h.later (u + j) (by omega) (by omega)
  · intro e he
    rcases h.stop with hz | hstop
    · rw [hz, List.take_zero] at he
      cases he
    · by_cases hz : u = 0
      · rw [hz, List.take_zero] at he
        cases he
      · have hlast : (ts.list.take u).getLast? = some (ts.timers (u - 1)) := by
          rw [List.getLast?_eq_getElem?, List.length_take, min_eq_left (by omega),
            List.getElem?_take_of_lt (by omega), List.getElem?_eq_getElem (by omega), Timers.list_get]
        rw [hlast] at he
        rw [← Option.some.inj he]
        exact hstop

/-- Where `timer_add` fails: the list is full, or there is no memory for a longer one. -/
def Timers.Full (ts : Timers) (realloc : Bool) : Prop :=
  ts.timerCount = MAX_TIMERS ∨ (ts.timerCount = ts.timerCapacity ∧ realloc = false)

/-- What `timer_add` does to the list. -/
inductive AddEffect (ts : Timers) (realloc : Bool) (t : TTimer) : Bool × Timers → Prop
  | full : ts.Full realloc → AddEffect ts realloc t (true, ts)
  | added (ts' : Timers) (u : Nat) : ¬ ts.Full realloc → u ≤ ts.timerCount →
      ts'.timerCount = ts.timerCount + 1 →
      (ts.timerCount ≤ ts.timerCapacity → ts'.timerCount ≤ ts'.timerCapacity) →
      InsertedAt t (ts.list.take u) (ts.list.drop u) ts'.list → AddEffect ts realloc t (false, ts')

theorem Timers.add_effect (ts : Timers) (realloc : Bool) (t : TTimer) :
    AddEffect ts realloc t (ts.add realloc t) := by
  have hinsert (ts1 : Timers) (htimers : ts1.timers = ts.timers)
      (hcount : ts1.timerCount = ts.timerCount) (hfull : ¬ ts.Full realloc)
      (hroom : ts.timerCount ≤ ts.timerCapacity → ts.timerCount < ts1.timerCapacity) :
      AddEffect ts realloc t
        (false, { ts1 with
          timers := Function.update (shiftUp t.time ts1.timers ts1.timerCount).1
            (shiftUp t.time ts1.timers ts1.timerCount).2 t
          timerCount := ts1.timerCount + 1 }) := by
    have hshift := shiftUp_shifted t.time ts1.timerCount ts1.timers
    generalize shiftUp t.time ts1.timers ts1.timerCount = r at hshift
    have hlist : ts1.list = ts.list := by rw [Timers.list, htimers, hcount, Timers.list]
    have hat := shifted_list ts1 t r.1 r.2 hshift
    rw [hlist] at hat
    refine AddEffect.added _ r.2 hfull (hcount ▸ hshift.le) (by dsimp only; rw [hcount]) ?_ hat
    intro h
    have := hroom h
    dsimp only
    omega
  unfold Timers.add Timers.grow
  split_ifs with hmax hcap hrealloc
  · exact AddEffect.full (Or.inl hmax)
  · apply hinsert { ts with timerCapacity := ts.timerCapacity * 2 + 1 } rfl rfl
    · rintro (h | ⟨-, h⟩)
      · exact hmax h
      · rw [hrealloc] at h
        cases h
    · intro h
      dsimp only
      omega
  · exact AddEffect.full (Or.inr ⟨hcap, by simpa using hrealloc⟩)
  · apply hinsert ts rfl rfl
    · rintro (h | ⟨h, -⟩)
      · exact hmax h
      · exact hcap h
    · intro h
      omega

theorem shiftDown_get (n u : Nat) (timers : Nat → TTimer) (hu : 0 < u) (j : Nat) :
    shiftDown n u timers j =
      if u - 1 ≤ j ∧ j < u - 1 + n then timers (j + 1) else timers j := by
  induction n generalizing u timers with
  | zero =>
    rw [shiftDown, if_neg (by omega)]
  | succ n ih =>
    rw [shiftDown, ih (u + 1) _ (by omega)]
    by_cases hfirst : j = u - 1
    · rw [if_neg (by omega), if_pos (by omega), hfirst, Function.update_self, Nat.sub_add_cancel hu]
    · by_cases hmoved : u - 1 ≤ j ∧ j < u - 1 + (n + 1)
      · rw [if_pos (by omega), if_pos hmoved, Function.update_of_ne (by omega)]
      · rw [if_neg (by omega), if_neg hmoved, Function.update_of_ne hfirst]

/-- The first timer is taken out of the list, and only where its time has come. -/
theorem Timers.take_list (ts ts' : Timers) (d : ℚ) (t : TTimer) (h : ts.take d = some (t, ts')) :
    ts.list = t :: ts'.list ∧ t.time ≤ d ∧ ts'.timerCapacity = ts.timerCapacity := by
  unfold Timers.take at h
  split_ifs at h with hdue
  obtain ⟨rfl, rfl⟩ := Prod.mk.inj (Option.some.inj h)
  refine ⟨?_, hdue.2, rfl⟩
  apply List.ext_getElem
  · rw [Timers.list_length, List.length_cons, Timers.list_length]
    dsimp only
    omega
  · intro j hj hj'
    rw [Timers.list_get]
    cases j with
    | zero => rfl
    | succ j =>
      rw [Timers.list_length] at hj
      rw [List.getElem_cons_succ, Timers.list_get]
      dsimp only
      rw [shiftDown_get _ _ _ (by decide), if_pos (by omega)]

end CivetWeb
