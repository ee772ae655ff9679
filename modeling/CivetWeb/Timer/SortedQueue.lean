import CivetWeb.Timer.TimerThread
import Mathlib.Data.List.Induction

namespace CivetWeb

/-- Earlier by time, and with equal times by insertion. -/
def TTimer.Before (a b : TTimer) : Prop := a.time < b.time ∨ (a.time = b.time ∧ a.stamp < b.stamp)

theorem TTimer.Before.le (a b : TTimer) (h : a.Before b) : a.time ≤ b.time :=
  h.elim (fun hlt => hlt.le) (fun heq => heq.1.le)

/-- The list is a queue that is sorted by time, and has room. -/
structure TimerState.Queue (s : TimerState) : Prop where
  sorted : s.ts.list.Pairwise TTimer.Before
  stamps : ∀ e ∈ s.ts.list, e.stamp < s.stamp
  room : s.ts.timerCount ≤ s.ts.timerCapacity
  limit : s.ts.timerCount ≤ MAX_TIMERS

/-- What a call of `timer_add` does to the list: nothing where it fails, else there is one more timer, behind
those that are not later. -/
structure AddStep (ts ts' : Timers) (error : Bool) (t : TTimer) : Prop where
  failed : error = true → ts' = ts
  inserted : error = false → ∃ front back, ts.list = front ++ back ∧ ts'.list = front ++ t :: back ∧
    (∀ e ∈ front, e.time ≤ t.time) ∧ ∀ e ∈ back, t.time < e.time

/-- What a step does to the list. -/
def ListStep (s : TimerState) (l : TimerLabel) (s' : TimerState) : Prop :=
  match l with
  | .insert i realloc => ∃ args, s.adders[i]? = some args ∧
      AddStep s.ts s'.ts (s.ts.add realloc (s.newTimer args)).1 (s.newTimer args)
  | .addAgain realloc => ∃ t d, s.thread = .adding t d ∧
      AddStep s.ts s'.ts (s.ts.add realloc { t with stamp := s.stamp }).1 { t with stamp := s.stamp }
  | .look => s'.ts = s.ts ∨ ∃ t d, s.thread = .head d ∧ s'.thread = .action t d ∧
      s.ts.list = t :: s'.ts.list ∧ t.time ≤ d ∧ ∀ e ∈ s'.ts.list, t.time ≤ e.time
  | _ => s'.ts = s.ts

/-- All entries up to one that is not later are not later. -/
theorem sorted_front (front : List TTimer) (x : ℚ) (hsorted : front.Pairwise TTimer.Before)
    (hlast : ∀ e, front.getLast? = some e → e.time ≤ x) : ∀ e ∈ front, e.time ≤ x := by
  induction front using List.reverseRecOn with
  | nil =>
    intro e he
    cases he
  | append_singleton front last ih =>
    intro e he
    have hx : last.time ≤ x := hlast last (by simp)
    rcases List.mem_append.mp he with hfront | hend
    · have hbefore := (List.pairwise_append.mp hsorted).2.2 e hfront last (by simp)
      exact hbefore.le.trans hx
    · rw [List.mem_singleton.mp hend]
      exact hx

/-- A new entry behind those that are not later keeps the queue sorted. -/
theorem sorted_insert (front back : List TTimer) (t : TTimer)
    (hsorted : (front ++ back).Pairwise TTimer.Before) (hfront : ∀ e ∈ front, e.time ≤ t.time)
    (hback : ∀ e ∈ back, t.time < e.time) (hstamp : ∀ e ∈ front, e.stamp < t.stamp) :
    (front ++ t :: back).Pairwise TTimer.Before := by
  obtain ⟨h1, h2, h12⟩ := List.pairwise_append.mp hsorted
  refine List.pairwise_append.mpr ⟨h1, List.pairwise_cons.mpr ⟨?_, h2⟩, ?_⟩
  · intro e he
    exact Or.inl (hback e he)
  · intro a ha b hb
    rcases List.mem_cons.mp hb with rfl | hb
    · rcases lt_or_eq_of_le (hfront a ha) with hlt | heq
      · exact Or.inl hlt
      · exact Or.inr ⟨heq, hstamp a ha⟩
    · exact h12 a ha b hb

/-- `timer_add` on a sorted queue. -/
theorem AddEffect.addStep (ts : Timers) (realloc : Bool) (t : TTimer) (r : Bool × Timers)
    (h : AddEffect ts realloc t r) (hsorted : ts.list.Pairwise TTimer.Before) :
    AddStep ts r.2 r.1 t := by
  cases h with
  | full _ => exact ⟨fun _ => rfl, fun h => (by cases h)⟩
  | added ts' u _ _ _ _ hat =>
    refine ⟨fun h => (by cases h), fun _ => ?_⟩
    refine ⟨_, _, (List.take_append_drop u ts.list).symm, hat.list, ?_, hat.back⟩
    exact sorted_front _ _ (hsorted.sublist (List.take_sublist u ts.list)) hat.front

/-- The queue behind a call of `timer_add`, for a timer with a new stamp. -/
theorem TimerState.Queue.add (s s' : TimerState) (realloc : Bool) (t : TTimer) (h : s.Queue)
    (hts : s'.ts = (s.ts.add realloc t).2) (hnew : t.stamp = s.stamp) (hle : s.stamp ≤ s'.stamp)
    (hstamp : (s.ts.add realloc t).1 = false → s'.stamp = s.stamp + 1) : s'.Queue := by
  have heffect := s.ts.add_effect realloc t
  have hadd := heffect.addStep s.ts realloc t _ h.sorted
  rw [← hts] at hadd
  generalize s.ts.add realloc t = r at heffect hadd hstamp hts
  cases heffect with
  | full _ =>
    have hsame : s'.ts = s.ts := hts
    refine ⟨hsame ▸ h.sorted, ?_, hsame ▸ h.room, hsame ▸ h.limit⟩
    intro e he
    exact lt_of_lt_of_le (h.stamps e (hsame ▸ he)) hle
  | added ts' u hfull hu hcount hroom hat =>
    obtain ⟨front, back, hlist, hlist', hfront, hback⟩ := hadd.inserted rfl
    have hold : ∀ e ∈ front ++ back, e.stamp < s.stamp := by
      rw [← hlist]
      exact h.stamps
    have hsorted := h.sorted
    rw [hlist] at hsorted
    refine ⟨?_, ?_, hts ▸ hroom h.room, ?_⟩
    · rw [hlist']
      apply sorted_insert front back t hsorted hfront hback
      intro e he
      rw [hnew]
      exact hold e (List.mem_append_left back he)
    · intro e he
      rw [hlist', List.mem_append, List.mem_cons] at he
      rw [hstamp rfl]
      rcases he with he | rfl | he
      · exact Nat.lt_succ_of_lt (hold e (List.mem_append_left back he))
      · rw [hnew]
        exact Nat.lt_succ_self _
      · exact Nat.lt_succ_of_lt (hold e (List.mem_append_right front he))
    · have hmax : s.ts.timerCount ≠ MAX_TIMERS := fun h => hfull (Or.inl h)
      have := h.limit
      rw [hts, hcount]
      omega

theorem TimerState.Queue.same (s s' : TimerState) (h : s.Queue) (hts : s'.ts = s.ts)
    (hstamp : s'.stamp = s.stamp) : s'.Queue :=
  ⟨hts ▸ h.sorted, hts ▸ hstamp ▸ h.stamps, hts ▸ h.room, hts ▸ h.limit⟩

/-- The queue without its first timer. -/
theorem TimerState.Queue.take (s s' : TimerState) (d : ℚ) (t : TTimer) (h : s.Queue)
    (htake : s.ts.take d = some (t, s'.ts)) (hstamp : s'.stamp = s.stamp) :
    s'.Queue ∧ ∀ e ∈ s'.ts.list, t.time ≤ e.time := by
  obtain ⟨hlist, -, hcap⟩ := s.ts.take_list s'.ts d t htake
  have hsorted := h.sorted
  rw [hlist] at hsorted
  obtain ⟨hfirst, hrest⟩ := List.pairwise_cons.mp hsorted
  have hcount : s.ts.timerCount = s'.ts.timerCount + 1 := by
    rw [← Timers.list_length, hlist, List.length_cons, Timers.list_length]
  have hroom := h.room
  have hlimit := h.limit
  refine ⟨⟨hrest, ?_, by omega, by omega⟩, fun e he => (hfirst e he).le⟩
  intro e he
  rw [hstamp]
  exact h.stamps e (hlist ▸ List.mem_cons_of_mem t he)

/-- Every step keeps the queue, and treats the list as it should. -/
theorem TimerState.Queue.step (s s' : TimerState) (l : TimerLabel) (h : s.Queue)
    (hstep : s.step l = some s') : s'.Queue ∧ ListStep s l s' := by
  unfold TimerState.step at hstep
  cases l with
  | tick now =>
    dsimp only at hstep
    split_ifs at hstep
    obtain rfl := Option.some.inj hstep
    exact ⟨h.same s _ rfl rfl, rfl⟩
  | stop =>
    obtain rfl := Option.some.inj hstep
    exact ⟨h.same s _ rfl rfl, rfl⟩
  | call args =>
    obtain rfl := Option.some.inj hstep
    exact ⟨h.same s _ rfl rfl, rfl⟩
  | insert i realloc =>
    dsimp only at hstep
    cases hargs : s.adders[i]? with
    | none =>
      rw [hargs] at hstep
      cases hstep
    | some args =>
      rw [hargs] at hstep
      dsimp only at hstep
      have hadd := (s.ts.add_effect realloc (s.newTimer args)).addStep s.ts realloc _ _ h.sorted
      cases hr : s.ts.add realloc (s.newTimer args) with
      | mk error ts =>
        rw [hr] at hstep hadd
        cases error with
        | true =>
          obtain rfl := Option.some.inj hstep
          refine ⟨h.same s _ rfl rfl, args, hargs, ?_⟩
          rw [hr]
          exact ⟨fun _ => rfl, fun h => (by cases h)⟩
        | false =>
          obtain rfl := Option.some.inj hstep
          refine ⟨h.add s _ realloc (s.newTimer args) (by rw [hr]) rfl (Nat.le_succ _) (fun _ => rfl), args,
            hargs, ?_⟩
          rw [hr]
          exact hadd
  | readClock =>
    dsimp only at hstep
    split at hstep
    · obtain rfl := Option.some.inj hstep
      exact ⟨h.same s _ rfl rfl, rfl⟩
    · obtain rfl := Option.some.inj hstep
      exact ⟨h.same s _ rfl rfl, rfl⟩
    · cases hstep
  | look =>
    dsimp only at hstep
    split at hstep
    · rename_i d hthread
      split_ifs at hstep
      · obtain rfl := Option.some.inj hstep
        exact ⟨h.same s _ rfl rfl, Or.inl rfl⟩
      · cases htake : s.ts.take d with
        | none =>
          rw [htake] at hstep
          obtain rfl := Option.some.inj hstep
          exact ⟨h.same s _ rfl rfl, Or.inl rfl⟩
        | some r =>
          obtain ⟨t, ts⟩ := r
          rw [htake] at hstep
          obtain rfl := Option.some.inj hstep
          obtain ⟨hqueue, hfirst⟩ := h.take s { s with ts := ts, thread := .action t d } d t htake rfl
          obtain ⟨hlist, hdue, -⟩ := s.ts.take_list ts d t htake
          exact ⟨hqueue, Or.inr ⟨t, d, hthread, rfl, hlist, hdue, hfirst⟩⟩
    · cases hstep
  | actionReturns res =>
    dsimp only at hstep
    split at hstep
    · split_ifs at hstep
      · obtain rfl := Option.some.inj hstep
        exact ⟨h.same s _ rfl rfl, rfl⟩
      · obtain rfl := Option.some.inj hstep
        exact ⟨h.same s _ rfl rfl, rfl⟩
    · cases hstep
  | addAgain realloc =>
    dsimp only at hstep
    split at hstep
    · rename_i t d hthread
      obtain rfl := Option.some.inj hstep
      refine ⟨h.add s _ realloc { t with stamp := s.stamp } rfl rfl (Nat.le_succ _) (fun _ => rfl), t, d,
        hthread, ?_⟩
      exact (s.ts.add_effect realloc { t with stamp := s.stamp }).addStep s.ts realloc _ _ h.sorted
    · cases hstep
  | cancelNext =>
    dsimp only at hstep
    split at hstep
    · split_ifs at hstep
      · obtain rfl := Option.some.inj hstep
        exact ⟨h.same s _ rfl rfl, rfl⟩
      · obtain rfl := Option.some.inj hstep
        exact ⟨h.same s _ rfl rfl, rfl⟩
    · cases hstep

theorem initial_queue (timers : Nat → TTimer) (clock : ℚ) : (TimerState.initial timers clock).Queue :=
  ⟨List.Pairwise.nil, fun e he => (by cases he), Nat.le_refl 0, Nat.zero_le _⟩

/-- In every run of the timers the list is a sorted queue, and every step treats it as such. -/
theorem timers_queue (timers : Nat → TTimer) (clock : ℚ) (ls : List TimerLabel) :
    System.Always TimerState.step
      (fun s => s.Queue ∧ ∀ l s', s.step l = some s' → ListStep s l s')
      (TimerState.initial timers clock) ls := by
  have hqueue : System.Always TimerState.step TimerState.Queue (TimerState.initial timers clock) ls := by
    apply System.always_of_kept TimerState.step TimerState.Queue
    · exact fun s l s' h hstep => (h.step s s' l hstep).1
    · exact initial_queue timers clock
  exact System.Always.imp TimerState.step _ _
    (fun s h => ⟨h, fun l s' hstep => (h.step s s' l hstep).2⟩) _ ls hqueue

end CivetWeb
