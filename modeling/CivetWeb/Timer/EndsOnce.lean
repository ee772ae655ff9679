import CivetWeb.Timer.SortedQueue
import Mathlib.Data.List.Nodup
import Mathlib.Data.List.Perm.Basic

namespace CivetWeb

namespace TimerState

/-- The timers in the list that the timer thread has not passed. -/
def remaining (s : TimerState) : List TTimer :=
  match s.thread with
  | .leaving u => s.ts.list.drop u
  | .done => []
  | _ => s.ts.list

/-- The timer that is being executed, with its way back into the list. -/
def executing (s : TimerState) : List TTimer :=
  match s.thread with
  | .action t _ => [t]
  | .adding t _ => [t]
  | _ => []

/-- Where the timers are. -/
def places (s : TimerState) : List Nat := (s.remaining ++ s.executing).map (·.id) ++ s.finished

/-- The calls of a timer's cancel function when it has finished. -/
def cancelCall (t : TTimer) : List (Nat × Nat × Nat) := (t.cancel.map fun c => (t.id, c, t.arg)).toList

/-- Every accepted timer is either in the list, being executed or finished, and is cancelled once when it is
finished. -/
structure EndsOnce (s : TimerState) : Prop where
  once : ∀ t ∈ s.accepted, s.places.count t.id = 1
  cancelled : ∀ t ∈ s.accepted,
    s.calls.filter (fun c => c.1 == t.id) = if t.id ∈ s.finished then cancelCall t else []

/-- The timer was accepted, with this argument and cancel function. -/
def Accepted (s : TimerState) (e : TTimer) : Prop :=
  ∃ t ∈ s.accepted, t.id = e.id ∧ t.arg = e.arg ∧ t.cancel = e.cancel

/-- What holds in any case. -/
structure Accounts (s : TimerState) : Prop where
  queue : s.Queue
  fresh : ∀ t ∈ s.accepted, t.id < s.stamp
  distinct : (s.accepted.map (·.id)).Nodup
  list : ∀ e ∈ s.ts.list, s.Accepted e
  held : ∀ e ∈ s.executing, s.Accepted e
  finished : ∀ i ∈ s.finished, ∃ t ∈ s.accepted, t.id = i
  calls : ∀ t ∈ s.accepted, s.calls.filter (fun c => c.1 == t.id) =
    (List.replicate (s.finished.count t.id) (cancelCall t)).flatten
  called : ∀ c ∈ s.calls, c.1 ∈ s.finished
  passed : ∀ u, s.thread = .leaving u → u ≤ s.ts.timerCount

theorem cancelCall_filter (t : TTimer) (i : Nat) :
    (cancelCall t).filter (fun c => c.1 == i) = if t.id = i then cancelCall t else [] := by
  unfold cancelCall
  cases t.cancel with
  | none => simp
  | some c =>
    by_cases h : t.id = i
    · simp [h]
    · simp [h]

theorem Accepted.cancelCall (s : TimerState) (e t : TTimer) (h : s.Accounts) (he : s.Accepted e)
    (ht : t ∈ s.accepted) (hid : t.id = e.id) : TimerState.cancelCall e = TimerState.cancelCall t := by
  obtain ⟨t', ht', hid', harg, hcancel⟩ := he
  obtain rfl : t = t' := List.inj_on_of_nodup_map h.distinct ht ht' (hid.trans hid'.symm)
  rw [TimerState.cancelCall, TimerState.cancelCall, hid, harg, hcancel]

theorem Accepted.mono (s s' : TimerState) (e : TTimer) (h : s.Accepted e)
    (hsub : ∀ t ∈ s.accepted, t ∈ s'.accepted) : s'.Accepted e := by
  obtain ⟨t, ht, hid, harg, hcancel⟩ := h
  exact ⟨t, hsub t ht, hid, harg, hcancel⟩

theorem Accounts.keep (s s' : TimerState) (h : s.Accounts) (hqueue : s'.Queue)
    (hstamp : s.stamp ≤ s'.stamp) (haccepted : s'.accepted = s.accepted)
    (hfinished : s'.finished = s.finished) (hcalls : s'.calls = s.calls)
    (hlist : ∀ e ∈ s'.ts.list, s.Accepted e) (hheld : ∀ e ∈ s'.executing, s.Accepted e)
    (hpassed : ∀ u, s'.thread = .leaving u → u ≤ s'.ts.timerCount) : s'.Accounts := by
  have hsub : ∀ t ∈ s.accepted, t ∈ s'.accepted := fun t ht => haccepted ▸ ht
  refine ⟨hqueue, ?_, haccepted ▸ h.distinct, ?_, ?_, ?_, ?_, ?_, hpassed⟩
  · exact fun t ht => lt_of_lt_of_le (h.fresh t (haccepted ▸ ht)) hstamp
  · exact fun e he => (hlist e he).mono s s' e hsub
  · exact fun e he => (hheld e he).mono s s' e hsub
  · rw [hfinished, haccepted]
    exact h.finished
  · rw [hcalls, hfinished, haccepted]
    exact h.calls
  · rw [hcalls, hfinished]
    exact h.called

/-- A timer ends. -/
theorem Accounts.finish (s s' : TimerState) (t : TTimer) (h : s.Accounts) (ht : s.Accepted t)
    (hts : s'.ts = s.ts) (hstamp : s'.stamp = s.stamp) (haccepted : s'.accepted = s.accepted)
    (hfinished : s'.finished = s.finished ++ [t.id]) (hcalls : s'.calls = s.calls ++ cancelCall t)
    (hheld : s'.executing = []) (hpassed : ∀ u, s'.thread = .leaving u → u ≤ s'.ts.timerCount) :
    s'.Accounts := by
  have hsub : ∀ t ∈ s.accepted, t ∈ s'.accepted := fun t ht => haccepted ▸ ht
  refine ⟨h.queue.same s s' hts hstamp, ?_, haccepted ▸ h.distinct, ?_, ?_, ?_, ?_, ?_, hpassed⟩
  · rw [haccepted, hstamp]
    exact h.fresh
  · rw [hts]
    exact fun e he => (h.list e he).mono s s' e hsub
  · rw [hheld]
    exact fun e he => (by cases he)
  · intro i hi
    rw [hfinished, List.mem_append, List.mem_singleton] at hi
    rw [haccepted]
    rcases hi with hi | rfl
    · exact h.finished i hi
    · obtain ⟨t', ht', hid, -, -⟩ := ht
      exact ⟨t', ht', hid⟩
  · intro a ha
    rw [haccepted] at ha
    rw [hcalls, hfinished, List.filter_append, h.calls a ha, List.count_append, cancelCall_filter,
      List.count_singleton]
    by_cases hid : a.id = t.id
    · rw [if_pos hid.symm, ht.cancelCall s t a h ha hid, if_pos (by simpa using hid.symm),
        List.replicate_succ', List.flatten_append, List.flatten_singleton]
    · rw [if_neg (fun h => hid h.symm), if_neg (by simpa using fun h => hid h.symm), List.append_nil,
        Nat.add_zero]
  · intro c hc
    rw [hcalls, List.mem_append] at hc
    rw [hfinished, List.mem_append]
    refine hc.imp (h.called c) ?_
    intro hnew
    have hid : c.1 = t.id := by
      unfold cancelCall at hnew
      cases hcancel : t.cancel with
      | none => simp [hcancel] at hnew
      | some f =>
        rw [hcancel, Option.map_some, Option.toList_some, List.mem_singleton] at hnew
        rw [hnew]
    rw [hid]
    exact List.mem_singleton.mpr rfl

/-- A new timer is accepted. -/
theorem Accounts.accept (s s' : TimerState) (t : TTimer) (h : s.Accounts) (hqueue : s'.Queue)
    (hid : t.id = s.stamp) (hstamp : s'.stamp = s.stamp + 1) (haccepted : s'.accepted = s.accepted ++ [t])
    (hfinished : s'.finished = s.finished) (hcalls : s'.calls = s.calls)
    (hlist : ∀ e ∈ s'.ts.list, e = t ∨ e ∈ s.ts.list) (hheld : s'.executing = s.executing)
    (hpassed : ∀ u, s'.thread = .leaving u → u ≤ s'.ts.timerCount) : s'.Accounts := by
  have hsub : ∀ t ∈ s.accepted, t ∈ s'.accepted := by
    intro a ha
    rw [haccepted]
    exact List.mem_append_left [t] ha
  have hlast : t ∈ s'.accepted := by simp [haccepted]
  refine ⟨hqueue, ?_, ?_, ?_, ?_, ?_, ?_, ?_, hpassed⟩
  · intro a ha
    rw [haccepted, List.mem_append, List.mem_singleton] at ha
    rw [hstamp]
    rcases ha with ha | rfl
    · exact Nat.lt_succ_of_lt (h.fresh a ha)
    · exact hid ▸ Nat.lt_succ_self _
  · rw [haccepted, List.map_append, List.map_singleton]
    refine List.Nodup.append h.distinct (List.nodup_singleton _) ?_
    intro i hi hi'
    rw [List.mem_singleton] at hi'
    obtain ⟨a, ha, rfl⟩ := List.mem_map.mp hi
    have hlt := h.fresh a ha
    omega
  · intro e he
    rcases hlist e he with rfl | hold
    · exact ⟨e, hlast, rfl, rfl, rfl⟩
    · exact (h.list e hold).mono s s' e hsub
  · intro e he
    exact (h.held e (hheld ▸ he)).mono s s' e hsub
  · intro i hi
    obtain ⟨a, ha, hai⟩ := h.finished i (hfinished ▸ hi)
    exact ⟨a, hsub a ha, hai⟩
  · intro a ha
    rw [haccepted, List.mem_append, List.mem_singleton] at ha
    rw [hcalls, hfinished]
    rcases ha with ha | rfl
    · exact h.calls a ha
    · -- nothing has been called for it before
      have hunfinished : a.id ∉ s.finished := by
        intro hin
        obtain ⟨b, hb, hba⟩ := h.finished _ hin
        have hlt := h.fresh b hb
        omega
      rw [List.count_eq_zero.mpr hunfinished, List.replicate_zero, List.flatten_nil,
        List.filter_eq_nil_iff]
      intro c hc hca
      exact hunfinished (beq_iff_eq.mp hca ▸ h.called c hc)
  · rw [hcalls, hfinished]
    exact h.called

theorem mem_remaining (s : TimerState) (e : TTimer) (h : e ∈ s.remaining) : e ∈ s.ts.list := by
  unfold remaining at h
  split at h
  · exact List.mem_of_mem_drop h
  · cases h
  · exact h

theorem Accounts.places (s : TimerState) (h : s.Accounts) (i : Nat) (hi : i ∈ s.places) :
    ∃ t ∈ s.accepted, t.id = i := by
  rw [TimerState.places, List.mem_append] at hi
  rcases hi with hi | hi
  · obtain ⟨e, he, rfl⟩ := List.mem_map.mp hi
    have haccepted : s.Accepted e := by
      rcases List.mem_append.mp he with he | he
      · exact h.list e (s.mem_remaining e he)
      · exact h.held e he
    obtain ⟨t, ht, hid, -, -⟩ := haccepted
    exact ⟨t, ht, hid⟩
  · exact h.finished i hi

theorem Accounts.step (s s' : TimerState) (l : TimerLabel) (h : s.Accounts)
    (hstep : s.step l = some s') : s'.Accounts := by
  have hqueue := (h.queue.step s s' l hstep).1
  unfold TimerState.step at hstep
  cases l with
  | tick now =>
    dsimp only at hstep
    split_ifs at hstep
    obtain rfl := Option.some.inj hstep
    exact h.keep s _ hqueue le_rfl rfl rfl rfl h.list h.held h.passed
  | stop =>
    obtain rfl := Option.some.inj hstep
    exact h.keep s _ hqueue le_rfl rfl rfl rfl h.list h.held h.passed
  | call args =>
    obtain rfl := Option.some.inj hstep
    exact h.keep s _ hqueue le_rfl rfl rfl rfl h.list h.held h.passed
  | insert i realloc =>
    dsimp only at hstep
    cases hargs : s.adders[i]? with
    | none =>
      rw [hargs] at hstep
      cases hstep
    | some args =>
      rw [hargs] at hstep
      dsimp only at hstep
      have hadd := s.ts.add_effect realloc (s.newTimer args)
      generalize s.ts.add realloc (s.newTimer args) = r at hadd hstep
      cases hadd with
      | full _ =>
        obtain rfl := Option.some.inj hstep
        exact h.keep s _ hqueue le_rfl rfl rfl rfl h.list h.held h.passed
      | added ts' u _ _ hcount _ hat =>
        obtain rfl := Option.some.inj hstep
        apply h.accept s _ (s.newTimer args) hqueue rfl rfl rfl rfl rfl ?_ rfl ?_
        · intro e he
          dsimp only at he
          rw [hat.list, List.mem_append, List.mem_cons] at he
          rcases he with he | he | he
          · exact Or.inr (List.mem_of_mem_take he)
          · exact Or.inl he
          · exact Or.inr (List.mem_of_mem_drop he)
        · intro u hu
          have hle := h.passed u hu
          dsimp only
          omega
  | readClock =>
    dsimp only at hstep
    split at hstep
    · obtain rfl := Option.some.inj hstep
      exact h.keep s _ hqueue le_rfl rfl rfl rfl h.list (fun e he => (by cases he)) (fun u hu => (by cases hu))
    · obtain rfl := Option.some.inj hstep
      exact h.keep s _ hqueue le_rfl rfl rfl rfl h.list (fun e he => (by cases he)) (fun u hu => (by cases hu))
    · cases hstep
  | look =>
    dsimp only at hstep
    split at hstep
    · rename_i d hthread
      split_ifs at hstep
      · obtain rfl := Option.some.inj hstep
        refine h.keep s _ hqueue le_rfl rfl rfl rfl h.list (fun e he => (by cases he)) ?_
        intro u hu
        rw [← TimerThread.leaving.inj hu]
        exact Nat.zero_le _
      · cases htake : s.ts.take d with
        | none =>
          rw [htake] at hstep
          obtain rfl := Option.some.inj hstep
          exact h.keep s _ hqueue le_rfl rfl rfl rfl h.list (fun e he => (by cases he))
            (fun u hu => (by cases hu))
        | some r =>
          obtain ⟨t, ts⟩ := r
          rw [htake] at hstep
          obtain rfl := Option.some.inj hstep
          obtain ⟨hlist, -, -⟩ := s.ts.take_list ts d t htake
          refine h.keep s _ hqueue le_rfl rfl rfl rfl ?_ ?_ (fun u hu => (by cases hu))
          · intro e he
            exact h.list e (hlist ▸ List.mem_cons_of_mem t he)
          · intro e he
            rw [List.mem_singleton.mp he]
            exact h.list t (hlist ▸ List.mem_cons_self)
    · cases hstep
  | actionReturns res =>
    dsimp only at hstep
    split at hstep
    · rename_i t d hthread
      have ht : s.Accepted t := h.held t (by rw [executing, hthread]; exact List.mem_singleton.mpr rfl)
      split_ifs at hstep
      · obtain rfl := Option.some.inj hstep
        refine h.keep s _ hqueue le_rfl rfl rfl rfl h.list ?_ (fun u hu => (by cases hu))
        intro e he
        rw [List.mem_singleton.mp he]
        exact ht
      · obtain rfl := Option.some.inj hstep
        exact h.finish s _ t ht rfl rfl rfl rfl rfl rfl (fun u hu => (by cases hu))
    · cases hstep
  | addAgain realloc =>
    dsimp only at hstep
    split at hstep
    · rename_i t d hthread
      have ht : s.Accepted t := h.held t (by rw [executing, hthread]; exact List.mem_singleton.mpr rfl)
      obtain rfl := Option.some.inj hstep
      refine h.keep s _ hqueue (Nat.le_succ _) rfl rfl rfl ?_ (fun e he => (by cases he))
        (fun u hu => (by cases hu))
      intro e he
      dsimp only at he
      have hadd := s.ts.add_effect realloc { t with stamp := s.stamp }
      generalize s.ts.add realloc { t with stamp := s.stamp } = r at hadd he
      cases hadd with
      | full _ => exact h.list e he
      | added ts' u _ _ _ _ hat =>
        dsimp only at he
        rw [hat.list, List.mem_append, List.mem_cons] at he
        rcases he with he | rfl | he
        · exact h.list e (List.mem_of_mem_take he)
        · exact ht
        · exact h.list e (List.mem_of_mem_drop he)
    · cases hstep
  | cancelNext =>
    dsimp only at hstep
    split at hstep
    · rename_i u hthread
      split_ifs at hstep with hu
      · obtain rfl := Option.some.inj hstep
        have hmem : s.ts.timers u ∈ s.ts.list := by
          rw [Timers.list]
          exact List.mem_map_of_mem (List.mem_range.mpr hu)
        refine h.finish s _ (s.ts.timers u) (h.list _ hmem) rfl rfl rfl rfl rfl rfl ?_
        intro v hv
        rw [← TimerThread.leaving.inj hv]
        exact hu
      · obtain rfl := Option.some.inj hstep
        exact h.keep s _ hqueue le_rfl rfl rfl rfl h.list (fun e he => (by cases he))
          (fun u hu => (by cases hu))
    · cases hstep

/-! ### Where the timers go -/

theorem Accounts.endsOnce_iff (s : TimerState) (h : s.Accounts) :
    s.EndsOnce ↔ ∀ t ∈ s.accepted, s.places.count t.id = 1 := by
  refine ⟨fun hs => hs.once, fun hs => ⟨hs, ?_⟩⟩
  intro t ht
  have hone := hs t ht
  rw [TimerState.places, List.count_append] at hone
  rw [h.calls t ht]
  split_ifs with hmem
  · have hpos := List.count_pos_iff.mpr hmem
    have hcount : s.finished.count t.id = 1 := by omega
    simp [hcount]
  · simp [List.count_eq_zero.mpr hmem]

/-- A new timer that gets a place. -/
theorem EndsOnce.accept (s s' : TimerState) (t : TTimer) (h : s.Accounts) (hs : s.EndsOnce)
    (h' : s'.Accounts) (hid : t.id = s.stamp) (haccepted : s'.accepted = s.accepted ++ [t])
    (hperm : s'.places.Perm (t.id :: s.places)) : s'.EndsOnce := by
  rw [h'.endsOnce_iff s']
  intro a ha
  rw [haccepted, List.mem_append, List.mem_singleton] at ha
  rw [hperm.count_eq, List.count_cons]
  rcases ha with ha | rfl
  · have hlt := h.fresh a ha
    rw [hs.once a ha, if_neg (by simp; omega)]
  · have hfresh : s.places.count a.id = 0 := by
      rw [List.count_eq_zero]
      intro hin
      obtain ⟨b, hb, hba⟩ := h.places s _ hin
      have hlt := h.fresh b hb
      omega
    rw [hfresh, if_pos (by simp)]

end TimerState

end CivetWeb
