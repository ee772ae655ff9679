import Mathlib.Logic.Basic

namespace System

variable {S L : Type*} (step : S → L → Option S)

/-- The state behind a run of labelled steps; `none` where a step is not possible. -/
def run : S → List L → Option S
  | s, [] => some s
  | s, l :: ls => (step s l).bind fun t => run t ls

theorem run_step (s : S) (l : L) (ls : List L) :
    run step s (l :: ls) = (step s l).bind fun t => run step t ls := rfl

/-- Every step of the run is taken where `ok` holds of it. -/
def Along (ok : S → L → Prop) : S → List L → Prop
  | _, [] => True
  | s, l :: ls => ∀ t, step s l = some t → ok s l ∧ Along ok t ls

/-- What holds in every state that the run comes through. -/
def Always (P : S → Prop) : S → List L → Prop
  | s, [] => P s
  | s, l :: ls => P s ∧ ∀ t, step s l = some t → Always P t ls

theorem run_append (s : S) (ls ls' : List L) :
    run step s (ls ++ ls') = (run step s ls).bind fun t => run step t ls' := by
  induction ls generalizing s with
  | nil => rfl
  | cons l ls ih =>
    rw [List.cons_append, run_step, run_step]
    cases step s l with
    | none => rfl
    | some t => exact ih t

theorem run_cons (s t u : S) (l : L) (ls : List L) (hstep : step s l = some t)
    (hrun : run step t ls = some u) : run step s (l :: ls) = some u := by
  rw [run_step, hstep, Option.bind_some, hrun]

/-- A run that gets to its end begins with a step, if there is one. -/
theorem run_cons_cases (s u : S) (l : L) (ls : List L) (hrun : run step s (l :: ls) = some u) :
    ∃ t, step s l = some t ∧ run step t ls = some u := by
  rw [run_step] at hrun
  exact Option.bind_eq_some_iff.mp hrun

/-- Some run leads from `s` to `t`. -/
def Reaches (s t : S) : Prop := ∃ ls, run step s ls = some t

theorem Reaches.refl (s : S) : Reaches step s s := ⟨[], rfl⟩

theorem Reaches.trans {s t u : S} (hst : Reaches step s t) (htu : Reaches step t u) : Reaches step s u := by
  obtain ⟨ls, hls⟩ := hst
  obtain ⟨ls', hls'⟩ := htu
  refine ⟨ls ++ ls', ?_⟩
  rw [run_append, hls, Option.bind_some, hls']

theorem Reaches.of_step {s t : S} {l : L} (h : step s l = some t) : Reaches step s t :=
  ⟨[l], run_cons step s t t l [] h rfl⟩

theorem along_cons (ok : S → L → Prop) (s t : S) (l : L) (ls : List L) (hstep : step s l = some t) (hl : ok s l)
    (hrest : Along step ok t ls) : Along step ok s (l :: ls) := by
  intro u hu
  rw [hstep, Option.some.injEq] at hu
  exact ⟨hl, hu ▸ hrest⟩

/-- What is kept by every step that may be taken holds in every state of the run. -/
theorem always_of_invariant (I : S → Prop) (ok : S → L → Prop)
    (hkeep : ∀ s l t, I s → ok s l → step s l = some t → I t) (s : S) (ls : List L) (hs : I s)
    (hok : Along step ok s ls) : Always step I s ls := by
  induction ls generalizing s with
  | nil => exact hs
  | cons l ls ih =>
    refine ⟨hs, ?_⟩
    intro t ht
    obtain ⟨hl, hrest⟩ := hok t ht
    exact ih t (hkeep s l t hs hl ht) hrest

/-- What is kept by every step holds in every state of the run. -/
theorem always_of_kept (I : S → Prop) (hkeep : ∀ s l t, I s → step s l = some t → I t) (s : S)
    (ls : List L) (hs : I s) : Always step I s ls := by
  induction ls generalizing s with
  | nil => exact hs
  | cons l ls ih => exact ⟨hs, fun t ht => ih t (hkeep s l t hs ht)⟩

theorem along_of_forall (ok : L → Prop) (s : S) (ls : List L) (h : ∀ l ∈ ls, ok l) :
    Along step (fun _ l => ok l) s ls := by
  induction ls generalizing s with
  | nil => trivial
  | cons l ls ih =>
    intro t _
    exact ⟨h l List.mem_cons_self, ih t fun l' hl' => h l' (List.mem_cons_of_mem l hl')⟩

theorem Always.run (P : S → Prop) (s t : S) (ls : List L) (h : Always step P s ls)
    (hrun : run step s ls = some t) : P t := by
  induction ls generalizing s with
  | nil =>
    rw [System.run, Option.some.injEq] at hrun
    exact hrun ▸ h
  | cons l ls ih =>
    obtain ⟨u, hu, hrest⟩ := run_cons_cases step s t l ls hrun
    exact ih u (h.2 u hu) hrest

theorem Always.imp (P Q : S → Prop) (hPQ : ∀ s, P s → Q s) (s : S) (ls : List L)
    (h : Always step P s ls) : Always step Q s ls := by
  induction ls generalizing s with
  | nil => exact hPQ s h
  | cons l ls ih => exact ⟨hPQ s h.1, fun t ht => ih t (h.2 t ht)⟩

/-- What every step keeps holds at the end of a run. -/
theorem run_invariant (I : S → Prop) (hkeep : ∀ s l t, I s → step s l = some t → I t) (s t : S)
    (ls : List L) (hs : I s) (hrun : run step s ls = some t) : I t :=
  (always_of_kept step I hkeep s ls hs).run step I s t ls hrun

/-- A run either is taken under `ok` all along and keeps `J`, or comes to `B` by the first step that is not. -/
theorem run_along_or (J B : S → Prop) (ok : S → L → Prop)
    (hkeep : ∀ s l t, J s → ok s l → step s l = some t → J t)
    (hbreak : ∀ s l t, J s → ¬ ok s l → step s l = some t → B t)
    (hB : ∀ s l t, B s → step s l = some t → B t) (s t : S) (ls : List L) (hs : J s) (hrun : run step s ls = some t) :
    (Along step ok s ls ∧ J t) ∨ (¬ Along step ok s ls ∧ B t) := by
  induction ls generalizing s with
  | nil =>
    rw [run, Option.some.injEq] at hrun
    exact .inl ⟨trivial, hrun ▸ hs⟩
  | cons l ls ih =>
    obtain ⟨u, hu, hrest⟩ := run_cons_cases step s t l ls hrun
    by_cases hl : ok s l
    · rcases ih u (hkeep s l u hs hl hu) hrest with ⟨halong, ht⟩ | ⟨hnot, ht⟩
      · refine .inl ⟨?_, ht⟩
        intro v hv
        rw [hu, Option.some.injEq] at hv
        exact ⟨hl, hv ▸ halong⟩
      · refine .inr ⟨?_, ht⟩
        intro halong
        exact hnot (halong u hu).2
    · refine .inr ⟨?_, run_invariant step B hB u t ls (hbreak s l u hs hl hu) hrest⟩
      intro halong
      exact hl (halong u hu).1

/-- Where `J` gives `P`, steps under `ok` keep `J`, and no step out of `J` comes to `P` otherwise, `P`
holds along a run exactly if every step of it is taken under `ok`. -/
theorem always_iff_along_kept (J P : S → Prop) (ok : S → L → Prop) (hJ : ∀ s, J s → P s)
    (hkeep : ∀ s l t, J s → step s l = some t → ok s l → J t)
    (hneed : ∀ s l t, J s → step s l = some t → P t → ok s l) (s : S) (ls : List L) (hs : J s) :
    Always step P s ls ↔ Along step ok s ls := by
  induction ls generalizing s with
  | nil => exact ⟨fun _ => trivial, fun _ => hJ s hs⟩
  | cons l ls ih =>
    constructor
    · intro h t ht
      have hP : P t := by
        cases ls with
        | nil => exact h.2 t ht
        | cons l' ls => exact (h.2 t ht).1
      have hl : ok s l := hneed s l t hs ht hP
      exact ⟨hl, (ih t (hkeep s l t hs ht hl)).mp (h.2 t ht)⟩
    · intro h
      refine ⟨hJ s hs, ?_⟩
      intro t ht
      obtain ⟨hl, hrest⟩ := h t ht
      exact (ih t (hkeep s l t hs ht hl)).mpr hrest

/-- Where a step keeps `P` exactly if it is taken under `ok`, `P` holds along a run exactly if every step
of it is. -/
theorem always_iff_along (I P : S → Prop) (ok : S → L → Prop)
    (hinv : ∀ s l t, I s → step s l = some t → I t)
    (hkeep : ∀ s l t, I s → P s → step s l = some t → (P t ↔ ok s l)) (s : S) (ls : List L)
    (hI : I s) (hs : P s) : Always step P s ls ↔ Along step ok s ls := by
  refine always_iff_along_kept step (fun s => I s ∧ P s) P ok (fun s h => h.2) ?_ ?_ s ls ⟨hI, hs⟩
  · intro s l t h ht hl
    exact ⟨hinv s l t h.1 ht, (hkeep s l t h.1 h.2 ht).mpr hl⟩
  · intro s l t h ht hP
    exact (hkeep s l t h.1 h.2 ht).mp hP

end System
