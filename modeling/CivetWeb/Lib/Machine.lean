import Mathlib.Logic.Relation

namespace Machine

variable {S R : Type*} (step : S → S ⊕ R)

/-- At most `n` steps; `.inl` is a run that has not ended by then. -/
def runFor : Nat → S → S ⊕ R
  | 0, s => .inl s
  | n + 1, s =>
    match step s with
    | .inl t => runFor n t
    | .inr r => .inr r

theorem runFor_succ (n : Nat) (s : S) : runFor step (n + 1) s =
    match step s with
    | .inl t => runFor step n t
    | .inr r => .inr r := rfl

/-- The run from `s` ends after finitely many steps, with the result `r`. -/
inductive Ends : S → R → Prop where
  | last (s : S) (r : R) : step s = .inr r → Ends s r
  | more (s t : S) (r : R) : step s = .inl t → Ends t r → Ends s r

def Halts (s : S) : Prop := ∃ r, Ends step s r

/-- The states of the run from `s`. -/
def Reaches : S → S → Prop := Relation.ReflTransGen (fun s t => step s = .inl t)

theorem runFor_one (s : S) : runFor step 1 s = step s := by
  rw [runFor_succ]
  cases step s <;> rfl

/-- The first step of a run, and the others. -/
theorem runFor_step (n : Nat) (s t : S) (h : step s = .inl t) :
    runFor step (n + 1) s = runFor step n t := by
  rw [runFor_succ, h]

theorem ends_iff_runFor (s : S) (r : R) : Ends step s r ↔ ∃ n, runFor step n s = .inr r := by
  constructor
  · intro h
    induction h with
    | last s r hs => exact ⟨1, by rw [runFor_succ, hs]⟩
    | more s t r hs _ ih =>
      obtain ⟨n, hn⟩ := ih
      exact ⟨n + 1, by rwa [runFor_succ, hs]⟩
  · rintro ⟨n, hn⟩
    induction n generalizing s with
    | zero => cases hn
    | succ n ih =>
      cases hs : step s with
      | inl t =>
        rw [runFor_succ, hs] at hn
        exact Ends.more s t r hs (ih t hn)
      | inr q =>
        rw [runFor_succ, hs] at hn
        exact Sum.inr.inj hn ▸ Ends.last s q hs

theorem Ends.runFor (s : S) (r q : R) (n : Nat) (h : Ends step s r) (hq : runFor step n s = .inr q) :
    r = q := by
  induction h generalizing n with
  | last s r hs =>
    cases n with
    | zero => cases hq
    | succ n =>
      rw [runFor_succ, hs] at hq
      exact Sum.inr.inj hq
  | more s t r hs _ ih =>
    cases n with
    | zero => cases hq
    | succ n =>
      rw [runFor_succ, hs] at hq
      exact ih n hq

/-- What holds at the start and is kept by every step holds in every state of the run. -/
theorem reaches_invariant (I : S → Prop) (hkeep : ∀ s t, I s → step s = .inl t → I t) (s t : S)
    (hs : I s) (h : Reaches step s t) : I t := by
  induction h with
  | refl => exact hs
  | tail _ hstep ih => exact hkeep _ _ ih hstep

/-- `P` holds of every state of a run that ends in at most `n` steps. -/
def checks (P : S → Bool) : Nat → S → Bool
  | 0, _ => false
  | n + 1, s =>
    P s && match step s with
      | .inl t => checks P n t
      | .inr _ => true

theorem Reaches.of_checks (P : S → Bool) (n : Nat) (s t : S) (hcheck : checks step P n s = true)
    (h : Reaches step s t) : P t = true := by
  induction n generalizing s with
  | zero => cases hcheck
  | succ n ih =>
    rw [checks, Bool.and_eq_true] at hcheck
    rcases Relation.ReflTransGen.cases_head h with rfl | ⟨u, hu, hrest⟩
    · exact hcheck.1
    · have hmore := hcheck.2
      rw [hu] at hmore
      exact ih u hmore hrest

theorem Reaches.ends (s t : S) (r : R) (h : Reaches step s t) (ht : Ends step t r) :
    Ends step s r := by
  induction h using Relation.ReflTransGen.head_induction_on with
  | refl => exact ht
  | head hstep _ ih => exact Ends.more _ _ r hstep ih

section
variable {T : Type*} (step' : T → T ⊕ R) (f : S → T)
  (hlift : ∀ s, step' (f s) = (step s).map f id)
include hlift

/-- A machine that is a part of another one ends there with the same result. -/
theorem Ends.lift (s : S) (r : R) (h : Ends step s r) : Ends step' (f s) r := by
  induction h with
  | last s r hs =>
    apply Ends.last
    rw [hlift, hs]
    rfl
  | more s t r hs _ ih =>
    apply Ends.more (f s) (f t) r
    · rw [hlift, hs]
      rfl
    · exact ih

end

/-- A run on which a measure goes down with every step ends. -/
theorem halts_of_measure (I : S → Prop) (μ : S → Nat)
    (hkeep : ∀ s t, I s → step s = .inl t → I t ∧ μ t < μ s) (s : S) (hs : I s) :
    Halts step s := by
  obtain ⟨n, hn⟩ : ∃ n, μ s ≤ n := ⟨μ s, Nat.le_refl _⟩
  induction n generalizing s with
  | zero =>
    cases h : step s with
    | inl t =>
      have := (hkeep s t hs h).2
      omega
    | inr r => exact ⟨r, Ends.last s r h⟩
  | succ n ih =>
    cases h : step s with
    | inl t =>
      obtain ⟨ht, hlt⟩ := hkeep s t hs h
      obtain ⟨r, hr⟩ := ih t ht (by omega)
      exact ⟨r, Ends.more s t r h hr⟩
    | inr r => exact ⟨r, Ends.last s r h⟩

/-- A run that stays among states which all have a next one does not end. -/
theorem not_halts_of_stays (P : S → Prop) (hstay : ∀ s, P s → ∃ t, step s = .inl t ∧ P t)
    (s : S) (hs : P s) : ¬ Halts step s := by
  rintro ⟨r, hr⟩
  induction hr with
  | last s r hstep =>
    obtain ⟨t, ht, -⟩ := hstay s hs
    simp [hstep] at ht
  | more s t r hstep _ ih =>
    obtain ⟨u, hu, hP⟩ := hstay s hs
    have htu : t = u := Sum.inl.inj (hstep.symm.trans hu)
    exact ih (htu ▸ hP)

end Machine
