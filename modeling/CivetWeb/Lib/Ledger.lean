import Mathlib.Algebra.BigOperators.Group.Multiset.Basic
import Mathlib.Data.Multiset.AddSub

namespace Ledger

/-- What a program does with a resource. -/
inductive Action (R : Type*) where
  | take (r : R)
  | use (r : R)
  | give (r : R)
  deriving DecidableEq, Repr

def Action.map {R S : Type*} (f : R → S) : Action R → Action S
  | .take r => .take (f r)
  | .use r => .use (f r)
  | .give r => .give (f r)

variable {R S : Type*} [DecidableEq R] [DecidableEq S]

/-- An action on what is held; only what is held can be used or given back. -/
def act (held : Multiset R) : Action R → Option (Multiset R)
  | .take r => some (r ::ₘ held)
  | .use r => if r ∈ held then some held else none
  | .give r => if r ∈ held then some (held.erase r) else none

/-- What is held after a log of actions; `none` where something is used or given back that is not held. -/
def run (held : Multiset R) : List (Action R) → Option (Multiset R)
  | [] => some held
  | a :: log => (act held a).bind fun held => run held log

@[simp] theorem run_nil (held : Multiset R) : run held [] = some held := rfl

theorem run_cons (held : Multiset R) (a : Action R) (log : List (Action R)) :
    run held (a :: log) = (act held a).bind fun held => run held log := rfl

theorem act_use {held : Multiset R} {r : R} (h : r ∈ held) : act held (.use r) = some held := if_pos h

theorem act_give {held : Multiset R} {r : R} (h : r ∈ held) : act held (.give r) = some (held.erase r) := if_pos h

theorem act_absent {held : Multiset R} {r : R} (h : r ∉ held) :
    act held (.use r) = none ∧ act held (.give r) = none := ⟨if_neg h, if_neg h⟩

@[simp] theorem run_take (held : Multiset R) (r : R) (log : List (Action R)) :
    run held (.take r :: log) = run (r ::ₘ held) log := rfl

theorem run_use {held : Multiset R} {r : R} (h : r ∈ held) (log : List (Action R)) :
    run held (.use r :: log) = run held log := by
  rw [run_cons, act_use h, Option.bind_some]

theorem run_give {held : Multiset R} {r : R} (h : r ∈ held) (log : List (Action R)) :
    run held (.give r :: log) = run (held.erase r) log := by
  rw [run_cons, act_give h, Option.bind_some]

@[simp] theorem run_give_head (held : Multiset R) (r : R) (log : List (Action R)) :
    run (r ::ₘ held) (.give r :: log) = run held log := by
  rw [run_give (Multiset.mem_cons_self r held), Multiset.erase_cons_head]

theorem run_use_absent {held : Multiset R} {r : R} (h : r ∉ held) (log : List (Action R)) :
    run held (.use r :: log) = none := by
  rw [run_cons, (act_absent h).1, Option.bind_none]

theorem run_give_absent {held : Multiset R} {r : R} (h : r ∉ held) (log : List (Action R)) :
    run held (.give r :: log) = none := by
  rw [run_cons, (act_absent h).2, Option.bind_none]

theorem run_append (held : Multiset R) (first rest : List (Action R)) :
    run held (first ++ rest) = (run held first).bind fun held => run held rest := by
  induction first generalizing held with
  | nil => rfl
  | cons a first ih =>
    simp only [List.cons_append, run_cons, Option.bind_assoc]
    cases act held a with
    | none => rfl
    | some held => exact ih held

theorem run_append_some {held held' : Multiset R} {first : List (Action R)} (h : run held first = some held')
    (rest : List (Action R)) : run held (first ++ rest) = run held' rest := by
  simp [run_append, h]

theorem run_append_none {held : Multiset R} {first : List (Action R)} (h : run held first = none)
    (rest : List (Action R)) : run held (first ++ rest) = none := by
  simp [run_append, h]

theorem act_frame {held held' : Multiset R} {a : Action R} (h : act held a = some held') (frame : Multiset R) :
    act (held + frame) a = some (held' + frame) := by
  cases a with
  | take r =>
    simp only [act, Option.some.injEq] at h ⊢
    rw [← h, Multiset.cons_add]
  | use r =>
    simp only [act] at h ⊢
    split_ifs at h with hr
    cases h
    simp [hr]
  | give r =>
    simp only [act] at h ⊢
    split_ifs at h with hr
    cases h
    simp [hr, Multiset.erase_add_left_pos]

/-- What is held besides does not matter. -/
theorem run_frame {held held' : Multiset R} {log : List (Action R)} (h : run held log = some held')
    (frame : Multiset R) : run (held + frame) log = some (held' + frame) := by
  induction log generalizing held with
  | nil =>
    cases h
    rfl
  | cons a log ih =>
    simp only [run, Option.bind_eq_some_iff] at h ⊢
    obtain ⟨held₁, hact, hrun⟩ := h
    exact ⟨held₁ + frame, act_frame hact frame, ih hrun⟩

theorem run_gives (rs : List R) (held : Multiset R) : run ((rs : Multiset R) + held) (rs.map .give) = some held := by
  induction rs generalizing held with
  | nil => simp
  | cons r rs ih =>
    rw [← Multiset.cons_coe, Multiset.cons_add, List.map_cons, run_give_head]
    exact ih held

/-- A loop that gives back what belongs to each item, while `held` stays. -/
theorem run_flatMap {α : Type*} {xs : List α} {f : α → List (Action R)} {own : α → Multiset R} {held : Multiset R}
    (h : ∀ x ∈ xs, ∀ more, held ≤ more → run (own x + more) (f x) = some more) :
    run ((xs.map own).sum + held) (xs.flatMap f) = some held := by
  induction xs with
  | nil => simp
  | cons x xs ih =>
    rw [List.map_cons, List.sum_cons, List.flatMap_cons, add_assoc,
      run_append_some (h x (by simp) _ (Multiset.le_add_left held _))]
    exact ih fun y hy => h y (by simp [hy])

theorem run_map {f : R → S} (hf : Function.Injective f) (held : Multiset R) (log : List (Action R)) :
    run (held.map f) (log.map (Action.map f)) = (run held log).map (Multiset.map f) := by
  induction log generalizing held with
  | nil => rfl
  | cons a log ih =>
    have hact : act (held.map f) (a.map f) = (act held a).map (Multiset.map f) := by
      cases a with
      | take r => simp [act, Action.map]
      | use r => simp only [act, Action.map, Multiset.mem_map_of_injective hf]; split_ifs <;> rfl
      | give r =>
        simp only [act, Action.map, Multiset.mem_map_of_injective hf]
        split_ifs with hr
        · simp [Multiset.map_erase_of_mem f _ hr]
        · rfl
    simp only [List.map_cons, run, hact]
    cases act held a with
    | none => rfl
    | some held => exact ih held

end Ledger
