import Mathlib.Data.List.Basic
import Mathlib.Algebra.BigOperators.Group.List.Basic
import Mathlib.Algebra.GroupWithZero.Nat

namespace Slots

variable {α β : Type*}

/-- A list behind a write to slot `i`, looked up at `j`. -/
theorem getElem?_set_cases {l : List α} {i j : Nat} {x y : α} (h : (l.set i y)[j]? = some x) :
    (j = i ∧ x = y) ∨ (j ≠ i ∧ l[j]? = some x) := by
  rw [List.getElem?_set] at h
  split_ifs at h with hij hi
  · exact .inl ⟨hij.symm, (Option.some.inj h).symm⟩
  · exact .inr ⟨fun hji => hij hji.symm, h⟩

/-- What the slots hold, behind a write to one of them. -/
theorem flatMap_set {l : List α} {i : Nat} {x : α} (f : α → List β) (y : α) (h : l[i]? = some x) :
    (f x ++ (l.set i y).flatMap f).Perm (f y ++ l.flatMap f) := by
  induction l generalizing i with
  | nil => cases h
  | cons z l ih =>
    cases i with
    | zero =>
      cases h
      exact List.perm_append_comm_assoc _ _ _
    | succ i =>
      rw [List.set_cons_succ, List.flatMap_cons, List.flatMap_cons]
      have hrest := (ih h).append_left (f z)
      exact (List.perm_append_comm_assoc _ _ _).trans (hrest.trans (List.perm_append_comm_assoc _ _ _))

theorem flatMap_set_same {l : List α} {i : Nat} {x y : α} (f : α → List β) (h : l[i]? = some x) (hf : f y = f x) :
    (l.set i y).flatMap f = l.flatMap f := by
  induction l generalizing i with
  | nil => cases h
  | cons z l ih =>
    cases i with
    | zero =>
      cases h
      rw [List.set_cons_zero, List.flatMap_cons, List.flatMap_cons, hf]
    | succ i => rw [List.set_cons_succ, List.flatMap_cons, List.flatMap_cons, ih h]

end Slots
