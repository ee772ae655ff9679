import Mathlib.Data.Int.Order.Basic
import Mathlib.Order.Compare

/-! Comparison functions of C: negative, zero or positive. -/

namespace Comparison

variable {α : Type*}

/-- The results have opposite signs the other way round, and what is not greater is so transitively. -/
structure TotalPreorder (cmp : α → α → Int) : Prop where
  swap : ∀ a b, 0 < cmp a b ↔ cmp b a < 0
  trans : ∀ a b c, cmp a b ≤ 0 → cmp b c ≤ 0 → cmp a c ≤ 0

/-- The ordering that a result stands for. -/
def ordering (cmp : α → α → Int) (a b : α) : Ordering := compare (cmp a b) 0

theorem ordering_lt {cmp : α → α → Int} {a b : α} : ordering cmp a b = .lt ↔ cmp a b < 0 := by
  unfold ordering
  exact compare_lt_iff_lt

theorem ordering_gt {cmp : α → α → Int} {a b : α} : ordering cmp a b = .gt ↔ 0 < cmp a b := by
  unfold ordering
  exact compare_gt_iff_gt

theorem ordering_eq {cmp : α → α → Int} {a b : α} : ordering cmp a b = .eq ↔ cmp a b = 0 := by
  unfold ordering
  exact compare_eq_iff_eq

theorem ordering_isLE {cmp : α → α → Int} {a b : α} : (ordering cmp a b).isLE = true ↔ cmp a b ≤ 0 := by
  have hle : (ordering cmp a b).isLE = true ↔ ¬ ordering cmp a b = .gt := by
    cases ordering cmp a b <;> decide
  rw [hle, ordering_gt, not_lt]

theorem TotalPreorder.refl {cmp : α → α → Int} (h : TotalPreorder cmp) (a : α) : cmp a a = 0 := by
  have := h.swap a a
  omega

/-- A lawful ordering comes from a total preorder. -/
theorem totalPreorder_of_transCmp (cmp : α → α → Int) [Std.TransCmp (ordering cmp)] : TotalPreorder cmp where
  swap a b := by
    rw [← ordering_gt, ← ordering_lt]
    exact Std.OrientedCmp.gt_iff_lt
  trans a b c hab hbc := by
    rw [← ordering_isLE] at hab hbc ⊢
    exact Std.TransCmp.isLE_trans hab hbc

/-! The usual ways to make one result from others. -/

/-- The order of a result turned round. -/
theorem compare_neg_zero (n : Int) : compare (-n) 0 = (compare n 0).swap := by
  rcases lt_trichotomy n 0 with h | rfl | h
  · rw [compare_lt_iff_lt.mpr h, compare_gt_iff_gt.mpr (Int.neg_pos_of_neg h)]
    rfl
  · rfl
  · rw [compare_gt_iff_gt.mpr h, compare_lt_iff_lt.mpr (Int.neg_neg_of_pos h)]
    rfl

/-- A second result decides where the first one is zero. -/
theorem compare_ite_zero (m n : Int) : compare (if m = 0 then n else m) 0 = (compare m 0).then (compare n 0) := by
  by_cases h : m = 0
  · rw [if_pos h, h]
    rfl
  · rw [if_neg h]
    rcases Int.lt_or_gt_of_ne h with hlt | hgt
    · rw [compare_lt_iff_lt.mpr hlt]
      rfl
    · rw [compare_gt_iff_gt.mpr hgt]
      rfl

theorem compare_threeWay (x y : Int) :
    compare (if x = y then 0 else if y < x then 1 else -1 : Int) 0 = compare x y := by
  rcases lt_trichotomy x y with h | h | h
  · rw [if_neg (Int.ne_of_lt h), if_neg (Int.not_lt.mpr (Int.le_of_lt h)), compare_lt_iff_lt.mpr h]
    rfl
  · rw [if_pos h, compare_eq_iff_eq.mpr h]
    rfl
  · rw [if_neg (Int.ne_of_gt h), if_pos h, compare_gt_iff_gt.mpr h]
    rfl

end Comparison
