import Mathlib.Data.List.Induction
import Mathlib.Data.Nat.Digits.Defs
import Mathlib.Tactic.Ring

namespace Numeral

variable {α : Type*}

/-- The value of a numeral, most significant digit first. -/
def value (base : Nat) (digit : α → Nat) (s : List α) : Nat :=
  s.foldl (fun n c => n * base + digit c) 0

theorem value_concat (base : Nat) (digit : α → Nat) (s : List α) (c : α) :
    value base digit (s ++ [c]) = value base digit s * base + digit c := by
  simp [value]

/-- Writing a number in a base and reading it back. -/
theorem value_digits (base : Nat) (digit : α → Nat) (char : Nat → α) (n : Nat)
    (hbase : 1 < base) (h : ∀ d < base, digit (char d) = d) :
    value base digit ((Nat.digits base n).reverse.map char) = n := by
  have hread (l : List Nat) (hl : ∀ d ∈ l, d < base) :
      value base digit (l.reverse.map char) = Nat.ofDigits base l := by
    induction l with
    | nil => rfl
    | cons d l ih =>
      rw [List.reverse_cons, List.map_append, List.map_singleton, value_concat,
        ih (fun e he => hl e (by simp [he])), h d (hl d (by simp)), Nat.ofDigits_cons]
      ring
  rw [hread _ (fun d hd => Nat.digits_lt_base hbase hd), Nat.ofDigits_digits]

end Numeral
