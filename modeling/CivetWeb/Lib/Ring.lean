import Mathlib.Data.List.Basic
import Mathlib.Data.Nat.ModEq

namespace Ring

variable {α : Type*}

/-- The `n` items from index `i` on in slots that are used around. -/
def items (slots : List α) : Nat → Nat → List α
  | _, 0 => []
  | i, n + 1 => slots[i % slots.length]?.toList ++ items slots (i + 1) n

theorem items_succ (slots : List α) (i n : Nat) :
    items slots i (n + 1) = slots[i % slots.length]?.toList ++ items slots (i + 1) n := rfl

theorem length_items {slots : List α} (hslots : slots ≠ []) (i n : Nat) : (items slots i n).length = n := by
  induction n generalizing i with
  | zero => rfl
  | succ n ih =>
    have hlt : i % slots.length < slots.length := Nat.mod_lt i (List.length_pos_iff.mpr hslots)
    rw [items_succ, List.length_append, ih (i + 1), List.getElem?_eq_getElem hlt]
    exact Nat.add_comm 1 n

/-- The items stay where they are if the index is moved on by a whole round. -/
theorem items_add_length (slots : List α) (i n : Nat) : items slots (i + slots.length) n = items slots i n := by
  induction n generalizing i with
  | zero => rfl
  | succ n ih => rw [items_succ, items_succ, Nat.add_mod_right, Nat.add_right_comm, ih (i + 1)]

theorem items_add_mul (slots : List α) (i k n : Nat) : items slots (i + k * slots.length) n = items slots i n := by
  induction k with
  | zero => rw [Nat.zero_mul, Nat.add_zero]
  | succ k ih => rw [Nat.succ_mul, ← Nat.add_assoc, items_add_length, ih]

/-- Less than a round apart are different slots. -/
theorem mod_ne_mod {i j n : Nat} (h : i < j) (hn : j < i + n) : i % n ≠ j % n := by
  intro heq
  have hdvd : n ∣ j - i := (Nat.modEq_iff_dvd' h.le).mp heq
  have hle : n ≤ j - i := Nat.le_of_dvd (Nat.sub_pos_of_lt h) hdvd
  omega

/-- The slot behind the items takes one more. -/
theorem items_push (slots : List α) (i n : Nat) (x : α) (hn : n < slots.length) :
    items (slots.set ((i + n) % slots.length) x) i (n + 1) = items slots i n ++ [x] := by
  induction n generalizing i with
  | zero =>
    have hlt : i % slots.length < slots.length := Nat.mod_lt i hn
    rw [items_succ, Nat.add_zero, List.length_set, List.getElem?_set_self hlt]
    rfl
  | succ n ih =>
    have hne : (i + (n + 1)) % slots.length ≠ i % slots.length := (mod_ne_mod (by omega) (by omega)).symm
    have hnext : i + (n + 1) = i + 1 + n := by omega
    rw [items_succ, List.length_set, List.getElem?_set_ne hne, hnext, ih (i + 1) (by omega), items_succ,
      List.append_assoc]

end Ring
