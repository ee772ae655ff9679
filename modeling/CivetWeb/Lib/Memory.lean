import Mathlib.Data.List.Basic

namespace Memory

variable {α : Type*}

/-- The items `xs` written one after the other from `p` on. -/
def store : List α → Nat → List α → List α
  | mem, _, [] => mem
  | mem, p, x :: xs => store (mem.set p x) (p + 1) xs

@[simp] theorem store_nil (mem : List α) (p : Nat) : store mem p [] = mem := rfl

theorem store_cons (mem : List α) (p : Nat) (x : α) (xs : List α) :
    store mem p (x :: xs) = store (mem.set p x) (p + 1) xs := rfl

@[simp] theorem length_store (mem : List α) (p : Nat) (xs : List α) : (store mem p xs).length = mem.length := by
  induction xs generalizing mem p with
  | nil => rfl
  | cons x xs ih => rw [store_cons, ih, List.length_set]

theorem store_append (mem : List α) (p : Nat) (xs ys : List α) :
    store mem p (xs ++ ys) = store (store mem p xs) (p + xs.length) ys := by
  induction xs generalizing mem p with
  | nil => rfl
  | cons x xs ih =>
    have hnext : p + 1 + xs.length = p + (xs.length + 1) := by omega
    rw [List.cons_append, store_cons, store_cons, ih, List.length_cons, hnext]

/-- What lies outside of the written items stays as it is. -/
theorem getElem?_store_outside (mem : List α) (p : Nat) (xs : List α) (i : Nat) (h : i < p ∨ p + xs.length ≤ i) :
    (store mem p xs)[i]? = mem[i]? := by
  induction xs generalizing mem p with
  | nil => rfl
  | cons x xs ih =>
    rw [List.length_cons] at h
    have hne : p ≠ i := by omega
    rw [store_cons, ih (mem.set p x) (p + 1) (by omega), List.getElem?_set_ne hne]

theorem getElem?_store_inside (mem : List α) (p : Nat) (xs : List α) (i : Nat) (hi : i < xs.length)
    (hfit : p + xs.length ≤ mem.length) : (store mem p xs)[p + i]? = xs[i]? := by
  induction xs generalizing mem p i with
  | nil => exact absurd hi (Nat.not_lt_zero i)
  | cons x xs ih =>
    rw [List.length_cons] at hi hfit
    rw [store_cons]
    cases i with
    | zero =>
      have hkept := getElem?_store_outside (mem.set p x) (p + 1) xs p (.inl (Nat.lt_succ_self p))
      have hlt : p < mem.length := by omega
      exact hkept.trans (List.getElem?_set_self hlt)
    | succ i =>
      have hindex : p + (i + 1) = p + 1 + i := by omega
      have hrest := ih (mem.set p x) (p + 1) i (by omega) (by rw [List.length_set]; omega)
      rw [hindex, hrest, List.getElem?_cons_succ]

/-- A write is a change of one part of the memory. -/
theorem store_eq_append (mem : List α) (p : Nat) (xs : List α) (hfit : p + xs.length ≤ mem.length) :
    store mem p xs = mem.take p ++ xs ++ mem.drop (p + xs.length) := by
  induction xs generalizing mem p with
  | nil => rw [store_nil, List.append_nil, List.length_nil, Nat.add_zero, List.take_append_drop]
  | cons x xs ih =>
    rw [List.length_cons] at hfit
    have hlt : p < mem.length := by omega
    have hdrop : p + 1 + xs.length = p + (xs.length + 1) := by omega
    have hkept : (mem.set p x).drop (p + 1 + xs.length) = mem.drop (p + 1 + xs.length) :=
      List.drop_set_of_lt (by omega)
    rw [store_cons, ih (mem.set p x) (p + 1) (by rw [List.length_set]; omega), hkept, hdrop, List.length_cons]
    have htake : (mem.set p x).take (p + 1) = mem.take p ++ [x] := by
      have hset : p < (mem.set p x).length := by rwa [List.length_set]
      rw [List.take_succ_eq_append_getElem hset, List.getElem_set_self, List.take_set_of_le (Nat.le_refl p)]
    rw [htake, List.append_assoc, List.append_assoc, List.append_assoc]
    rfl

theorem take_store (mem : List α) (p : Nat) (xs : List α) : (store mem p xs).take p = mem.take p := by
  apply List.ext_getElem?
  intro i
  rw [List.getElem?_take, List.getElem?_take]
  split
  case isTrue hi => exact getElem?_store_outside mem p xs i (.inl hi)
  case isFalse => rfl

theorem drop_store (mem : List α) (p q : Nat) (xs : List α) (h : p + xs.length ≤ q) :
    (store mem p xs).drop q = mem.drop q := by
  apply List.ext_getElem?
  intro i
  rw [List.getElem?_drop, List.getElem?_drop]
  exact getElem?_store_outside mem p xs (q + i) (.inr (by omega))

/-- What was written is read back. -/
theorem prefix_drop_store (mem : List α) (p : Nat) (xs : List α) (hfit : p + xs.length ≤ mem.length) :
    xs <+: (store mem p xs).drop p := by
  have hlen : (mem.take p).length = p := by
    rw [List.length_take]
    omega
  rw [store_eq_append mem p xs hfit, List.append_assoc, List.drop_append, hlen, Nat.sub_self,
    List.drop_eq_nil_of_le (Nat.le_of_eq hlen), List.nil_append, List.drop_zero]
  exact List.prefix_append _ _

/-- A write changes nothing exactly where its items were there before. -/
theorem store_eq_self_iff (mem : List α) (p : Nat) (xs : List α) (hfit : p + xs.length ≤ mem.length) :
    store mem p xs = mem ↔ xs <+: mem.drop p := by
  constructor
  · intro h
    rw [← h]
    exact prefix_drop_store mem p xs hfit
  · rintro ⟨tail, htail⟩
    have hdrop : mem.drop (p + xs.length) = tail := by
      rw [← List.drop_drop, ← htail, List.drop_left]
    rw [store_eq_append mem p xs hfit, List.append_assoc, hdrop, htail, List.take_append_drop]

/-- A write beside a text leaves it where it is. -/
theorem prefix_drop_set {mem text : List α} {p q : Nat} (x : α) (htext : text <+: mem.drop p)
    (h : q < p ∨ p + text.length ≤ q) : text <+: (mem.set q x).drop p := by
  rw [List.drop_set]
  split
  case isTrue => exact htext
  case isFalse hge =>
    obtain ⟨tail, htail⟩ := htext
    have hbehind : text.length ≤ q - p := by omega
    rw [← htail, List.set_append_right _ _ hbehind]
    exact List.prefix_append _ _

end Memory
