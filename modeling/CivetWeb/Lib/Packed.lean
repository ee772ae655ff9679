import CivetWeb.Lib.Scan

/-! Items in one block, each with a separator behind it. -/

namespace Packed

variable {α : Type*} (stop : α)

/-- The items one behind the other. -/
def pack (xs : List (List α)) : List α := (xs.map (· ++ [stop])).flatten

/-- Where the items begin in a block that begins at `n`. -/
def starts : Nat → List (List α) → List Nat
  | _, [] => []
  | n, x :: xs => n :: starts (n + x.length + 1) xs

theorem starts_cons (n : Nat) (x : List α) (xs : List (List α)) :
    starts n (x :: xs) = n :: starts (n + x.length + 1) xs := rfl

theorem pack_cons (x : List α) (xs : List (List α)) : pack stop (x :: xs) = x ++ stop :: pack stop xs := by
  rw [pack, List.map_cons, List.flatten_cons, List.append_assoc]
  rfl

theorem pack_concat (xs : List (List α)) (x : List α) : pack stop (xs ++ [x]) = pack stop xs ++ (x ++ [stop]) := by
  rw [pack, List.map_append, List.flatten_append, List.map_singleton, List.flatten_singleton]
  rfl

theorem starts_concat (n : Nat) (xs : List (List α)) (x : List α) :
    starts n (xs ++ [x]) = starts n xs ++ [n + (pack stop xs).length] := by
  induction xs generalizing n with
  | nil => rfl
  | cons y xs ih =>
    have hnext : n + y.length + 1 + (pack stop xs).length = n + (pack stop (y :: xs)).length := by
      rw [pack_cons, List.length_append, List.length_cons]
      omega
    rw [List.cons_append, starts_cons, starts_cons, ih, hnext, List.cons_append]

theorem length_starts (n : Nat) (xs : List (List α)) : (starts n xs).length = xs.length := by
  induction xs generalizing n with
  | nil => rfl
  | cons x xs ih => rw [starts_cons, List.length_cons, List.length_cons, ih]

theorem getElem?_starts (n : Nat) (xs : List (List α)) (i : Nat) (h : i < xs.length) :
    (starts n xs)[i]? = some (n + (pack stop (xs.take i)).length) := by
  induction xs generalizing n i with
  | nil => exact absurd h (Nat.not_lt_zero i)
  | cons x xs ih =>
    rw [starts_cons]
    cases i with
    | zero => rfl
    | succ i =>
      rw [List.length_cons, Nat.succ_lt_succ_iff] at h
      rw [List.getElem?_cons_succ, ih _ i h, List.take_succ_cons, pack_cons, List.length_append, List.length_cons]
      congr 1
      omega

variable [BEq α] [LawfulBEq α]

/-- Where `k` items begin, found by a walk from each one to the place behind its separator. -/
def walk (mem : List α) : Nat → Nat → List Nat
  | _, 0 => []
  | n, k + 1 => n :: walk mem (n + ((mem.drop n).takeWhile (· != stop)).length + 1) k

omit [LawfulBEq α] in
theorem walk_succ (mem : List α) (n k : Nat) :
    walk stop mem n (k + 1) = n :: walk stop mem (n + ((mem.drop n).takeWhile (· != stop)).length + 1) k := rfl

/-- An item without a separator is read from where it begins. -/
theorem takeWhile_item {x : List α} (hx : stop ∉ x) (rest : List α) :
    (x ++ stop :: rest).takeWhile (· != stop) = x := by
  refine Scan.takeWhile_stop _ x stop rest ?_ (by simp)
  intro a ha
  exact bne_iff_ne.mpr (ne_of_mem_of_not_mem ha hx)

/-- A walk through a block finds where its items begin. -/
theorem walk_pack (mem : List α) (n : Nat) (xs : List (List α)) (hxs : ∀ x ∈ xs, stop ∉ x)
    (h : pack stop xs <+: mem.drop n) : walk stop mem n xs.length = starts n xs := by
  induction xs generalizing n with
  | nil => rfl
  | cons x xs ih =>
    obtain ⟨rest, hrest⟩ := h
    rw [pack_cons, List.append_assoc, List.cons_append] at hrest
    have hread : (mem.drop n).takeWhile (· != stop) = x := by
      rw [← hrest]
      exact takeWhile_item stop (hxs x List.mem_cons_self) _
    have hbehind : mem.drop (n + x.length + 1) = pack stop xs ++ rest := by
      have hdrop : mem.drop (n + x.length + 1) = (mem.drop n).drop (x.length + 1) := by
        rw [List.drop_drop, Nat.add_assoc]
      rw [hdrop, ← hrest, List.drop_append, List.drop_of_length_le (Nat.le_succ _), Nat.add_sub_cancel_left]
      rfl
    rw [List.length_cons, walk_succ, hread, starts_cons]
    congr 1
    refine ih _ (fun y hy => hxs y (List.mem_cons_of_mem x hy)) ?_
    rw [hbehind]
    exact List.prefix_append _ _

/-- What is read from where an item begins is the item. -/
theorem read_item (mem : List α) (xs : List (List α)) (hxs : ∀ x ∈ xs, stop ∉ x) (h : pack stop xs <+: mem)
    (i : Nat) (hi : i < xs.length) :
    (mem.drop (pack stop (xs.take i)).length).takeWhile (· != stop) = xs[i] := by
  obtain ⟨rest, hrest⟩ := h
  have hsplit : xs = xs.take i ++ xs[i] :: xs.drop (i + 1) := by
    rw [← List.drop_eq_getElem_cons hi, List.take_append_drop]
  have hblock : pack stop xs = pack stop (xs.take i) ++ (xs[i] ++ stop :: pack stop (xs.drop (i + 1))) := by
    have h := congrArg (pack stop) hsplit
    rw [h, pack, List.map_append, List.flatten_append, ← pack, ← pack, pack_cons]
  rw [← hrest, hblock, List.append_assoc, List.drop_left, List.append_assoc, List.cons_append]
  exact takeWhile_item stop (hxs _ (List.getElem_mem hi)) _

end Packed
