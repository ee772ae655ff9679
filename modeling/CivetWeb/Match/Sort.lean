import CivetWeb.Lib.Comparison
import Mathlib.Data.List.Induction
import Mathlib.Data.List.Perm.Basic

namespace CivetWeb.Match

/-- The gap sequence of `mg_sort`. -/
def A102549 : List Nat := [1, 4, 10, 23, 57, 132, 301, 701, 1750]

section MgSort
variable {α : Type*} (compfunc : α → α → Int)

/-- The loop over `k`: larger elements move up by a gap until `tmp` has its place. -/
def shellInsert (gap : Nat) (tmp : α) (k : Nat) (data : List α) : List α :=
  if _h : 0 < gap ∧ gap ≤ k then
    match data[k - gap]? with
    | some cmp =>
      if 0 < compfunc cmp tmp then shellInsert gap tmp (k - gap) (data.set k cmp)
      else data.set k tmp
    | none => data
  else data.set k tmp
termination_by k
decreasing_by omega

/-- The loop over `j`, on the indices `i`, `i + gap` and so on. -/
def shellChain (gap i : Nat) (data : List α) : List α :=
  ((List.range data.length).filter (fun j => j % gap = i)).foldl
    (fun data j =>
      match data[j]? with
      | some tmp => shellInsert compfunc gap tmp j data
      | none => data)
    data

/-- `mg_sort`, a ShellSort. -/
def mgSort (data : List α) : List α :=
  A102549.reverse.foldl
    (fun data gap =>
      if gap > data.length / 2 then data
      else (List.range gap).foldl (fun data i => shellChain compfunc gap i data) data)
    data

theorem shellInsert_perm (gap : Nat) (tmp : α) (k : Nat) (data : List α) (hk : k < data.length) :
    (shellInsert compfunc gap tmp k data).Perm (data.set k tmp) := by
  fun_induction shellInsert compfunc gap tmp k data with
  | case1 k data hgap cmp hcmp hlt ih =>
    obtain ⟨hk', hget⟩ := List.getElem?_eq_some_iff.mp hcmp
    have hne : k ≠ k - gap := by omega
    have hi : k < (data.set k tmp).length := by simpa using hk
    have hj : k - gap < (data.set k tmp).length := by simpa using hk'
    have hswap := List.set_set_perm hi hj
    rw [List.getElem_set_self, List.getElem_set_ne hne, hget, List.set_set] at hswap
    exact (ih (by simpa using hk')).trans hswap
  | case2 => exact List.Perm.refl _
  | case3 k data hgap hnone =>
    rw [List.getElem?_eq_none_iff] at hnone
    omega
  | case4 => exact List.Perm.refl _

theorem shellChain_perm (gap i : Nat) (data : List α) :
    (shellChain compfunc gap i data).Perm data := by
  have hfold : ∀ (js : List Nat) (data : List α),
      (js.foldl (fun data j =>
        match data[j]? with
        | some tmp => shellInsert compfunc gap tmp j data
        | none => data) data).Perm data := by
    intro js
    induction js with
    | nil => exact fun data => List.Perm.refl data
    | cons j js ih =>
      intro data
      rw [List.foldl_cons]
      refine (ih _).trans ?_
      cases hj : data[j]? with
      | none => exact List.Perm.refl data
      | some tmp =>
        obtain ⟨hlt, hget⟩ := List.getElem?_eq_some_iff.mp hj
        refine (shellInsert_perm compfunc gap tmp j data hlt).trans ?_
        rw [← hget, List.set_getElem_self]
  exact hfold _ data

/-- The sort only moves elements. -/
theorem mgSort_perm (data : List α) : (mgSort compfunc data).Perm data := by
  have hpass : ∀ (is : List Nat) (gap : Nat) (data : List α),
      (is.foldl (fun data i => shellChain compfunc gap i data) data).Perm data := by
    intro is gap
    induction is with
    | nil => exact fun data => List.Perm.refl data
    | cons i is ih => exact fun data => (ih _).trans (shellChain_perm compfunc gap i data)
  have hgaps : ∀ (gaps : List Nat) (data : List α),
      (gaps.foldl (fun data gap =>
        if gap > data.length / 2 then data
        else (List.range gap).foldl (fun data i => shellChain compfunc gap i data) data)
        data).Perm data := by
    intro gaps
    induction gaps with
    | nil => exact fun data => List.Perm.refl data
    | cons gap gaps ih =>
      intro data
      rw [List.foldl_cons]
      refine (ih _).trans ?_
      split_ifs
      · exact List.Perm.refl data
      · exact hpass _ gap data
  exact hgaps _ data

section Ordered
variable {compfunc} (hasymm : ∀ a b, 0 < compfunc a b → compfunc b a ≤ 0)
  (htrans : ∀ a b c, compfunc a b ≤ 0 → compfunc b c ≤ 0 → compfunc a c ≤ 0)
include hasymm htrans

/-- At gap 1 the new element sinks into the part in front of it. -/
theorem shellInsert_one (tmp x : α) (front back : List α) :
    ∃ front', shellInsert compfunc 1 tmp front.length (front ++ x :: back) = front' ++ back ∧
      front'.Perm (tmp :: front) ∧
      (front.Pairwise (fun a b => compfunc a b ≤ 0) → front'.Pairwise (fun a b => compfunc a b ≤ 0)) := by
  induction front using List.reverseRecOn generalizing x back with
  | nil =>
    refine ⟨[tmp], ?_, List.Perm.refl _, fun _ => List.pairwise_singleton _ _⟩
    rw [shellInsert, dif_neg (by simp)]
    rfl
  | append_singleton front c ih =>
    have hlen : (front ++ [c]).length = front.length + 1 := by simp
    have hget : ((front ++ [c]) ++ x :: back)[front.length + 1 - 1]? = some c := by simp
    rw [hlen, shellInsert, dif_pos (by omega), hget]
    dsimp only
    by_cases hlt : 0 < compfunc c tmp
    · -- `c` moves up, and the place to fill is the one it leaves
      have hset : ((front ++ [c]) ++ x :: back).set (front.length + 1) c =
          front ++ c :: (c :: back) := by simp
      rw [if_pos hlt, hset]
      obtain ⟨front', heq, hperm, hsorted⟩ := ih c (c :: back)
      refine ⟨front' ++ [c], ?_, ?_, ?_⟩
      · rw [Nat.add_sub_cancel, heq, List.append_assoc]
        rfl
      · exact hperm.append_right [c]
      · intro hs
        obtain ⟨hs1, _, hs2⟩ := List.pairwise_append.mp hs
        refine List.pairwise_append.mpr ⟨hsorted hs1, List.pairwise_singleton _ _, ?_⟩
        intro a ha b hb
        obtain rfl := List.mem_singleton.mp hb
        rcases List.mem_cons.mp (hperm.mem_iff.mp ha) with rfl | ha'
        · exact hasymm _ _ hlt
        · exact hs2 a ha' b (by simp)
    · have hset : ((front ++ [c]) ++ x :: back).set (front.length + 1) tmp =
          ((front ++ [c]) ++ [tmp]) ++ back := by simp
      rw [if_neg hlt, hset]
      refine ⟨(front ++ [c]) ++ [tmp], rfl, ?_, ?_⟩
      · exact List.perm_append_comm
      · intro hs
        have hc : compfunc c tmp ≤ 0 := not_lt.mp hlt
        refine List.pairwise_append.mpr ⟨hs, List.pairwise_singleton _ _, ?_⟩
        intro a ha b hb
        obtain rfl := List.mem_singleton.mp hb
        rcases List.mem_append.mp ha with ha | ha
        · exact htrans a c _ ((List.pairwise_append.mp hs).2.2 a ha c (by simp)) hc
        · obtain rfl := List.mem_singleton.mp ha
          exact hc

/-- The last pass, at gap 1, is an insertion sort. -/
theorem shellChain_one (data : List α) :
    (shellChain compfunc 1 0 data).Pairwise (fun a b => compfunc a b ≤ 0) := by
  have hall : (List.range data.length).filter (fun j => j % 1 = 0) = List.range data.length := by
    simp [Nat.mod_one]
  rw [shellChain, hall]
  have hprefix : ∀ n, n ≤ data.length →
      ∃ front, ((List.range n).foldl (fun data j =>
        match data[j]? with
        | some tmp => shellInsert compfunc 1 tmp j data
        | none => data) data) = front ++ data.drop n ∧ front.length = n ∧
        front.Pairwise (fun a b => compfunc a b ≤ 0) := by
    intro n
    induction n with
    | zero => exact fun _ => ⟨[], rfl, rfl, List.Pairwise.nil⟩
    | succ n ih =>
      intro hn
      obtain ⟨front, heq, hlen, hsorted⟩ := ih (by omega)
      obtain ⟨x, hdrop⟩ : ∃ x, data.drop n = x :: data.drop (n + 1) :=
        ⟨data[n], List.drop_eq_getElem_cons (by omega)⟩
      have hget : (front ++ x :: data.drop (n + 1))[n]? = some x := by
        simp [← hlen]
      obtain ⟨front', heq', hperm, hsorted'⟩ :=
        shellInsert_one hasymm htrans x x front (data.drop (n + 1))
      rw [hlen] at heq'
      rw [List.range_succ, List.foldl_append, heq, List.foldl_cons, List.foldl_nil, hdrop, hget]
      exact ⟨front', heq', by rw [hperm.length_eq, List.length_cons, hlen], hsorted' hsorted⟩
  obtain ⟨front, heq, _, hsorted⟩ := hprefix data.length (Nat.le_refl _)
  rw [heq, List.drop_length, List.append_nil]
  exact hsorted

/-- The sort leaves the elements in the order of their comparison. -/
theorem mgSort_ordered (data : List α) : (mgSort compfunc data).Pairwise (fun a b => compfunc a b ≤ 0) := by
  have hlast : A102549.reverse = [1750, 701, 301, 132, 57, 23, 10, 4] ++ [1] := by rfl
  unfold mgSort
  rw [hlast, List.foldl_append, List.foldl_cons, List.foldl_nil]
  generalize List.foldl _ data [1750, 701, 301, 132, 57, 23, 10, 4] = data'
  split_ifs with hshort
  · match data', hshort with
    | [], _ => exact List.Pairwise.nil
    | [a], _ => exact List.pairwise_singleton _ a
    | _ :: _ :: _, hshort => simp only [List.length_cons] at hshort; omega
  · exact shellChain_one hasymm htrans data'

end Ordered

/-- A sort by keys leaves the elements in the order of their keys. -/
theorem mgSort_sorted {compfunc} {key : α → Nat} (hkey : ∀ a b, 0 < compfunc a b ↔ key b < key a) (data : List α) :
    (mgSort compfunc data).Pairwise (fun a b => key a ≤ key b) := by
  have hle (a b : α) : compfunc a b ≤ 0 ↔ key a ≤ key b := by
    rw [← not_lt, hkey, Nat.not_lt]
  have hordered : (mgSort compfunc data).Pairwise (fun a b => compfunc a b ≤ 0) :=
    mgSort_ordered (fun a b h => (hle b a).mpr (Nat.le_of_lt ((hkey a b).mp h)))
      (fun a b c hab hbc => (hle a c).mpr (Nat.le_trans ((hle a b).mp hab) ((hle b c).mp hbc))) data
  exact hordered.imp fun h => (hle _ _).mp h

end MgSort

end CivetWeb.Match
