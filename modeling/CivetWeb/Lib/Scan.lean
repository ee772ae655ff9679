import Mathlib.Data.List.Basic
import Mathlib.Data.List.TakeWhile
import Mathlib.Tactic.Ring

namespace Scan

variable {α : Type*}

/-- A maximal run of `p` ends exactly at the first element that fails it. -/
theorem takeWhile_stop (p : α → Bool) (w : List α) (b : α) (rest : List α)
    (hw : ∀ a ∈ w, p a = true) (hb : p b = false) :
    (w ++ b :: rest).takeWhile p = w := by
  rw [List.takeWhile_append_of_pos hw, List.takeWhile_cons_of_neg (by simp [hb]), List.append_nil]

theorem dropWhile_stop (p : α → Bool) (w : List α) (b : α) (rest : List α)
    (hw : ∀ a ∈ w, p a = true) (hb : p b = false) :
    (w ++ b :: rest).dropWhile p = b :: rest := by
  rw [List.dropWhile_append_of_pos hw, List.dropWhile_cons_of_neg (by simp [hb])]

theorem takeWhile_all (p : α → Bool) (s : List α) : ∀ a ∈ s.takeWhile p, p a = true := by
  intro a ha
  exact List.mem_takeWhile_imp ha

theorem head_dropWhile (p : α → Bool) (s : List α) (b : α) (hb : b ∈ (s.dropWhile p).head?) :
    p b = false := by
  induction s with
  | nil => simp at hb
  | cons a s ih =>
    cases hp : p a with
    | false =>
      rw [List.dropWhile_cons_of_neg (by simp [hp])] at hb
      simp only [List.head?_cons, Option.mem_def, Option.some.injEq] at hb
      exact hb ▸ hp
    | true =>
      rw [List.dropWhile_cons_of_pos hp] at hb
      exact ih hb

/-- What a scan for the end of a run leaves behind is unaffected past a stop element. -/
theorem takeWhile_guard (p : α → Bool) (s : List α) (b : α) (t u : List α) (hb : p b = false) :
    (s ++ b :: t).takeWhile p = (s ++ b :: u).takeWhile p := by
  induction s with
  | nil => simp [hb]
  | cons a s ih =>
    cases hp : p a <;> simp [hp, ih]

theorem dropWhile_guard (p : α → Bool) (s : List α) (b : α) (t : List α) (hb : p b = false) :
    (s ++ b :: t).dropWhile p = (s ++ [b]).dropWhile p ++ t := by
  induction s with
  | nil => simp [hb]
  | cons a s ih =>
    cases hp : p a <;> simp [hp, ih]

section Find
variable [DecidableEq α]

/-- Offset of the first occurrence of `pat` in a list. -/
def find (pat : List α) : List α → Option Nat
  | [] => if pat = [] then some 0 else none
  | a :: s => if pat.isPrefixOf (a :: s) then some 0 else (find pat s).map (· + 1)

theorem find_some_at (pat s : List α) (i : Nat) (h : find pat s = some i) :
    pat <+: s.drop i := by
  induction s generalizing i with
  | nil =>
    simp only [find] at h
    split_ifs at h with hp
    simp [hp]
  | cons a s ih =>
    simp only [find] at h
    split_ifs at h with hp
    · cases h
      exact List.isPrefixOf_iff_prefix.mp hp
    · obtain ⟨j, hj, rfl⟩ := Option.map_eq_some_iff.mp h
      simpa using ih j hj

theorem find_some_first (pat s : List α) (i : Nat) (h : find pat s = some i) :
    ∀ j < i, ¬ pat <+: s.drop j := by
  induction s generalizing i with
  | nil =>
    simp only [find] at h
    split_ifs at h
    cases h
    intro j hj
    omega
  | cons a s ih =>
    simp only [find] at h
    split_ifs at h with hp
    · cases h
      intro j hj
      omega
    · obtain ⟨k, hk, rfl⟩ := Option.map_eq_some_iff.mp h
      intro j hj
      cases j with
      | zero => simpa [List.isPrefixOf_iff_prefix] using hp
      | succ j => simpa using ih k hk j (by omega)

theorem find_none (pat s : List α) (h : find pat s = none) :
    ∀ j, ¬ pat <+: s.drop j := by
  induction s with
  | nil =>
    simp only [find] at h
    split_ifs at h with hp
    intro j
    simpa using hp
  | cons a s ih =>
    simp only [find] at h
    split_ifs at h with hp
    intro j
    cases j with
    | zero => simpa [List.isPrefixOf_iff_prefix] using hp
    | succ j => simpa using ih (by simpa using h) j

theorem find_eq_some (pat s : List α) (i : Nat) (hp : pat <+: s.drop i)
    (hf : ∀ j < i, ¬ pat <+: s.drop j) : find pat s = some i := by
  cases h : find pat s with
  | none => exact absurd hp (find_none pat s h i)
  | some k =>
    rcases lt_trichotomy k i with hk | hk | hk
    · exact absurd (find_some_at pat s k h) (hf k hk)
    · rw [hk]
    · exact absurd hp (find_some_first pat s k h i hk)

theorem find_le (pat s : List α) (i : Nat) (h : find pat s = some i) :
    i + pat.length ≤ s.length := by
  induction s generalizing i with
  | nil =>
    simp only [find] at h
    split_ifs at h with hp
    cases h
    simp [hp]
  | cons a s ih =>
    simp only [find] at h
    split_ifs at h with hp
    · cases h
      simpa using (List.isPrefixOf_iff_prefix.mp hp).length_le
    · obtain ⟨j, hj, rfl⟩ := Option.map_eq_some_iff.mp h
      have := ih j hj
      simp only [List.length_cons]
      omega

/-- In a front of a text a pattern is found where it is found in the text, if it fits. -/
theorem find_prefix (pat v w : List α) (k : Nat) (h : v <+: w) (hk : find pat w = some k) :
    find pat v = if k + pat.length ≤ v.length then some k else none := by
  have hat := find_some_at pat w k hk
  have hfirst := find_some_first pat w k hk
  obtain ⟨z, rfl⟩ := h
  -- an occurrence in the front is one in the text
  have hup : ∀ j, pat <+: v.drop j → pat <+: (v ++ z).drop j := by
    intro j hj
    rw [List.drop_append]
    exact hj.trans (List.prefix_append _ _)
  by_cases hfit : k + pat.length ≤ v.length
  · rw [if_pos hfit]
    apply find_eq_some
    · apply List.prefix_of_prefix_length_le hat
      · rw [List.drop_append]
        exact List.prefix_append _ _
      · rw [List.length_drop]
        omega
    · intro j hj hpre
      exact hfirst j hj (hup j hpre)
  · rw [if_neg hfit]
    cases hv : find pat v with
    | none => rfl
    | some j =>
      have hj := find_le pat v j hv
      have hlt : j < k := by omega
      exact absurd (hup j (find_some_at pat v j hv)) (hfirst j hlt)

/-- Behind a front without the pattern the search goes on. -/
theorem find_drop (pat w : List α) (k t : Nat) (ht : t ≤ k) (hk : find pat w = some k) :
    find pat (w.drop t) = some (k - t) := by
  apply find_eq_some
  · rw [List.drop_drop, Nat.add_sub_cancel' ht]
    exact find_some_at pat w k hk
  · intro j hj
    rw [List.drop_drop]
    apply find_some_first pat w k hk
    omega

/-- A run without the first element of the pattern is passed over. -/
theorem find_skip (pat : List α) (c : α) (hc : pat.head? = some c) (u s : List α) (hu : c ∉ u) :
    find pat (u ++ s) = (find pat s).map (· + u.length) := by
  induction u with
  | nil => simp
  | cons a u ih =>
    obtain ⟨hca, hcu⟩ := not_or.mp (fun h => hu (List.mem_cons.mpr h))
    have hno : ¬ pat.isPrefixOf (a :: (u ++ s)) = true := by
      cases pat with
      | nil => cases hc
      | cons b pat =>
        have hb : b = c := Option.some.inj hc
        rw [List.isPrefixOf_iff_prefix, List.cons_prefix_cons, hb]
        intro h
        exact hca h.1
    rw [List.cons_append, find, if_neg hno, ih hcu, Option.map_map]
    rfl

end Find

/-- Of two ways to split a text, the one with the shorter front cuts the other's front. -/
theorem prefix_cut (v w x y : List α) (h : v ++ w = x ++ y) (hlen : v.length ≤ x.length) :
    ∃ z, x = v ++ z ∧ w = z ++ y := by
  obtain ⟨z, rfl⟩ := List.prefix_of_prefix_length_le (List.prefix_append v w)
    (h ▸ List.prefix_append x y) hlen
  refine ⟨z, rfl, ?_⟩
  rw [List.append_assoc] at h
  exact List.append_cancel_left h

/-- A pattern whose first element does not come back in it cannot overlap itself: behind a front without
it, its first occurrence is where it was put. -/
theorem find_put [DecidableEq α] (c : α) (t u tail : List α) (hc : c ∉ t) (hu : ¬ c :: t <:+: u) :
    find (c :: t) (u ++ (c :: t ++ tail)) = some u.length := by
  apply find_eq_some
  · rw [List.drop_left]
    exact List.prefix_append _ _
  · intro j hj hpre
    have hdrop : (u ++ (c :: t ++ tail)).drop j = u.drop j ++ (c :: t ++ tail) :=
      List.drop_append_of_le_length (Nat.le_of_lt hj)
    rw [hdrop] at hpre
    obtain ⟨z, hz⟩ := hpre
    by_cases hfit : (c :: t).length ≤ (u.drop j).length
    · obtain ⟨y, hy, -⟩ := prefix_cut (c :: t) z (u.drop j) (c :: t ++ tail) hz hfit
      apply hu
      have hin : c :: t <+: u.drop j := ⟨y, hy.symm⟩
      exact hin.isInfix.trans (List.drop_suffix j u).isInfix
    · -- the rest of the pattern would start with its first element
      obtain ⟨y, hy, hyz⟩ := prefix_cut (u.drop j) (c :: t ++ tail) (c :: t) z hz.symm (by omega)
      cases hd : u.drop j with
      | nil =>
        rw [List.drop_eq_nil_iff] at hd
        omega
      | cons a v =>
        rw [hd, List.cons_append, List.cons.injEq] at hy
        cases y with
        | nil =>
          rw [hd, hy.2] at hfit
          simp at hfit
        | cons b y =>
          rw [List.cons_append, List.cons_append, List.cons.injEq] at hyz
          apply hc
          rw [hy.2, hyz.1]
          simp

theorem prefix_drop (v w : List α) (n : Nat) (h : v <+: w) : v.drop n <+: w.drop n := by
  obtain ⟨z, rfl⟩ := h
  rw [List.drop_append]
  exact List.prefix_append _ _

/-- A text that stops at `c` with nothing like `c` before it starts with every part
that holds no `c`. -/
theorem split_before (c : α) (x y rest tail : List α) (h : x ++ c :: rest = y ++ tail)
    (hy : c ∉ y) : ∃ z, x = y ++ z ∧ tail = z ++ c :: rest := by
  rcases List.append_eq_append_iff.mp h with ⟨z, hz, htail⟩ | ⟨z, hz, htail⟩
  · cases z with
    | nil => exact ⟨[], by simpa using hz.symm, by simpa using htail.symm⟩
    | cons d z =>
      obtain ⟨rfl, -⟩ : c = d ∧ rest = z ++ tail := by simpa using htail
      exact absurd (by simp [hz]) hy
  · exact ⟨z, hz, htail⟩

theorem dropWhile_suffix (p : α → Bool) (x t : List α) :
    t.dropWhile p <:+ (x ++ t).dropWhile p := by
  induction x with
  | nil => exact List.suffix_rfl
  | cons a x ih =>
    by_cases h : p a = true
    · rw [List.cons_append, List.dropWhile_cons_of_pos h]
      exact ih
    · rw [List.cons_append, List.dropWhile_cons_of_neg h]
      exact (List.dropWhile_suffix p).trans (List.suffix_append (a :: x) t)

section Blocks
variable (p : α → Bool)

/-- A list cut into runs without a separator, each with the run of separators behind it. -/
def blocks : List α → List (List α × List α)
  | [] => []
  | c :: s =>
    match blocks s with
    | [] => if p c then [([], [c])] else [([c], [])]
    | (l, b) :: bs =>
      if p c then if l = [] then ([], c :: b) :: bs else ([], [c]) :: (l, b) :: bs
      else (c :: l, b) :: bs

theorem blocks_length_cons (c : α) (s : List α) :
    (blocks p s).length ≤ (blocks p (c :: s)).length := by
  rw [blocks]
  split
  · rename_i h
    simp [h]
  · rename_i l b bs h
    rw [h]
    split_ifs <;> simp

theorem blocks_length_suffix (t s : List α) (h : t <:+ s) :
    (blocks p t).length ≤ (blocks p s).length := by
  obtain ⟨x, rfl⟩ := h
  induction x with
  | nil => exact le_rfl
  | cons a x ih => exact ih.trans (blocks_length_cons p a (x ++ t))

/-- The first block of a text that starts with a separator has no line. -/
theorem blocks_separators (e s : List α) (he : ∀ a ∈ e, p a = true) (hne : e ≠ [])
    (hs : ∀ a ∈ s.head?, p a = false) : blocks p (e ++ s) = ([], e) :: blocks p s := by
  induction e with
  | nil => exact absurd rfl hne
  | cons c e ih =>
    have hc := he c (by simp)
    by_cases hnil : e = []
    · subst hnil
      rw [List.cons_append, List.nil_append, blocks]
      cases s with
      | nil => simp [blocks, hc]
      | cons d s =>
        have hd := hs d (by simp)
        split
        · rename_i h
          rw [blocks] at h
          split at h <;> simp [hd] at h
        · rename_i l b bs h
          have hl : l ≠ [] := by
            rintro rfl
            rw [blocks] at h
            split at h <;> simp [hd] at h
          simp [hc, hl, h]
    · have hrec := ih (fun a ha => he a (by simp [ha])) hnil
      rw [List.cons_append, blocks, hrec]
      simp [hc]

theorem blocks_line (w e s : List α) (hw : ∀ a ∈ w, p a = false) (he : ∀ a ∈ e, p a = true)
    (hne : e ≠ []) (hs : ∀ a ∈ s.head?, p a = false) :
    blocks p (w ++ e ++ s) = (w, e) :: blocks p s := by
  induction w with
  | nil => exact blocks_separators p e s he hne hs
  | cons c w ih =>
    have hrec := ih (fun a ha => hw a (by simp [ha]))
    rw [List.cons_append, List.cons_append, blocks, hrec]
    simp [hw c (by simp)]

/-- The line up to a separator, with all separators that follow. -/
theorem blocks_line_run (w : List α) (c : α) (s : List α) (hw : ∀ a ∈ w, p a = false)
    (hc : p c = true) :
    blocks p (w ++ c :: s) = (w, c :: s.takeWhile p) :: blocks p (s.dropWhile p) := by
  have hrun : ∀ a ∈ c :: s.takeWhile p, p a = true := by
    intro a ha
    rcases List.mem_cons.mp ha with rfl | ha
    · exact hc
    · exact takeWhile_all p s a ha
  have hshape : w ++ c :: s = w ++ (c :: s.takeWhile p) ++ s.dropWhile p := by simp
  rw [hshape]
  exact blocks_line p w _ _ hw hrun (by simp) (head_dropWhile p s)

/-- A text that starts with a line starts its first block with it. -/
theorem blocks_head (c : α) (s : List α) (hc : p c = false) :
    ∃ l b bs, blocks p (c :: s) = (c :: l, b) :: bs := by
  rw [blocks]
  split
  · exact ⟨[], [], [], by simp [hc]⟩
  · rename_i l b bs h
    exact ⟨l, b, bs, by simp [hc]⟩

end Blocks

end Scan
