import CivetWeb.Lib.Scan
import Mathlib.Data.List.DropRight

/-! Texts read as segments between separators. -/

namespace Segments

/-! ### Ends of a list -/

theorem rdropWhile_append_pos {α : Type*} {p : α → Bool} (s t : List α) (ht : ∀ c ∈ t, p c = true) :
    (s ++ t).rdropWhile p = s.rdropWhile p := by
  rw [List.rdropWhile, List.reverse_append, List.dropWhile_append_of_pos, ← List.rdropWhile]
  exact fun c hc => ht c (List.mem_reverse.mp hc)

theorem rdropWhile_append_neg {α : Type*} {p : α → Bool} (s t : List α) {c : α} (hc : p c = false) :
    (s ++ c :: t).rdropWhile p = s ++ c :: t.rdropWhile p := by
  induction t using List.reverseRecOn with
  | nil => rw [List.rdropWhile_concat_neg _ _ _ (by simp [hc]), List.rdropWhile_nil]
  | append_singleton t d ih =>
    rw [← List.cons_append, ← List.append_assoc]
    by_cases hd : p d = true
    · rw [List.rdropWhile_concat_pos _ _ _ hd, List.rdropWhile_concat_pos _ _ _ hd, ih]
    · rw [List.rdropWhile_concat_neg _ _ _ hd, List.rdropWhile_concat_neg _ _ _ hd, List.append_assoc,
        List.cons_append]

variable {α : Type*} [DecidableEq α] (sep dot : α)

/-- A list with a separator is cut at the first one. -/
theorem split_first {sep : α} {s : List α} (h : s.dropWhile (· != sep) ≠ []) :
    s = s.takeWhile (· != sep) ++ sep :: (s.dropWhile (· != sep)).tail := by
  obtain ⟨c, t, ht⟩ := List.exists_cons_of_ne_nil h
  have hc := Scan.head_dropWhile (· != sep) s c (by rw [ht]; rfl)
  rw [bne_eq_false_iff_eq] at hc
  conv_lhs => rw [← List.takeWhile_append_dropWhile (p := (· != sep)) (l := s), ht, hc]
  rw [ht, List.tail_cons]

/-- One separator for each run of them. -/
def collapse : List α → List α
  | [] => []
  | a :: s => if a = sep ∧ s.head? = some sep then collapse s else a :: collapse s

/-- A segment without the dots at its end. -/
def stripEnd (x : List α) : List α := x.rdropWhile (fun a => a = dot)

/-- Every segment without the dots at its end. -/
def strip (s : List α) : List α := [sep].intercalate ((s.splitOn sep).map (stripEnd dot))

/-- No two separators stand next to each other. -/
def NoDouble : List α → Prop
  | [] => True
  | a :: s => ¬ (a = sep ∧ s.head? = some sep) ∧ NoDouble s

/-- No segment ends in a dot: what follows a dot is neither a separator nor the end. -/
def NoDotEnd : List α → Prop
  | [] => True
  | a :: s => (a = dot → s ≠ [] ∧ s.head? ≠ some sep) ∧ NoDotEnd s

variable {sep dot}

/-! ### Collapsing -/

theorem collapse_cons (a : α) (s : List α) : collapse sep (a :: s) =
    if a = sep ∧ s.head? = some sep then collapse sep s else a :: collapse sep s := rfl

theorem head_collapse (s : List α) : (collapse sep s).head? = s.head? := by
  induction s with
  | nil => rfl
  | cons a s ih =>
    rw [collapse_cons]
    split_ifs with h
    · rw [ih, h.1, h.2, List.head?_cons]
    · rfl

theorem collapse_eq_nil (s : List α) : collapse sep s = [] ↔ s = [] := by
  rw [← List.head?_eq_none_iff, head_collapse, List.head?_eq_none_iff]

theorem collapse_length_le (s : List α) : (collapse sep s).length ≤ s.length := by
  induction s with
  | nil => exact Nat.le_refl _
  | cons a s ih =>
    rw [collapse_cons]
    split_ifs <;> simp only [List.length_cons] <;> omega

theorem collapse_subset (s : List α) : collapse sep s ⊆ s := by
  induction s with
  | nil => exact fun _ h => h
  | cons a s ih =>
    rw [collapse_cons]
    split_ifs
    · exact fun b hb => List.mem_cons_of_mem a (ih hb)
    · exact List.cons_subset_cons a ih

theorem collapse_noDouble (s : List α) : NoDouble sep (collapse sep s) := by
  induction s with
  | nil => trivial
  | cons a s ih =>
    rw [collapse_cons]
    split_ifs with h
    · exact ih
    · exact ⟨by rwa [head_collapse], ih⟩

theorem collapse_noDotEnd {s : List α} (h : NoDotEnd sep dot s) :
    NoDotEnd sep dot (collapse sep s) := by
  induction s with
  | nil => trivial
  | cons a s ih =>
    rw [collapse_cons]
    split_ifs
    · exact ih h.2
    · refine ⟨fun ha => ?_, ih h.2⟩
      rw [head_collapse, Ne, collapse_eq_nil]
      exact h.1 ha

theorem collapse_self {s : List α} (h : NoDouble sep s) : collapse sep s = s := by
  induction s with
  | nil => rfl
  | cons a s ih => rw [collapse_cons, if_neg h.1, ih h.2]

/-- In front of a text that begins with a separator, a separator at the end is one too many. -/
theorem collapse_append_sep (s t : List α) :
    collapse sep (s ++ sep :: sep :: t) = collapse sep (s ++ sep :: t) := by
  induction s with
  | nil => simp [collapse_cons]
  | cons a s ih =>
    have hhead : (s ++ sep :: sep :: t).head? = (s ++ sep :: t).head? := by
      cases s <;> rfl
    rw [List.cons_append, List.cons_append, collapse_cons, collapse_cons, hhead, ih]

/-! ### Stripping -/

theorem splitOn_sep (s : List α) : (sep :: s).splitOn sep = [] :: s.splitOn sep := by
  rw [List.splitOn_cons_eq_if_modifyHead, if_pos (by simp)]

theorem splitOn_cons {a : α} (ha : a ≠ sep) (s : List α) :
    ∃ x xs, s.splitOn sep = x :: xs ∧ (a :: s).splitOn sep = (a :: x) :: xs := by
  obtain ⟨x, xs, hs⟩ := List.exists_cons_of_ne_nil (List.splitOn_ne_nil sep s)
  refine ⟨x, xs, hs, ?_⟩
  rw [List.splitOn_cons_eq_if_modifyHead, if_neg (by simpa using ha), hs]
  rfl

theorem splitOn_single {x : List α} (hx : sep ∉ x) : x.splitOn sep = [x] := by
  induction x with
  | nil => rfl
  | cons a x ih =>
    have ha : a ≠ sep := fun h => hx (h ▸ List.mem_cons_self)
    obtain ⟨y, ys, hy, hcons⟩ := splitOn_cons ha x
    rw [ih fun h => hx (List.mem_cons_of_mem a h)] at hy
    rw [hcons, ← (List.cons.inj hy).1, ← (List.cons.inj hy).2]

theorem splitOn_first {x : List α} (hx : sep ∉ x) (s : List α) :
    (x ++ sep :: s).splitOn sep = x :: s.splitOn sep := by
  induction x with
  | nil => exact splitOn_sep s
  | cons a x ih =>
    have ha : a ≠ sep := fun h => hx (h ▸ List.mem_cons_self)
    obtain ⟨y, ys, hy, hcons⟩ := splitOn_cons ha (x ++ sep :: s)
    rw [ih fun h => hx (List.mem_cons_of_mem a h)] at hy
    rw [List.cons_append, hcons, ← (List.cons.inj hy).1, ← (List.cons.inj hy).2]

theorem not_mem_splitOn (s : List α) : ∀ x ∈ s.splitOn sep, sep ∉ x := by
  induction s with
  | nil => simp
  | cons a s ih =>
    by_cases ha : a = sep
    · subst ha
      rw [splitOn_sep]
      simpa using ih
    · obtain ⟨x, xs, hs, hcons⟩ := splitOn_cons ha s
      rw [hs] at ih
      rw [hcons]
      rintro y (_ | ⟨_, hy⟩)
      · simpa [Ne.symm ha] using ih x (by simp)
      · exact ih y (List.mem_cons_of_mem x hy)

theorem mem_of_mem_splitOn {s x : List α} {a : α} (hx : x ∈ s.splitOn sep) (ha : a ∈ x) : a ∈ s := by
  induction s generalizing x with
  | nil =>
    rw [List.splitOn_nil, List.mem_singleton] at hx
    rw [hx] at ha
    exact ha
  | cons b s ih =>
    by_cases hb : b = sep
    · rw [hb, splitOn_sep] at hx
      rcases List.mem_cons.mp hx with rfl | hrest
      · cases ha
      · exact List.mem_cons_of_mem b (ih hrest ha)
    · obtain ⟨y, ys, hy, hcons⟩ := splitOn_cons hb s
      rw [hcons] at hx
      rcases List.mem_cons.mp hx with rfl | hrest
      · rcases List.mem_cons.mp ha with rfl | hin
        · exact List.mem_cons_self
        · exact List.mem_cons_of_mem b (ih (by rw [hy]; exact List.mem_cons_self) hin)
      · exact List.mem_cons_of_mem b (ih (by rw [hy]; exact List.mem_cons_of_mem y hrest) ha)

@[simp] theorem strip_nil : strip sep dot [] = [] := by
  simp [strip, stripEnd]

theorem strip_sep (s : List α) : strip sep dot (sep :: s) = sep :: strip sep dot s := by
  obtain ⟨x, xs, hs⟩ := List.exists_cons_of_ne_nil (List.splitOn_ne_nil sep s)
  rw [strip, strip, splitOn_sep, hs]
  simp [stripEnd, List.intercalate]

theorem stripEnd_cons (a : α) (x : List α) :
    stripEnd dot (a :: x) =
      if a = dot ∧ stripEnd dot x = [] then [] else a :: stripEnd dot x := by
  unfold stripEnd List.rdropWhile
  rw [List.reverse_cons, List.dropWhile_append]
  by_cases hx : x.reverse.dropWhile (fun a => decide (a = dot)) = []
  · by_cases ha : a = dot <;> simp [hx, ha]
  · simp [hx]

theorem stripEnd_subset (x : List α) : stripEnd dot x ⊆ x :=
  (List.rdropWhile_prefix _ x).subset

/-- A dot goes where what is left behind it is a separator or nothing. -/
theorem strip_cons {a : α} (ha : a ≠ sep) (s : List α) :
    strip sep dot (a :: s) =
      if a = dot ∧ (strip sep dot s = [] ∨ (strip sep dot s).head? = some sep) then
        strip sep dot s
      else a :: strip sep dot s := by
  obtain ⟨x, xs, hs, hcons⟩ := splitOn_cons ha s
  have hx : sep ∉ x := not_mem_splitOn s x (by simp [hs])
  obtain ⟨rest, hrest, hjoin⟩ : ∃ rest, (rest = [] ∨ rest.head? = some sep) ∧
      ∀ y, [sep].intercalate (y :: xs.map (stripEnd dot)) = y ++ rest := by
    cases xs with
    | nil => exact ⟨[], Or.inl rfl, fun y => by simp [List.intercalate]⟩
    | cons z zs =>
      refine ⟨sep :: [sep].intercalate ((z :: zs).map (stripEnd dot)), Or.inr rfl, fun y => ?_⟩
      rw [List.map_cons, List.intercalate_cons_cons]
      simp
  rw [strip, strip, hcons, hs, List.map_cons, List.map_cons, hjoin, hjoin, stripEnd_cons]
  cases hy : stripEnd dot x with
  | nil =>
    by_cases hdot : a = dot
    · rw [if_pos ⟨hdot, rfl⟩, if_pos ⟨hdot, by simpa using hrest⟩]
    · rw [if_neg (fun h => hdot h.1), if_neg (fun h => hdot h.1)]
      rfl
  | cons b y =>
    have hb : b ≠ sep := by
      rintro rfl
      exact hx (stripEnd_subset x (show b ∈ stripEnd dot x by simp [hy]))
    have hnot : ¬ (a = dot ∧ ((b :: y) ++ rest = [] ∨ ((b :: y) ++ rest).head? = some sep)) := by
      rintro ⟨_, h | h⟩
      · simp at h
      · exact hb (Option.some.inj h)
    rw [if_neg (show ¬ (a = dot ∧ b :: y = []) by simp), if_neg hnot]
    rfl

/-- A run of dots stays as it is or goes as a whole. -/
theorem strip_run (hne : dot ≠ sep) (k : Nat) (s : List α) :
    strip sep dot (List.replicate k dot ++ s) =
      if strip sep dot s = [] ∨ (strip sep dot s).head? = some sep then strip sep dot s
      else List.replicate k dot ++ strip sep dot s := by
  induction k with
  | zero => simp
  | succ k ih =>
    rw [List.replicate_succ, List.cons_append, strip_cons hne, ih]
    split_ifs with h h' h'
    · rfl
    · exact absurd ⟨rfl, h⟩ h'
    · exfalso
      cases k with
      | zero => exact h h'.2
      | succ k =>
        rw [List.replicate_succ, List.cons_append] at h'
        rcases h'.2 with hnil | hsep
        · cases hnil
        · exact hne (Option.some.inj hsep)
    · rfl

/-- Separators behind a separator are collapsed with it. -/
theorem collapse_strip_dropWhile (u s : List α) :
    collapse sep (u ++ sep :: strip sep dot s) =
      collapse sep (u ++ sep :: strip sep dot (s.dropWhile (· == sep))) := by
  induction s with
  | nil => rfl
  | cons a s ih =>
    by_cases ha : a = sep
    · subst ha
      rw [List.dropWhile_cons_of_pos (by simp), strip_sep, collapse_append_sep, ih]
    · rw [List.dropWhile_cons_of_neg (by simpa using ha)]

theorem strip_segment {x : List α} (hx : sep ∉ x) : strip sep dot x = stripEnd dot x := by
  rw [strip, List.splitOn_eq_singleton hx]
  simp [List.intercalate]

theorem strip_append_sep {x : List α} (hx : sep ∉ x) (s : List α) :
    strip sep dot (x ++ sep :: s) = stripEnd dot x ++ sep :: strip sep dot s := by
  have hsplit : (x ++ sep :: s).splitOn sep = x :: s.splitOn sep := by
    rw [List.splitOn_eq_splitOnP]
    refine List.splitOnP_append_cons_of_forall_mem (fun a ha => ?_) sep (by simp) s
    rw [beq_eq_false_iff_ne]
    rintro rfl
    exact hx ha
  obtain ⟨y, ys, hs⟩ := List.exists_cons_of_ne_nil (List.splitOn_ne_nil sep s)
  rw [strip, strip, hsplit, hs, List.map_cons, List.map_cons, List.intercalate_cons_cons]
  simp

theorem strip_length_le (s : List α) : (strip sep dot s).length ≤ s.length := by
  induction s with
  | nil => simp
  | cons a s ih =>
    by_cases ha : a = sep
    · subst ha
      rw [strip_sep]
      simpa using ih
    · rw [strip_cons ha]
      split_ifs <;> simp only [List.length_cons] <;> omega

theorem strip_subset (s : List α) : strip sep dot s ⊆ s := by
  induction s with
  | nil => simp
  | cons a s ih =>
    by_cases ha : a = sep
    · subst ha
      rw [strip_sep]
      exact List.cons_subset_cons a ih
    · rw [strip_cons ha]
      split_ifs
      · exact fun b hb => List.mem_cons_of_mem a (ih hb)
      · exact List.cons_subset_cons a ih

theorem strip_noDotEnd (hne : dot ≠ sep) (s : List α) : NoDotEnd sep dot (strip sep dot s) := by
  induction s with
  | nil => simp [NoDotEnd]
  | cons a s ih =>
    by_cases ha : a = sep
    · subst ha
      rw [strip_sep]
      exact ⟨fun h => absurd h.symm hne, ih⟩
    · rw [strip_cons ha]
      split_ifs with h
      · exact ih
      · refine ⟨fun hdot => ?_, ih⟩
        rw [not_and, not_or] at h
        exact h hdot

theorem strip_self {s : List α} (h : NoDotEnd sep dot s) : strip sep dot s = s := by
  induction s with
  | nil => simp
  | cons a s ih =>
    by_cases ha : a = sep
    · subst ha
      rw [strip_sep, ih h.2]
    · have hnot : ¬ (a = dot ∧ (s = [] ∨ s.head? = some sep)) := by
        rintro ⟨hdot, hnil | hsep⟩
        · exact (h.1 hdot).1 hnil
        · exact (h.1 hdot).2 hsep
      rw [strip_cons ha, ih h.2, if_neg hnot]

omit [DecidableEq α] in
theorem NoDotEnd.behind {u v : List α} (h : NoDotEnd sep dot (u ++ dot :: v)) :
    v ≠ [] ∧ v.head? ≠ some sep := by
  induction u with
  | nil => exact h.1 rfl
  | cons a u ih => exact ih h.2

omit [DecidableEq α] in
theorem NoDotEnd.suffix {s t : List α} (h : NoDotEnd sep dot s) (ht : t <:+ s) :
    NoDotEnd sep dot t := by
  obtain ⟨u, rfl⟩ := ht
  induction u with
  | nil => exact h
  | cons a u ih => exact ih h.2

theorem splitOn_nil_head {s : List α} {xs : List (List α)} (h : s.splitOn sep = [] :: xs) :
    s = [] ∨ s.head? = some sep := by
  cases s with
  | nil => exact Or.inl rfl
  | cons a s =>
    by_cases ha : a = sep
    · exact Or.inr (by rw [ha, List.head?_cons])
    · obtain ⟨x, xs', _, hcons⟩ := splitOn_cons ha s
      rw [hcons] at h
      cases h

/-- No segment of a text without dot ends ends in a dot. -/
theorem NoDotEnd.segments {s : List α} (h : NoDotEnd sep dot s) :
    ∀ x ∈ s.splitOn sep, x.getLast? ≠ some dot := by
  induction s with
  | nil => simp
  | cons a s ih =>
    by_cases ha : a = sep
    · subst ha
      rw [splitOn_sep]
      simpa using ih h.2
    · obtain ⟨x, xs, hs, hcons⟩ := splitOn_cons ha s
      have ih' := ih h.2
      rw [hs] at ih'
      rw [hcons]
      rintro y (_ | ⟨_, hy⟩)
      · cases x with
        | nil =>
          have hend := splitOn_nil_head hs
          have hdot : a ≠ dot := by
            intro hdot
            rcases hend with hnil | hsep
            · exact (h.1 hdot).1 hnil
            · exact (h.1 hdot).2 hsep
          simpa using hdot
        | cons b x => simpa using ih' (b :: x) (by simp)
      · exact ih' y (List.mem_cons_of_mem x hy)

omit [DecidableEq α] in
theorem noDouble_concat (s : List α) (a : α) :
    NoDouble sep (s ++ [a]) ↔ NoDouble sep s ∧ ¬ (s.getLast? = some sep ∧ a = sep) := by
  induction s with
  | nil => simp [NoDouble]
  | cons b s ih =>
    cases s with
    | nil => simp [NoDouble]
    | cons c s =>
      rw [List.cons_append, NoDouble, ih, NoDouble, List.getLast?_cons_cons]
      simp only [List.cons_append, List.head?_cons]
      exact and_assoc.symm

omit [DecidableEq α] in
theorem NoDouble.append {s t : List α} (h : NoDouble sep s) (ht : sep ∉ t) : NoDouble sep (s ++ t) := by
  induction t generalizing s with
  | nil => simpa using h
  | cons a t ih =>
    rw [List.append_cons]
    refine ih ((noDouble_concat s a).mpr ⟨h, fun hsep => ?_⟩) (fun hm => ht (List.mem_cons_of_mem a hm))
    exact ht (by simp [hsep.2])

omit [DecidableEq α] in
theorem NoDouble.not_infix {s : List α} (h : NoDouble sep s) : ¬ [sep, sep] <:+: s := by
  induction s with
  | nil => simp
  | cons a s ih =>
    rw [List.infix_cons_iff]
    rintro (hpre | hin)
    · obtain ⟨t, ht⟩ := hpre
      cases ht
      exact h.1 ⟨rfl, rfl⟩
    · exact ih h.2 hin

end Segments
