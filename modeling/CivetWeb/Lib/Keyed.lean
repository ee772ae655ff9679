import Mathlib.Data.List.Basic

/-! Lists that are searched by a key, the first entry with it counting. -/

namespace Keyed

variable {α κ : Type*} [DecidableEq κ] (key : α → κ)

/-- The first entry with a key. -/
def first (k : κ) (s : List α) : Option α := s.find? fun a => key a = k

/-- A list with the first entry of a key replaced and its later ones dropped, where `found` says whether
there was one before; a new entry is added at the end. -/
def rewrite (k : κ) (new : Option α) : Bool → List α → List α
  | found, [] => if found then [] else new.toList
  | found, a :: s =>
    if key a = k then (if found then [] else new.toList) ++ rewrite k new true s
    else a :: rewrite k new found s

variable {key}

theorem filter_toList {k : κ} {new : Option α} (hnew : ∀ a ∈ new, key a = k) :
    new.toList.filter (fun a => key a = k) = new.toList := by
  cases new with
  | none => rfl
  | some a => simp [hnew a rfl]

/-- What is left of a key is the new entry, once. -/
theorem filter_rewrite {k : κ} {new : Option α} (hnew : ∀ a ∈ new, key a = k) (found : Bool) (s : List α) :
    (rewrite key k new found s).filter (fun a => key a = k) = if found then [] else new.toList := by
  induction s generalizing found with
  | nil =>
    cases found with
    | false => exact filter_toList hnew
    | true => rfl
  | cons a s ih =>
    rw [rewrite]
    split_ifs with ha hfound hfound
    · rw [List.nil_append, ih true, if_pos rfl]
    · rw [List.filter_append, ih true, if_pos rfl, List.append_nil, filter_toList hnew]
    · rw [List.filter_cons_of_neg (by simpa using ha), ih found, if_pos hfound]
    · rw [List.filter_cons_of_neg (by simpa using ha), ih found, if_neg hfound]

theorem mem_rewrite {k : κ} {new : Option α} {found : Bool} {s : List α} {a : α}
    (h : a ∈ rewrite key k new found s) : a ∈ new ∨ a ∈ s := by
  have hadd {b : Bool} (h : a ∈ if b then [] else new.toList) : a ∈ new := by
    cases b with
    | false => exact Option.mem_toList.mp h
    | true => cases h
  induction s generalizing found with
  | nil => exact Or.inl (hadd h)
  | cons b s ih =>
    rw [rewrite] at h
    by_cases hkey : key b = k
    · rw [if_pos hkey, List.mem_append] at h
      rcases h with h | h
      · exact Or.inl (hadd h)
      · exact (ih h).imp_right (List.mem_cons_of_mem b)
    · rw [if_neg hkey, List.mem_cons] at h
      rcases h with rfl | h
      · exact Or.inr List.mem_cons_self
      · exact (ih h).imp_right (List.mem_cons_of_mem b)

theorem first_toList {k k' : κ} {new : Option α} (hnew : ∀ a ∈ new, key a = k) (hne : k' ≠ k) :
    first key k' new.toList = none := by
  cases new with
  | none => rfl
  | some a =>
    have ha := hnew a rfl
    simp [first, ha, hne.symm]

theorem first_append (k : κ) (s t : List α) :
    first key k (s ++ t) = (first key k s).or (first key k t) := List.find?_append

/-- The first entry of a key behind a map that keeps the keys. -/
theorem first_map {f : α → α} (hf : ∀ a, key (f a) = key a) (k : κ) (s : List α) :
    first key k (s.map f) = (first key k s).map f := by
  rw [first, List.find?_map, first]
  congr 2
  funext a
  simp [hf]

/-- The other keys keep their first entry. -/
theorem first_rewrite {k k' : κ} {new : Option α} (hnew : ∀ a ∈ new, key a = k) (hne : k' ≠ k)
    (found : Bool) (s : List α) : first key k' (rewrite key k new found s) = first key k' s := by
  have hadd (b : Bool) : first key k' (if b then [] else new.toList) = none := by
    cases b with
    | false => exact first_toList hnew hne
    | true => rfl
  induction s generalizing found with
  | nil => exact hadd found
  | cons a s ih =>
    rw [rewrite]
    by_cases ha : key a = k
    · rw [if_pos ha, first_append, hadd, Option.none_or, ih true]
      have hother : key a ≠ k' := fun h => hne (h.symm.trans ha)
      rw [first, first, List.find?_cons_of_neg (by simpa using hother)]
    · rw [if_neg ha, first, first, List.find?_cons, List.find?_cons, ← first, ← first, ih found]

end Keyed
