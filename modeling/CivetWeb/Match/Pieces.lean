import CivetWeb.Match.Longest

namespace CivetWeb.Match

open Wildcard (longest longestFirst longestFirst_some longestFirst_none)

/-- The characters a list of pieces holds together. -/
def totalLen (es : List MatchElement) : Nat := (es.map MatchElement.len).sum

@[simp] theorem totalLen_nil : totalLen [] = 0 := rfl

@[simp] theorem totalLen_cons (e : MatchElement) (es : List MatchElement) :
    totalLen (e :: es) = e.len + totalLen es := by
  simp [totalLen]

@[simp] theorem totalLen_append (es fs : List MatchElement) :
    totalLen (es ++ fs) = totalLen es + totalLen fs := by
  simp [totalLen]

theorem totalLen_perm {es fs : List MatchElement} (h : es.Perm fs) : totalLen es = totalLen fs :=
  (h.map MatchElement.len).sum_nat

theorem totalLen_anyPiece (start pos : Nat) : totalLen (anyPiece start pos) = pos - start := by
  unfold anyPiece
  split_ifs
  · simp
  · simp only [totalLen_nil]
    omega

/-- No `?` of `w` reads a character of `s` in an attempt that fails. -/
def Quiet (cs : Bool) : List PatternItem → List Byte → Prop
  | [], _ => True
  | .any :: _, s => ∀ d ∈ s.head?, d = SLASH
  | .stop :: _, _ => True
  | .char _ :: _, [] => True
  | .char c :: w, d :: s => sameChar cs c d = true → Quiet cs w s
  | .run :: w, s => ∀ n ≤ (s.takeWhile (· != SLASH)).length, Quiet cs w (s.drop n)
  | .all :: w, s => ∀ n ≤ s.length, Quiet cs w (s.drop n)

/-- A star at the longest of its lengths that lets the rest match: what is tried before is quiet,
and so on with the rest. -/
def CleanStar (f : Nat → Option Nat) (quiet clean : Nat → Prop) (len : Nat) : Prop :=
  match longestFirst f len with
  | some (l, _) => (∀ n, l < n → n ≤ len → quiet n) ∧ clean l
  | none => True

/-- No attempt that fails before the match is found reads a `?`. -/
def Clean (cs : Bool) : List PatternItem → List Byte → Prop
  | [], _ => True
  | .any :: w, s => Clean cs w s.tail
  | .stop :: _, _ => True
  | .char _ :: w, s => Clean cs w s.tail
  | .run :: w, s =>
    CleanStar (fun n => longest (itemsLanguage cs w) (s.drop n)) (fun n => Quiet cs w (s.drop n))
      (fun n => Clean cs w (s.drop n)) (s.takeWhile (· != SLASH)).length
  | .all :: w, s =>
    CleanStar (fun n => longest (itemsLanguage cs w) (s.drop n)) (fun n => Quiet cs w (s.drop n))
      (fun n => Clean cs w (s.drop n)) s.length

def foundPieces (g : Nat → List MatchElement) (pos : Nat) : Option (Nat × Nat) → List MatchElement
  | some (len, _) => g len ++ [⟨pos, len⟩]
  | none => []

/-- The pieces of the wildcards in the longest-first reading, in the order in which the matcher
comes to push them: runs of `?` on the way into the pattern, stars on the way back. -/
def matchedPieces (cs : Bool) : List PatternItem → Nat → Nat → List Byte → List MatchElement
  | [], start, pos, _ => anyPiece start pos
  | .any :: w, start, pos, s => matchedPieces cs w start (pos + 1) s.tail
  | .stop :: _, start, pos, _ => anyPiece start pos
  | .char _ :: w, start, pos, s =>
    anyPiece start pos ++ matchedPieces cs w (pos + 1) (pos + 1) s.tail
  | .run :: w, start, pos, s =>
    anyPiece start pos ++ foundPieces
      (fun n => matchedPieces cs w (pos + n) (pos + n) (s.drop n)) pos
      (longestFirst (fun n => longest (itemsLanguage cs w) (s.drop n))
        (s.takeWhile (· != SLASH)).length)
  | .all :: w, start, pos, s =>
    anyPiece start pos ++ foundPieces
      (fun n => matchedPieces cs w (pos + n) (pos + n) (s.drop n)) pos
      (longestFirst (fun n => longest (itemsLanguage cs w) (s.drop n)) s.length)

/-! ### Attempts -/

section Attempts
variable {f : Nat → Option Nat} {g : Nat → List MatchElement} {len l r m : Nat}

theorem attemptPieces_quiet (h : ∀ n ≤ len, g n = []) : attemptPieces f g len = [] := by
  induction len with
  | zero => exact h 0 (Nat.le_refl 0)
  | succ n ih =>
    rw [attemptPieces, h (n + 1) (Nat.le_refl _), List.nil_append]
    split_ifs
    · rfl
    · exact ih (fun k hk => h k (by omega))

theorem attemptPieces_ge (hf : ∀ n, m < n → n ≤ len → f n = none) (hm : m ≤ len) :
    totalLen (g m) ≤ totalLen (attemptPieces f g len) := by
  induction len with
  | zero =>
    obtain rfl : m = 0 := by omega
    exact Nat.le_refl _
  | succ n ih =>
    rw [attemptPieces, totalLen_append]
    by_cases hmn : m = n + 1
    · rw [hmn]
      exact Nat.le_add_right _ _
    · rw [hf (n + 1) (by omega) (Nat.le_refl _), Option.isSome_none, if_neg (by decide)]
      have := ih (fun k hk hkn => hf k hk (by omega)) (by omega)
      omega

theorem attemptPieces_found (hfound : longestFirst f len = some (l, r))
    (h : ∀ n, l < n → n ≤ len → g n = []) : attemptPieces f g len = g l := by
  obtain ⟨hl, hr, hmax⟩ := longestFirst_some hfound
  clear hfound
  induction len with
  | zero =>
    obtain rfl : l = 0 := by omega
    rfl
  | succ n ih =>
    rw [attemptPieces]
    by_cases hln : l = n + 1
    · subst hln
      rw [hr, Option.isSome_some, if_pos rfl, List.append_nil]
    · rw [hmax (n + 1) (by omega) (Nat.le_refl _), Option.isSome_none, if_neg (by decide),
        h (n + 1) (by omega) (Nat.le_refl _), List.nil_append]
      exact ih (fun k hk hkn => h k hk (by omega)) (by omega) (fun k hk hkn => hmax k hk (by omega))

theorem attemptPieces_found_ge (hfound : longestFirst f len = some (l, r)) :
    totalLen (g l) ≤ totalLen (attemptPieces f g len) := by
  obtain ⟨hl, _, hmax⟩ := longestFirst_some hfound
  exact attemptPieces_ge hmax hl

theorem attemptPieces_stale (hfound : longestFirst f len = some (l, r)) (hlm : l < m)
    (hm : m ≤ len) : totalLen (g l) + totalLen (g m) ≤ totalLen (attemptPieces f g len) := by
  obtain ⟨_, _, hmax⟩ := longestFirst_some hfound
  clear hfound
  induction len with
  | zero => omega
  | succ n ih =>
    rw [attemptPieces, hmax (n + 1) (by omega) (Nat.le_refl _), Option.isSome_none,
      if_neg (by decide), totalLen_append]
    have hmax' : ∀ k, l < k → k ≤ n → f k = none := fun k hk hkn => hmax k hk (by omega)
    by_cases hmn : m = n + 1
    · rw [hmn]
      have := attemptPieces_ge (g := g) hmax' (by omega)
      omega
    · have := ih (by omega) (by omega) hmax'
      omega

/-- Attempts that all fail: what each of them leaves decides what they leave together. -/
theorem attemptPieces_failed {quiet : Nat → Prop} (hnone : longestFirst f len = none)
    (h : ∀ n, f n = none → (quiet n → g n = []) ∧ (¬ quiet n → 0 < totalLen (g n))) :
    ((∀ n ≤ len, quiet n) → attemptPieces f g len = []) ∧
      (¬ (∀ n ≤ len, quiet n) → 0 < totalLen (attemptPieces f g len)) := by
  have hf := longestFirst_none hnone
  constructor
  · intro hq
    exact attemptPieces_quiet (fun n hn => (h n (hf n hn)).1 (hq n hn))
  · intro hq
    obtain ⟨n, hn, hnq⟩ : ∃ n, n ≤ len ∧ ¬ quiet n := by simpa using hq
    exact ((h n (hf n hn)).2 hnq).trans_le (attemptPieces_ge (fun k _ hk => hf k hk) hn)

/-- A star that matches: the pieces of its failed attempts come on top of those of the match. -/
theorem attemptPieces_matched {quiet clean : Nat → Prop} {g' : Nat → List MatchElement} (pos : Nat)
    (hfound : longestFirst f len = some (l, r))
    (hfailed : ∀ n, f n = none → (quiet n → g n = []) ∧ (¬ quiet n → 0 < totalLen (g n)))
    (hmatched : ∀ n k, f n = some k →
      (clean n → g n = g' n) ∧ (¬ clean n → totalLen (g' n) < totalLen (g n))) :
    (CleanStar f quiet clean len →
      attemptPieces f g len ++ starPiece pos (longestFirst f len) =
        foundPieces g' pos (longestFirst f len)) ∧
      (¬ CleanStar f quiet clean len →
        totalLen (foundPieces g' pos (longestFirst f len)) <
          totalLen (attemptPieces f g len ++ starPiece pos (longestFirst f len))) := by
  obtain ⟨hl, hr, hmax⟩ := longestFirst_some hfound
  obtain ⟨hclean, hdirty⟩ := hmatched l r hr
  rw [CleanStar, hfound]
  dsimp only [starPiece, foundPieces]
  constructor
  · rintro ⟨hq, hc⟩
    rw [attemptPieces_found hfound (fun n hln hn => (hfailed n (hmax n hln hn)).1 (hq n hln hn)),
      hclean hc]
  · intro hnot
    rw [totalLen_append, totalLen_append]
    have hge := attemptPieces_found_ge (g := g) hfound
    by_cases hc : clean l
    · obtain ⟨n, hln, hn, hnq⟩ : ∃ n, l < n ∧ n ≤ len ∧ ¬ quiet n := by
        by_contra hall
        push Not at hall
        exact hnot ⟨hall, hc⟩
      have hstale := attemptPieces_stale (g := g) hfound hln hn
      have hpos := (hfailed n (hmax n hln hn)).2 hnq
      rw [hclean hc] at hstale
      omega
    · have := hdirty hc
      omega

end Attempts

theorem takeWhile_true (s : List Byte) : s.takeWhile (fun _ => true) = s :=
  List.takeWhile_eq_self_iff.mpr (fun _ _ => rfl)

theorem longest_star_some {cs : Bool} {p : Byte → Bool} {w : List PatternItem} {s : List Byte}
    {r : Nat} (h : longest (.many p :: itemsLanguage cs w) s = some r) :
    ∃ l k, longestFirst (fun n => longest (itemsLanguage cs w) (s.drop n)) (s.takeWhile p).length =
      some (l, k) := by
  rw [longest] at h
  obtain ⟨⟨l, k⟩, hfound, _⟩ := Option.map_eq_some_iff.mp h
  exact ⟨l, k, hfound⟩

/-- Where a `?` run is open, its piece comes. -/
theorem pushedPieces_open (cs : Bool) (w : List PatternItem) (start pos : Nat) (s : List Byte) :
    pos - start ≤ totalLen (pushedPieces cs w start pos s) := by
  induction w generalizing pos s with
  | nil => rw [pushedPieces, totalLen_anyPiece]
  | cons x w ih =>
    cases x with
    | any =>
      cases s with
      | nil => rw [pushedPieces, totalLen_anyPiece]
      | cons d s =>
        rw [pushedPieces]
        split_ifs
        · rw [totalLen_anyPiece]
        · have := ih (pos + 1) s
          omega
    | stop => rw [pushedPieces, totalLen_anyPiece]
    | char c =>
      cases s with
      | nil => rw [pushedPieces, totalLen_anyPiece]
      | cons d s =>
        rw [pushedPieces, totalLen_append, totalLen_anyPiece]
        omega
    | run =>
      simp only [pushedPieces, totalLen_append, totalLen_anyPiece]
      omega
    | all =>
      simp only [pushedPieces, totalLen_append, totalLen_anyPiece]
      omega

theorem longest_star_none {cs : Bool} {p : Byte → Bool} {w : List PatternItem} {s : List Byte}
    (h : longest (.many p :: itemsLanguage cs w) s = none) :
    longestFirst (fun n => longest (itemsLanguage cs w) (s.drop n)) (s.takeWhile p).length = none := by
  rw [longest] at h
  exact Option.map_eq_none_iff.mp h

/-- An attempt that fails leaves no piece if it is quiet, and a piece that is not empty if not. -/
theorem pushedPieces_failed (cs : Bool) (w : List PatternItem) (pos : Nat) (s : List Byte)
    (hfail : longest (itemsLanguage cs w) s = none) :
    (Quiet cs w s → pushedPieces cs w pos pos s = []) ∧
      (¬ Quiet cs w s → 0 < totalLen (pushedPieces cs w pos pos s)) := by
  induction w generalizing pos s with
  | nil => simp [itemsLanguage, longest] at hfail
  | cons x w ih =>
    cases x with
    | any =>
      cases s with
      | nil => simp [Quiet, pushedPieces]
      | cons d s =>
        by_cases hd : d = SLASH
        · simp [Quiet, pushedPieces, hd]
        · refine ⟨fun hq => absurd (hq d (by simp)) hd, fun _ => ?_⟩
          rw [pushedPieces, if_neg hd]
          have := pushedPieces_open cs w pos (pos + 1) s
          omega
    | stop => simp [Quiet, pushedPieces]
    | char c =>
      cases s with
      | nil => simp [Quiet, pushedPieces]
      | cons d s =>
        rw [Quiet, pushedPieces, anyPiece_self, List.nil_append]
        by_cases hsame : sameChar cs c d = true
        · have hrest : longest (itemsLanguage cs w) s = none := by
            simpa [itemsLanguage, PatternItem.meaning, longest, hsame] using hfail
          simpa [hsame] using ih (pos + 1) s hrest
        · simp [hsame]
    | run =>
      have hnone := longest_star_none hfail
      simp only [Quiet, pushedPieces, anyPiece_self, List.nil_append, hnone, starPiece,
        List.append_nil]
      exact attemptPieces_failed hnone (fun n hf => ih (pos + n) (s.drop n) hf)
    | all =>
      have hnone := longest_star_none hfail
      rw [takeWhile_true] at hnone
      simp only [Quiet, pushedPieces, anyPiece_self, List.nil_append, hnone, starPiece,
        List.append_nil]
      exact attemptPieces_failed hnone (fun n hf => ih (pos + n) (s.drop n) hf)

/-- The pieces of a match are all that is pushed if its search is clean; if not, there is more. -/
theorem pushedPieces_matched (cs : Bool) (w : List PatternItem) (start pos : Nat) (s : List Byte)
    (r : Nat) (hread : longest (itemsLanguage cs w) s = some r) :
    (Clean cs w s → pushedPieces cs w start pos s = matchedPieces cs w start pos s) ∧
      (¬ Clean cs w s →
        totalLen (matchedPieces cs w start pos s) < totalLen (pushedPieces cs w start pos s)) := by
  induction w generalizing start pos s r with
  | nil => simp [Clean, pushedPieces, matchedPieces]
  | cons x w ih =>
    cases x with
    | any =>
      cases s with
      | nil => simp [itemsLanguage, PatternItem.meaning, longest] at hread
      | cons d s =>
        by_cases hd : d = SLASH
        · simp [itemsLanguage, PatternItem.meaning, longest, hd] at hread
        · obtain ⟨r', hr', _⟩ : ∃ r', longest (itemsLanguage cs w) s = some r' ∧ r' + 1 = r := by
            simpa [itemsLanguage, PatternItem.meaning, longest, hd] using hread
          rw [Clean, pushedPieces, if_neg hd, matchedPieces, List.tail_cons]
          exact ih start (pos + 1) s r' hr'
    | stop => simp [Clean, pushedPieces, matchedPieces]
    | char c =>
      cases s with
      | nil => simp [itemsLanguage, PatternItem.meaning, longest] at hread
      | cons d s =>
        by_cases hsame : sameChar cs c d = true
        · obtain ⟨r', hr', _⟩ : ∃ r', longest (itemsLanguage cs w) s = some r' ∧ r' + 1 = r := by
            simpa [itemsLanguage, PatternItem.meaning, longest, hsame] using hread
          rw [Clean, pushedPieces, if_pos hsame, matchedPieces, List.tail_cons, totalLen_append,
            totalLen_append]
          obtain ⟨hclean, hdirty⟩ := ih (pos + 1) (pos + 1) s r' hr'
          exact ⟨fun h => by rw [hclean h], fun h => Nat.add_lt_add_left (hdirty h) _⟩
        · simp [itemsLanguage, PatternItem.meaning, longest, hsame] at hread
    | run =>
      obtain ⟨l, r', hfound⟩ := longest_star_some hread
      simp only [Clean, pushedPieces, matchedPieces, List.append_assoc, List.append_cancel_left_eq,
        totalLen_append (anyPiece start pos), Nat.add_lt_add_iff_left]
      exact attemptPieces_matched pos hfound
        (fun n hf => pushedPieces_failed cs w (pos + n) (s.drop n) hf)
        (fun n k hf => ih (pos + n) (pos + n) (s.drop n) k hf)
    | all =>
      obtain ⟨l, r', hfound⟩ := longest_star_some hread
      rw [takeWhile_true] at hfound
      simp only [Clean, pushedPieces, matchedPieces, List.append_assoc, List.append_cancel_left_eq,
        totalLen_append (anyPiece start pos), Nat.add_lt_add_iff_left]
      exact attemptPieces_matched pos hfound
        (fun n hf => pushedPieces_failed cs w (pos + n) (s.drop n) hf)
        (fun n k hf => ih (pos + n) (pos + n) (s.drop n) k hf)

end CivetWeb.Match
