import CivetWeb.Handlers.Registry
import CivetWeb.Match.Pattern

namespace CivetWeb.Match

open Wildcard (longest longestFirst longest_isGreatest longest_eq_none)

/-- The lengths of the prefixes of a string that belong to the language of a pattern. -/
def matchLengths (caseSensitive : Bool) (pat str : List Byte) : Set Nat :=
  Wildcard.lengths (patternLanguage caseSensitive pat) str

/-- The alternatives of a pattern. -/
def alternatives (pat : List Byte) : List (List Byte) :=
  pat.splitOn PIPE

theorem alternatives_none (pat : List Byte) (h : PIPE ∉ pat) : alternatives pat = [pat] :=
  List.splitOn_eq_singleton h

theorem alternatives_pipe (pat : List Byte) (h : PIPE ∈ pat) :
    alternatives pat =
      pat.takeWhile (· != PIPE) :: alternatives (pat.dropWhile (· != PIPE)).tail := by
  obtain ⟨rest, hrest⟩ : ∃ rest, pat.dropWhile (· != PIPE) = PIPE :: rest := by
    cases hd : pat.dropWhile (· != PIPE) with
    | nil =>
      have := List.dropWhile_eq_nil_iff.mp hd PIPE h
      simp at this
    | cons b rest =>
      have hb := Scan.head_dropWhile (· != PIPE) pat b (by simp [hd])
      exact ⟨rest, by rw [show b = PIPE by simpa using hb]⟩
  have hpat : pat = pat.takeWhile (· != PIPE) ++ PIPE :: rest := by
    rw [← hrest, List.takeWhile_append_dropWhile]
  have hfirst : ∀ x ∈ pat.takeWhile (· != PIPE), (x == PIPE) = false := by
    intro x hx
    simpa using Scan.takeWhile_all (· != PIPE) pat x hx
  rw [hrest, List.tail_cons, alternatives, List.splitOn_eq_splitOnP]
  conv_lhs => rw [hpat]
  rw [List.splitOnP_append_cons_of_forall_mem hfirst PIPE (by simp)]
  rfl

theorem alternatives_noNul (pat : List Byte) (h : NUL ∉ pat) : ∀ alt ∈ alternatives pat, NUL ∉ alt := by
  induction hn : pat.length using Nat.strong_induction_on generalizing pat with
  | _ n ih =>
    by_cases hpipe : PIPE ∈ pat
    · have hdrop := List.dropWhile_suffix (l := pat) (· != PIPE)
      have hpos : 0 < pat.length := List.length_pos_of_mem hpipe
      have hlt : (pat.dropWhile (· != PIPE)).tail.length < n := by
        have := hdrop.length_le
        rw [List.length_tail]
        omega
      rw [alternatives_pipe pat hpipe]
      rintro alt (_ | ⟨_, halt⟩)
      · exact fun hm => h ((List.takeWhile_prefix _).subset hm)
      · exact ih _ hlt _ (fun hm => h (hdrop.subset (List.mem_of_mem_tail hm))) rfl alt halt
    · rw [alternatives_none pat hpipe]
      simpa using h

@[simp] theorem isCaseSensitive_reset (mcx : Option MatchContext) :
    isCaseSensitive (mcx.map matchContextReset) = isCaseSensitive mcx := by
  cases mcx <;> rfl

theorem recordAll_max (es : List MatchElement) (mcx : MatchContext) :
    (recordAll es mcx).max = mcx.max := by
  induction es generalizing mcx with
  | nil => rfl
  | cons e es ih =>
    rw [recordAll_cons, ih, matchContextPush]
    split_ifs <;> rfl

/-- A reset leaves nothing of the alternative before. -/
theorem reset_recordAll (es : List MatchElement) (mcx : Option MatchContext) :
    ((mcx.map matchContextReset).map (recordAll es)).map matchContextReset =
      mcx.map matchContextReset := by
  cases mcx with
  | none => rfl
  | some m =>
    simp only [Option.map_some, matchContextReset, recordAll_caseSensitive, recordAll_max]

theorem mgMatchImpl_result (pat : List Byte) (pos : Nat) (str : List Byte)
    (mcx : Option MatchContext) (hpat : NUL ∉ pat) (hstr : NUL ∉ str) :
    (mgMatchImpl pat pos str mcx).1 = longest (patternLanguage (isCaseSensitive mcx) pat) str := by
  rw [mgMatchImpl_agrees pat pos str mcx hpat hstr]

theorem findSome?_eq_find? {α β : Type*} (f : α → Option β) (l : List α) :
    l.findSome? f = (l.find? (fun a => (f a).isSome)).bind f := by
  induction l with
  | nil => rfl
  | cons a l ih =>
    cases hf : f a <;> simp [hf, ih]

theorem findSome?_congr {α β : Type*} {f g : α → Option β} {l : List α} (h : ∀ a ∈ l, f a = g a) :
    l.findSome? f = l.findSome? g := by
  induction l with
  | nil => rfl
  | cons a l ih =>
    rw [List.findSome?_cons, List.findSome?_cons, h a (by simp),
      ih (fun b hb => h b (List.mem_cons_of_mem a hb))]

/-- One step of the alternatives: the first is matched, and the rest only where it fails. -/
theorem mgMatchAlternatives_first (pat str : List Byte) (mcx : Option MatchContext)
    (hpipe : PIPE ∈ pat) (hpat : NUL ∉ pat) (hstr : NUL ∉ str) :
    mgMatchAlternatives pat str mcx =
      let cs := isCaseSensitive mcx
      let first := pat.takeWhile (· != PIPE)
      let pieces := recordAll (pushedPieces cs (patternItems first) 0 0 str)
      match longest (patternLanguage cs first) str with
      | some n => (some n, (mcx.map matchContextReset).map pieces)
      | none => mgMatchAlternatives (pat.dropWhile (· != PIPE)).tail str
          ((mcx.map matchContextReset).map pieces) := by
  have hfirst : NUL ∉ pat.takeWhile (· != PIPE) := fun hm =>
    hpat ((List.takeWhile_prefix _).subset hm)
  rw [mgMatchAlternatives, dif_pos hpipe, mgMatchImpl_agrees _ 0 str _ hfirst hstr,
    isCaseSensitive_reset]
  dsimp only
  generalize longest _ str = ret
  cases ret <;> rfl

theorem mgMatchAlternatives_last (pat str : List Byte) (mcx : Option MatchContext)
    (hpipe : PIPE ∉ pat) (hpat : NUL ∉ pat) (hstr : NUL ∉ str) :
    mgMatchAlternatives pat str mcx =
      (longest (patternLanguage (isCaseSensitive mcx) pat) str,
        (mcx.map matchContextReset).map
          (recordAll (pushedPieces (isCaseSensitive mcx) (patternItems pat) 0 0 str))) := by
  rw [mgMatchAlternatives, dif_neg hpipe, mgMatchImpl_agrees _ 0 str _ hpat hstr,
    isCaseSensitive_reset]

/-- The first alternative that matches decides the result and what the context records. -/
theorem mgMatchAlternatives_find (pat str : List Byte) (mcx : Option MatchContext)
    (hpat : NUL ∉ pat) (hstr : NUL ∉ str) :
    let cs := isCaseSensitive mcx
    match (alternatives pat).find? (fun alt => (longest (patternLanguage cs alt) str).isSome) with
    | some alt =>
      mgMatchAlternatives pat str mcx =
        (longest (patternLanguage cs alt) str,
          (mcx.map matchContextReset).map
            (recordAll (pushedPieces cs (patternItems alt) 0 0 str)))
    | none => (mgMatchAlternatives pat str mcx).1 = none := by
  induction hn : pat.length using Nat.strong_induction_on generalizing pat mcx with
  | _ n ih =>
    by_cases hpipe : PIPE ∈ pat
    · have hdrop := List.dropWhile_suffix (l := pat) (· != PIPE)
      have hlt : (pat.dropWhile (· != PIPE)).tail.length < n := by
        have := hdrop.length_le
        have hpos : 0 < pat.length := List.length_pos_of_mem hpipe
        rw [List.length_tail]
        omega
      have hrest : NUL ∉ (pat.dropWhile (· != PIPE)).tail := fun hm =>
        hpat (hdrop.subset (List.mem_of_mem_tail hm))
      rw [alternatives_pipe pat hpipe, mgMatchAlternatives_first pat str mcx hpipe hpat hstr]
      dsimp only
      rw [List.find?_cons]
      cases hl : longest (patternLanguage (isCaseSensitive mcx) (pat.takeWhile (· != PIPE))) str with
      | some r => simp [hl]
      | none =>
        have hrec := ih _ hlt _ ((mcx.map matchContextReset).map (recordAll (pushedPieces
          (isCaseSensitive mcx) (patternItems (pat.takeWhile (· != PIPE))) 0 0 str))) hrest rfl
        rw [isCaseSensitive_recordAll, isCaseSensitive_reset, reset_recordAll] at hrec
        exact hrec
    · rw [alternatives_none pat hpipe, mgMatchAlternatives_last pat str mcx hpipe hpat hstr]
      cases hl : longest (patternLanguage (isCaseSensitive mcx) pat) str <;> simp [hl]

theorem mgMatchAlternatives_result (pat str : List Byte) (mcx : Option MatchContext)
    (hpat : NUL ∉ pat) (hstr : NUL ∉ str) :
    (mgMatchAlternatives pat str mcx).1 =
      (alternatives pat).findSome?
        (fun alt => longest (patternLanguage (isCaseSensitive mcx) alt) str) := by
  have h := mgMatchAlternatives_find pat str mcx hpat hstr
  dsimp only at h
  rw [findSome?_eq_find?]
  cases hf : (alternatives pat).find?
      (fun alt => (longest (patternLanguage (isCaseSensitive mcx) alt) str).isSome) with
  | none =>
    rw [hf] at h
    exact h
  | some alt =>
    rw [hf] at h
    dsimp only at h
    rw [h]
    rfl

theorem longestMatch_eq (f : List Byte → Option Nat) (str : List Byte) (len : Nat) :
    longestMatch f str len =
      (longestFirst (fun n => f (str.drop n)) len).map (fun x => x.1 + x.2) := by
  induction len with
  | zero => cases h : f str <;> simp [longestMatch, longestFirst, h]
  | succ n ih =>
    rw [longestMatch, longestFirst]
    cases h : f (str.drop (n + 1)) with
    | some r => rfl
    | none => exact ih

theorem registry_star (rest str : List Byte) (hstr : NUL ∉ str) :
    CivetWeb.mgMatchImpl (STAR :: rest) str =
      longestMatch (CivetWeb.mgMatchImpl (afterStar rest)) str (starSpan rest str) := by
  have hq : ¬ (STAR = 63 ∧ str ≠ [] ∧ deref str ≠ 47) := fun h => absurd h.1 (by decide)
  have hd : STAR ≠ 36 := by decide
  rw [starSpan, cstr_of_no_nul str hstr, CivetWeb.mgMatchImpl.eq_def]
  dsimp only
  rw [if_neg hq, if_neg hd, if_pos (show STAR = 42 by rfl)]
  cases rest with
  | nil => rfl
  | cons d rest =>
    by_cases h : d = STAR
    · subst h
      rfl
    · have h42 : d ≠ 42 := h
      simp only [afterStar, deref_cons, h, if_false]
      split
      · rename_i heq
        exact absurd (List.cons.inj heq).1 h42
      · rfl

/-- The matcher of the handler lists reads as the one with a context does. -/
theorem registry_mgMatchImpl (pat str : List Byte) (hpat : NUL ∉ pat) (hstr : NUL ∉ str) :
    CivetWeb.mgMatchImpl pat str = longest (patternLanguage false pat) str := by
  induction hn : pat.length using Nat.strong_induction_on generalizing pat str with
  | _ n ih =>
    cases pat with
    | nil => rfl
    | cons c rest =>
      have hc : c ≠ NUL := fun h => hpat (by simp [h])
      have hrest : NUL ∉ rest := fun h => hpat (List.mem_cons_of_mem _ h)
      have hdrop : ∀ k, NUL ∉ str.drop k := fun k h => hstr (List.mem_of_mem_drop h)
      rw [List.length_cons] at hn
      by_cases hs : c = STAR
      · subst hs
        have hlen := afterStar_length_le rest
        have hrec : ∀ k, CivetWeb.mgMatchImpl (afterStar rest) (str.drop k) =
            longest (patternLanguage false (afterStar rest)) (str.drop k) := fun k =>
          ih _ (by omega) _ _ (afterStar_noNul rest hrest) (hdrop k) rfl
        rw [registry_star rest str hstr, longestMatch_eq, longest_star _ _ _ hstr]
        simp only [hrec]
      · have htail : NUL ∉ str.tail := fun h => hstr (List.mem_of_mem_tail h)
        have hrec := ih _ (by omega) rest str.tail hrest htail rfl
        rw [CivetWeb.mgMatchImpl.eq_def]
        dsimp only
        rw [if_neg (show ¬ c = 42 from hs), hrec]
        by_cases hq : c = QUESTION
        · subst hq
          have hlang : patternLanguage false (QUESTION :: rest) =
              .one (· != SLASH) :: patternLanguage false rest := by
            rw [patternLanguage, patternItems_any]
            rfl
          rw [hlang]
          cases str with
          | nil => rfl
          | cons d str =>
            by_cases hd : d = SLASH
            · subst hd
              rfl
            · rw [if_pos ⟨rfl, by simp, hd⟩, longest, if_pos (by simpa using hd), List.tail_cons]
        · rw [if_neg (fun h => hq h.1)]
          by_cases hd : c = DOLLAR
          · subst hd
            rw [if_pos rfl, patternLanguage, patternItems_stop]
            cases str <;> rfl
          · have hlang : patternLanguage false (c :: rest) =
                .one (sameChar false c) :: patternLanguage false rest := by
              rw [patternLanguage, patternItems_char c rest hq hd hs]
              rfl
            rw [if_neg (show ¬ c = 36 from hd), hlang]
            cases str with
            | nil =>
              have hnul : ¬ tolower c = tolower NUL := by
                simpa [sameChar] using sameChar_nul false c hc
              rw [deref_nil, if_neg hnul, longest]
            | cons d str =>
              rw [deref_cons, List.tail_cons, longest]
              by_cases hlow : tolower c = tolower d
              · rw [if_pos hlow, if_pos (by simpa [sameChar] using hlow)]
              · rw [if_neg hlow, if_neg (by simpa [sameChar] using hlow)]

/-- `match_prefix` is `mg_match_alternatives` without a context. -/
theorem matchPrefix_eq (pat str : List Byte) (hpat : NUL ∉ pat) (hstr : NUL ∉ str) :
    matchPrefix pat str = (mgMatchAlternatives pat str none).1 := by
  rw [mgMatchAlternatives_result pat str none hpat hstr, matchPrefix]
  exact findSome?_congr (fun alt halt =>
    registry_mgMatchImpl alt str (alternatives_noNul pat hpat alt halt) hstr)

/-- The matcher finds the longest prefix in the language of a pattern, the alternatives are tried in
their order, and there is no match exactly where no prefix belongs to the language. -/
theorem mgMatchImpl_longest (pat str : List Byte) (mcx : Option MatchContext) (hpat : NUL ∉ pat)
    (hstr : NUL ∉ str) :
    (∀ pos n, (mgMatchImpl pat pos str mcx).1 = some n →
      IsGreatest (matchLengths (isCaseSensitive mcx) pat str) n) ∧
    (∀ pos, (mgMatchImpl pat pos str mcx).1 = none ↔
      matchLengths (isCaseSensitive mcx) pat str = ∅) ∧
    (mgMatchAlternatives pat str mcx).1 =
      (alternatives pat).findSome? (fun alt => (mgMatchImpl alt 0 str mcx).1) ∧
    ((mgMatchAlternatives pat str mcx).1 = none ↔
      ∀ alt ∈ alternatives pat, matchLengths (isCaseSensitive mcx) alt str = ∅) := by
  have halts := alternatives_noNul pat hpat
  have hfind := mgMatchAlternatives_result pat str mcx hpat hstr
  refine ⟨?_, ?_, ?_, ?_⟩
  · intro pos n hn
    rw [mgMatchImpl_result pat pos str mcx hpat hstr] at hn
    exact longest_isGreatest hn
  · intro pos
    rw [mgMatchImpl_result pat pos str mcx hpat hstr]
    exact longest_eq_none
  · rw [hfind]
    exact findSome?_congr (fun alt halt => (mgMatchImpl_result alt 0 str mcx (halts alt halt) hstr).symm)
  · rw [hfind, List.findSome?_eq_none_iff]
    exact forall₂_congr (fun alt _ => longest_eq_none)

theorem mgMatchImpl_longest_slash :
    (∀ pos n, (mgMatchImpl (ascii "/*?$") pos (ascii "/abc") none).1 = some n →
      IsGreatest (matchLengths false (ascii "/*?$") (ascii "/abc")) n) ∧
    (∀ pos, (mgMatchImpl (ascii "/*?$") pos (ascii "/abc") none).1 = none ↔
      matchLengths false (ascii "/*?$") (ascii "/abc") = ∅) ∧
    (mgMatchAlternatives (ascii "/*?$") (ascii "/abc") none).1 =
      (alternatives (ascii "/*?$")).findSome?
        (fun alt => (mgMatchImpl alt 0 (ascii "/abc") none).1) ∧
    ((mgMatchAlternatives (ascii "/*?$") (ascii "/abc") none).1 = none ↔
      ∀ alt ∈ alternatives (ascii "/*?$"), matchLengths false alt (ascii "/abc") = ∅) :=
  mgMatchImpl_longest (ascii "/*?$") (ascii "/abc") none (by decide) (by decide)

end CivetWeb.Match
