import CivetWeb.Match.Runs

namespace CivetWeb.Match

open Wildcard (longest)

/-- The pieces recorded on the way, with room for `max` of them. -/
def recordedPieces (pat str : List Byte) (caseSensitive : Bool) (max : Nat) : List MatchElement :=
  matchElements (mgMatchAlternatives pat str (some ⟨caseSensitive, max, []⟩)).2

theorem recordAll_elements (es : List MatchElement) (mcx : MatchContext)
    (h : mcx.elements.length + es.length ≤ mcx.max) :
    (recordAll es mcx).elements = mcx.elements ++ es := by
  induction es generalizing mcx with
  | nil => simp
  | cons e es ih =>
    rw [List.length_cons] at h
    have hpush : matchContextPush e.str e.len mcx =
        { mcx with elements := mcx.elements ++ [e] } := by
      rw [matchContextPush, if_pos (by omega)]
    rw [recordAll_cons, hpush, ih _ (by simp only [List.length_append, List.length_singleton]; omega)]
    simp

/-- What the alternatives leave where an alternative matches and there is room for its pieces. -/
theorem mgMatchAlternatives_recorded (pat str alt : List Byte) (mcx : MatchContext)
    (hpat : NUL ∉ pat) (hstr : NUL ∉ str)
    (halt : successfulAlternative mcx.caseSensitive pat str = some alt)
    (hroom : (pushedPieces mcx.caseSensitive (patternItems alt) 0 0 str).length ≤ mcx.max) :
    ∃ mcx', mgMatchAlternatives pat str (some mcx) =
        (longest (patternLanguage mcx.caseSensitive alt) str, some mcx') ∧
      mcx'.elements = pushedPieces mcx.caseSensitive (patternItems alt) 0 0 str := by
  have hfind := mgMatchAlternatives_find pat str (some mcx) hpat hstr
  dsimp only [isCaseSensitive] at hfind
  rw [successfulAlternative] at halt
  rw [halt] at hfind
  refine ⟨_, hfind, ?_⟩
  rw [recordAll_elements _ _ (by simpa [matchContextReset] using hroom)]
  rfl

theorem recordAll_length_le (es : List MatchElement) (mcx : MatchContext) :
    (recordAll es mcx).elements.length ≤ mcx.elements.length + es.length := by
  induction es generalizing mcx with
  | nil => exact le_refl _
  | cons e es ih =>
    refine (ih (matchContextPush e.str e.len mcx)).trans ?_
    unfold matchContextPush
    split_ifs
    · simp only [List.length_append, List.length_cons, List.length_nil]
      omega
    · simp only [List.length_cons]
      omega

theorem recordedPieces_le (pat str alt : List Byte) (cs : Bool) (max : Nat) (hpat : NUL ∉ pat)
    (hstr : NUL ∉ str) (halt : successfulAlternative cs pat str = some alt) :
    (recordedPieces pat str cs max).length ≤ (pushedPieces cs (patternItems alt) 0 0 str).length := by
  have hfind := mgMatchAlternatives_find pat str (some ⟨cs, max, []⟩) hpat hstr
  dsimp only [isCaseSensitive] at hfind
  rw [successfulAlternative] at halt
  rw [halt] at hfind
  dsimp only at hfind
  rw [recordedPieces, hfind]
  refine (recordAll_length_le _ _).trans ?_
  simp [matchContextReset]

theorem fillHoles_length (h : List (Option Byte)) (texts : List (List Byte))
    (hcount : texts.length = h.count none) :
    (fillHoles h texts).length + h.count none = h.length + (texts.map List.length).sum := by
  induction h generalizing texts with
  | nil =>
    obtain rfl : texts = [] := by simpa using hcount
    rfl
  | cons x h ih =>
    cases x with
    | some c =>
      have := ih texts (by simpa using hcount)
      simp only [fillHoles, List.length_cons, List.count_cons, beq_iff_eq, reduceCtorEq, if_false]
      omega
    | none =>
      cases texts with
      | nil => simp at hcount
      | cons t texts =>
        have := ih texts (by simpa using hcount)
        simp only [fillHoles, List.length_append, List.length_cons, List.count_cons_self,
          List.map_cons, List.sum_cons]
        omega

theorem sum_pieceText (str : List Byte) (es : List MatchElement)
    (hinside : ∀ e ∈ es, e.str + e.len ≤ str.length) :
    ((es.map (pieceText str)).map List.length).sum = totalLen es := by
  induction es with
  | nil => rfl
  | cons e es ih =>
    have he := hinside e (by simp)
    have hlen : (pieceText str e).length = e.len := by
      rw [pieceText, List.length_take, List.length_drop]
      omega
    rw [List.map_cons, List.map_cons, List.sum_cons, totalLen_cons, hlen,
      ih (fun x hx => hinside x (List.mem_cons_of_mem e hx))]

/-- Pieces that fill the holes are as long together as what is matched without the characters. -/
theorem Reported.totalLen {cs : Bool} {pat str : List Byte} {n : Nat} {es : List MatchElement}
    (h : Reported cs pat str n es) (hn : n ≤ str.length) :
    n + (patternHoles (patternItems pat)).count none =
      (patternHoles (patternItems pat)).length + totalLen es := by
  have hlen := h.text.length
  rw [List.length_take, min_eq_left hn] at hlen
  have hfill := fillHoles_length (patternHoles (patternItems pat)) (es.map (pieceText str))
    (by rw [List.length_map, h.count])
  rw [sum_pieceText str es h.inside] at hfill
  omega

/-- What the runs of wildcards read is what a context should report. -/
theorem reported_runs (cs : Bool) (pat str : List Byte) (n : Nat)
    (hread : longest (patternLanguage cs pat) str = some n) :
    Reported cs pat str n (joinMatches (orderedPieces cs (patternItems pat) 0 0 str)) := by
  have hjoin := (joinMatches_ordered cs (patternItems pat) 0 str n hread).2
  obtain ⟨hcount, htext⟩ := (fillHoles_runs cs str (patternItems pat) 0 str n hread).2 rfl
  refine ⟨?_, ?_, ?_, ?_⟩
  · intro e he
    rw [hjoin] at he
    have hle := wildcardRuns_inside cs (patternItems pat) none 0 str n hread (by simp) e he
    have hn := (Wildcard.mem_lengths.mp (Wildcard.longest_isGreatest hread).1).1
    omega
  · exact pairwise_joinMatches _ (orderedPieces_inOrder cs (patternItems pat) 0 0 str
      (le_refl 0)).disjoint
  · rw [hjoin, hcount]
  · rw [hjoin]
    exact htext

/-- The pieces pushed on the way, sorted and joined, are what they should be if and only if the search
was clean and the sort puts empty pieces first. -/
theorem reported_pushed_iff (cs : Bool) (pat str : List Byte) (n : Nat)
    (hread : longest (patternLanguage cs pat) str = some n) :
    Reported cs pat str n
        (joinMatches (mgSort matchCompare (pushedPieces cs (patternItems pat) 0 0 str))) ↔
      Clean cs (patternItems pat) str ∧
        EmptyFirst (mgSort matchCompare (matchedPieces cs (patternItems pat) 0 0 str)) := by
  obtain ⟨hclean, hdirty⟩ := pushedPieces_matched cs (patternItems pat) 0 0 str n hread
  have hruns := reported_runs cs pat str n hread
  have hn : n ≤ str.length := (Wildcard.mem_lengths.mp (Wildcard.longest_isGreatest hread).1).1
  constructor
  · intro h
    have hc : Clean cs (patternItems pat) str := by
      by_contra hnot
      have hmore := hdirty hnot
      have hright := hruns.totalLen hn
      have hpushed := h.totalLen hn
      rw [totalLen_joinMatches, totalLen_perm (orderedPieces_perm cs _ 0 0 str)] at hright
      rw [totalLen_joinMatches, totalLen_perm (mgSort_perm matchCompare _)] at hpushed
      omega
    have hchain := isChain_of_joinMatches _ h.apart
    rw [hclean hc] at hchain
    refine ⟨hc, hchain.imp ?_⟩
    intro e e' hle hstr
    omega
  · rintro ⟨hc, hempty⟩
    rw [hclean hc, mgSort_matched cs (patternItems pat) str hempty]
    exact hruns

/-- A match context reports what the wildcards matched if and only if no attempt that fails has read a
`?` before the match is found, and no run of `?` stands behind a star that matches nothing (unless the
sort happens to put the empty piece first). -/
theorem mgMatch_reported (pat str alt : List Byte) (mcx : MatchContext) (n : Nat)
    (hpat : NUL ∉ pat) (hstr : NUL ∉ str)
    (hmatch : (mgMatch pat str (some mcx)).1 = some n)
    (hroom : ∀ max, (recordedPieces pat str mcx.caseSensitive max).length ≤ mcx.max)
    (halt : successfulAlternative mcx.caseSensitive pat str = some alt) :
    Reported mcx.caseSensitive alt str n (matchElements (mgMatch pat str (some mcx)).2) ↔
      Clean mcx.caseSensitive (patternItems alt) str ∧
        EmptyFirst (mgSort matchCompare
          (matchedPieces mcx.caseSensitive (patternItems alt) 0 0 str)) := by
  have hpushed : (pushedPieces mcx.caseSensitive (patternItems alt) 0 0 str).length ≤ mcx.max := by
    obtain ⟨mcx', heq, helems⟩ := mgMatchAlternatives_recorded pat str alt
      ⟨mcx.caseSensitive, (pushedPieces mcx.caseSensitive (patternItems alt) 0 0 str).length, []⟩
      hpat hstr halt (le_refl _)
    have h := hroom (pushedPieces mcx.caseSensitive (patternItems alt) 0 0 str).length
    rw [recordedPieces, heq] at h
    dsimp only [matchElements] at h
    rwa [helems] at h
  obtain ⟨mcx', heq, helems⟩ := mgMatchAlternatives_recorded pat str alt mcx hpat hstr halt hpushed
  rw [mgMatch, heq] at hmatch ⊢
  cases hread : longest (patternLanguage mcx.caseSensitive alt) str with
  | none => simp [hread] at hmatch
  | some k =>
    obtain rfl : k = n := by simpa [hread] using hmatch
    dsimp only [Option.map_some, matchElements]
    rw [helems]
    exact reported_pushed_iff mcx.caseSensitive alt str k hread

theorem mgMatch_reported_slashes :
    Reported false (ascii "/*/?") (ascii "/ab/c") 5
        (matchElements (mgMatch (ascii "/*/?") (ascii "/ab/c") (some ⟨false, 32, []⟩)).2) ↔
      Clean false (patternItems (ascii "/*/?")) (ascii "/ab/c") ∧
        EmptyFirst (mgSort matchCompare
          (matchedPieces false (patternItems (ascii "/*/?")) 0 0 (ascii "/ab/c"))) :=
  mgMatch_reported (ascii "/*/?") (ascii "/ab/c") (ascii "/*/?") ⟨false, 32, []⟩ 5 (by decide)
    (by decide) (by decide +kernel)
    (fun max => (recordedPieces_le (ascii "/*/?") (ascii "/ab/c") (ascii "/*/?") false max (by decide)
      (by decide) (by decide +kernel)).trans (by decide +kernel))
    (by decide +kernel)

/-- The `?` of `*?a` reads the last character of `xaa` in an attempt that fails, and its piece stays. -/
theorem mgMatch_stale :
    (mgMatch (ascii "*?a") (ascii "xaa") (some ⟨false, 32, []⟩)).1 = some 3 ∧
      (∀ max, (recordedPieces (ascii "*?a") (ascii "xaa") false max).length ≤ 32) ∧
      successfulAlternative false (ascii "*?a") (ascii "xaa") = some (ascii "*?a") ∧
      matchElements (mgMatch (ascii "*?a") (ascii "xaa") (some ⟨false, 32, []⟩)).2 = [⟨0, 3⟩] ∧
      ¬ Reported false (ascii "*?a") (ascii "xaa") 3
        (matchElements (mgMatch (ascii "*?a") (ascii "xaa") (some ⟨false, 32, []⟩)).2) := by
  have hpieces : matchElements (mgMatch (ascii "*?a") (ascii "xaa") (some ⟨false, 32, []⟩)).2 =
      [⟨0, 3⟩] := by decide +kernel
  refine ⟨by decide +kernel, fun max => ?_, by decide +kernel, hpieces, ?_⟩
  · exact (recordedPieces_le (ascii "*?a") (ascii "xaa") (ascii "*?a") false max (by decide)
      (by decide) (by decide +kernel)).trans (by decide +kernel)
  · rw [hpieces]
    intro h
    have hlen := h.text.length
    revert hlen
    decide +kernel

end CivetWeb.Match
