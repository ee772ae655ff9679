import CivetWeb.Match.Match

namespace CivetWeb.Match

open Wildcard (longest longestFirst)

/-- The elements of a pattern. -/
inductive PatternItem where
  | any
  | run
  | all
  | stop
  | char (c : Byte)
  deriving DecidableEq, Repr

/-- The elements a pattern is made of, two stars in a row before one. -/
def patternItems : List Byte → List PatternItem
  | [] => []
  | c :: pat =>
    if c = QUESTION then .any :: patternItems pat
    else if c = DOLLAR then .stop :: patternItems pat
    else if c = STAR then
      match pat with
      | d :: pat' => if d = STAR then .all :: patternItems pat' else .run :: patternItems (d :: pat')
      | [] => [.run]
    else .char c :: patternItems pat

/-- `?` is one character but a slash, `*` a run without a slash, `**` any run, `$` the end. -/
def PatternItem.meaning (caseSensitive : Bool) : PatternItem → Wildcard.Item Byte
  | .any => .one (· != SLASH)
  | .run => .many (· != SLASH)
  | .all => .many (fun _ => true)
  | .stop => .stop
  | .char c => .one (sameChar caseSensitive c)

def itemsLanguage (caseSensitive : Bool) (w : List PatternItem) : List (Wildcard.Item Byte) :=
  w.map (PatternItem.meaning caseSensitive)

def patternLanguage (caseSensitive : Bool) (pat : List Byte) : List (Wildcard.Item Byte) :=
  itemsLanguage caseSensitive (patternItems pat)

@[simp] theorem patternItems_any (pat : List Byte) :
    patternItems (QUESTION :: pat) = .any :: patternItems pat := by
  rw [patternItems.eq_def]
  simp

@[simp] theorem patternItems_stop (pat : List Byte) :
    patternItems (DOLLAR :: pat) = .stop :: patternItems pat := by
  rw [patternItems.eq_def]
  simp [show DOLLAR ≠ QUESTION by decide]

theorem patternItems_star (pat : List Byte) :
    patternItems (STAR :: pat) =
      (if deref pat = STAR then .all else .run) :: patternItems (afterStar pat) := by
  have hq : STAR ≠ QUESTION := by decide
  have hd : STAR ≠ DOLLAR := by decide
  rw [patternItems.eq_def]
  cases pat with
  | nil => simp [hq, hd, afterStar, patternItems, show NUL ≠ STAR by decide]
  | cons d pat => by_cases h : d = STAR <;> simp [hq, hd, afterStar, h]

theorem patternItems_char (c : Byte) (pat : List Byte) (hq : c ≠ QUESTION) (hd : c ≠ DOLLAR)
    (hs : c ≠ STAR) : patternItems (c :: pat) = .char c :: patternItems pat := by
  rw [patternItems.eq_def]
  simp [hq, hd, hs]

/-! The pieces a context is given. -/

/-- The piece of a run of `?` that ends here. -/
def anyPiece (start pos : Nat) : List MatchElement :=
  if start < pos then [⟨start, pos - start⟩] else []

/-- The pieces of the attempts at the rest of a pattern, up to the first that succeeds. -/
def attemptPieces (f : Nat → Option Nat) (g : Nat → List MatchElement) : Nat → List MatchElement
  | 0 => g 0
  | n + 1 => g (n + 1) ++ if (f (n + 1)).isSome then [] else attemptPieces f g n

def starPiece (pos : Nat) : Option (Nat × Nat) → List MatchElement
  | some (len, _) => [⟨pos, len⟩]
  | none => []

/-- All pieces that reading `w` at `pos` gives the context, the run of `?` since `start` included. -/
def pushedPieces (cs : Bool) : List PatternItem → Nat → Nat → List Byte → List MatchElement
  | [], start, pos, _ => anyPiece start pos
  | .any :: _, start, pos, [] => anyPiece start pos
  | .any :: w, start, pos, d :: s =>
    if d = SLASH then anyPiece start pos else pushedPieces cs w start (pos + 1) s
  | .stop :: _, start, pos, _ => anyPiece start pos
  | .char _ :: _, start, pos, [] => anyPiece start pos
  | .char c :: w, start, pos, d :: s =>
    anyPiece start pos ++ if sameChar cs c d then pushedPieces cs w (pos + 1) (pos + 1) s else []
  | .run :: w, start, pos, s =>
    let f := fun n => longest (itemsLanguage cs w) (s.drop n)
    let len := (s.takeWhile (· != SLASH)).length
    anyPiece start pos ++
      attemptPieces f (fun n => pushedPieces cs w (pos + n) (pos + n) (s.drop n)) len ++
      starPiece pos (longestFirst f len)
  | .all :: w, start, pos, s =>
    let f := fun n => longest (itemsLanguage cs w) (s.drop n)
    anyPiece start pos ++
      attemptPieces f (fun n => pushedPieces cs w (pos + n) (pos + n) (s.drop n)) s.length ++
      starPiece pos (longestFirst f s.length)

def recordAll (es : List MatchElement) (mcx : MatchContext) : MatchContext :=
  es.foldl (fun mcx e => matchContextPush e.str e.len mcx) mcx

@[simp] theorem recordAll_nil (mcx : MatchContext) : recordAll [] mcx = mcx := rfl

@[simp] theorem recordAll_cons (e : MatchElement) (es : List MatchElement) (mcx : MatchContext) :
    recordAll (e :: es) mcx = recordAll es (matchContextPush e.str e.len mcx) := rfl

theorem recordAll_append (es fs : List MatchElement) (mcx : MatchContext) :
    recordAll (es ++ fs) mcx = recordAll fs (recordAll es mcx) := by
  simp [recordAll]

@[simp] theorem matchContextPush_caseSensitive (str len : Nat) (mcx : MatchContext) :
    (matchContextPush str len mcx).caseSensitive = mcx.caseSensitive := by
  unfold matchContextPush
  split_ifs <;> rfl

@[simp] theorem recordAll_caseSensitive (es : List MatchElement) (mcx : MatchContext) :
    (recordAll es mcx).caseSensitive = mcx.caseSensitive := by
  induction es generalizing mcx with
  | nil => rfl
  | cons e es ih => rw [recordAll_cons, ih, matchContextPush_caseSensitive]

@[simp] theorem isCaseSensitive_push (str len : Nat) (mcx : Option MatchContext) :
    isCaseSensitive (mcx.map (matchContextPush str len)) = isCaseSensitive mcx := by
  cases mcx <;> simp [isCaseSensitive]

@[simp] theorem isCaseSensitive_recordAll (es : List MatchElement) (mcx : Option MatchContext) :
    isCaseSensitive (mcx.map (recordAll es)) = isCaseSensitive mcx := by
  cases mcx <;> simp [isCaseSensitive]

theorem map_recordAll_append (es fs : List MatchElement) (mcx : Option MatchContext) :
    mcx.map (recordAll (es ++ fs)) = (mcx.map (recordAll es)).map (recordAll fs) := by
  cases mcx <;> simp [recordAll_append]

@[simp] theorem map_recordAll_nil (mcx : Option MatchContext) : mcx.map (recordAll []) = mcx := by
  cases mcx <;> rfl

@[simp] theorem map_recordAll_one (str len : Nat) (mcx : Option MatchContext) :
    mcx.map (recordAll [⟨str, len⟩]) = mcx.map (matchContextPush str len) := rfl

@[simp] theorem anyPiece_self (pos : Nat) : anyPiece pos pos = [] := by
  simp [anyPiece]

/-- Where no `?` is read, the run so far ends. -/
theorem pushedPieces_start (cs : Bool) (pat : List Byte) (start pos : Nat) (str : List Byte)
    (hstr : NUL ∉ str) (hrun : anyRun pat str = 0) :
    pushedPieces cs (patternItems pat) start pos str =
      anyPiece start pos ++ pushedPieces cs (patternItems pat) pos pos str := by
  have hcase : ∀ x w, (x = .any → ∀ d ∈ str.head?, d = SLASH) →
      pushedPieces cs (x :: w) start pos str =
        anyPiece start pos ++ pushedPieces cs (x :: w) pos pos str := by
    intro x w hany
    cases x with
    | any =>
      cases str with
      | nil => simp [pushedPieces]
      | cons d str =>
        have hd := hany rfl d (by simp)
        simp [pushedPieces, hd]
    | char c => cases str <;> simp [pushedPieces]
    | stop => simp [pushedPieces]
    | run => simp [pushedPieces]
    | all => simp [pushedPieces]
  cases pat with
  | nil => simp [patternItems, pushedPieces]
  | cons c pat =>
    by_cases hc : c = QUESTION
    · subst hc
      rw [patternItems_any]
      apply hcase
      intro _ d hd
      cases str with
      | nil => simp at hd
      | cons d' str =>
        obtain rfl : d' = d := by simpa using hd
        by_contra hne
        have hd0 : d' ≠ NUL := fun h => hstr (by simp [h])
        rw [anyRun, if_pos ⟨rfl, hd0, hne⟩] at hrun
        omega
    · obtain ⟨x, w, hx, hxw⟩ : ∃ x w, x ≠ .any ∧ patternItems (c :: pat) = x :: w := by
        by_cases hd : c = DOLLAR
        · exact ⟨.stop, _, by simp, by rw [hd, patternItems_stop]⟩
        · by_cases hs : c = STAR
          · refine ⟨if deref pat = STAR then .all else .run, _, ?_, by rw [hs, patternItems_star]⟩
            split_ifs <;> simp
          · exact ⟨_, _, by simp, patternItems_char c pat hc hd hs⟩
      rw [hxw]
      exact hcase x w (fun h => absurd h hx)

/-- A run of `?` is one piece, and the rest of the pattern is read behind it. -/
theorem pushedPieces_anyRun (cs : Bool) (pat : List Byte) (start pos : Nat) (str : List Byte)
    (hstr : NUL ∉ str) :
    pushedPieces cs (patternItems pat) start pos str =
      anyPiece start (pos + anyRun pat str) ++
        pushedPieces cs (patternItems (pat.drop (anyRun pat str))) (pos + anyRun pat str)
          (pos + anyRun pat str) (str.drop (anyRun pat str)) := by
  induction pat generalizing pos str with
  | nil => exact pushedPieces_start cs [] start pos str hstr rfl
  | cons c pat ih =>
    cases str with
    | nil => exact pushedPieces_start cs (c :: pat) start pos [] hstr rfl
    | cons d str =>
      by_cases hq : c = QUESTION ∧ d ≠ NUL ∧ d ≠ SLASH
      · have hstr' : NUL ∉ str := fun h => hstr (List.mem_cons_of_mem _ h)
        have hrun : anyRun (c :: pat) (d :: str) = anyRun pat str + 1 := by
          rw [anyRun, if_pos hq]
        rw [hrun, List.drop_succ_cons, List.drop_succ_cons, hq.1, patternItems_any, pushedPieces,
          if_neg hq.2.2, ih (pos + 1) str hstr', show pos + 1 + anyRun pat str = pos + (anyRun pat str + 1) by omega]
      · have hrun : anyRun (c :: pat) (d :: str) = 0 := by
          rw [anyRun, if_neg hq]
        rw [hrun]
        exact pushedPieces_start cs (c :: pat) start pos (d :: str) hstr hrun

theorem longest_anyRun (cs : Bool) (pat str : List Byte) :
    longest (patternLanguage cs pat) str =
      (longest (patternLanguage cs (pat.drop (anyRun pat str))) (str.drop (anyRun pat str))).map
        (· + anyRun pat str) := by
  induction pat generalizing str with
  | nil => simp [anyRun]
  | cons c pat ih =>
    cases str with
    | nil => simp [anyRun]
    | cons d str =>
      by_cases hq : c = QUESTION ∧ d ≠ NUL ∧ d ≠ SLASH
      · have hrun : anyRun (c :: pat) (d :: str) = anyRun pat str + 1 := by
          rw [anyRun, if_pos hq]
        have hlang : patternLanguage cs (c :: pat) =
            .one (· != SLASH) :: patternLanguage cs pat := by
          rw [hq.1, patternLanguage, patternItems_any]
          rfl
        have hd : (d != SLASH) = true := by simpa using hq.2.2
        rw [hrun, List.drop_succ_cons, List.drop_succ_cons, hlang, longest, if_pos hd, ih str,
          Option.map_map]
        rfl
      · have hrun : anyRun (c :: pat) (d :: str) = 0 := by
          rw [anyRun, if_neg hq]
        simp [hrun]

theorem longestFirst_const (r n : Nat) : longestFirst (fun _ => some r) n = some (n, r) := by
  cases n <;> rfl

theorem attemptPieces_const (r n : Nat) :
    attemptPieces (fun _ => some r) (fun _ => []) n = [] := by
  cases n <;> rfl

/-- The loop over a star does what the attempts do, one after the other. -/
theorem starLoop_eq (tail : Nat → Option MatchContext → Option Nat × Option MatchContext)
    (f : Nat → Option Nat) (g : Nat → List MatchElement) (cs : Bool)
    (htail : ∀ n mcx, isCaseSensitive mcx = cs → tail n mcx = (f n, mcx.map (recordAll (g n))))
    (len : Nat) (mcx : Option MatchContext) (hcs : isCaseSensitive mcx = cs) :
    starLoop tail len mcx =
      (longestFirst f len, mcx.map (recordAll (attemptPieces f g len))) := by
  induction len generalizing mcx with
  | zero =>
    rw [starLoop, htail 0 mcx hcs]
    cases h : f 0 <;> simp [longestFirst, attemptPieces, h]
  | succ n ih =>
    rw [starLoop, htail (n + 1) mcx hcs]
    cases h : f (n + 1) with
    | some r => simp [longestFirst, attemptPieces, h]
    | none =>
      dsimp only
      rw [ih (mcx.map (recordAll (g (n + 1)))) (by simpa using hcs)]
      simp only [longestFirst, attemptPieces, h, Option.isSome_none, Bool.false_eq_true, if_false,
        map_recordAll_append]

/-- What a star does: its attempts, then its own piece. -/
theorem pushedPieces_star (cs : Bool) (rest : List Byte) (pos : Nat) (str : List Byte)
    (hstr : NUL ∉ str) :
    pushedPieces cs (patternItems (STAR :: rest)) pos pos str =
      attemptPieces (fun n => longest (patternLanguage cs (afterStar rest)) (str.drop n))
        (fun n => pushedPieces cs (patternItems (afterStar rest)) (pos + n) (pos + n) (str.drop n))
        (starSpan rest str) ++
      starPiece pos (longestFirst
        (fun n => longest (patternLanguage cs (afterStar rest)) (str.drop n))
        (starSpan rest str)) := by
  rw [patternItems_star, starSpan, cstr_of_no_nul str hstr]
  split_ifs with h
  · simp [pushedPieces, patternLanguage]
  · simp [pushedPieces, patternLanguage]

theorem longest_star (cs : Bool) (rest str : List Byte) (hstr : NUL ∉ str) :
    longest (patternLanguage cs (STAR :: rest)) str =
      (longestFirst (fun n => longest (patternLanguage cs (afterStar rest)) (str.drop n))
        (starSpan rest str)).map (fun x => x.1 + x.2) := by
  rw [patternLanguage, patternItems_star, starSpan, cstr_of_no_nul str hstr]
  split_ifs with h
  · have hall : str.takeWhile (fun _ => true) = str :=
      List.takeWhile_eq_self_iff.mpr (fun _ _ => rfl)
    change longest (.many (fun _ => true) :: itemsLanguage cs (patternItems (afterStar rest))) str = _
    rw [longest, hall]
    rfl
  · rfl

theorem afterStar_noNul (pat : List Byte) (h : NUL ∉ pat) : NUL ∉ afterStar pat := by
  unfold afterStar
  split_ifs
  · exact fun hmem => h (List.mem_of_mem_tail hmem)
  · exact h

theorem sameChar_nul (cs : Bool) (c : Byte) (hc : c ≠ NUL) : sameChar cs c NUL = false := by
  have hpos := tolower_toNat_pos c hc
  have hlow : tolower c ≠ tolower NUL := by
    intro h
    rw [h] at hpos
    exact absurd hpos (by decide)
  cases cs <;> simp [sameChar, hc, hlow]

/-- The matcher returns the longest-first reading and pushes the pieces of all attempts. -/
def MatchAgrees (pat : List Byte) (pos : Nat) (str : List Byte) (mcx : Option MatchContext) : Prop :=
  mgMatchImpl pat pos str mcx =
    (longest (patternLanguage (isCaseSensitive mcx) pat) str,
      mcx.map (recordAll (pushedPieces (isCaseSensitive mcx) (patternItems pat) pos pos str)))

theorem matchAgrees_run (c : Byte) (rest : List Byte) (pos : Nat) (str : List Byte)
    (mcx : Option MatchContext) (hstr : NUL ∉ str) (hrun : 0 < anyRun (c :: rest) str)
    (ih : ∀ m, MatchAgrees ((c :: rest).drop (anyRun (c :: rest) str))
      (pos + anyRun (c :: rest) str) (str.drop (anyRun (c :: rest) str)) m) :
    MatchAgrees (c :: rest) pos str mcx := by
  have hpiece : anyPiece pos (pos + anyRun (c :: rest) str) =
      [⟨pos, anyRun (c :: rest) str⟩] := by
    rw [anyPiece, if_pos (by omega), Nat.add_sub_cancel_left]
  unfold MatchAgrees at ih ⊢
  rw [mgMatchImpl, dif_pos hrun]
  dsimp only
  rw [ih, longest_anyRun _ (c :: rest) str, pushedPieces_anyRun _ _ _ _ _ hstr, hpiece,
    map_recordAll_append, isCaseSensitive_push, map_recordAll_one]

theorem matchAgrees_stop (rest : List Byte) (pos : Nat) (str : List Byte)
    (mcx : Option MatchContext) (hstr : NUL ∉ str) : MatchAgrees (DOLLAR :: rest) pos str mcx := by
  have hrun : ¬ 0 < anyRun (DOLLAR :: rest) str := by
    cases str <;> simp [anyRun, show DOLLAR ≠ QUESTION by decide]
  unfold MatchAgrees
  rw [mgMatchImpl, dif_neg hrun, if_pos rfl, patternLanguage, patternItems_stop, pushedPieces,
    anyPiece_self, map_recordAll_nil]
  cases str with
  | nil => rfl
  | cons d str =>
    have hd : d ≠ NUL := fun h => hstr (by simp [h])
    simp [itemsLanguage, PatternItem.meaning, longest, hd]

theorem matchAgrees_star (rest : List Byte) (pos : Nat) (str : List Byte)
    (mcx : Option MatchContext) (hstr : NUL ∉ str)
    (ih : ∀ n m, MatchAgrees (afterStar rest) (pos + n) (str.drop n) m) :
    MatchAgrees (STAR :: rest) pos str mcx := by
  have hrun : ¬ 0 < anyRun (STAR :: rest) str := by
    cases str <;> simp [anyRun, show STAR ≠ QUESTION by decide]
  unfold MatchAgrees at ih ⊢
  rw [mgMatchImpl, dif_neg hrun, if_neg (by decide), if_pos rfl, longest_star _ _ _ hstr,
    pushedPieces_star _ _ _ _ hstr]
  dsimp only
  split_ifs with hend
  · simp only [hend, patternLanguage, patternItems, itemsLanguage, List.map_nil, longest,
      pushedPieces, anyPiece_self, longestFirst_const, attemptPieces_const, starPiece,
      List.nil_append, Option.map_some, Nat.add_zero, map_recordAll_one]
  · rw [starLoop_eq _ _ _ (isCaseSensitive mcx) (fun n m hm => by rw [ih n m, hm]) _ mcx rfl,
      map_recordAll_append]
    generalize longestFirst _ _ = found
    cases found with
    | none =>
      dsimp only [starPiece, Option.map_none]
      rw [map_recordAll_nil]
    | some x =>
      dsimp only [starPiece, Option.map_some]
      rw [map_recordAll_one, Nat.add_comm]

/-- A `?` that reads nothing is compared as a character, and fails. -/
theorem sameChar_question (cs : Bool) (rest str : List Byte) (hstr : NUL ∉ str)
    (hrun : anyRun (QUESTION :: rest) str = 0) :
    sameChar cs QUESTION (deref str) = false ∧ ∀ d ∈ str.head?, d = SLASH := by
  cases str with
  | nil => exact ⟨sameChar_nul cs QUESTION (by decide), by simp⟩
  | cons d str =>
    have hd : d ≠ NUL := fun h => hstr (by simp [h])
    have hslash : d = SLASH := by
      by_contra hne
      rw [anyRun, if_pos ⟨rfl, hd, hne⟩] at hrun
      omega
    subst hslash
    refine ⟨?_, by simp⟩
    rw [deref_cons]
    cases cs <;> decide

theorem matchAgrees_any (rest : List Byte) (pos : Nat) (str : List Byte)
    (mcx : Option MatchContext) (hstr : NUL ∉ str) (hrun : anyRun (QUESTION :: rest) str = 0) :
    MatchAgrees (QUESTION :: rest) pos str mcx := by
  obtain ⟨hsame, hslash⟩ := sameChar_question (isCaseSensitive mcx) rest str hstr hrun
  unfold MatchAgrees
  rw [mgMatchImpl, dif_neg (by omega), if_neg (by decide), if_neg (by decide), hsame,
    patternLanguage, patternItems_any]
  cases str with
  | nil => simp [itemsLanguage, PatternItem.meaning, longest, pushedPieces]
  | cons d str =>
    have hd := hslash d (by simp)
    simp [itemsLanguage, PatternItem.meaning, longest, pushedPieces, hd]

theorem matchAgrees_char (c : Byte) (rest : List Byte) (pos : Nat) (str : List Byte)
    (mcx : Option MatchContext) (hc : c ≠ NUL) (hq : c ≠ QUESTION) (hd : c ≠ DOLLAR)
    (hs : c ≠ STAR) (ih : MatchAgrees rest (pos + 1) str.tail mcx) :
    MatchAgrees (c :: rest) pos str mcx := by
  have hrun : ¬ 0 < anyRun (c :: rest) str := by
    cases str <;> simp [anyRun, hq]
  unfold MatchAgrees at ih ⊢
  rw [mgMatchImpl, dif_neg hrun, if_neg hd, if_neg hs, patternLanguage,
    patternItems_char c rest hq hd hs]
  cases str with
  | nil =>
    simp only [deref_nil, sameChar_nul _ c hc, Bool.false_eq_true, if_false, itemsLanguage,
      PatternItem.meaning, List.map_cons, longest, pushedPieces, anyPiece_self, map_recordAll_nil]
  | cons d str =>
    rw [List.tail_cons] at ih
    rw [deref_cons, List.tail_cons, ih]
    simp only [itemsLanguage, PatternItem.meaning, List.map_cons, longest, pushedPieces,
      anyPiece_self, List.nil_append, patternLanguage]
    split_ifs
    · rfl
    · rw [map_recordAll_nil]

theorem mgMatchImpl_agrees (pat : List Byte) (pos : Nat) (str : List Byte)
    (mcx : Option MatchContext) (hpat : NUL ∉ pat) (hstr : NUL ∉ str) :
    MatchAgrees pat pos str mcx := by
  induction hn : pat.length using Nat.strong_induction_on generalizing pat pos str mcx with
  | _ n ih =>
    cases pat with
    | nil =>
      unfold MatchAgrees
      rw [mgMatchImpl]
      simp [patternLanguage, patternItems, itemsLanguage, longest, pushedPieces]
    | cons c rest =>
      have hc : c ≠ NUL := fun h => hpat (by simp [h])
      have hrest : NUL ∉ rest := fun h => hpat (List.mem_cons_of_mem _ h)
      have hdrop : ∀ k, NUL ∉ str.drop k := fun k h => hstr (List.mem_of_mem_drop h)
      rw [List.length_cons] at hn
      by_cases hrun : 0 < anyRun (c :: rest) str
      · refine matchAgrees_run c rest pos str mcx hstr hrun (fun m => ?_)
        exact ih _ (by simp only [List.length_drop, List.length_cons]; omega) _ _ _ _
          (fun h => hpat (List.mem_of_mem_drop h)) (hdrop _) rfl
      · by_cases hq : c = QUESTION
        · subst hq
          exact matchAgrees_any rest pos str mcx hstr (by omega)
        · by_cases hd : c = DOLLAR
          · subst hd
            exact matchAgrees_stop rest pos str mcx hstr
          · by_cases hs : c = STAR
            · subst hs
              have hlen := afterStar_length_le rest
              exact matchAgrees_star rest pos str mcx hstr (fun k m =>
                ih _ (by omega) _ _ _ _ (afterStar_noNul rest hrest) (hdrop k) rfl)
            · exact matchAgrees_char c rest pos str mcx hc hq hd hs
                (ih _ (by omega) _ _ _ _ hrest (fun h => hstr (List.mem_of_mem_tail h)) rfl)

end CivetWeb.Match
