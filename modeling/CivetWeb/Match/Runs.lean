import CivetWeb.Match.Context

namespace CivetWeb.Match

open Wildcard (longest longestFirst longestFirst_some)

def orderedFound (g : Nat → List MatchElement) (pos : Nat) : Option (Nat × Nat) → List MatchElement
  | some (len, _) => ⟨pos, len⟩ :: g len
  | none => []

/-- The pieces of `matchedPieces` in the order of the pattern. -/
def orderedPieces (cs : Bool) : List PatternItem → Nat → Nat → List Byte → List MatchElement
  | [], start, pos, _ => anyPiece start pos
  | .any :: w, start, pos, s => orderedPieces cs w start (pos + 1) s.tail
  | .stop :: _, start, pos, _ => anyPiece start pos
  | .char _ :: w, start, pos, s =>
    anyPiece start pos ++ orderedPieces cs w (pos + 1) (pos + 1) s.tail
  | .run :: w, start, pos, s =>
    anyPiece start pos ++ orderedFound
      (fun n => orderedPieces cs w (pos + n) (pos + n) (s.drop n)) pos
      (longestFirst (fun n => longest (itemsLanguage cs w) (s.drop n))
        (s.takeWhile (· != SLASH)).length)
  | .all :: w, start, pos, s =>
    anyPiece start pos ++ orderedFound
      (fun n => orderedPieces cs w (pos + n) (pos + n) (s.drop n)) pos
      (longestFirst (fun n => longest (itemsLanguage cs w) (s.drop n)) s.length)

theorem orderedFound_perm {g g' : Nat → List MatchElement} (h : ∀ n, (g n).Perm (g' n)) (pos : Nat)
    (found : Option (Nat × Nat)) : (orderedFound g pos found).Perm (foundPieces g' pos found) := by
  cases found with
  | none => exact List.Perm.refl _
  | some x =>
    dsimp only [orderedFound, foundPieces]
    exact ((h x.1).cons _).trans (@List.perm_append_comm _ [_] _)

theorem orderedPieces_perm (cs : Bool) (w : List PatternItem) (start pos : Nat) (s : List Byte) :
    (orderedPieces cs w start pos s).Perm (matchedPieces cs w start pos s) := by
  induction w generalizing start pos s with
  | nil => exact List.Perm.refl _
  | cons x w ih =>
    cases x with
    | any => exact ih start (pos + 1) s.tail
    | stop => exact List.Perm.refl _
    | char c => exact (ih (pos + 1) (pos + 1) s.tail).append_left _
    | run => exact (orderedFound_perm (fun n => ih (pos + n) (pos + n) (s.drop n)) pos _).append_left _
    | all => exact (orderedFound_perm (fun n => ih (pos + n) (pos + n) (s.drop n)) pos _).append_left _

/-- Pieces that begin at `start` or behind and do not overlap. -/
structure InOrder (start : Nat) (es : List MatchElement) : Prop where
  from_start : ∀ e ∈ es, start ≤ e.str
  disjoint : es.Pairwise (fun e e' => e.str + e.len ≤ e'.str)

theorem InOrder.nil (start : Nat) : InOrder start [] :=
  ⟨by simp, List.Pairwise.nil⟩

theorem InOrder.later {start start' : Nat} {es : List MatchElement} (h : InOrder start' es)
    (hle : start ≤ start') : InOrder start es :=
  ⟨fun e he => hle.trans (h.from_start e he), h.disjoint⟩

theorem InOrder.cons {start len : Nat} {es : List MatchElement} (h : InOrder (start + len) es) :
    InOrder start (⟨start, len⟩ :: es) := by
  refine ⟨?_, List.pairwise_cons.mpr ⟨h.from_start, h.disjoint⟩⟩
  intro e he
  rcases List.mem_cons.mp he with rfl | he
  · exact le_refl start
  · exact (Nat.le_add_right start len).trans (h.from_start e he)

theorem InOrder.anyPiece {start pos : Nat} {es : List MatchElement} (h : InOrder pos es)
    (hle : start ≤ pos) : InOrder start (anyPiece start pos ++ es) := by
  unfold Match.anyPiece
  split_ifs
  · refine InOrder.cons ?_
    rwa [Nat.add_sub_cancel' hle]
  · exact h.later hle

theorem InOrder.found {g : Nat → List MatchElement} {pos : Nat}
    (h : ∀ n, InOrder (pos + n) (g n)) (found : Option (Nat × Nat)) :
    InOrder pos (orderedFound g pos found) := by
  cases found with
  | none => exact InOrder.nil pos
  | some x => exact InOrder.cons (h x.1)

theorem orderedPieces_inOrder (cs : Bool) (w : List PatternItem) (start pos : Nat) (s : List Byte)
    (hle : start ≤ pos) : InOrder start (orderedPieces cs w start pos s) := by
  induction w generalizing start pos s with
  | nil => simpa [orderedPieces] using InOrder.anyPiece (InOrder.nil pos) hle
  | cons x w ih =>
    cases x with
    | any => exact ih start (pos + 1) s.tail (by omega)
    | stop => simpa [orderedPieces] using InOrder.anyPiece (InOrder.nil pos) hle
    | char c =>
      exact InOrder.anyPiece ((ih (pos + 1) (pos + 1) s.tail (le_refl _)).later (by omega)) hle
    | run =>
      exact InOrder.anyPiece (InOrder.found (fun n => ih _ _ (s.drop n) (le_refl _)) _) hle
    | all =>
      exact InOrder.anyPiece (InOrder.found (fun n => ih _ _ (s.drop n) (le_refl _)) _) hle

/-- By where they begin, an empty piece first. -/
def Before (e e' : MatchElement) : Prop := e.str < e'.str ∨ e.str = e'.str ∧ e.len ≤ e'.len

theorem Before.antisymm {e e' : MatchElement} (h : Before e e') (h' : Before e' e) : e = e' := by
  have hstr : e.str = e'.str := by
    unfold Before at h h'
    omega
  have hlen : e.len = e'.len := by
    unfold Before at h h'
    omega
  cases e
  cases e'
  simp_all

theorem pairwise_before {es : List MatchElement} (h : es.IsChain Before) : es.Pairwise Before := by
  have htrans : IsTrans MatchElement Before :=
    ⟨fun a b c hab hbc => by unfold Before at *; omega⟩
  exact h.pairwise

theorem isChain_imp₂ {α : Type*} {R S T : α → α → Prop} (h : ∀ a b, R a b → S a b → T a b)
    {es : List α} (hr : es.IsChain R) (hs : es.IsChain S) : es.IsChain T := by
  induction es with
  | nil => exact List.IsChain.nil
  | cons a es ih =>
    cases es with
    | nil => exact List.IsChain.singleton a
    | cons b es =>
      obtain ⟨hr1, hr2⟩ := List.isChain_cons_cons.mp hr
      obtain ⟨hs1, hs2⟩ := List.isChain_cons_cons.mp hs
      exact List.IsChain.cons_cons (h a b hr1 hs1) (ih hr2 hs2)

/-- Sorted with the empty pieces first, the pieces of a match are in the order of the pattern. -/
theorem mgSort_matched (cs : Bool) (w : List PatternItem) (s : List Byte)
    (h : EmptyFirst (mgSort matchCompare (matchedPieces cs w 0 0 s))) :
    mgSort matchCompare (matchedPieces cs w 0 0 s) = orderedPieces cs w 0 0 s := by
  have hsorted : (mgSort matchCompare (matchedPieces cs w 0 0 s)).Pairwise (fun e e' => e.str ≤ e'.str) :=
    mgSort_sorted matchCompare_key (matchedPieces cs w 0 0 s)
  have hleft : (mgSort matchCompare (matchedPieces cs w 0 0 s)).Pairwise Before := by
    apply pairwise_before
    refine isChain_imp₂ ?_ hsorted.isChain h
    intro e e' hle hempty
    unfold Before
    omega
  have hright : (orderedPieces cs w 0 0 s).Pairwise Before := by
    refine (orderedPieces_inOrder cs w 0 0 s (le_refl 0)).disjoint.imp ?_
    intro e e' hle
    unfold Before
    omega
  exact ((mgSort_perm matchCompare _).trans (orderedPieces_perm cs w 0 0 s).symm).eq_of_pairwise
    (fun e e' _ _ hee hee' => hee.antisymm hee') hleft hright

/-! ### Runs of wildcards -/

def closeRun : Option Nat → Nat → List MatchElement
  | some a, pos => [⟨a, pos - a⟩]
  | none, _ => []

def foundRuns (g : Nat → List MatchElement) : Option (Nat × Nat) → List MatchElement
  | some (len, _) => g len
  | none => []

/-- What the maximal runs of wildcards read; `since` is where the run at `pos` began, if there is one. -/
def wildcardRuns (cs : Bool) : List PatternItem → Option Nat → Nat → List Byte → List MatchElement
  | [], since, pos, _ => closeRun since pos
  | .any :: w, since, pos, s => wildcardRuns cs w (some (since.getD pos)) (pos + 1) s.tail
  | .stop :: _, since, pos, _ => closeRun since pos
  | .char _ :: w, since, pos, s => closeRun since pos ++ wildcardRuns cs w none (pos + 1) s.tail
  | .run :: w, since, pos, s =>
    foundRuns (fun n => wildcardRuns cs w (some (since.getD pos)) (pos + n) (s.drop n))
      (longestFirst (fun n => longest (itemsLanguage cs w) (s.drop n))
        (s.takeWhile (· != SLASH)).length)
  | .all :: w, since, pos, s =>
    foundRuns (fun n => wildcardRuns cs w (some (since.getD pos)) (pos + n) (s.drop n))
      (longestFirst (fun n => longest (itemsLanguage cs w) (s.drop n)) s.length)

theorem orderedPieces_head (cs : Bool) (w : List PatternItem) (start pos : Nat) (s : List Byte)
    (hlt : start < pos) : ∃ len es, orderedPieces cs w start pos s = ⟨start, len⟩ :: es := by
  have hopen : ∀ es, ∃ len es', anyPiece start pos ++ es = ⟨start, len⟩ :: es' := by
    intro es
    rw [anyPiece, if_pos hlt]
    exact ⟨_, _, rfl⟩
  induction w generalizing pos s with
  | nil => simpa [orderedPieces] using hopen []
  | cons x w ih =>
    cases x with
    | any =>
      refine ih (pos + 1) s.tail (by omega) ?_
      intro es
      rw [anyPiece, if_pos (by omega)]
      exact ⟨_, _, rfl⟩
    | stop => simpa [orderedPieces] using hopen []
    | char c => exact hopen _
    | run => exact hopen _
    | all => exact hopen _

/-- A run that is open takes the piece of its `?` in. -/
theorem joinMatches_open (a start pos : Nat) (es : List MatchElement) (ha : a ≤ start)
    (hle : start ≤ pos) :
    joinMatches (⟨a, start - a⟩ :: (anyPiece start pos ++ es)) =
      joinMatches (⟨a, pos - a⟩ :: es) := by
  unfold anyPiece
  split_ifs with h
  · rw [List.singleton_append, joinMatches, if_pos (by dsimp only; omega)]
    dsimp only
    rw [show start - a + (pos - start) = pos - a by omega]
  · obtain rfl : start = pos := by omega
    rfl

/-- The piece of a star goes on with the run that is open, or begins one. -/
theorem joinMatches_found {es runs : List MatchElement} {pos l : Nat}
    (a start : Nat) (ha : a ≤ start) (hle : start ≤ pos)
    (hrest : joinMatches (⟨a, pos + l - a⟩ :: es) = runs) :
    joinMatches (⟨a, start - a⟩ :: (anyPiece start pos ++ ⟨pos, l⟩ :: es)) = runs := by
  rw [joinMatches_open a start pos _ ha hle, joinMatches, if_pos (by dsimp only; omega)]
  dsimp only
  rw [show pos - a + l = pos + l - a by omega]
  exact hrest

theorem joinMatches_end (a start pos : Nat) (ha : a ≤ start) (hle : start ≤ pos) :
    joinMatches (⟨a, start - a⟩ :: anyPiece start pos) = [⟨a, pos - a⟩] := by
  have h := joinMatches_open a start pos [] ha hle
  rw [List.append_nil] at h
  rw [h, joinMatches]

theorem read_any {cs : Bool} {w : List PatternItem} {s : List Byte} {r : Nat}
    (h : longest (itemsLanguage cs (.any :: w)) s = some r) :
    ∃ d s' k, s = d :: s' ∧ longest (itemsLanguage cs w) s' = some k ∧ r = k + 1 := by
  cases s with
  | nil => simp [itemsLanguage, PatternItem.meaning, longest] at h
  | cons d s =>
    by_cases hd : d = SLASH
    · simp [itemsLanguage, PatternItem.meaning, longest, hd] at h
    · obtain ⟨k, hk, hr⟩ : ∃ k, longest (itemsLanguage cs w) s = some k ∧ k + 1 = r := by
        simpa [itemsLanguage, PatternItem.meaning, longest, hd] using h
      exact ⟨d, s, k, rfl, hk, hr.symm⟩

theorem read_char {cs : Bool} {c : Byte} {w : List PatternItem} {s : List Byte} {r : Nat}
    (h : longest (itemsLanguage cs (.char c :: w)) s = some r) :
    ∃ d s' k, s = d :: s' ∧ sameChar cs c d = true ∧ longest (itemsLanguage cs w) s' = some k ∧
      r = k + 1 := by
  cases s with
  | nil => simp [itemsLanguage, PatternItem.meaning, longest] at h
  | cons d s =>
    by_cases hsame : sameChar cs c d = true
    · obtain ⟨k, hk, hr⟩ : ∃ k, longest (itemsLanguage cs w) s = some k ∧ k + 1 = r := by
        simpa [itemsLanguage, PatternItem.meaning, longest, hsame] using h
      exact ⟨d, s, k, rfl, hsame, hk, hr.symm⟩
    · simp [itemsLanguage, PatternItem.meaning, longest, hsame] at h

theorem read_star {cs : Bool} {p : Byte → Bool} {w : List PatternItem} {s : List Byte} {r : Nat}
    (h : longest (.many p :: itemsLanguage cs w) s = some r) :
    ∃ l k, longestFirst (fun n => longest (itemsLanguage cs w) (s.drop n)) (s.takeWhile p).length =
        some (l, k) ∧ l ≤ s.length ∧ longest (itemsLanguage cs w) (s.drop l) = some k ∧ r = l + k := by
  rw [longest] at h
  obtain ⟨⟨l, k⟩, hfound, hr⟩ := Option.map_eq_some_iff.mp h
  obtain ⟨hl, hk, _⟩ := longestFirst_some hfound
  exact ⟨l, k, hfound, hl.trans (List.takeWhile_prefix p).length_le, hk, hr.symm⟩

/-- Joining the pieces of a match gives what the runs of wildcards read. -/
theorem joinMatches_ordered (cs : Bool) (w : List PatternItem) (pos : Nat) (s : List Byte) (r : Nat)
    (hread : longest (itemsLanguage cs w) s = some r) :
    (∀ a start, a ≤ start → start ≤ pos →
      joinMatches (⟨a, start - a⟩ :: orderedPieces cs w start pos s) =
        wildcardRuns cs w (some a) pos s) ∧
    joinMatches (orderedPieces cs w pos pos s) = wildcardRuns cs w none pos s := by
  induction w generalizing pos s r with
  | nil =>
    refine ⟨fun a start ha hle => joinMatches_end a start pos ha hle, ?_⟩
    simp [orderedPieces, wildcardRuns, closeRun, joinMatches]
  | cons x w ih =>
    cases x with
    | any =>
      obtain ⟨d, s, k, rfl, hk, rfl⟩ := read_any hread
      obtain ⟨hopen, _⟩ := ih (pos + 1) s k hk
      refine ⟨fun a start ha hle => hopen a start ha (by omega), ?_⟩
      -- the first `?` opens a run, which its piece then fills
      obtain ⟨len, es, hhead⟩ := orderedPieces_head cs w pos (pos + 1) s (by omega)
      have hfill := hopen pos pos (le_refl _) (by omega)
      rw [hhead, joinMatches, if_pos (by dsimp only; omega)] at hfill
      dsimp only at hfill
      rw [Nat.sub_self, Nat.zero_add, ← hhead] at hfill
      exact hfill
    | stop =>
      refine ⟨fun a start ha hle => joinMatches_end a start pos ha hle, ?_⟩
      simp [orderedPieces, wildcardRuns, closeRun, joinMatches]
    | char c =>
      obtain ⟨d, s, k, rfl, _, hk, rfl⟩ := read_char hread
      obtain ⟨_, hclosed⟩ := ih (pos + 1) s k hk
      constructor
      · intro a start ha hle
        rw [orderedPieces, joinMatches_open a start pos _ ha hle, joinMatches_cons, List.tail_cons,
          hclosed]
        · rfl
        · intro e he
          have hin := (orderedPieces_inOrder cs w (pos + 1) (pos + 1) s (le_refl _)).from_start e
            (List.mem_of_mem_head? he)
          dsimp only
          omega
      · simpa [orderedPieces, wildcardRuns, closeRun] using hclosed
    | run =>
      obtain ⟨l, k, hfound, _, hk, rfl⟩ := read_star hread
      obtain ⟨hopen, _⟩ := ih (pos + l) (s.drop l) k hk
      simp only [orderedPieces, wildcardRuns, hfound, orderedFound, foundRuns, Option.getD_some,
        Option.getD_none, anyPiece_self, List.nil_append]
      refine ⟨fun a start ha hle => joinMatches_found a start ha hle ?_, ?_⟩
      · exact hopen a (pos + l) (by omega) (le_refl _)
      · simpa using hopen pos (pos + l) (by omega) (le_refl _)
    | all =>
      obtain ⟨l, k, hfound, _, hk, rfl⟩ := read_star hread
      rw [takeWhile_true] at hfound
      obtain ⟨hopen, _⟩ := ih (pos + l) (s.drop l) k hk
      simp only [orderedPieces, wildcardRuns, hfound, orderedFound, foundRuns, Option.getD_some,
        Option.getD_none, anyPiece_self, List.nil_append]
      refine ⟨fun a start ha hle => joinMatches_found a start ha hle ?_, ?_⟩
      · exact hopen a (pos + l) (by omega) (le_refl _)
      · simpa using hopen pos (pos + l) (by omega) (le_refl _)

/-! ### The text in the holes -/

theorem sameText_refl (cs : Bool) (s : List Byte) : sameText cs s s := by
  unfold sameText
  split_ifs <;> rfl

theorem sameText.append {cs : Bool} {s t s' t' : List Byte} (h : sameText cs s t)
    (h' : sameText cs s' t') : sameText cs (s ++ s') (t ++ t') := by
  unfold sameText at *
  split_ifs with hc
  · rw [if_pos hc] at h h'
    rw [h, h']
  · rw [if_neg hc] at h h'
    rw [List.map_append, List.map_append, h, h']

theorem sameText_char {cs : Bool} {c d : Byte} (h : sameChar cs c d = true) :
    sameText cs [c] [d] := by
  unfold sameText
  cases cs <;> simpa [sameChar] using h

theorem sameText.length {cs : Bool} {s t : List Byte} (h : sameText cs s t) :
    s.length = t.length := by
  unfold sameText at h
  split_ifs at h
  · rw [h]
  · simpa using congrArg List.length h

@[simp] theorem holeCons_holeCons (h : List (Option Byte)) : holeCons (holeCons h) = holeCons h := by
  match h with
  | [] => rfl
  | none :: _ => rfl
  | some _ :: _ => rfl

theorem pieceText_run {str t s : List Byte} {a pos : Nat} (ht : str.drop a = t ++ s)
    (hpos : a + t.length = pos) : pieceText str ⟨a, pos - a⟩ = t := by
  rw [pieceText, ht, show pos - a = t.length by omega, List.take_left]

/-- What holds with a run open behind a star's text holds with the text in the run. -/
theorem openRun_extend {cs : Bool} {str s : List Byte} {pos l k : Nat} {P : Nat → Prop}
    {text : Nat → List Byte} (hl : l ≤ s.length)
    (hopen : ∀ a t, str.drop a = t ++ s.drop l → a + t.length = pos + l →
      P a ∧ sameText cs (text a) (t ++ (s.drop l).take k)) :
    (∀ a t, str.drop a = t ++ s → a + t.length = pos →
      P a ∧ sameText cs (text a) (t ++ s.take (l + k))) ∧
    (str.drop pos = s → P pos ∧ sameText cs (text pos) (s.take (l + k))) := by
  have hgeneral : ∀ a t, str.drop a = t ++ s → a + t.length = pos →
      P a ∧ sameText cs (text a) (t ++ s.take (l + k)) := by
    intro a t ht hpos
    have h := hopen a (t ++ s.take l) (by rw [ht, List.append_assoc, List.take_append_drop])
      (by rw [List.length_append, List.length_take]; omega)
    rw [List.append_assoc, ← List.take_add] at h
    exact h
  exact ⟨hgeneral, fun ht => hgeneral pos [] ht rfl⟩

/-- What the runs of wildcards read, put into the pattern, gives the text that is read. -/
theorem fillHoles_runs (cs : Bool) (str : List Byte) (w : List PatternItem) (pos : Nat)
    (s : List Byte) (r : Nat) (hread : longest (itemsLanguage cs w) s = some r) :
    (∀ a t, str.drop a = t ++ s → a + t.length = pos →
      (wildcardRuns cs w (some a) pos s).length = (holeCons (patternHoles w)).count none ∧
      sameText cs (fillHoles (holeCons (patternHoles w))
        ((wildcardRuns cs w (some a) pos s).map (pieceText str))) (t ++ s.take r)) ∧
    (str.drop pos = s →
      (wildcardRuns cs w none pos s).length = (patternHoles w).count none ∧
      sameText cs (fillHoles (patternHoles w)
        ((wildcardRuns cs w none pos s).map (pieceText str))) (s.take r)) := by
  induction w generalizing pos s r with
  | nil =>
    obtain rfl : 0 = r := by simpa [itemsLanguage, longest] using hread
    refine ⟨fun a t ht hpos => ⟨rfl, ?_⟩, fun _ => ⟨rfl, sameText_refl cs []⟩⟩
    simpa [wildcardRuns, closeRun, patternHoles, holeCons, fillHoles, pieceText_run ht hpos] using
      sameText_refl cs t
  | cons x w ih =>
    cases x with
    | any =>
      obtain ⟨d, s, k, rfl, hk, rfl⟩ := read_any hread
      obtain ⟨hopen, _⟩ := ih (pos + 1) s k hk
      simp only [wildcardRuns, patternHoles, holeCons_holeCons, List.tail_cons, Option.getD_some,
        Option.getD_none]
      constructor
      · intro a t ht hpos
        have h := hopen a (t ++ [d]) (by simpa using ht) (by simp; omega)
        simpa using h
      · intro ht
        have h := hopen pos [d] ht (by simp)
        simpa using h
    | stop =>
      have hr : r = 0 := by
        cases s <;> simp_all [itemsLanguage, PatternItem.meaning, longest]
      subst hr
      refine ⟨fun a t ht hpos => ⟨rfl, ?_⟩, fun _ => ⟨rfl, sameText_refl cs []⟩⟩
      simpa [wildcardRuns, closeRun, patternHoles, holeCons, fillHoles, pieceText_run ht hpos] using
        sameText_refl cs t
    | char c =>
      obtain ⟨d, s, k, rfl, hsame, hk, rfl⟩ := read_char hread
      obtain ⟨_, hclosed⟩ := ih (pos + 1) s k hk
      simp only [wildcardRuns, patternHoles, List.tail_cons]
      have hchar : ∀ rest, sameText cs rest (s.take k) →
          sameText cs (c :: rest) ((d :: s).take (k + 1)) :=
        fun rest h => (sameText_char hsame).append h
      constructor
      · intro a t ht hpos
        have hdrop : str.drop (pos + 1) = s := by
          have := congrArg (List.drop (t.length + 1)) ht
          rw [List.drop_drop, show a + (t.length + 1) = pos + 1 by omega] at this
          simpa using this
        obtain ⟨hcount, htext⟩ := hclosed hdrop
        refine ⟨?_, ?_⟩
        · simp [closeRun, holeCons, hcount]
        · have h := (sameText_refl cs t).append (hchar _ htext)
          simpa [closeRun, holeCons, fillHoles, pieceText_run ht hpos] using h
      · intro ht
        have hdrop : str.drop (pos + 1) = s := by
          rw [← List.drop_drop, ht]
          rfl
        obtain ⟨hcount, htext⟩ := hclosed hdrop
        exact ⟨by simpa [closeRun] using hcount, hchar _ htext⟩
    | run =>
      obtain ⟨l, k, hfound, hl, hk, rfl⟩ := read_star hread
      obtain ⟨hopen, _⟩ := ih (pos + l) (s.drop l) k hk
      simp only [wildcardRuns, hfound, foundRuns, patternHoles, holeCons_holeCons,
        Option.getD_some, Option.getD_none]
      exact openRun_extend hl hopen
    | all =>
      obtain ⟨l, k, hfound, hl, hk, rfl⟩ := read_star hread
      rw [takeWhile_true] at hfound
      obtain ⟨hopen, _⟩ := ih (pos + l) (s.drop l) k hk
      simp only [wildcardRuns, hfound, foundRuns, patternHoles, holeCons_holeCons,
        Option.getD_some, Option.getD_none]
      exact openRun_extend hl hopen

theorem closeRun_inside {since : Option Nat} {pos : Nat} (h : ∀ a ∈ since, a ≤ pos) :
    ∀ e ∈ closeRun since pos, e.str + e.len ≤ pos := by
  cases since with
  | none => simp [closeRun]
  | some a =>
    have ha := h a rfl
    intro e he
    obtain rfl := List.mem_singleton.mp he
    dsimp only
    omega

theorem wildcardRuns_inside (cs : Bool) (w : List PatternItem) (since : Option Nat) (pos : Nat)
    (s : List Byte) (r : Nat) (hread : longest (itemsLanguage cs w) s = some r)
    (hsince : ∀ a ∈ since, a ≤ pos) :
    ∀ e ∈ wildcardRuns cs w since pos s, e.str + e.len ≤ pos + r := by
  induction w generalizing since pos s r with
  | nil => exact fun e he => (closeRun_inside hsince e he).trans (Nat.le_add_right pos r)
  | cons x w ih =>
    have hopen : ∀ n, ∀ a ∈ some (since.getD pos), a ≤ pos + n := by
      rintro n a ⟨⟩
      cases since with
      | none => exact Nat.le_add_right pos n
      | some b => exact (hsince b rfl).trans (Nat.le_add_right pos n)
    cases x with
    | any =>
      obtain ⟨d, s, k, rfl, hk, rfl⟩ := read_any hread
      intro e he
      have := ih _ (pos + 1) s k hk (hopen 1) e he
      omega
    | stop => exact fun e he => (closeRun_inside hsince e he).trans (Nat.le_add_right pos r)
    | char c =>
      obtain ⟨d, s, k, rfl, _, hk, rfl⟩ := read_char hread
      intro e he
      rcases List.mem_append.mp he with he | he
      · exact (closeRun_inside hsince e he).trans (Nat.le_add_right pos _)
      · have := ih none (pos + 1) s k hk (by simp) e he
        omega
    | run =>
      obtain ⟨l, k, hfound, _, hk, rfl⟩ := read_star hread
      intro e he
      rw [wildcardRuns, hfound] at he
      have := ih _ (pos + l) (s.drop l) k hk (hopen l) e he
      omega
    | all =>
      obtain ⟨l, k, hfound, _, hk, rfl⟩ := read_star hread
      rw [takeWhile_true] at hfound
      intro e he
      rw [wildcardRuns, hfound] at he
      have := ih _ (pos + l) (s.drop l) k hk (hopen l) e he
      omega

end CivetWeb.Match
