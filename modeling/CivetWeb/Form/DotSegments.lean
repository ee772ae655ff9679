import CivetWeb.Http.Uri

namespace CivetWeb

/-- Takes the last segment and the slash before it off an output that is kept reversed. -/
def removeLastSegment (out : List Byte) : List Byte := (out.dropWhile (· != SLASH)).tail

/-- Step 2 of `remove_dot_segments`; every turn shortens the input `s`. -/
def dotSegmentsLoop : Nat → List Byte → List Byte → List Byte
  | 0, out, _ => out
  | _, out, [] => out
  | n + 1, out, c :: s =>
    let text := c :: s
    if (ascii "../").isPrefixOf text then dotSegmentsLoop n out (text.drop 3)
    else if (ascii "./").isPrefixOf text then dotSegmentsLoop n out (text.drop 2)
    else if (ascii "/./").isPrefixOf text then dotSegmentsLoop n out (text.drop 2)
    else if text = ascii "/." then dotSegmentsLoop n out [SLASH]
    else if (ascii "/../").isPrefixOf text then
      dotSegmentsLoop n (removeLastSegment out) (text.drop 3)
    else if text = ascii "/.." then dotSegmentsLoop n (removeLastSegment out) [SLASH]
    else if text = ascii "." ∨ text = ascii ".." then dotSegmentsLoop n out []
    else
      -- the first segment, with its leading slash
      dotSegmentsLoop n ((s.takeWhile (· != SLASH)).reverse ++ c :: out)
        (s.dropWhile (· != SLASH))

/-- The second loop of `remove_dot_segments`: no dot before a slash or at the end, and no
two slashes in a row. -/
def trailingDotsLoop : Nat → List Byte → List Byte → List Byte
  | 0, out, _ => out
  | _, out, [] => out
  | n + 1, out, c :: s =>
    if c = DOT then
      let dots := c :: s.takeWhile (· == DOT)
      let ahead := s.dropWhile (· == DOT)
      if deref ahead = SLASH then
        trailingDotsLoop n (if deref out = SLASH then out.tail else out) ahead
      else if ahead = [] then out
      else trailingDotsLoop n (dots ++ out) ahead
    else if c = SLASH then trailingDotsLoop n (SLASH :: out) (s.dropWhile (· == SLASH))
    else trailingDotsLoop n (c :: out) s

/-- `remove_dot_segments` on a C string given without its NUL. -/
def removeDotSegments (s : List Byte) : List Byte :=
  let s := s.map (fun c => if c = 92 then SLASH else c)
  let s := (dotSegmentsLoop s.length [] s).reverse
  (trailingDotsLoop s.length [] s).reverse

/-- A file name without directories that does not end with a dot. -/
structure PlainFile (s : List Byte) : Prop where
  no_slash : SLASH ∉ s
  no_backslash : (92 : Byte) ∉ s
  last : s.getLast? ≠ some DOT

theorem dotSegmentsLoop_plain (n : Nat) (s : List Byte) (h : PlainFile s) (hn : s.length ≤ n) :
    dotSegmentsLoop n [] s = s.reverse := by
  cases n with
  | zero =>
    obtain rfl := List.eq_nil_of_length_eq_zero (by omega : s.length = 0)
    rfl
  | succ n =>
    cases s with
    | nil => rfl
    | cons c s =>
      have hno : ∀ (p : String), SLASH ∈ ascii p → ¬ (ascii p).isPrefixOf (c :: s) = true := by
        intro p hp hpre
        exact h.no_slash ((List.isPrefixOf_iff_prefix.mp hpre).subset hp)
      have hne : ∀ (p : String), SLASH ∈ ascii p → c :: s ≠ ascii p := by
        intro p hp heq
        exact h.no_slash (heq ▸ hp)
      have hdots : ∀ (p : String), (ascii p).getLast? = some DOT → c :: s ≠ ascii p := by
        intro p hp heq
        exact h.last (heq ▸ hp)
      have hrun : ∀ a ∈ s, (a != SLASH) = true := by
        intro a ha
        rw [bne_iff_ne]
        rintro rfl
        exact h.no_slash (List.mem_cons_of_mem c ha)
      rw [dotSegmentsLoop, if_neg (hno "../" (by decide)), if_neg (hno "./" (by decide)),
        if_neg (hno "/./" (by decide)), if_neg (hne "/." (by decide)),
        if_neg (hno "/../" (by decide)), if_neg (hne "/.." (by decide)),
        if_neg (not_or.mpr ⟨hdots "." (by decide), hdots ".." (by decide)⟩),
        List.takeWhile_eq_self_iff.mpr hrun, List.dropWhile_eq_nil_iff.mpr hrun]
      cases n <;> simp [dotSegmentsLoop]

theorem trailingDotsLoop_plain (n : Nat) (out s : List Byte) (hslash : SLASH ∉ s)
    (hlast : s.getLast? ≠ some DOT) (hn : s.length ≤ n) :
    trailingDotsLoop n out s = s.reverse ++ out := by
  induction n generalizing out s with
  | zero =>
    obtain rfl := List.eq_nil_of_length_eq_zero (by omega : s.length = 0)
    rfl
  | succ n ih =>
    cases s with
    | nil => rfl
    | cons c s =>
      have hs : SLASH ∉ s := fun h => hslash (List.mem_cons_of_mem c h)
      have hlen : s.length ≤ n := by simpa using hn
      rw [trailingDotsLoop]
      by_cases hc : c = DOT
      · rw [if_pos hc]
        dsimp only
        obtain ⟨dots, hdots⟩ : ∃ dots, dots = s.takeWhile (· == DOT) := ⟨_, rfl⟩
        obtain ⟨ahead, hahead⟩ : ∃ ahead, ahead = s.dropWhile (· == DOT) := ⟨_, rfl⟩
        have hsplit : s = dots ++ ahead := by
          rw [hdots, hahead, List.takeWhile_append_dropWhile]
        have hall : ∀ a ∈ dots, a = DOT := by
          intro a ha
          rw [hdots] at ha
          simpa using Scan.takeWhile_all (· == DOT) s a ha
        have hrep : dots = List.replicate dots.length DOT := List.eq_replicate_iff.mpr ⟨rfl, hall⟩
        have hrev : dots.reverse = dots := by
          rw [hrep, List.reverse_replicate]
        rw [← hdots, ← hahead]
        cases hah : ahead with
        | nil =>
          have hend : (c :: s).getLast? = some DOT := by
            rw [hsplit, hah, List.append_nil, hrep, hc, ← List.replicate_succ,
              List.getLast?_replicate, if_neg (Nat.succ_ne_zero _)]
          exact absurd hend hlast
        | cons b t =>
          have hb : b ≠ SLASH := by
            rintro rfl
            exact hs (by rw [hsplit, hah]; simp)
          have hlast' : (b :: t).getLast? ≠ some DOT := by
            rw [hsplit, hah, ← List.cons_append, List.getLast?_append] at hlast
            simpa using hlast
          have hslash' : SLASH ∉ b :: t := by
            intro hm
            exact hs (by rw [hsplit, hah]; exact List.mem_append_right dots hm)
          have hshort : (b :: t).length ≤ n := by
            rw [hsplit, hah, List.length_append] at hlen
            omega
          have hswap : dots ++ [c] = c :: dots := by
            rw [hc, hrep, ← List.replicate_succ, ← List.replicate_succ']
          rw [deref_cons, if_neg hb, if_neg (List.cons_ne_nil b t), ih _ _ hslash' hlast' hshort,
            ← hswap, hsplit, hah]
          simp [hrev]
      · have hcs : c ≠ SLASH := by
          rintro rfl
          exact hslash (by simp)
        have hlast' : s.getLast? ≠ some DOT := by
          cases s with
          | nil => simp
          | cons b t => simpa using hlast
        rw [if_neg hc, if_neg hcs, ih _ _ hs hlast' hlen]
        simp

theorem removeDotSegments_plain (s : List Byte) (h : PlainFile s) : removeDotSegments s = s := by
  have hmap : s.map (fun c => if c = 92 then SLASH else c) = s := by
    have hid : ∀ c ∈ s, (if c = 92 then SLASH else c) = id c := by
      intro c hc
      have hne : c ≠ 92 := by
        rintro rfl
        exact h.no_backslash hc
      exact if_neg hne
    rw [List.map_congr_left hid, List.map_id]
  rw [removeDotSegments, hmap, dotSegmentsLoop_plain _ s h (Nat.le_refl _), List.reverse_reverse,
    trailingDotsLoop_plain _ [] s h.no_slash h.last (Nat.le_refl _)]
  simp

end CivetWeb
