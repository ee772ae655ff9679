import CivetWeb.Form.DotSegments
import CivetWeb.Lib.Segments

namespace CivetWeb

open Segments

/-- `\` taken for `/`. -/
def forwardSlashes (s : List Byte) : List Byte := s.map (fun c => if c = 92 then SLASH else c)

/-- The segments that are left when `.` goes and `..` takes the one before it along; `done` holds those
so far, the last in front. At the end, both leave an empty segment. -/
def resolveSegments : List (List Byte) → List (List Byte) → List (List Byte)
  | done, [] => done.reverse
  | done, [x] =>
    (if x = ascii "." then [] :: done else if x = ascii ".." then [] :: done.tail else x :: done).reverse
  | done, x :: y :: xs =>
    resolveSegments
      (if x = ascii "." then done else if x = ascii ".." then done.tail else x :: done) (y :: xs)

/-- Every segment behind a slash. -/
def rooted (xs : List (List Byte)) : List Byte := xs.flatMap (fun x => SLASH :: x)

/-- What `remove_dot_segments` is for, on a path that begins with a slash. -/
def safePath (s : List Byte) : List Byte :=
  collapse SLASH
    (rooted ((resolveSegments [] ((forwardSlashes s).tail.splitOn SLASH)).map (stripEnd DOT)))

/-! ### The second loop -/

theorem deref_eq_head (s : List Byte) {c : Byte} (hc : c ≠ NUL) : deref s = c ↔ s.head? = some c := by
  cases s with
  | nil => simpa using hc.symm
  | cons b s => simp

theorem trailingDots_slash (n : Nat) (out u : List Byte) (hn : u.length + 1 ≤ n)
    (hout : NoDouble SLASH out.reverse)
    (ih : ∀ out s : List Byte, s.length ≤ n → NoDouble SLASH out.reverse →
      ¬ (deref out = SLASH ∧ deref s = SLASH) →
      trailingDotsLoop n out s = (collapse SLASH (out.reverse ++ strip SLASH DOT s)).reverse) :
    trailingDotsLoop n (if deref out = SLASH then out.tail else out) (SLASH :: u) =
      (collapse SLASH (out.reverse ++ SLASH :: strip SLASH DOT u)).reverse := by
  by_cases hend : deref out = SLASH
  · obtain ⟨o, rfl⟩ : ∃ o, out = SLASH :: o := by
      cases out with
      | nil => exact absurd hend (by decide)
      | cons b o => exact ⟨o, by rw [show b = SLASH from hend]⟩
    rw [List.reverse_cons, noDouble_concat, List.getLast?_reverse] at hout
    have ho : ¬ (deref o = SLASH ∧ deref (SLASH :: u) = SLASH) := by
      rw [deref_eq_head o (by decide)]
      exact fun h => hout.2 ⟨h.1, rfl⟩
    rw [if_pos hend, List.tail_cons, ih o (SLASH :: u) (by simpa using hn) hout.1 ho, strip_sep,
      List.reverse_cons, List.append_assoc, List.singleton_append, collapse_append_sep]
  · rw [if_neg hend, ih out (SLASH :: u) (by simpa using hn) hout (fun h => hend h.1), strip_sep]

/-- Dots that a slash or the end follows go, and so do slashes but the first. -/
theorem trailingDotsLoop_eq (n : Nat) (out s : List Byte) (hn : s.length ≤ n)
    (hout : NoDouble SLASH out.reverse) (hslash : ¬ (deref out = SLASH ∧ deref s = SLASH)) :
    trailingDotsLoop n out s =
      (collapse SLASH (out.reverse ++ strip SLASH DOT s)).reverse := by
  have hdone : ∀ out : List Byte, NoDouble SLASH out.reverse →
      (collapse SLASH (out.reverse ++ strip SLASH DOT [])).reverse = out := by
    intro out h
    rw [strip_nil, List.append_nil, collapse_self h, List.reverse_reverse]
  induction n generalizing out s with
  | zero =>
    obtain rfl := List.eq_nil_of_length_eq_zero (by omega : s.length = 0)
    exact (hdone out hout).symm
  | succ n ih =>
    cases s with
    | nil => exact (hdone out hout).symm
    | cons c s =>
      have hlen : s.length ≤ n := by simpa using hn
      rw [trailingDotsLoop]
      by_cases hc : c = DOT
      · subst hc
        obtain ⟨k, hk⟩ : ∃ k, s.takeWhile (· == DOT) = List.replicate k DOT :=
          ⟨_, List.eq_replicate_iff.mpr ⟨rfl, fun a ha => by
            simpa using Scan.takeWhile_all (· == DOT) s a ha⟩⟩
        obtain ⟨ahead, hahead⟩ : ∃ ahead, ahead = s.dropWhile (· == DOT) := ⟨_, rfl⟩
        have hsplit : DOT :: s = List.replicate (k + 1) DOT ++ ahead := by
          rw [hahead, List.replicate_succ, List.cons_append, ← hk, List.takeWhile_append_dropWhile]
        have hshort : ahead.length ≤ n := by
          rw [hahead]
          exact (List.dropWhile_suffix _).length_le.trans hlen
        rw [if_pos rfl, hk, ← hahead, hsplit, strip_run (by decide)]
        dsimp only
        cases ahead with
        | nil =>
          rw [if_neg (by decide), if_pos rfl, if_pos (Or.inl strip_nil)]
          exact (hdone out hout).symm
        | cons b t =>
          have hb : b ≠ DOT := by
            simpa using Scan.head_dropWhile (· == DOT) s b (by rw [← hahead]; rfl)
          rw [deref_cons]
          by_cases hbs : b = SLASH
          · subst hbs
            rw [if_pos rfl, trailingDots_slash n out t (by simpa using hshort) hout ih, strip_sep,
              if_pos (Or.inr List.head?_cons)]
          · have hnot : ¬ (strip SLASH DOT (b :: t) = [] ∨
                (strip SLASH DOT (b :: t)).head? = some SLASH) := by
              rw [strip_cons hbs, if_neg (fun h => hb h.1)]
              rintro (h | h)
              · cases h
              · exact hbs (Option.some.inj h)
            have hrev : (DOT :: List.replicate k DOT ++ out).reverse =
                out.reverse ++ List.replicate (k + 1) DOT := by
              rw [← List.replicate_succ, List.reverse_append, List.reverse_replicate]
            have hpush : NoDouble SLASH (DOT :: List.replicate k DOT ++ out).reverse := by
              rw [hrev]
              refine hout.append (fun h => ?_)
              exact absurd (List.eq_of_mem_replicate h) (by decide)
            rw [if_neg hbs, if_neg (List.cons_ne_nil b t), if_neg hnot,
              ih _ (b :: t) hshort hpush (fun h => hbs h.2), hrev, List.append_assoc]
      · rw [if_neg hc]
        by_cases hs : c = SLASH
        · subst hs
          have hend : out.reverse.getLast? ≠ some SLASH := by
            rw [List.getLast?_reverse]
            exact fun h => hslash ⟨(deref_eq_head out (by decide)).mpr h, rfl⟩
          have hpush : NoDouble SLASH (SLASH :: out).reverse := by
            rw [List.reverse_cons, noDouble_concat]
            exact ⟨hout, fun h => hend h.1⟩
          have hnext : deref (s.dropWhile (· == SLASH)) ≠ SLASH := by
            cases hd : s.dropWhile (· == SLASH) with
            | nil => decide
            | cons b t => simpa using Scan.head_dropWhile (· == SLASH) s b (by rw [hd]; rfl)
          rw [if_pos rfl, ih (SLASH :: out) _ ((List.dropWhile_suffix _).length_le.trans hlen) hpush
            (fun h => hnext h.2), strip_sep, collapse_strip_dropWhile, List.reverse_cons,
            List.append_assoc]
          rfl
        · have hpush : NoDouble SLASH (c :: out).reverse := by
            rw [List.reverse_cons, noDouble_concat]
            exact ⟨hout, fun h => hs h.2⟩
          rw [if_neg hs, ih (c :: out) s hlen hpush (fun h => hs h.1), strip_cons hs,
            if_neg (fun h => hc h.1), List.reverse_cons, List.append_assoc]
          rfl

/-! ### The first loop -/

@[simp] theorem rooted_nil : rooted [] = [] := rfl

@[simp] theorem rooted_cons (x : List Byte) (xs : List (List Byte)) :
    rooted (x :: xs) = SLASH :: (x ++ rooted xs) := by
  simp [rooted]

theorem rooted_append (xs ys : List (List Byte)) : rooted (xs ++ ys) = rooted xs ++ rooted ys := by
  simp [rooted]

theorem rooted_splitOn (s : List Byte) : rooted (s.splitOn SLASH) = SLASH :: s := by
  have hjoin : ∀ xs : List (List Byte), xs ≠ [] → rooted xs = SLASH :: [SLASH].intercalate xs := by
    intro xs hne
    induction xs with
    | nil => exact absurd rfl hne
    | cons x xs ih =>
      cases xs with
      | nil => simp [List.intercalate]
      | cons y ys => rw [rooted_cons, ih (List.cons_ne_nil y ys), List.intercalate_cons_cons]; simp
  rw [hjoin _ (List.splitOn_ne_nil SLASH s), List.intercalate_splitOn]

theorem takeWhile_rooted (x : List Byte) (xs : List (List Byte)) (hx : SLASH ∉ x) :
    (x ++ rooted xs).takeWhile (· != SLASH) = x ∧
      (x ++ rooted xs).dropWhile (· != SLASH) = rooted xs := by
  have hall : ∀ a ∈ x, (a != SLASH) = true := by
    intro a ha
    rw [bne_iff_ne]
    rintro rfl
    exact hx ha
  cases xs with
  | nil =>
    rw [rooted_nil, List.append_nil]
    exact ⟨List.takeWhile_eq_self_iff.mpr hall, List.dropWhile_eq_nil_iff.mpr hall⟩
  | cons y ys =>
    rw [rooted_cons]
    exact ⟨Scan.takeWhile_stop _ x SLASH _ hall rfl, Scan.dropWhile_stop _ x SLASH _ hall rfl⟩

/-- A segment in front of others is one that is looked for if and only if it is that segment. -/
theorem segment_prefix (p x : List Byte) (xs : List (List Byte)) (hp : SLASH ∉ p) (hx : SLASH ∉ x) :
    (SLASH :: p ++ [SLASH]).isPrefixOf (SLASH :: (x ++ rooted xs)) = true ↔ x = p ∧ xs ≠ [] := by
  rw [List.isPrefixOf_iff_prefix, List.cons_append, List.cons_prefix_cons]
  constructor
  · rintro ⟨_, t, ht⟩
    have htake := (takeWhile_rooted x xs hx).1
    have hdrop := (takeWhile_rooted x xs hx).2
    have hp' : ∀ a ∈ p, (a != SLASH) = true := by
      intro a ha
      rw [bne_iff_ne]
      rintro rfl
      exact hp ha
    rw [← ht, List.append_assoc] at htake hdrop
    rw [List.singleton_append, Scan.takeWhile_stop _ p SLASH t hp' rfl] at htake
    rw [List.singleton_append, Scan.dropWhile_stop _ p SLASH t hp' rfl] at hdrop
    refine ⟨htake.symm, ?_⟩
    rintro rfl
    cases hdrop
  · rintro ⟨rfl, hne⟩
    cases xs with
    | nil => exact absurd rfl hne
    | cons y ys => exact ⟨rfl, y ++ rooted ys, by simp⟩

theorem segment_eq (p x : List Byte) (xs : List (List Byte)) (hp : SLASH ∉ p) :
    SLASH :: (x ++ rooted xs) = SLASH :: p ↔ x = p ∧ xs = [] := by
  constructor
  · intro h
    have htext : x ++ rooted xs = p := List.tail_eq_of_cons_eq h
    cases xs with
    | nil => exact ⟨by simpa using htext, rfl⟩
    | cons y ys =>
      exfalso
      apply hp
      rw [← htext]
      simp
  · rintro ⟨rfl, rfl⟩
    simp

/-- The output so far, with the last segment in front. -/
theorem removeLastSegment_rooted (done : List (List Byte)) (hdone : ∀ x ∈ done, SLASH ∉ x) :
    removeLastSegment (rooted done.reverse).reverse = (rooted done.tail.reverse).reverse := by
  cases done with
  | nil => rfl
  | cons x xs =>
    have hx : SLASH ∉ x.reverse := by simpa using hdone x (by simp)
    have hout : (rooted (x :: xs).reverse).reverse =
        x.reverse ++ SLASH :: (rooted xs.reverse).reverse := by
      rw [List.reverse_cons, rooted_append, List.reverse_append]
      simp
    have hall : ∀ a ∈ x.reverse, (a != SLASH) = true := by
      intro a ha
      rw [bne_iff_ne]
      rintro rfl
      exact hx ha
    rw [removeLastSegment, hout, Scan.dropWhile_stop _ _ SLASH _ hall rfl]
    rfl

theorem rooted_push (x : List Byte) (done : List (List Byte)) :
    (rooted (x :: done).reverse).reverse = x.reverse ++ SLASH :: (rooted done.reverse).reverse := by
  rw [List.reverse_cons, rooted_append, List.reverse_append]
  simp

/-- One turn of the first loop at a segment behind a slash. -/
theorem dotSegmentsLoop_turn (n : Nat) (done : List (List Byte)) (x : List Byte)
    (xs : List (List Byte)) (hdone : ∀ y ∈ done, SLASH ∉ y) (hx : SLASH ∉ x) :
    dotSegmentsLoop (n + 1) (rooted done.reverse).reverse (rooted (x :: xs)) =
      if x = ascii "." then
        dotSegmentsLoop n (rooted done.reverse).reverse (if xs = [] then [SLASH] else rooted xs)
      else if x = ascii ".." then
        dotSegmentsLoop n (rooted done.tail.reverse).reverse (if xs = [] then [SLASH] else rooted xs)
      else dotSegmentsLoop n (rooted (x :: done).reverse).reverse (rooted xs) := by
  have hdot : SLASH ∉ ascii "." := by decide
  have hdots : SLASH ∉ ascii ".." := by decide
  have h1 := segment_prefix (ascii ".") x xs hdot hx
  have h2 := segment_eq (ascii ".") x xs hdot
  have h3 := segment_prefix (ascii "..") x xs hdots hx
  have h4 := segment_eq (ascii "..") x xs hdots
  have hno1 : (ascii "../").isPrefixOf (SLASH :: (x ++ rooted xs)) = false := rfl
  have hno2 : (ascii "./").isPrefixOf (SLASH :: (x ++ rooted xs)) = false := rfl
  have hno3 : ¬ (SLASH :: (x ++ rooted xs) = ascii "." ∨ SLASH :: (x ++ rooted xs) = ascii "..") := by
    rintro (h | h)
    · exact absurd (List.head_eq_of_cons_eq h) (by decide)
    · exact absurd (List.head_eq_of_cons_eq h) (by decide)
  rw [rooted_cons, dotSegmentsLoop, hno1, hno2, if_neg (by decide), if_neg (by decide)]
  rw [show ascii "/./" = SLASH :: ascii "." ++ [SLASH] by rfl, if_congr h1 rfl rfl,
    show ascii "/." = SLASH :: ascii "." by rfl, if_congr h2 rfl rfl,
    show ascii "/../" = SLASH :: ascii ".." ++ [SLASH] by rfl, if_congr h3 rfl rfl,
    show ascii "/.." = SLASH :: ascii ".." by rfl, if_congr h4 rfl rfl, if_neg hno3]
  by_cases hxdot : x = ascii "."
  · subst hxdot
    by_cases hxs : xs = []
    · simp [hxs]
    · rw [if_pos ⟨rfl, hxs⟩, if_pos rfl, if_neg hxs]
      rfl
  · rw [if_neg (fun h => hxdot h.1), if_neg (fun h => hxdot h.1), if_neg hxdot]
    by_cases hxdots : x = ascii ".."
    · subst hxdots
      rw [removeLastSegment_rooted done hdone]
      by_cases hxs : xs = []
      · simp [hxs]
      · rw [if_pos ⟨rfl, hxs⟩, if_pos rfl, if_neg hxs]
        rfl
    · rw [if_neg (fun h => hxdots h.1), if_neg (fun h => hxdots h.1), if_neg hxdots,
        (takeWhile_rooted x xs hx).1, (takeWhile_rooted x xs hx).2, rooted_push]

theorem dotSegmentsLoop_rooted (n : Nat) (done xs : List (List Byte)) (hn : (rooted xs).length ≤ n)
    (hdone : ∀ y ∈ done, SLASH ∉ y) (hxs : ∀ y ∈ xs, SLASH ∉ y) :
    dotSegmentsLoop n (rooted done.reverse).reverse (rooted xs) =
      (rooted (resolveSegments done xs)).reverse := by
  induction n generalizing done xs with
  | zero =>
    cases xs with
    | nil => rfl
    | cons x xs => simp at hn
  | succ n ih =>
    cases xs with
    | nil => rfl
    | cons x xs =>
      have hx := hxs x (by simp)
      have hrest : ∀ y ∈ xs, SLASH ∉ y := fun y hy => hxs y (List.mem_cons_of_mem x hy)
      have hlen : x.length + (rooted xs).length ≤ n := by simpa using hn
      -- the lone slash that a dot segment at the end leaves is an empty segment
      have hend : ∀ done : List (List Byte), (∀ y ∈ done, SLASH ∉ y) → 0 < x.length →
          dotSegmentsLoop n (rooted done.reverse).reverse [SLASH] =
            (rooted ([] :: done).reverse).reverse := by
        intro done hdone hpos
        have h := ih done [[]] (by simp; omega) hdone (by simp)
        simpa [resolveSegments, show ([] : List Byte) ≠ ascii "." by decide,
          show ([] : List Byte) ≠ ascii ".." by decide] using h
      have htail : ∀ y ∈ done.tail, SLASH ∉ y := fun y hy => hdone y (List.mem_of_mem_tail hy)
      have hpush : ∀ y ∈ x :: done, SLASH ∉ y := by
        rintro y (_ | ⟨_, hy⟩)
        · exact hx
        · exact hdone y hy
      rw [dotSegmentsLoop_turn n done x xs hdone hx]
      cases xs with
      | nil =>
        rw [resolveSegments, if_pos rfl]
        split_ifs with h1 h2
        · exact hend done hdone (by rw [h1]; decide)
        · exact hend done.tail htail (by rw [h2]; decide)
        · exact ih (x :: done) [] (by simp) hpush (by simp)
      | cons y ys =>
        rw [resolveSegments, if_neg (List.cons_ne_nil y ys)]
        split_ifs with h1 h2
        · exact ih done (y :: ys) (by omega) hdone hrest
        · exact ih done.tail (y :: ys) (by omega) htail hrest
        · exact ih (x :: done) (y :: ys) (by omega) hpush hrest

/-- The first loop only takes characters out. -/
theorem dotSegmentsLoop_sublist (n : Nat) (out s : List Byte) :
    (dotSegmentsLoop n out s).reverse.Sublist (out.reverse ++ s) := by
  induction n generalizing out s with
  | zero => exact List.sublist_append_left _ _
  | succ n ih =>
    cases s with
    | nil => exact List.sublist_append_left _ _
    | cons c s =>
      have hdrop : ∀ k, (dotSegmentsLoop n out ((c :: s).drop k)).reverse.Sublist
          (out.reverse ++ c :: s) := fun k =>
        (ih out _).trans ((List.drop_sublist k _).append_left _)
      have hlast : (removeLastSegment out).reverse.Sublist out.reverse := by
        refine List.Sublist.reverse ?_
        exact (List.tail_sublist _).trans (List.dropWhile_suffix _).sublist
      rw [dotSegmentsLoop]
      split_ifs with h1 h2 h3 h4 h5 h6 h7
      · exact hdrop 3
      · exact hdrop 2
      · exact hdrop 2
      · rw [h4]
        exact (ih out _).trans (List.Sublist.append_left (by decide) _)
      · exact (ih _ _).trans (hlast.append (List.drop_sublist 3 _))
      · rw [h6]
        exact (ih _ _).trans (hlast.append (by decide))
      · exact (ih out []).trans (List.Sublist.append_left (List.nil_sublist _) _)
      · refine (ih _ _).trans ?_
        rw [List.reverse_append, List.reverse_cons, List.reverse_reverse, List.append_assoc,
          List.append_assoc, List.takeWhile_append_dropWhile]
        exact List.Sublist.refl _

/-- Where no segment ends in a dot, the first loop has nothing to do. -/
theorem dotSegmentsLoop_self (n : Nat) (out s : List Byte) (hn : s.length ≤ n)
    (h : NoDotEnd SLASH DOT s) : dotSegmentsLoop n out s = s.reverse ++ out := by
  induction n generalizing out s with
  | zero =>
    obtain rfl := List.eq_nil_of_length_eq_zero (by omega : s.length = 0)
    rfl
  | succ n ih =>
    cases s with
    | nil => rfl
    | cons c s =>
      have hpre : ∀ p u, p = u ++ [DOT, SLASH] → ¬ p.isPrefixOf (c :: s) = true := by
        intro p u hp hpre
        obtain ⟨t, ht⟩ := List.isPrefixOf_iff_prefix.mp hpre
        rw [hp, List.append_assoc] at ht
        rw [← ht] at h
        exact h.behind.2 rfl
      have heq : ∀ p u, p = u ++ [DOT] → c :: s ≠ p := by
        intro p u hp heq
        rw [heq, hp] at h
        exact h.behind.1 rfl
      have hsuf : s.dropWhile (· != SLASH) <:+ s := List.dropWhile_suffix _
      rw [dotSegmentsLoop]
      rw [if_neg (hpre (ascii "../") (ascii ".") rfl), if_neg (hpre (ascii "./") [] rfl),
        if_neg (hpre (ascii "/./") (ascii "/") rfl), if_neg (heq (ascii "/.") (ascii "/") rfl),
        if_neg (hpre (ascii "/../") (ascii "/.") rfl), if_neg (heq (ascii "/..") (ascii "/.") rfl),
        if_neg (not_or.mpr ⟨heq (ascii ".") [] rfl, heq (ascii "..") (ascii ".") rfl⟩),
        ih _ _ (hsuf.length_le.trans (by simpa using hn)) (h.2.suffix hsuf)]
      have hsplit : (s.dropWhile (· != SLASH)).reverse ++ (s.takeWhile (· != SLASH)).reverse =
          s.reverse := by
        rw [← List.reverse_append, List.takeWhile_append_dropWhile]
      rw [← List.append_assoc, hsplit, List.reverse_cons, List.append_assoc, List.singleton_append]

/-! ### The whole function -/

theorem removeDotSegments_eq (s : List Byte) :
    removeDotSegments s = collapse SLASH (strip SLASH DOT
      (dotSegmentsLoop (forwardSlashes s).length [] (forwardSlashes s)).reverse) := by
  rw [removeDotSegments]
  rw [trailingDotsLoop_eq _ [] _ (le_refl _) trivial (fun h => absurd h.1 (by decide)),
    List.reverse_reverse]
  rfl

theorem strip_rooted (xs : List (List Byte)) (hxs : ∀ x ∈ xs, SLASH ∉ x) :
    strip SLASH DOT (rooted xs) = rooted (xs.map (stripEnd DOT)) := by
  cases xs with
  | nil => exact strip_nil
  | cons x xs =>
    induction xs generalizing x with
    | nil => simp [strip_sep, strip_segment (hxs x (by simp))]
    | cons y ys ih =>
      have h := ih y (fun z hz => hxs z (List.mem_cons_of_mem x hz))
      rw [rooted_cons y ys, strip_sep] at h
      rw [rooted_cons x, strip_sep, rooted_cons y ys, strip_append_sep (hxs x (by simp)), h]
      simp

theorem resolveSegments_noSlash (done xs : List (List Byte)) (hdone : ∀ x ∈ done, SLASH ∉ x)
    (hxs : ∀ x ∈ xs, SLASH ∉ x) : ∀ x ∈ resolveSegments done xs, SLASH ∉ x := by
  have htail : ∀ done : List (List Byte), (∀ x ∈ done, SLASH ∉ x) → ∀ x ∈ done.tail, SLASH ∉ x :=
    fun done h x hx => h x (List.mem_of_mem_tail hx)
  have hcons : ∀ (y : List Byte) (done : List (List Byte)), SLASH ∉ y → (∀ x ∈ done, SLASH ∉ x) →
      ∀ x ∈ y :: done, SLASH ∉ x := by
    rintro y done hy h x (_ | ⟨_, hx⟩)
    · exact hy
    · exact h x hx
  fun_induction resolveSegments done xs with
  | case1 done => simpa using hdone
  | case2 done y =>
    simp only [List.mem_reverse]
    split_ifs
    · exact hcons [] done (by simp) hdone
    · exact hcons [] done.tail (by simp) (htail done hdone)
    · exact hcons y done (hxs y (by simp)) hdone
  | case3 done y z zs ih =>
    refine ih ?_ (fun x hx => hxs x (List.mem_cons_of_mem y hx))
    split_ifs
    · exact hdone
    · exact htail done hdone
    · exact hcons y done (hxs y (by simp)) hdone

theorem resolveSegments_ne_nil (done xs : List (List Byte)) (hxs : xs ≠ []) :
    resolveSegments done xs ≠ [] := by
  fun_induction resolveSegments done xs with
  | case1 => exact absurd rfl hxs
  | case2 done y => split_ifs <;> simp
  | case3 done y z zs ih => exact ih (List.cons_ne_nil z zs)

theorem forwardSlashes_slash (s : List Byte) (hs : deref s = SLASH ∨ deref s = 92) :
    forwardSlashes s = SLASH :: (forwardSlashes s).tail := by
  cases s with
  | nil => exact absurd hs (by decide)
  | cons c s =>
    rcases hs with h | h
    · have hc : c = SLASH := h
      simp [forwardSlashes, hc]
    · have hc : c = 92 := h
      simp [forwardSlashes, hc]

theorem removeDotSegments_safePath (s : List Byte) (hs : deref s = SLASH ∨ deref s = 92) :
    removeDotSegments s = safePath s := by
  have hnoSlash : ∀ x ∈ (forwardSlashes s).tail.splitOn SLASH, SLASH ∉ x :=
    not_mem_splitOn (forwardSlashes s).tail
  have hroot : forwardSlashes s = rooted ((forwardSlashes s).tail.splitOn SLASH) := by
    rw [rooted_splitOn, ← forwardSlashes_slash s hs]
  have hloop := dotSegmentsLoop_rooted (forwardSlashes s).length [] _ (by rw [← hroot]) (by simp)
    hnoSlash
  rw [← hroot] at hloop
  rw [removeDotSegments_eq, show ([] : List Byte) = (rooted [].reverse).reverse by rfl, hloop,
    List.reverse_reverse, strip_rooted _ (resolveSegments_noSlash [] _ (by simp) hnoSlash)]
  rfl

theorem safePath_slash (s : List Byte) : deref (safePath s) = SLASH := by
  obtain ⟨x, xs, hx⟩ := List.exists_cons_of_ne_nil
    (resolveSegments_ne_nil [] _ (List.splitOn_ne_nil SLASH (forwardSlashes s).tail))
  rw [deref_eq_head _ (by decide), safePath, head_collapse, hx, List.map_cons, rooted_cons,
    List.head?_cons]

/-- A path that nothing is left to take out of. -/
structure IsSafe (r : List Byte) : Prop where
  no_backslash : (92 : Byte) ∉ r
  no_double : NoDouble SLASH r
  no_dot_end : NoDotEnd SLASH DOT r

theorem removeDotSegments_isSafe (s : List Byte) : IsSafe (removeDotSegments s) := by
  rw [removeDotSegments_eq]
  refine ⟨?_, collapse_noDouble _, collapse_noDotEnd (strip_noDotEnd (by decide) _)⟩
  intro h
  have hin := (dotSegmentsLoop_sublist _ [] _).subset (strip_subset _ (collapse_subset _ h))
  simp only [List.reverse_nil, List.nil_append, forwardSlashes, List.mem_map] at hin
  obtain ⟨c, _, hc⟩ := hin
  split_ifs at hc with h92
  · exact absurd hc (by decide)
  · exact h92 hc

theorem forwardSlashes_self (s : List Byte) (h : (92 : Byte) ∉ s) : forwardSlashes s = s := by
  have hid : ∀ c ∈ s, (if c = 92 then SLASH else c) = id c := by
    intro c hc
    rw [if_neg]
    · rfl
    · rintro rfl
      exact h hc
  rw [forwardSlashes, List.map_congr_left hid, List.map_id]

theorem IsSafe.fixed {r : List Byte} (h : IsSafe r) : removeDotSegments r = r := by
  rw [removeDotSegments_eq, forwardSlashes_self r h.no_backslash,
    dotSegmentsLoop_self _ [] r (le_refl _) h.no_dot_end, List.append_nil, List.reverse_reverse,
    strip_self h.no_dot_end, collapse_self h.no_double]

theorem removeDotSegments_length_le (s : List Byte) : (removeDotSegments s).length ≤ s.length := by
  rw [removeDotSegments_eq]
  have h := (dotSegmentsLoop_sublist (forwardSlashes s).length [] (forwardSlashes s)).length_le
  refine (collapse_length_le _).trans ((strip_length_le _).trans ?_)
  simpa [forwardSlashes] using h

/-- `remove_dot_segments` makes every path safe, and on a path that begins with a slash it does what
RFC 3986 says and then strips the dots at the ends of segments. -/
theorem removeDotSegments_safe (s : List Byte) :
    (removeDotSegments s).length ≤ s.length ∧
      (92 : Byte) ∉ removeDotSegments s ∧
      ¬ ascii "//" <:+: removeDotSegments s ∧
      (∀ x ∈ (removeDotSegments s).splitOn SLASH, x.getLast? ≠ some DOT) ∧
      removeDotSegments (removeDotSegments s) = removeDotSegments s ∧
      (deref s = SLASH ∨ deref s = 92 → deref (removeDotSegments s) = SLASH) ∧
      (deref s = SLASH → removeDotSegments s = safePath s) := by
  have hsafe := removeDotSegments_isSafe s
  refine ⟨removeDotSegments_length_le s, hsafe.no_backslash, hsafe.no_double.not_infix,
    hsafe.no_dot_end.segments, hsafe.fixed, ?_, ?_⟩
  · intro hs
    rw [removeDotSegments_safePath s hs]
    exact safePath_slash s
  · intro hs
    exact removeDotSegments_safePath s (Or.inl hs)

/-- The reading without the empty segment at the end: `.` is dropped, `..` takes the segment before it
along, and that is all. -/
def droppedSegments (xs : List (List Byte)) : List (List Byte) :=
  (xs.foldl (fun done x =>
    if x = ascii "." then done else if x = ascii ".." then done.tail else x :: done) []).reverse

/-- A `..` at the end leaves the slash in front of it. -/
theorem removeDotSegments_lastSegment :
    removeDotSegments (ascii "/a/b/..") = ascii "/a/" ∧
      collapse SLASH (rooted ((droppedSegments
        ((forwardSlashes (ascii "/a/b/..")).tail.splitOn SLASH)).map (stripEnd DOT))) = ascii "/a" := by
  refine ⟨by decide, by decide +kernel⟩

theorem removeDotSegments_safe_slashes :
    (removeDotSegments (ascii "/a\\..\\.../b.")).length ≤ (ascii "/a\\..\\.../b.").length ∧
      (92 : Byte) ∉ removeDotSegments (ascii "/a\\..\\.../b.") ∧
      ¬ ascii "//" <:+: removeDotSegments (ascii "/a\\..\\.../b.") ∧
      (∀ x ∈ (removeDotSegments (ascii "/a\\..\\.../b.")).splitOn SLASH, x.getLast? ≠ some DOT) ∧
      removeDotSegments (removeDotSegments (ascii "/a\\..\\.../b.")) =
        removeDotSegments (ascii "/a\\..\\.../b.") ∧
      deref (removeDotSegments (ascii "/a\\..\\.../b.")) = SLASH ∧
      removeDotSegments (ascii "/a\\..\\.../b.") = safePath (ascii "/a\\..\\.../b.") := by
  obtain ⟨h1, h2, h3, h4, h5, h6, h7⟩ := removeDotSegments_safe (ascii "/a\\..\\.../b.")
  exact ⟨h1, h2, h3, h4, h5, h6 (by decide), h7 (by decide)⟩

end CivetWeb
