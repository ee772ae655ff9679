import Mathlib.Data.List.TakeWhile
import Mathlib.Order.Bounds.Basic

/-! Patterns made of single symbols, runs and the end of the text, read from the left. -/

namespace Wildcard

variable {α : Type*}

/-- A symbol of a class, any run of such symbols, or the end of the text. -/
inductive Item (α : Type*) where
  | one (p : α → Bool)
  | many (p : α → Bool)
  | stop

/-- The pattern reads `u` off the front of a text that goes on with `t`. -/
inductive Reads : List (Item α) → List α → List α → Prop where
  | nil (t : List α) : Reads [] [] t
  | one {p : α → Bool} {a : α} {w : List (Item α)} {u t : List α} :
      p a = true → Reads w u t → Reads (.one p :: w) (a :: u) t
  | many {p : α → Bool} {w : List (Item α)} (v : List α) {u t : List α} :
      (∀ a ∈ v, p a = true) → Reads w u t → Reads (.many p :: w) (v ++ u) t
  | stop {w : List (Item α)} : Reads (.stop :: w) [] []

/-- The lengths a pattern can read off the front of a text. -/
def lengths (w : List (Item α)) (s : List α) : Set Nat :=
  {n | ∃ u t, s = u ++ t ∧ u.length = n ∧ Reads w u t}

/-- The largest `n` at or below a bound where `f` succeeds, with what it gives there. -/
def longestFirst (f : Nat → Option Nat) : Nat → Option (Nat × Nat)
  | 0 => (f 0).map (fun r => (0, r))
  | n + 1 =>
    match f (n + 1) with
    | some r => some (n + 1, r)
    | none => longestFirst f n

/-- Read from the left, every run as long as the rest of the pattern allows. -/
def longest : List (Item α) → List α → Option Nat
  | [], _ => some 0
  | .one _ :: _, [] => none
  | .one p :: w, a :: s => if p a then (longest w s).map (· + 1) else none
  | .many p :: w, s =>
    (longestFirst (fun n => longest w (s.drop n)) (s.takeWhile p).length).map (fun x => x.1 + x.2)
  | .stop :: _, s => if s.isEmpty then some 0 else none

theorem longest_one (p : α → Bool) (w : List (Item α)) (a : α) (s : List α) :
    longest (.one p :: w) (a :: s) = if p a then (longest w s).map (· + 1) else none := rfl

theorem longest_many (p : α → Bool) (w : List (Item α)) (s : List α) : longest (.many p :: w) s =
    (longestFirst (fun n => longest w (s.drop n)) (s.takeWhile p).length).map (fun x => x.1 + x.2) := rfl

theorem longest_stop (w : List (Item α)) (s : List α) :
    longest (.stop :: w) s = if s.isEmpty then some 0 else none := rfl

theorem longestFirst_zero (f : Nat → Option Nat) : longestFirst f 0 = (f 0).map (fun r => (0, r)) := rfl

theorem longestFirst_succ (f : Nat → Option Nat) (n : Nat) : longestFirst f (n + 1) =
    match f (n + 1) with
    | some r => some (n + 1, r)
    | none => longestFirst f n := rfl

theorem longestFirst_some {f : Nat → Option Nat} {n l r : Nat} (h : longestFirst f n = some (l, r)) :
    l ≤ n ∧ f l = some r ∧ ∀ m, l < m → m ≤ n → f m = none := by
  induction n with
  | zero =>
    simp only [longestFirst_zero, Option.map_eq_some_iff, Prod.mk.injEq] at h
    obtain ⟨r', hr, rfl, rfl⟩ := h
    exact ⟨le_refl 0, hr, fun m _ _ => by omega⟩
  | succ n ih =>
    rw [longestFirst_succ] at h
    cases hf : f (n + 1) with
    | some r' =>
      simp only [hf, Option.some.injEq, Prod.mk.injEq] at h
      obtain ⟨rfl, rfl⟩ := h
      exact ⟨le_refl _, hf, fun m _ _ => by omega⟩
    | none =>
      rw [hf] at h
      obtain ⟨hl, hr, hmax⟩ := ih h
      refine ⟨by omega, hr, ?_⟩
      intro m hm hn
      by_cases hmn : m = n + 1
      · rw [hmn, hf]
      · exact hmax m hm (by omega)

theorem longestFirst_none {f : Nat → Option Nat} {n : Nat} (h : longestFirst f n = none) :
    ∀ m, m ≤ n → f m = none := by
  induction n with
  | zero =>
    intro m hm
    have h0 : m = 0 := by omega
    simpa [longestFirst_zero, h0] using h
  | succ n ih =>
    intro m hm
    rw [longestFirst_succ] at h
    cases hf : f (n + 1) with
    | some r => simp [hf] at h
    | none =>
      rw [hf] at h
      by_cases hmn : m = n + 1
      · rw [hmn, hf]
      · exact ih h m (by omega)

/-- A match that begins later in the text can reach at least as far. -/
theorem Reads.later {w : List (Item α)} {u t u' t' : List α} (h : Reads w u t)
    (h' : Reads w u' t') (hs : u' ++ t' <:+ u ++ t) :
    ∃ v r, v ++ r = u' ++ t' ∧ Reads w v r ∧ r.length ≤ t.length := by
  induction h generalizing u' t' with
  | nil t =>
    cases h' with
    | nil =>
      exact ⟨[], t', rfl, Reads.nil t', by simpa using hs.length_le⟩
  | @one p a w u t _ _ ih =>
    cases h' with
    | @one _ a' _ u1 _ hp' h1 =>
      have htail : u1 ++ t' <:+ u ++ t := by
        rcases List.suffix_cons_iff.mp hs with heq | hsuf
        · have htl : u1 ++ t' = u ++ t := (List.cons.inj heq).2
          exact htl ▸ List.suffix_refl _
        · exact (List.suffix_cons a' _).trans hsuf
      obtain ⟨v, r, hvr, hread, hlen⟩ := ih h1 htail
      exact ⟨a' :: v, r, by simp [hvr], Reads.one hp' hread, hlen⟩
  | @many p w a u t hp h1 ih =>
    cases h' with
    | @many _ _ a' u1 _ hp' h1' =>
      rw [List.append_assoc] at hs
      rw [List.append_assoc] at hs
      have hin : u1 ++ t' <:+ a ++ (u ++ t) := (List.suffix_append a' _).trans hs
      rcases List.suffix_or_suffix_of_suffix hin (List.suffix_append a (u ++ t)) with hle | hge
      · obtain ⟨v, r, hvr, hread, hlen⟩ := ih h1' hle
        exact ⟨a' ++ v, r, by simp [hvr], Reads.many a' hp' hread, hlen⟩
      · -- the run of the first match goes on where the second one begins
        have hmid : u ++ t <:+ a' ++ (u1 ++ t') := hge.trans (List.suffix_append a' _)
        obtain ⟨b, hb⟩ := hmid
        obtain ⟨c, hc⟩ := hs
        have hcancel : a ++ (u ++ t) = c ++ b ++ (u ++ t) := by
          rw [List.append_assoc, hb, hc]
        have hab : a = c ++ b := List.append_cancel_right hcancel
        refine ⟨b ++ u, t, ?_, Reads.many b ?_ h1, le_refl _⟩
        · rw [List.append_assoc, hb, List.append_assoc]
        · intro x hx
          exact hp x (by rw [hab]; exact List.mem_append_right c hx)
  | stop =>
    cases h' with
    | stop => exact ⟨[], [], rfl, Reads.stop, le_refl _⟩

theorem Reads.lengths {w : List (Item α)} {u t : List α} (h : Reads w u t) :
    u.length ∈ lengths w (u ++ t) :=
  ⟨u, t, rfl, rfl, h⟩

theorem mem_lengths {w : List (Item α)} {s : List α} {n : Nat} :
    n ∈ lengths w s ↔ n ≤ s.length ∧ Reads w (s.take n) (s.drop n) := by
  constructor
  · rintro ⟨u, t, rfl, rfl, h⟩
    simpa using h
  · rintro ⟨hn, h⟩
    exact ⟨s.take n, s.drop n, (List.take_append_drop n s).symm, by simpa using hn, h⟩

theorem lengths_many {p : α → Bool} {w : List (Item α)} {s : List α} {n : Nat} :
    n ∈ lengths (.many p :: w) s ↔
      ∃ l r, l ≤ (s.takeWhile p).length ∧ r ∈ lengths w (s.drop l) ∧ n = l + r := by
  constructor
  · rintro ⟨_, t, rfl, rfl, h⟩
    cases h with
    | @many _ _ v u _ hp h1 =>
      refine ⟨v.length, u.length, ?_, ?_, by simp⟩
      · rw [List.append_assoc, List.takeWhile_append_of_pos hp]
        simp
      · rw [List.append_assoc, List.drop_left]
        exact h1.lengths
  · rintro ⟨l, r, hl, ⟨u, t, hs, rfl, h1⟩, rfl⟩
    have hall : ∀ a ∈ s.take l, p a = true := by
      intro a ha
      have hpre : s.take l <+: s.takeWhile p :=
        List.prefix_of_prefix_length_le (List.take_prefix l s) (List.takeWhile_prefix p)
          (by rw [List.length_take]; omega)
      exact List.mem_takeWhile_imp (hpre.subset ha)
    have hlen : l ≤ s.length := hl.trans (List.takeWhile_prefix p).length_le
    refine ⟨s.take l ++ u, t, ?_, by simp [hlen], Reads.many _ hall h1⟩
    rw [List.append_assoc, ← hs, List.take_append_drop]

/-- What the later of two starts reaches, in lengths from the earlier one. -/
theorem lengths_later {w : List (Item α)} {s : List α} {i j m n : Nat} (hij : i ≤ j)
    (hj : j ≤ s.length) (hm : m ∈ lengths w (s.drop i)) (hn : n ∈ lengths w (s.drop j)) :
    ∃ k ∈ lengths w (s.drop j), i + m ≤ j + k := by
  obtain ⟨u, t, hs, rfl, h⟩ := hm
  obtain ⟨u', t', hs', rfl, h'⟩ := hn
  have hsuf : s.drop j <:+ s.drop i := by
    rw [show j = i + (j - i) by omega, ← List.drop_drop]
    exact List.drop_suffix _ _
  obtain ⟨v, r, hvr, hread, hlen⟩ := h.later h' (by rw [← hs, ← hs']; exact hsuf)
  refine ⟨v.length, ⟨v, r, hs'.trans hvr.symm, rfl, hread⟩, ?_⟩
  have h1 := congrArg List.length hs
  have h2 := congrArg List.length (hs'.trans hvr.symm)
  simp only [List.length_drop, List.length_append] at h1 h2
  omega

theorem lengths_one_nil (p : α → Bool) (w : List (Item α)) : lengths (.one p :: w) [] = ∅ := by
  ext n
  simp only [Set.mem_empty_iff_false, iff_false]
  rintro ⟨u, t, hs, _, h⟩
  cases h
  simp at hs

theorem lengths_one {p : α → Bool} {w : List (Item α)} {a : α} {s : List α} {n : Nat} :
    n ∈ lengths (.one p :: w) (a :: s) ↔ p a = true ∧ ∃ m ∈ lengths w s, n = m + 1 := by
  constructor
  · rintro ⟨u, t, hs, rfl, h⟩
    cases h with
    | one hp h1 =>
      obtain ⟨rfl, rfl⟩ := List.cons.inj hs
      exact ⟨hp, _, h1.lengths, rfl⟩
  · rintro ⟨hp, m, ⟨u, t, rfl, rfl, h1⟩, rfl⟩
    exact ⟨a :: u, t, rfl, rfl, Reads.one hp h1⟩

theorem lengths_stop {w : List (Item α)} {s : List α} {n : Nat} :
    n ∈ lengths (.stop :: w) s ↔ s = [] ∧ n = 0 := by
  constructor
  · rintro ⟨u, t, hs, rfl, h⟩
    cases h
    exact ⟨by simpa using hs, rfl⟩
  · rintro ⟨rfl, rfl⟩
    exact ⟨[], [], rfl, rfl, Reads.stop⟩

/-- What `longest` says about the lengths a pattern can read. -/
def Decides (w : List (Item α)) (s : List α) : Prop :=
  (∀ n, longest w s = some n → IsGreatest (lengths w s) n) ∧
    (longest w s = none → lengths w s = ∅)

theorem decides_nil (s : List α) : Decides [] s := by
  refine ⟨?_, nofun⟩
  rintro n ⟨⟩
  refine ⟨⟨[], s, rfl, rfl, Reads.nil s⟩, ?_⟩
  rintro m ⟨u, t, _, rfl, h⟩
  cases h
  exact le_refl 0

theorem decides_one (p : α → Bool) (w : List (Item α)) (a : α) (s : List α) (h : Decides w s) :
    Decides (.one p :: w) (a :: s) := by
  obtain ⟨hsome, hnone⟩ := h
  rw [Decides, longest_one]
  by_cases hp : p a = true
  · rw [if_pos hp]
    constructor
    · intro n hn
      obtain ⟨m, hm, rfl⟩ := Option.map_eq_some_iff.mp hn
      obtain ⟨hin, hub⟩ := hsome m hm
      refine ⟨lengths_one.mpr ⟨hp, m, hin, rfl⟩, ?_⟩
      intro k hk
      obtain ⟨_, j, hj, rfl⟩ := lengths_one.mp hk
      exact Nat.succ_le_succ (hub hj)
    · intro hn
      ext n
      simp [lengths_one, hnone (Option.map_eq_none_iff.mp hn)]
  · rw [if_neg hp]
    refine ⟨by simp, fun _ => ?_⟩
    ext n
    simp [lengths_one, hp]

theorem decides_many (p : α → Bool) (w : List (Item α)) (s : List α)
    (h : ∀ n, Decides w (s.drop n)) : Decides (.many p :: w) s := by
  rw [Decides, longest_many]
  have hlen : (s.takeWhile p).length ≤ s.length := (List.takeWhile_prefix p).length_le
  cases hf : longestFirst (fun n => longest w (s.drop n)) (s.takeWhile p).length with
  | none =>
    refine ⟨by simp, fun _ => ?_⟩
    ext n
    simp only [Set.mem_empty_iff_false, iff_false, lengths_many]
    rintro ⟨l, r, hl, hr, rfl⟩
    rw [(h l).2 (longestFirst_none hf l hl)] at hr
    exact hr
  | some x =>
    obtain ⟨l, r⟩ := x
    obtain ⟨hl, hr, hmax⟩ := longestFirst_some hf
    obtain ⟨hin, hub⟩ := (h l).1 r hr
    refine ⟨?_, by simp⟩
    rintro n ⟨⟩
    refine ⟨lengths_many.mpr ⟨l, r, hl, hin, rfl⟩, ?_⟩
    intro n hn
    obtain ⟨l', r', hl', hr', rfl⟩ := lengths_many.mp hn
    have hle : l' ≤ l := by
      by_contra hlt
      rw [(h l').2 (hmax l' (by omega) hl')] at hr'
      exact hr'
    -- the chosen run is the longest that goes on, and from there nothing reaches further
    obtain ⟨k, hk, hreach⟩ := lengths_later hle (hl.trans hlen) hr' hin
    have hkr : k ≤ r := hub hk
    dsimp only
    omega

theorem decides_stop (w : List (Item α)) (s : List α) : Decides (.stop :: w) s := by
  rw [Decides, longest_stop]
  cases s with
  | nil =>
    refine ⟨?_, by simp⟩
    rintro n ⟨⟩
    refine ⟨lengths_stop.mpr ⟨rfl, rfl⟩, ?_⟩
    intro m hm
    exact ((lengths_stop.mp hm).2).le
  | cons a s =>
    refine ⟨by simp, fun _ => ?_⟩
    ext n
    simp [lengths_stop]

/-- Reading every run as long as the rest allows reads as much as the pattern can. -/
theorem longest_decides (w : List (Item α)) (s : List α) : Decides w s := by
  induction w generalizing s with
  | nil => exact decides_nil s
  | cons x w ih =>
    cases x with
    | one p =>
      cases s with
      | nil => exact ⟨nofun, fun _ => lengths_one_nil p w⟩
      | cons a s => exact decides_one p w a s (ih s)
    | many p => exact decides_many p w s (fun n => ih (s.drop n))
    | stop => exact decides_stop w s

theorem longest_isGreatest {w : List (Item α)} {s : List α} {n : Nat} (h : longest w s = some n) :
    IsGreatest (lengths w s) n :=
  (longest_decides w s).1 n h

theorem longest_eq_none {w : List (Item α)} {s : List α} : longest w s = none ↔ lengths w s = ∅ := by
  refine ⟨(longest_decides w s).2, fun h => ?_⟩
  cases hl : longest w s with
  | none => rfl
  | some n =>
    have hn := (longest_isGreatest hl).1
    rw [h] at hn
    exact hn.elim

end Wildcard
