import CivetWeb.Match.Pieces
import CivetWeb.Match.Sort

namespace CivetWeb.Match

open Wildcard (longest longestFirst longestFirst_some)

def matchCompare (e1 e2 : MatchElement) : Int :=
  if e1.str > e2.str then 1 else if e1.str < e2.str then -1 else 0

/-- The loop that joins consecutive matches. -/
def joinMatches : List MatchElement → List MatchElement
  | [] => []
  | [e] => [e]
  | e :: e' :: es =>
    if e.str + e.len = e'.str then joinMatches (⟨e.str, e.len + e'.len⟩ :: es)
    else e :: joinMatches (e' :: es)
termination_by es => es.length

def mgMatch (pat str : List Byte) (mcx : Option MatchContext) : Option Nat × Option MatchContext :=
  match mgMatchAlternatives pat str mcx with
  | (none, mcx) => (none, mcx.map matchContextReset)
  | (some ret, mcx) =>
    (some ret,
      mcx.map (fun mcx => { mcx with elements := joinMatches (mgSort matchCompare mcx.elements) }))

/-! ### What a context reports -/

def matchElements (mcx : Option MatchContext) : List MatchElement :=
  match mcx with
  | some mcx => mcx.elements
  | none => []

def pieceText (str : List Byte) (e : MatchElement) : List Byte :=
  (str.drop e.str).take e.len

/-- One hole in front of `h`, unless there is one. -/
def holeCons : List (Option Byte) → List (Option Byte)
  | none :: h => none :: h
  | h => none :: h

/-- The pattern up to `$`, with one hole for each maximal run of adjacent wildcards. -/
def patternHoles : List PatternItem → List (Option Byte)
  | [] => []
  | .stop :: _ => []
  | .char c :: w => some c :: patternHoles w
  | .any :: w => holeCons (patternHoles w)
  | .run :: w => holeCons (patternHoles w)
  | .all :: w => holeCons (patternHoles w)

/-- The holes replaced by texts, in their order. -/
def fillHoles : List (Option Byte) → List (List Byte) → List Byte
  | [], _ => []
  | some c :: h, texts => c :: fillHoles h texts
  | none :: h, [] => fillHoles h []
  | none :: h, t :: texts => t ++ fillHoles h texts

/-- Equal up to letter case, unless case counts. -/
def sameText (caseSensitive : Bool) (s t : List Byte) : Prop :=
  if caseSensitive then s = t else s.map tolower = t.map tolower

/-- The pieces are in order and apart, one for each run of wildcards, and put into the pattern they
give what was matched. -/
structure Reported (caseSensitive : Bool) (pat str : List Byte) (n : Nat) (es : List MatchElement) :
    Prop where
  inside : ∀ e ∈ es, e.str + e.len ≤ str.length
  apart : es.Pairwise (fun e e' => e.str + e.len < e'.str)
  count : es.length = (patternHoles (patternItems pat)).count none
  text : sameText caseSensitive
    (fillHoles (patternHoles (patternItems pat)) (es.map (pieceText str))) (str.take n)

/-- The alternative that is matched: the first with a prefix in its language. -/
def successfulAlternative (caseSensitive : Bool) (pat str : List Byte) : Option (List Byte) :=
  (alternatives pat).find? (fun alt => (longest (patternLanguage caseSensitive alt) str).isSome)

/-- An empty piece comes in front of the piece that begins where it stands. -/
def EmptyFirst (es : List MatchElement) : Prop :=
  es.IsChain (fun e e' => e.str = e'.str → e.len = 0)

/-! ### Joining -/

theorem totalLen_joinMatches (es : List MatchElement) : totalLen (joinMatches es) = totalLen es := by
  fun_induction joinMatches es with
  | case1 => rfl
  | case2 => rfl
  | case3 e e' es hend ih =>
    rw [ih]
    simp only [totalLen_cons]
    omega
  | case4 e e' es hend ih => simp [ih]

theorem joinMatches_cons (e : MatchElement) (es : List MatchElement)
    (h : ∀ e' ∈ es.head?, e.str + e.len ≠ e'.str) : joinMatches (e :: es) = e :: joinMatches es := by
  cases es with
  | nil => simp [joinMatches]
  | cons e' es => rw [joinMatches, if_neg (h e' (by simp))]

/-- The first piece of the result begins where the first piece began. -/
theorem joinMatches_head (e : MatchElement) (es : List MatchElement) :
    ∃ len es', joinMatches (e :: es) = ⟨e.str, len⟩ :: es' := by
  induction es generalizing e with
  | nil => exact ⟨e.len, [], by simp [joinMatches]⟩
  | cons e' es ih =>
    rw [joinMatches]
    split_ifs
    · exact ih ⟨e.str, e.len + e'.len⟩
    · exact ⟨e.len, _, rfl⟩

/-- Where the joined pieces are apart, the pieces did not overlap. -/
theorem isChain_of_joinMatches (es : List MatchElement)
    (h : (joinMatches es).Pairwise (fun e e' => e.str + e.len < e'.str)) :
    es.IsChain (fun e e' => e.str + e.len ≤ e'.str) := by
  fun_induction joinMatches es with
  | case1 => exact List.IsChain.nil
  | case2 e => exact List.IsChain.singleton e
  | case3 e e' es hend ih =>
    refine List.IsChain.cons_cons hend.le ?_
    have hjoined := ih h
    cases es with
    | nil => exact List.IsChain.singleton e'
    | cons e'' es =>
      obtain ⟨hle, hrest⟩ := List.isChain_cons_cons.mp hjoined
      refine List.IsChain.cons_cons ?_ hrest
      dsimp only at hle
      omega
  | case4 e e' es hend ih =>
    obtain ⟨len, es', hhead⟩ := joinMatches_head e' es
    obtain ⟨hfirst, hrest⟩ := List.pairwise_cons.mp h
    have hlt := hfirst ⟨e'.str, len⟩ (by simp [hhead])
    exact List.IsChain.cons_cons (Nat.le_of_lt hlt) (ih hrest)

theorem joinMatches_str (es : List MatchElement) :
    ∀ x ∈ joinMatches es, ∃ e ∈ es, x.str = e.str := by
  fun_induction joinMatches es with
  | case1 => simp
  | case2 e => simp
  | case3 e e' es hend ih =>
    intro x hx
    obtain ⟨y, hy, heq⟩ := ih x hx
    rcases List.mem_cons.mp hy with rfl | hy
    · exact ⟨e, by simp, heq⟩
    · exact ⟨y, by simp [hy], heq⟩
  | case4 e e' es hend ih =>
    intro x hx
    rcases List.mem_cons.mp hx with rfl | hx
    · exact ⟨x, by simp, rfl⟩
    · obtain ⟨y, hy, heq⟩ := ih x hx
      exact ⟨y, List.mem_cons_of_mem _ hy, heq⟩

/-- Pieces that do not overlap are apart when they are joined. -/
theorem pairwise_joinMatches (es : List MatchElement)
    (h : es.Pairwise (fun e e' => e.str + e.len ≤ e'.str)) :
    (joinMatches es).Pairwise (fun e e' => e.str + e.len < e'.str) := by
  fun_induction joinMatches es with
  | case1 => exact List.Pairwise.nil
  | case2 e => exact List.pairwise_singleton _ e
  | case3 e e' es hend ih =>
    obtain ⟨_, hrest⟩ := List.pairwise_cons.mp h
    obtain ⟨hfirst, hrest'⟩ := List.pairwise_cons.mp hrest
    refine ih (List.pairwise_cons.mpr ⟨?_, hrest'⟩)
    intro x hx
    have := hfirst x hx
    dsimp only
    omega
  | case4 e e' es hend ih =>
    obtain ⟨hfirst, hrest⟩ := List.pairwise_cons.mp h
    refine List.pairwise_cons.mpr ⟨?_, ih hrest⟩
    intro x hx
    obtain ⟨y, hy, heq⟩ := joinMatches_str _ x hx
    have hle := hfirst e' (by simp)
    rcases List.mem_cons.mp hy with rfl | hy
    · omega
    · have := (List.pairwise_cons.mp hrest).1 y hy
      omega

theorem matchCompare_key (e e' : MatchElement) : 0 < matchCompare e e' ↔ e'.str < e.str := by
  unfold matchCompare
  split_ifs <;> omega

end CivetWeb.Match
