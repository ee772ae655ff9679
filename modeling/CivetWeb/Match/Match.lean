import CivetWeb.Http.Uri
import CivetWeb.Lib.Wildcard

namespace CivetWeb.Match

abbrev QUESTION : Byte := 63
abbrev STAR : Byte := 42
abbrev DOLLAR : Byte := 36
abbrev PIPE : Byte := 124

/-- A piece of the string: where it begins, as an offset, and its length. -/
structure MatchElement where
  str : Nat
  len : Nat
  deriving DecidableEq, Repr

/-- `struct mg_match_context`; `max` is `MG_MATCH_CONTEXT_MAX_MATCHES`, the length of its array. -/
structure MatchContext where
  caseSensitive : Bool
  max : Nat
  elements : List MatchElement
  deriving DecidableEq, Repr

def matchContextReset (mcx : MatchContext) : MatchContext :=
  { mcx with elements := [] }

def matchContextPush (str len : Nat) (mcx : MatchContext) : MatchContext :=
  if mcx.elements.length < mcx.max then
    { mcx with elements := mcx.elements ++ [⟨str, len⟩] }
  else mcx

/-- How often `?` is read in a row. -/
def anyRun : List Byte → List Byte → Nat
  | c :: pat, d :: str =>
    if c = QUESTION ∧ d ≠ NUL ∧ d ≠ SLASH then anyRun pat str + 1 else 0
  | _, _ => 0

/-- The pattern behind a star, and behind the second of two. -/
def afterStar (pat : List Byte) : List Byte :=
  if deref pat = STAR then pat.tail else pat

/-- What a star may match at most: `strlen` for `**`, `strcspn` up to a slash for `*`. -/
def starSpan (pat str : List Byte) : Nat :=
  if deref pat = STAR then (cstr str).length
  else ((cstr str).takeWhile (· != SLASH)).length

/-- The `do … while` loop over the length of a star, the longest first. -/
def starLoop (tail : Nat → Option MatchContext → Option Nat × Option MatchContext) :
    Nat → Option MatchContext → Option (Nat × Nat) × Option MatchContext
  | 0, mcx =>
    match tail 0 mcx with
    | (some ret, mcx) => (some (0, ret), mcx)
    | (none, mcx) => (none, mcx)
  | len + 1, mcx =>
    match tail (len + 1) mcx with
    | (some ret, mcx) => (some (len + 1, ret), mcx)
    | (none, mcx) => starLoop tail len mcx

def isCaseSensitive (mcx : Option MatchContext) : Bool :=
  match mcx with
  | some mcx => mcx.caseSensitive
  | none => false

/-- The compare of a single character. -/
def sameChar (caseSensitive : Bool) (c d : Byte) : Bool :=
  if caseSensitive then c == d else tolower c == tolower d

theorem anyRun_le (pat str : List Byte) : anyRun pat str ≤ pat.length := by
  induction pat generalizing str with
  | nil => simp [anyRun]
  | cons c pat ih =>
    cases str with
    | nil => simp [anyRun]
    | cons d str =>
      have h := ih str
      rw [anyRun]
      split_ifs <;> simp only [List.length_cons] <;> omega

theorem afterStar_length_le (pat : List Byte) : (afterStar pat).length ≤ pat.length := by
  unfold afterStar
  split_ifs
  · simp
  · exact le_refl _

/-- The pattern at `pat` against the string at `str`, which is `pos` bytes into the whole string;
`none` is -1. Each round of the loop is one call, and what follows a run of `?` is the next round. -/
def mgMatchImpl (pat : List Byte) (pos : Nat) (str : List Byte) (mcx : Option MatchContext) :
    Option Nat × Option MatchContext :=
  match pat with
  | [] => (some 0, mcx)
  | c :: rest =>
    if _hrun : 0 < anyRun (c :: rest) str then
      let k := anyRun (c :: rest) str
      let r := mgMatchImpl ((c :: rest).drop k) (pos + k) (str.drop k)
        (mcx.map (matchContextPush pos k))
      (r.1.map (· + k), r.2)
    else if c = DOLLAR then
      (if deref str = NUL then some 0 else none, mcx)
    else if c = STAR then
      let len := starSpan rest str
      if afterStar rest = [] then
        (some len, mcx.map (matchContextPush pos len))
      else
        match starLoop (fun len mcx => mgMatchImpl (afterStar rest) (pos + len) (str.drop len) mcx)
          len mcx with
        | (some (len, ret), mcx) => (some (ret + len), mcx.map (matchContextPush pos len))
        | (none, mcx) => (none, mcx)
    else if sameChar (isCaseSensitive mcx) c (deref str) then
      let r := mgMatchImpl rest (pos + 1) str.tail mcx
      (r.1.map (· + 1), r.2)
    else (none, mcx)
termination_by pat.length
decreasing_by
  · have := anyRun_le (c :: rest) str
    simp only [List.length_drop]
    omega
  · have := afterStar_length_le rest
    simp only [List.length_cons]
    omega
  · simp

/-- `mg_match_alternatives`: the pattern is split at the first `|`. -/
def mgMatchAlternatives (pat str : List Byte) (mcx : Option MatchContext) :
    Option Nat × Option MatchContext :=
  let mcx := mcx.map matchContextReset
  if _hpipe : PIPE ∈ pat then
    match mgMatchImpl (pat.takeWhile (· != PIPE)) 0 str mcx with
    | (some ret, mcx) => (some ret, mcx)
    | (none, mcx) => mgMatchAlternatives (pat.dropWhile (· != PIPE)).tail str mcx
  else mgMatchImpl pat 0 str mcx
termination_by pat.length
decreasing_by
  have hdrop := (List.dropWhile_suffix (l := pat) (· != PIPE)).length_le
  have hpos : 0 < pat.length := List.length_pos_of_mem _hpipe
  simp only [List.length_tail]
  omega

example : (mgMatchImpl (ascii "/a**c?x") 0 (ascii "/abbcbcyx") none).1 = some 9 := by decide +kernel

end CivetWeb.Match
