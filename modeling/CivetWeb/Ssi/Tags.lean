import CivetWeb.Ssi.SendSsiFile

namespace CivetWeb

/-! ### The tags of a text -/

/-- A part of a text: a byte outside tags, a tag given by what is between its brackets, or a tag that the
text ends in. -/
inductive SsiPiece where
  | text (c : Byte)
  | tag (body : List Byte)
  | unclosed (body : List Byte)
  deriving DecidableEq, Repr

/-- The parts of a text, or of one that goes on in an open tag. -/
def piecesFrom : Option (List Byte) → List Byte → List SsiPiece
  | none, [] => []
  | none, c :: s => if c = LT then piecesFrom (some []) s else .text c :: piecesFrom none s
  | some body, [] => [.unclosed body]
  | some body, c :: s => if c = GT then .tag body :: piecesFrom none s else piecesFrom (some (body ++ [c])) s

def ssiPieces (content : List Byte) : List SsiPiece := piecesFrom none content

def SsiPiece.bytes : SsiPiece → List Byte
  | .text c => [c]
  | .tag body => LT :: (body ++ [GT])
  | .unclosed body => LT :: body

/-- The start of all SSI tags, behind the bracket. -/
def ssiMark : List Byte := ascii "!--#"

/-- A part with its tag replaced, if it is an SSI tag. -/
def SsiPiece.expand (command : List Byte → Option (List Byte)) (p : SsiPiece) : Option (List Byte) :=
  match p with
  | .tag body => if ssiMark.isPrefixOf body then command p.bytes else some p.bytes
  | _ => some p.bytes

/-- A text with each SSI tag replaced. -/
def expandPieces (command : List Byte → Option (List Byte)) : List SsiPiece → Option (List Byte)
  | [] => some []
  | p :: ps => (p.expand command).bind fun out => (expandPieces command ps).map (out ++ ·)

/-- A tag that does not fit in the buffer. -/
def SsiPiece.tooLarge : SsiPiece → Bool
  | .text _ => false
  | .tag body => MG_BUF_LEN < body.length + 3
  | .unclosed body => MG_BUF_LEN < body.length + 3

/-- Nothing of a text is lost in its parts. -/
theorem ssiPieces_bytes (content : List Byte) : (ssiPieces content).flatMap SsiPiece.bytes = content := by
  have hopen (content : List Byte) (state : Option (List Byte)) :
      (piecesFrom state content).flatMap SsiPiece.bytes = (state.map (LT :: ·)).getD [] ++ content := by
    induction content generalizing state with
    | nil =>
      cases state with
      | none => rfl
      | some body => simp [piecesFrom, SsiPiece.bytes]
    | cons c content ih =>
      cases state with
      | none =>
        rw [piecesFrom]
        split_ifs with hc
        · rw [ih, hc]
          rfl
        · rw [List.flatMap_cons, ih]
          rfl
      | some body =>
        rw [piecesFrom]
        split_ifs with hc
        · rw [List.flatMap_cons, ih, hc]
          simp [SsiPiece.bytes]
        · rw [ih]
          simp
  exact hopen content none

/-! ### What the loop sends -/

/-- The parts that are sent: those in front of the first tag that is too large. -/
def sendPieces (command : List Byte → Option (List Byte)) : List SsiPiece → Option (List Byte)
  | [] => some []
  | p :: ps =>
    if p.tooLarge then some []
    else (p.expand command).bind fun out => (sendPieces command ps).map (out ++ ·)

/-- The part that an open tag becomes has what was read of it. -/
theorem piecesFrom_open (body s : List Byte) : ∃ p ps more, piecesFrom (some body) s = p :: ps ∧
    (p = .tag (body ++ more) ∨ p = .unclosed (body ++ more)) := by
  induction s generalizing body with
  | nil => exact ⟨.unclosed body, [], [], rfl, .inr (by rw [List.append_nil])⟩
  | cons c s ih =>
    rw [piecesFrom]
    split_ifs
    · exact ⟨.tag body, _, [], rfl, .inl (by rw [List.append_nil])⟩
    · obtain ⟨p, ps, more, heq, hp⟩ := ih (body ++ [c])
      refine ⟨p, ps, c :: more, heq, ?_⟩
      rw [List.append_assoc, List.singleton_append] at hp
      exact hp

theorem sendPieces_tooLarge (command : List Byte → Option (List Byte)) {body : List Byte} (s : List Byte)
    (h : MG_BUF_LEN < body.length + 3) : sendPieces command (piecesFrom (some body) s) = some [] := by
  obtain ⟨p, ps, more, heq, hp⟩ := piecesFrom_open body s
  have hlarge : p.tooLarge = true := by
    rcases hp with rfl | rfl
    · exact decide_eq_true (by rw [List.length_append]; omega)
    · exact decide_eq_true (by rw [List.length_append]; omega)
  rw [heq, sendPieces, if_pos hlarge]

/-- An SSI tag is known by its first five bytes, when the last of them is there. -/
theorem mark_step (body : List Byte) (c : Byte) :
    (ssiMark.isPrefixOf body || ((LT :: (body ++ [c])).length == 5 && LT :: (body ++ [c]) == ascii "<!--#")) =
      ssiMark.isPrefixOf (body ++ [c]) := by
  have hmark : ascii "<!--#" = LT :: ssiMark := by decide
  have hlen : ssiMark.length = 4 := by decide
  rw [Bool.eq_iff_iff, Bool.or_eq_true, Bool.and_eq_true, beq_iff_eq, beq_iff_eq, List.isPrefixOf_iff_prefix,
    List.isPrefixOf_iff_prefix, List.prefix_concat_iff, hmark, List.cons.injEq]
  constructor
  · rintro (h | ⟨-, -, h⟩)
    · exact .inr h
    · exact .inl h.symm
  · rintro (h | h)
    · exact .inr ⟨by rw [← h, List.length_cons, hlen], rfl, h.symm⟩
    · exact .inl h

/-- From any state the loop sends what is in the buffer and the parts that are still to come. -/
theorem ssiLoop_pieces (command : List Byte → Option (List Byte)) (s : List Byte) :
    (∀ buf : List Byte, buf.length < MG_BUF_LEN →
      ssiLoop command s buf false false = (sendPieces command (piecesFrom none s)).map (buf ++ ·)) ∧
    ∀ body : List Byte, body.length + 3 ≤ MG_BUF_LEN →
      ssiLoop command s (LT :: body) true (ssiMark.isPrefixOf body) =
        sendPieces command (piecesFrom (some body) s) := by
  have hsize : MG_BUF_LEN = 8192 := rfl
  have hmap (x y : List Byte) (r : Option (List Byte)) :
      (r.map (y ++ ·)).map (x ++ ·) = r.map ((x ++ y) ++ ·) := by
    cases r with
    | none => rfl
    | some out => rw [Option.map_some, Option.map_some, Option.map_some, List.append_assoc]
  induction s with
  | nil =>
    refine ⟨fun buf _ => ?_, fun body hbody => ?_⟩
    · rw [ssiLoop, piecesFrom, sendPieces, Option.map_some, List.append_nil]
    · have hsmall : SsiPiece.tooLarge (.unclosed body) = false := decide_eq_false (by omega)
      rw [ssiLoop, piecesFrom, sendPieces, hsmall]
      simp [SsiPiece.expand, SsiPiece.bytes, sendPieces]
  | cons c s ih =>
    obtain ⟨ihtext, ihtag⟩ := ih
    refine ⟨fun buf hbuf => ?_, fun body hbody => ?_⟩
    · rw [ssiLoop, if_neg (by decide), piecesFrom]
      by_cases hc : c = LT
      · rw [if_pos hc, if_pos hc, show false = ssiMark.isPrefixOf [] by decide, ihtag [] (by decide)]
      · have hsend : sendPieces command (.text c :: piecesFrom none s) =
            (sendPieces command (piecesFrom none s)).map ([c] ++ ·) := rfl
        rw [if_neg hc, if_neg hc, hsend, hmap]
        dsimp only
        split_ifs with hfull
        · rw [ihtext [] (by decide)]
          cases sendPieces command (piecesFrom none s) with
          | none => rfl
          | some out => rfl
        · apply ihtext
          rw [List.length_append, List.length_singleton] at hfull ⊢
          omega
    · rw [ssiLoop, if_pos rfl, piecesFrom]
      by_cases hc : c = GT
      · have hsmall : SsiPiece.tooLarge (.tag body) = false := decide_eq_false (by omega)
        have hrest := ihtext [] (by decide)
        have hnil : (sendPieces command (piecesFrom none s)).map (([] : List Byte) ++ ·) =
            sendPieces command (piecesFrom none s) := by
          cases sendPieces command (piecesFrom none s) with
          | none => rfl
          | some out => rfl
        rw [hnil] at hrest
        have hsend : sendPieces command (.tag body :: piecesFrom none s) =
            (SsiPiece.expand command (.tag body)).bind fun out =>
              (sendPieces command (piecesFrom none s)).map (out ++ ·) := by
          rw [sendPieces, hsmall]
          exact if_neg Bool.false_ne_true
        rw [if_pos hc, if_pos hc, hsend, SsiPiece.expand]
        cases hmark : ssiMark.isPrefixOf body with
        | true =>
          simp only [if_true, hrest]
          rfl
        | false =>
          simp only [Bool.false_eq_true, if_false, hrest]
          rfl
      · rw [if_neg hc, if_neg hc]
        dsimp only
        rw [List.cons_append, mark_step]
        split_ifs with hlarge
        · exact (sendPieces_tooLarge command s (by
            rw [List.length_cons] at hlarge
            omega)).symm
        · apply ihtag
          rw [List.length_cons] at hlarge
          omega

end CivetWeb
