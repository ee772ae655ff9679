import CivetWeb.Ssi.Tags

namespace CivetWeb

/-! ### Includes end -/

theorem doSsiInclude_congr (w : SsiWorld) {send send' : List Byte → List Byte → Nat → Option (List Byte)}
    (includeLevel : Nat) (h : ∀ path content, send path content (includeLevel + 1) =
      send' path content (includeLevel + 1)) (ssi tag : List Byte) :
    doSsiInclude w send ssi tag includeLevel = doSsiInclude w send' ssi tag includeLevel := by
  simp only [doSsiInclude, h]

theorem ssiCommand_congr (w : SsiWorld) {send send' : List Byte → List Byte → Nat → Option (List Byte)}
    (includeLevel : Nat) (h : ∀ path content, send path content (includeLevel + 2) =
      send' path content (includeLevel + 2)) (path : List Byte) :
    ssiCommand w send path includeLevel = ssiCommand w send' path includeLevel := by
  funext buf
  simp only [ssiCommand, doSsiInclude_congr w (includeLevel + 1) h]

theorem ssiCommand_isSome (w : SsiWorld) {send : List Byte → List Byte → Nat → Option (List Byte)}
    (includeLevel : Nat) (h : ∀ path content, (send path content (includeLevel + 2)).isSome = true)
    (path buf : List Byte) : (ssiCommand w send path includeLevel buf).isSome = true := by
  have hinclude (ssi tag : List Byte) : (doSsiInclude w send ssi tag (includeLevel + 1)).isSome = true := by
    rw [doSsiInclude]
    cases hpath : includePath w ssi tag with
    | none => rfl
    | some path =>
      cases hopen : mgFopenRead w.fs path with
      | none => simp only [hopen, Option.isSome_some]
      | some content =>
        simp only [hopen]
        split_ifs
        · exact h path content
        · rfl
  rw [ssiCommand]
  split_ifs
  · exact hinclude _ _
  · rfl
  · rfl

theorem SsiPiece.expand_isSome {command : List Byte → Option (List Byte)}
    (h : ∀ buf, (command buf).isSome = true) (p : SsiPiece) : (p.expand command).isSome = true := by
  cases p with
  | text c => rfl
  | unclosed body => rfl
  | tag body =>
    rw [expand]
    split_ifs
    · exact h _
    · rfl

theorem sendPieces_isSome {command : List Byte → Option (List Byte)} (h : ∀ buf, (command buf).isSome = true)
    (ps : List SsiPiece) : (sendPieces command ps).isSome = true := by
  induction ps with
  | nil => rfl
  | cons p ps ih =>
    obtain ⟨out, hout⟩ := Option.isSome_iff_exists.mp (p.expand_isSome h)
    rw [sendPieces, hout]
    split_ifs
    · rfl
    · rw [Option.bind_some, Option.isSome_map, ih]

/-- What a file's loop sends, for a function that ends on all tags. -/
theorem ssiLoop_content (command : List Byte → Option (List Byte)) (content : List Byte) :
    ssiLoop command content [] false false = sendPieces command (ssiPieces content) := by
  rw [(ssiLoop_pieces command content).1 [] (by decide), ssiPieces]
  cases sendPieces command (piecesFrom none content) with
  | none => rfl
  | some out => rfl

/-- The level bounds the depth of the calls, whatever files include each other. -/
theorem sendSsiFile_enough (w : SsiWorld) (depth depth' includeLevel : Nat) (hlevel : includeLevel ≤ 12)
    (h : 12 < 2 * depth + includeLevel) (h' : 12 < 2 * depth' + includeLevel) (path content : List Byte) :
    sendSsiFile w depth path content includeLevel = sendSsiFile w depth' path content includeLevel ∧
      (sendSsiFile w depth path content includeLevel).isSome = true := by
  induction depth generalizing depth' includeLevel path content with
  | zero => omega
  | succ depth ih =>
    obtain ⟨depth', rfl⟩ : ∃ k, depth' = k + 1 := ⟨depth' - 1, by omega⟩
    rw [sendSsiFile, sendSsiFile]
    by_cases hdeep : 10 < includeLevel
    · rw [if_pos hdeep, if_pos hdeep]
      exact ⟨rfl, rfl⟩
    · have hnext := ih depth' (includeLevel + 2) (by omega) (by omega) (by omega)
      rw [if_neg hdeep, if_neg hdeep, ssiCommand_congr w includeLevel (fun path content => (hnext path content).1),
        ssiLoop_content]
      refine ⟨rfl, sendPieces_isSome ?_ _⟩
      rw [← ssiCommand_congr w includeLevel (fun path content => (hnext path content).1)]
      exact ssiCommand_isSome w includeLevel (fun path content => (hnext path content).2) path

/-- What is sent in place of an SSI tag of a file. -/
def tagExpansion (w : SsiWorld) (path : List Byte) (includeLevel : Nat) : List Byte → Option (List Byte) :=
  ssiCommand w (sendSsiFile w 7) path includeLevel

theorem tagExpansion_isSome (w : SsiWorld) (path : List Byte) {includeLevel : Nat} (hlevel : includeLevel ≤ 10)
    (buf : List Byte) : (tagExpansion w path includeLevel buf).isSome = true :=
  ssiCommand_isSome w includeLevel
    (fun path content => (sendSsiFile_enough w 7 7 (includeLevel + 2) (by omega) (by omega) (by omega) path
      content).2) path buf

/-- A file is sent up to its first tag that is too large. -/
theorem sendSsiFile_pieces (w : SsiWorld) (path content : List Byte) {includeLevel depth : Nat}
    (hlevel : includeLevel ≤ 10) (hdepth : 7 ≤ depth) :
    sendSsiFile w depth path content includeLevel =
      sendPieces (tagExpansion w path includeLevel) (ssiPieces content) := by
  obtain ⟨depth, rfl⟩ : ∃ k, depth = k + 1 := ⟨depth - 1, by omega⟩
  have hsame (path content : List Byte) := (sendSsiFile_enough w depth 7 (includeLevel + 2) (by omega) (by omega)
    (by omega) path content).1
  rw [sendSsiFile, if_neg (by omega), ssiCommand_congr w includeLevel hsame, ssiLoop_content, tagExpansion]

/-! ### The text with its SSI tags replaced -/

theorem expandPieces_nil {command : List Byte → Option (List Byte)} (ps : List SsiPiece) :
    expandPieces command ps = some [] ↔ ∀ p ∈ ps, p.expand command = some [] := by
  induction ps with
  | nil => simp [expandPieces]
  | cons p ps ih =>
    rw [expandPieces, List.forall_mem_cons, ← ih]
    cases p.expand command with
    | none => simp
    | some out =>
      cases expandPieces command ps with
      | none => simp
      | some rest => simp

/-- A text without SSI tags is its own expansion. -/
theorem expandPieces_plain (command : List Byte → Option (List Byte)) (ps : List SsiPiece)
    (h : ∀ p ∈ ps, p.expand command = some p.bytes) : expandPieces command ps = some (ps.flatMap SsiPiece.bytes) := by
  induction ps with
  | nil => rfl
  | cons p ps ih =>
    rw [expandPieces, h p List.mem_cons_self, Option.bind_some, ih fun q hq => h q (List.mem_cons_of_mem p hq),
      Option.map_some, List.flatMap_cons]

/-- What is sent is the text with its tags replaced, unless something is lost with a tag that is too
large. -/
theorem sendPieces_eq_expand {command : List Byte → Option (List Byte)} (h : ∀ buf, (command buf).isSome = true)
    (ps : List SsiPiece) : sendPieces command ps = expandPieces command ps ↔
      ∀ p ∈ ps.dropWhile (!·.tooLarge), p.expand command = some [] := by
  induction ps with
  | nil => simp [sendPieces, expandPieces]
  | cons p ps ih =>
    cases hlarge : p.tooLarge with
    | true =>
      rw [sendPieces, hlarge, if_pos rfl, List.dropWhile_cons_of_neg (by rw [hlarge]; decide),
        ← expandPieces_nil, eq_comm]
    | false =>
      obtain ⟨out, hout⟩ := Option.isSome_iff_exists.mp (p.expand_isSome h)
      have hinj (a b : Option (List Byte)) : a.map (out ++ ·) = b.map (out ++ ·) ↔ a = b :=
        (Option.map_injective (List.append_right_injective out)).eq_iff
      rw [sendPieces, hlarge, if_neg (by decide), expandPieces, hout, Option.bind_some, Option.bind_some, hinj, ih,
        List.dropWhile_cons_of_pos (by rw [hlarge]; decide)]

/-- A file is sent with each SSI tag replaced by its expansion, at any depth of calls that is enough. -/
def SsiSent (w : SsiWorld) (path content : List Byte) (includeLevel : Nat) : Prop :=
  ∃ out, (∀ depth, 7 ≤ depth → sendSsiFile w depth path content includeLevel = some out) ∧
    expandPieces (tagExpansion w path includeLevel) (ssiPieces content) = some out

/-- `send_ssi_file` always ends; it sends the text with its tags replaced unless a part that comes out as
something is lost, from the first tag on that is too large for the buffer. -/
theorem ssiSent_iff (w : SsiWorld) (path content : List Byte) (includeLevel : Nat) (hlevel : includeLevel ≤ 10) :
    (∃ out, ∀ depth, 7 ≤ depth → sendSsiFile w depth path content includeLevel = some out) ∧
      (SsiSent w path content includeLevel ↔ ∀ p ∈ (ssiPieces content).dropWhile (!·.tooLarge),
        p.expand (tagExpansion w path includeLevel) = some []) := by
  have hsome := tagExpansion_isSome w path hlevel
  obtain ⟨out, hout⟩ := Option.isSome_iff_exists.mp (sendPieces_isSome hsome (ssiPieces content))
  have hends (depth : Nat) (hdepth : 7 ≤ depth) : sendSsiFile w depth path content includeLevel = some out :=
    (sendSsiFile_pieces w path content hlevel hdepth).trans hout
  refine ⟨⟨out, hends⟩, ?_⟩
  rw [← sendPieces_eq_expand hsome, hout]
  constructor
  · rintro ⟨out', hsent, hexpand⟩
    rw [hexpand, ← hsent 7 (le_refl 7), hends 7 (le_refl 7)]
  · intro h
    exact ⟨out, hends, h.symm⟩

theorem sendPieces_takeWhile (command : List Byte → Option (List Byte)) (ps : List SsiPiece) :
    sendPieces command ps = expandPieces command (ps.takeWhile (!·.tooLarge)) := by
  induction ps with
  | nil => rfl
  | cons p ps ih =>
    rw [sendPieces, List.takeWhile_cons]
    cases p.tooLarge with
    | true => rfl
    | false => rw [if_neg (by decide), Bool.not_false, if_pos rfl, expandPieces, ih]

theorem expand_noMark {command : List Byte → Option (List Byte)} {content : List Byte}
    (h : ¬ ascii "<!--#" <:+: content) (p : SsiPiece) (hp : p ∈ ssiPieces content) :
    p.expand command = some p.bytes := by
  cases p with
  | text c => rfl
  | unclosed body => rfl
  | tag body =>
    rw [SsiPiece.expand, if_neg]
    intro hmark
    obtain ⟨rest, hrest⟩ := List.isPrefixOf_iff_prefix.mp hmark
    have hin : SsiPiece.bytes (.tag body) <:+: content := by
      rw [← ssiPieces_bytes content]
      obtain ⟨before, behind, hsplit⟩ := List.append_of_mem hp
      rw [hsplit, List.flatMap_append, List.flatMap_cons]
      exact ⟨_, _, by rw [List.append_assoc]⟩
    have hstart : ascii "<!--#" <+: SsiPiece.bytes (.tag body) := by
      have htext : ascii "<!--#" = LT :: ssiMark := by decide
      refine ⟨rest ++ [GT], ?_⟩
      rw [htext, SsiPiece.bytes, ← hrest, List.cons_append, List.append_assoc]
    exact h (hstart.isInfix.trans hin)

/-- `send_ssi_file` ends for all files, and sends the text up to its first tag that is too large with each
SSI tag replaced. -/
theorem sendSsiFile_expands (w : SsiWorld) (path content : List Byte) (includeLevel : Nat)
    (hlevel : includeLevel ≤ 10) :
    ∃ out, (∀ depth, 7 ≤ depth → sendSsiFile w depth path content includeLevel = some out) ∧
      expandPieces (tagExpansion w path includeLevel) ((ssiPieces content).takeWhile (!·.tooLarge)) = some out ∧
      ((∀ p ∈ ssiPieces content, p.tooLarge = false) →
        expandPieces (tagExpansion w path includeLevel) (ssiPieces content) = some out ∧
          (¬ ascii "<!--#" <:+: content → out = content)) := by
  obtain ⟨out, hout⟩ := Option.isSome_iff_exists.mp
    (sendPieces_isSome (tagExpansion_isSome w path hlevel) (ssiPieces content))
  rw [sendPieces_takeWhile] at hout
  refine ⟨out, fun depth hdepth => ?_, hout, fun hsmall => ?_⟩
  · rw [sendSsiFile_pieces w path content hlevel hdepth, sendPieces_takeWhile, hout]
  · have hall : (ssiPieces content).takeWhile (!·.tooLarge) = ssiPieces content :=
      List.takeWhile_eq_self_iff.mpr fun p hp => by rw [hsmall p hp]; rfl
    rw [hall] at hout
    refine ⟨hout, fun hmark => ?_⟩
    rw [expandPieces_plain _ _ (expand_noMark hmark), ssiPieces_bytes] at hout
    exact (Option.some.inj hout).symm

/-- A file that includes itself. -/
def cyclicWorld : SsiWorld where
  fs := ⟨fun _ => some false, fun _ => some (ascii "x<!--#include \"a.shtml\"-->")⟩
  documentRoot := ascii "/srv"
  ssiExtensions := ascii "**.shtml$"
  popen _ := none

theorem sendSsiFile_expands_cycle : ∃ out, ∀ depth, 7 ≤ depth →
    sendSsiFile cyclicWorld depth (ascii "/srv/a.shtml") (ascii "x<!--#include \"a.shtml\"-->") 0 = some out := by
  obtain ⟨out, hends, -⟩ := sendSsiFile_expands cyclicWorld (ascii "/srv/a.shtml")
    (ascii "x<!--#include \"a.shtml\"-->") 0 (by decide)
  exact ⟨out, hends⟩

theorem piecesFrom_unclosed (body : List Byte) (n : Nat) :
    piecesFrom (some body) (List.replicate n 97) = [.unclosed (body ++ List.replicate n 97)] := by
  induction n generalizing body with
  | zero => rw [List.replicate_zero, List.append_nil, piecesFrom]
  | succ n ih =>
    rw [List.replicate_succ, piecesFrom, if_neg (by decide), ih, List.append_assoc]
    rfl

/-- Of a file with a `<` and no room for what follows nothing is sent. -/
theorem unclosed_lost (w : SsiWorld) (path : List Byte) {n : Nat} (hn : MG_BUF_LEN < n + 3) :
    sendSsiFile w 7 path (LT :: List.replicate n 97) 0 = some [] ∧
      (∀ p ∈ ssiPieces (LT :: List.replicate n 97), ∀ body, p ≠ .tag body) ∧
      ¬ SsiSent w path (LT :: List.replicate n 97) 0 := by
  have hpieces : ssiPieces (LT :: List.replicate n 97) = [.unclosed (List.replicate n 97)] := by
    rw [ssiPieces, piecesFrom, if_pos rfl, piecesFrom_unclosed, List.nil_append]
  have hlarge : SsiPiece.tooLarge (.unclosed (List.replicate n 97)) = true := by
    rw [SsiPiece.tooLarge, List.length_replicate]
    exact decide_eq_true hn
  have hnothing : sendSsiFile w 7 path (LT :: List.replicate n 97) 0 = some [] := by
    rw [sendSsiFile_pieces w _ _ (by decide) (le_refl 7), hpieces, sendPieces, if_pos hlarge]
  refine ⟨hnothing, ?_, ?_⟩
  · rw [hpieces]
    intro p hp body
    rw [List.mem_singleton.mp hp]
    exact SsiPiece.noConfusion
  · rintro ⟨out, hsent, hexpand⟩
    rw [hpieces, expandPieces_plain _ _ fun p hp => by rw [List.mem_singleton.mp hp]; rfl] at hexpand
    have hlen := hsent 7 (le_refl 7)
    rw [hnothing, ← hexpand, Option.some.injEq] at hlen
    exact absurd hlen.symm (List.cons_ne_nil _ _)

/-- A `<` and 8190 further bytes are lost, though there is no tag in the file. -/
theorem ssiSent_large :
    sendSsiFile cyclicWorld 7 (ascii "/srv/b.shtml") (LT :: List.replicate 8190 97) 0 = some [] ∧
      (∀ p ∈ ssiPieces (LT :: List.replicate 8190 97), ∀ body, p ≠ .tag body) ∧
      ¬ SsiSent cyclicWorld (ascii "/srv/b.shtml") (LT :: List.replicate 8190 97) 0 :=
  unclosed_lost cyclicWorld (ascii "/srv/b.shtml") (by decide)

end CivetWeb
