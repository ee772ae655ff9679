import CivetWeb.Form.MultipartBounds
import CivetWeb.Http.HeaderLines

namespace CivetWeb

/-- A byte of a field name or file name that stands for itself in quotes and in the decoder. -/
def plainByte (c : Byte) : Bool := literalByte c && c != QUOTE && c != EQUALS

/-- The `Content-Disposition` of a part. -/
def contentDisposition (name : List Byte) (filename : Option (List Byte)) : List Byte :=
  ascii "form-data; name=" ++ QUOTE :: (name ++ QUOTE ::
    (match filename with
      | none => []
      | some f => ascii "; filename=" ++ QUOTE :: (f ++ [QUOTE])))

theorem plainByte_facts (c : Byte) (h : plainByte c = true) :
    literalByte c = true ∧ c ≠ QUOTE ∧ c ≠ EQUALS := by
  simp only [plainByte, Bool.and_eq_true, bne_iff_ne] at h
  exact ⟨h.1.1, h.1.2, h.2⟩

theorem literalByte_ne_nul : ∀ c, literalByte c = true → c ≠ NUL :=
  byte_all _ (by decide +kernel)

/-! ### The attributes of a `Content-Disposition` -/

/-- The search for an attribute passes over what it does not match. -/
theorem findAttribute_pass (pat u s : List Byte) (before : Byte)
    (h : ∀ i < u.length, ¬ pat <+: (u ++ s).drop i) :
    findAttribute pat before (u ++ s) =
      (findAttribute pat (u.getLast?.getD before) s).map (· + u.length) := by
  induction u generalizing before with
  | nil => simp
  | cons a u ih =>
    have hno : ¬ (pat.isPrefixOf (a :: (u ++ s)) && attributeStart before) = true := by
      rw [Bool.and_eq_true, List.isPrefixOf_iff_prefix]
      intro hp
      exact h 0 (by simp) hp.1
    have hrest : ∀ i < u.length, ¬ pat <+: (u ++ s).drop i := by
      intro i hi
      exact h (i + 1) (by simpa using hi)
    have hlast : (a :: u).getLast?.getD before = u.getLast?.getD a := by
      rw [List.getLast?_cons]
      rfl
    rw [List.cons_append, findAttribute, if_neg hno, ih a hrest, Option.map_map, hlast]
    rfl

theorem findAttribute_here (pat : List Byte) (before c : Byte) (s : List Byte)
    (hpre : pat <+: c :: s) (hbefore : attributeStart before = true) :
    findAttribute pat before (c :: s) = some 0 := by
  rw [findAttribute, List.isPrefixOf_iff_prefix.mpr hpre, hbefore]
  rfl

/-- An attribute does not begin in a quoted text without `=`. -/
theorem attribute_not_in_quoted (attr w t tail : List Byte) (i : Nat) (hattr : QUOTE ∉ attr)
    (hw : EQUALS ∉ w) : ¬ attr ++ EQUALS :: tail <+: (w ++ QUOTE :: t).drop i ∨ w.length < i := by
  by_cases hi : w.length < i
  · exact Or.inr hi
  left
  intro hpre
  obtain ⟨z, hz⟩ := hpre
  have hdrop : (w ++ QUOTE :: t).drop i = w.drop i ++ QUOTE :: t :=
    List.drop_append_of_le_length (by omega)
  have hq : QUOTE ∉ attr ++ [EQUALS] := by
    intro hmem
    obtain h | h := List.mem_append.mp hmem
    · exact hattr h
    · exact absurd (List.mem_singleton.mp h) (by decide)
  obtain ⟨u, hu, -⟩ := Scan.split_before QUOTE (w.drop i) (attr ++ [EQUALS]) t (tail ++ z)
    (by rw [← hdrop, ← hz]; simp) hq
  apply hw
  apply List.mem_of_mem_drop (i := i)
  rw [hu]
  simp

theorem no_prefix_of_head (pat : List Byte) (c : Byte) (hc : pat.head? = some c) (u s : List Byte)
    (hu : c ∉ u) (i : Nat) (hi : i < u.length) : ¬ pat <+: (u ++ s).drop i := by
  intro hpre
  cases pat with
  | nil => cases hc
  | cons b pat =>
    have hb : b = c := Option.some.inj hc
    rw [List.drop_append_of_le_length (Nat.le_of_lt hi), List.drop_eq_getElem_cons hi,
      List.cons_append, List.cons_prefix_cons, hb] at hpre
    exact hu (hpre.1 ▸ List.getElem_mem hi)

/-- The text in front of the name. -/
def DISPOSITION : List Byte := ascii "form-data; name=" ++ [QUOTE]

theorem contentDisposition_drop (name f : List Byte) :
    (contentDisposition name (some f)).drop (17 + name.length + 13) = f ++ [QUOTE] := by
  have hshape : contentDisposition name (some f) =
      (DISPOSITION ++ name ++ (QUOTE :: ascii "; filename=" ++ [QUOTE])) ++ (f ++ [QUOTE]) := by
    simp [contentDisposition, DISPOSITION, ascii]
  have hlen : (DISPOSITION ++ name ++ (QUOTE :: ascii "; filename=" ++ [QUOTE])).length =
      17 + name.length + 13 := by
    simp [DISPOSITION, ascii]
    omega
  rw [hshape, ← hlen, List.drop_left]

section
variable (name : List Byte) (hname : ∀ c ∈ name, plainByte c = true)
include hname

theorem findAttributeValue_name (filename : Option (List Byte)) :
    findAttributeValue (ascii "name") (contentDisposition name filename) =
      some (some ⟨17, 17 + name.length⟩) := by
  obtain ⟨rest, hrest⟩ : ∃ rest, contentDisposition name filename =
      ascii "form-data; " ++ (ascii "name" ++ EQUALS :: QUOTE :: (name ++ QUOTE :: rest)) := ⟨_, rfl⟩
  have hfind : findAttribute (ascii "name" ++ [EQUALS, QUOTE]) NUL
      (contentDisposition name filename) = some 11 := by
    have hpass := findAttribute_pass (ascii "name" ++ [EQUALS, QUOTE]) (ascii "form-data; ")
      (ascii "name" ++ EQUALS :: QUOTE :: (name ++ QUOTE :: rest)) NUL
      (no_prefix_of_head _ 110 rfl _ _ (by decide))
    have hhere := findAttribute_here (ascii "name" ++ [EQUALS, QUOTE]) SP 110
      (ascii "ame" ++ EQUALS :: QUOTE :: (name ++ QUOTE :: rest)) ⟨name ++ QUOTE :: rest, rfl⟩ rfl
    rw [hrest, hpass]
    show (findAttribute _ SP _).map _ = _
    exact congrArg _ hhere
  have hdrop : (contentDisposition name filename).drop 17 = name ++ QUOTE :: rest := by
    rw [hrest]
    rfl
  have hquote : strchrAt (name ++ QUOTE :: rest) QUOTE = some name.length := by
    apply strchrAt_append name rest QUOTE (by decide)
    intro c hc
    obtain ⟨hlit, hq, -⟩ := plainByte_facts c (hname c hc)
    exact ⟨literalByte_ne_nul c hlit, hq⟩
  unfold findAttributeValue
  rw [hfind]
  show (strchrAt ((contentDisposition name filename).drop 17) QUOTE).map _ = _
  rw [hdrop, hquote]
  rfl

/-- `filename=` begins neither in front of the name nor in it. -/
theorem filename_not_before (tail rest : List Byte) :
    ∀ i < 17 + name.length,
      ¬ ascii "filename" ++ EQUALS :: tail <+: (DISPOSITION ++ (name ++ QUOTE :: rest)).drop i := by
  intro i hi
  have heq : EQUALS ∉ name := by
    intro hmem
    exact (plainByte_facts EQUALS (hname _ hmem)).2.2 rfl
  by_cases hfront : i < 17
  · cases i with
    | zero =>
      rintro ⟨z, hz⟩
      have hsecond := congrArg (fun t => t[1]?) hz
      simp [DISPOSITION, ascii] at hsecond
    | succ i =>
      exact no_prefix_of_head (ascii "filename" ++ EQUALS :: tail) 102 rfl
        (ascii "orm-data; name=" ++ [QUOTE]) (name ++ QUOTE :: rest) (by decide) i
        (by simp [ascii]; omega)
  · have hdrop : (DISPOSITION ++ (name ++ QUOTE :: rest)).drop i =
        (name ++ QUOTE :: rest).drop (i - 17) := by
      have hi17 : i = 17 + (i - 17) := by omega
      conv_lhs => rw [hi17, ← List.drop_drop]
      rfl
    rw [hdrop]
    obtain h | h := attribute_not_in_quoted (ascii "filename") name rest tail (i - 17) (by decide) heq
    · exact h
    · omega

theorem findAttributeValue_no_filename :
    findAttributeValue (ascii "filename") (contentDisposition name none) = some none := by
  have hnone : ∀ tail, findAttribute (ascii "filename" ++ EQUALS :: tail) NUL
      (contentDisposition name none) = none := by
    intro tail
    have hpass := findAttribute_pass (ascii "filename" ++ EQUALS :: tail) (DISPOSITION ++ name)
      [QUOTE] NUL
    rw [List.append_assoc] at hpass
    have hshape : contentDisposition name none = DISPOSITION ++ (name ++ [QUOTE]) := rfl
    rw [hshape, hpass]
    · rfl
    · intro i hi
      rw [List.length_append] at hi
      exact filename_not_before name hname tail [] i hi
  unfold findAttributeValue
  rw [hnone [QUOTE], hnone []]

theorem findAttributeValue_filename (f : List Byte) (hf : ∀ c ∈ f, plainByte c = true) :
    findAttributeValue (ascii "filename") (contentDisposition name (some f)) =
      some (some ⟨17 + name.length + 13, 17 + name.length + 13 + f.length⟩) := by
  obtain ⟨u, hu⟩ : ∃ u, u = DISPOSITION ++ (name ++ QUOTE :: ascii "; ") := ⟨_, rfl⟩
  have hulen : u.length = 17 + name.length + 3 := by
    rw [hu]
    simp [DISPOSITION, ascii]
    omega
  have hshape : contentDisposition name (some f) =
      u ++ (ascii "filename" ++ EQUALS :: QUOTE :: (f ++ [QUOTE])) := by
    rw [hu]
    simp [contentDisposition, DISPOSITION, ascii]
  have hlast : u.getLast?.getD NUL = SP := by
    rw [hu]
    simp [ascii, List.getLast?_append]
  have hbefore : ∀ i < u.length, ¬ ascii "filename" ++ [EQUALS, QUOTE] <+:
      (u ++ (ascii "filename" ++ EQUALS :: QUOTE :: (f ++ [QUOTE]))).drop i := by
    intro i hi
    by_cases hin : i < 17 + name.length
    · have h := filename_not_before name hname [QUOTE] (ascii "; " ++ (ascii "filename" ++
        EQUALS :: QUOTE :: (f ++ [QUOTE]))) i hin
      rw [hu]
      simpa using h
    · have hgap : (u ++ (ascii "filename" ++ EQUALS :: QUOTE :: (f ++ [QUOTE]))).drop i =
          (QUOTE :: ascii "; " ++ (ascii "filename" ++ EQUALS :: QUOTE :: (f ++ [QUOTE]))).drop
            (i - (17 + name.length)) := by
        have hi' : i = 17 + name.length + (i - (17 + name.length)) := by omega
        have hlen : (DISPOSITION ++ name).length = 17 + name.length := by
          rw [List.length_append]
          rfl
        have hcut : u ++ (ascii "filename" ++ EQUALS :: QUOTE :: (f ++ [QUOTE])) =
            (DISPOSITION ++ name) ++ (QUOTE :: ascii "; " ++
              (ascii "filename" ++ EQUALS :: QUOTE :: (f ++ [QUOTE]))) := by
          rw [hu]
          simp
        conv_lhs => rw [hi', ← List.drop_drop, hcut, ← hlen, List.drop_left, hlen]
      rw [hgap]
      apply no_prefix_of_head _ 102 rfl (QUOTE :: ascii "; ") _ (by decide)
      rw [hulen] at hi
      simp [ascii]
      omega
  have hfind : findAttribute (ascii "filename" ++ [EQUALS, QUOTE]) NUL
      (contentDisposition name (some f)) = some (17 + name.length + 3) := by
    have hhere := findAttribute_here (ascii "filename" ++ [EQUALS, QUOTE]) SP 102
      (ascii "ilename" ++ EQUALS :: QUOTE :: (f ++ [QUOTE])) ⟨f ++ [QUOTE], rfl⟩ rfl
    have hmap := congrArg (Option.map (· + u.length)) hhere
    rw [hshape, findAttribute_pass _ _ _ _ hbefore, hlast, ← hulen]
    exact hmap.trans (congrArg some (Nat.zero_add _))
  have hquote : strchrAt (f ++ [QUOTE]) QUOTE = some f.length := by
    apply strchrAt_append f [] QUOTE (by decide)
    intro c hc
    obtain ⟨hlit, hq, -⟩ := plainByte_facts c (hf c hc)
    exact ⟨literalByte_ne_nul c hlit, hq⟩
  unfold findAttributeValue
  rw [hfind]
  show (strchrAt ((contentDisposition name (some f)).drop (17 + name.length + 13)) QUOTE).map _ = _
  rw [contentDisposition_drop, hquote]
  rfl

/-- The names of a part are read back from its `Content-Disposition`; an empty file name counts as none. -/
theorem partNames_contentDisposition (filename : Option (List Byte))
    (hfile : ∀ f ∈ filename, ∀ c ∈ f, plainByte c = true) :
    partNames (contentDisposition name filename) =
      some (name, filename.filter (fun f => f ≠ [])) := by
  have hbytes : Span.bytes ⟨17, 17 + name.length⟩ (contentDisposition name filename) = name := by
    obtain ⟨rest, hrest⟩ : ∃ rest, contentDisposition name filename =
        DISPOSITION ++ (name ++ QUOTE :: rest) := ⟨_, rfl⟩
    have hdrop : (contentDisposition name filename).drop 17 = name ++ QUOTE :: rest := by
      rw [hrest]
      rfl
    unfold Span.bytes
    rw [hdrop, Nat.add_sub_cancel_left, List.take_left]
  unfold partNames
  rw [findAttributeValue_name name hname filename]
  cases filename with
  | none =>
    rw [findAttributeValue_no_filename name hname]
    dsimp only
    rw [hbytes]
    rfl
  | some f =>
    rw [findAttributeValue_filename name hname f (hfile f rfl)]
    dsimp only
    have hfbytes : Span.bytes ⟨17 + name.length + 13, 17 + name.length + 13 + f.length⟩
        (contentDisposition name (some f)) = f := by
      unfold Span.bytes
      rw [contentDisposition_drop, Nat.add_sub_cancel_left, List.take_left]
    have hapart : 17 + name.length < 17 + name.length + 13 := by omega
    rw [hbytes, hfbytes, if_neg (fun h => h (Or.inl hapart))]
    by_cases hnil : f = []
    · subst hnil
      rw [if_neg (by simp)]
      rfl
    · have hpos := List.length_pos_of_ne_nil hnil
      rw [if_pos (by omega)]
      simp [Option.filter, hnil]

end

/-! ### The header block of a part -/

/-- The empty line behind a block of header lines is the first one. -/
theorem find_blank_line (lines : List (List Byte)) (z : List Byte) (hne : lines ≠ [])
    (hlines : ∀ l ∈ lines, l ≠ [] ∧ CR ∉ l) :
    Scan.find [CR, LF, CR, LF] (lines.flatMap (· ++ [CR, LF]) ++ CR :: LF :: z) =
      some ((lines.flatMap (· ++ [CR, LF])).length - 2) := by
  induction lines with
  | nil => exact absurd rfl hne
  | cons l lines ih =>
    obtain ⟨-, hcr⟩ := hlines l (by simp)
    obtain ⟨rest, hrest⟩ : ∃ rest, rest = lines.flatMap (· ++ [CR, LF]) ++ CR :: LF :: z := ⟨_, rfl⟩
    have hshape : (l :: lines).flatMap (· ++ [CR, LF]) ++ CR :: LF :: z =
        l ++ CR :: LF :: rest := by
      rw [hrest]
      simp
    have hlen : ((l :: lines).flatMap (· ++ [CR, LF])).length =
        l.length + 2 + (lines.flatMap (· ++ [CR, LF])).length := by
      simp only [List.flatMap_cons, List.length_append, List.length_cons, List.length_nil]
    rw [hshape, Scan.find_skip [CR, LF, CR, LF] CR rfl l _ hcr, hlen]
    cases lines with
    | nil =>
      have hfirst : Scan.find [CR, LF, CR, LF] (CR :: LF :: rest) = some 0 := by
        apply Scan.find_eq_some
        · rw [hrest]
          exact ⟨z, rfl⟩
        · intro j hj
          omega
      rw [hfirst]
      simp
    | cons l' lines =>
      have hrec := ih (by simp) (fun l hl => hlines l (by simp [hl]))
      rw [← hrest] at hrec
      obtain ⟨hne', hcr'⟩ := hlines l' (by simp)
      obtain ⟨c, t, rfl⟩ := List.exists_cons_of_ne_nil hne'
      have hc : CR ≠ c := by
        intro h
        exact hcr' (by simp [h])
      obtain ⟨u, hu⟩ : ∃ u, rest = c :: u := ⟨_, hrest⟩
      -- neither the line end nor its LF starts an empty line
      have hskip : Scan.find [CR, LF, CR, LF] (CR :: LF :: rest) =
          (Scan.find [CR, LF, CR, LF] rest).map (· + 2) := by
        have h1 : ¬ [CR, LF, CR, LF].isPrefixOf (CR :: LF :: rest) = true := by
          rw [hu, List.isPrefixOf_iff_prefix]
          intro h
          simp only [List.cons_prefix_cons] at h
          exact hc h.2.2.1
        have h2 : Scan.find [CR, LF, CR, LF] (LF :: rest) =
            (Scan.find [CR, LF, CR, LF] rest).map (· + 1) :=
          Scan.find_skip [CR, LF, CR, LF] CR rfl [LF] rest (by decide)
        rw [Scan.find, if_neg h1, h2, Option.map_map]
        rfl
      have hpos : 2 ≤ (((c :: t) :: lines).flatMap (· ++ [CR, LF])).length := by
        simp only [List.flatMap_cons, List.length_append, List.length_cons, List.length_nil]
        omega
      rw [hskip, hrec]
      simp only [Option.map_some, Option.some.injEq]
      omega

theorem headerLines_bytes (hs : List MgHeader) (lines : List (List Byte))
    (h : List.Forall₂ HeaderLine hs lines) : ∀ l ∈ lines, l ≠ [] ∧ CR ∉ l ∧ NUL ∉ l := by
  induction h with
  | nil => simp
  | @cons h l hs lines hl _ ih =>
    have hbytes := hl.bytes
    refine List.forall_mem_cons.mpr ⟨⟨?_, ?_, ?_⟩, ih⟩
    · rintro rfl
      exact absurd hl.start (by decide)
    · intro hmem
      exact absurd (hbytes CR hmem).1 (by decide)
    · intro hmem
      exact (hbytes NUL hmem).2 rfl

/-- A part of a form: the names, the header lines that give them, and the data. -/
structure FormPart where
  name : List Byte
  filename : Option (List Byte)
  headers : List MgHeader
  lines : List (List Byte)
  data : List Byte

def FormPart.block (p : FormPart) : List Byte := p.lines.flatMap (· ++ [CR, LF])

/-- CRLF, `--` and the boundary. -/
def delimiter (boundary : List Byte) : List Byte := DELIMITER_START ++ boundary

def dashBoundary (boundary : List Byte) : List Byte := ascii "--" ++ boundary

/-- A part that can be written between boundaries. -/
structure WellFormedPart (boundary : List Byte) (p : FormPart) : Prop where
  name : ∀ c ∈ p.name, plainByte c = true
  filename : ∀ f ∈ p.filename, PlainFile f ∧ ∀ c ∈ f, plainByte c = true
  lines : List.Forall₂ HeaderLine p.headers p.lines
  disposition : getHeader p.headers (ascii "Content-Disposition") =
    some (contentDisposition p.name p.filename)
  block : p.block.length ≤ 4096
  data : ¬ delimiter boundary <:+: CR :: LF :: p.data

/-- What the tables and buffers for the head of a part have room for. -/
structure PartLimits (p : FormPart) : Prop where
  headers : p.headers.length ≤ mgMaxHeaders
  name : p.name.length < 1024
  filename : ∀ f ∈ p.filename, f.length < 1024

/-- The offset of the data of a part behind its dash boundary. -/
def FormPart.hend (boundary : List Byte) (p : FormPart) : Nat :=
  boundary.length + 2 + 2 + p.block.length + 2

theorem WellFormedPart.lines_ne (boundary : List Byte) (p : FormPart) (hp : WellFormedPart boundary p) :
    p.lines ≠ [] := by
  intro hnil
  have hlines := hp.lines
  rw [hnil, List.forall₂_nil_right_iff] at hlines
  have hdisp := hp.disposition
  rw [hlines] at hdisp
  cases hdisp

theorem WellFormedPart.block_ge (boundary : List Byte) (p : FormPart) (hp : WellFormedPart boundary p) :
    2 ≤ p.block.length := by
  obtain ⟨l, lines, hlines⟩ := List.exists_cons_of_ne_nil (WellFormedPart.lines_ne boundary p hp)
  unfold FormPart.block
  rw [hlines]
  simp only [List.flatMap_cons, List.length_append, List.length_cons, List.length_nil]
  omega

theorem WellFormedPart.block_no_nul (boundary : List Byte) (p : FormPart)
    (hp : WellFormedPart boundary p) : NUL ∉ p.block := by
  intro hmem
  obtain ⟨l, hl, hin⟩ := List.mem_flatMap.mp hmem
  obtain h | h := List.mem_append.mp hin
  · exact (headerLines_bytes _ _ hp.lines l hl).2.2 h
  · exact absurd h (by decide)

/-- The head of a part is read back from what was written. -/
theorem parsePartHead_render (boundary : List Byte) (p : FormPart) (hp : WellFormedPart boundary p)
    (hlimits : PartLimits p) (hnul : NUL ∉ boundary) (z : List Byte) :
    parsePartHead boundary (dashBoundary boundary ++ CR :: LF :: (p.block ++ CR :: LF :: z)) =
      .part (p.hend boundary) p.name (p.filename.filter (fun f => f ≠ [])) := by
  obtain ⟨hbuf, hhbuf⟩ : ∃ hbuf, hbuf = p.block ++ CR :: LF :: z := ⟨_, rfl⟩
  obtain ⟨buf, hb⟩ : ∃ buf, buf = dashBoundary boundary ++ CR :: LF :: hbuf := ⟨_, rfl⟩
  have hstart : buf.drop 2 = boundary ++ CR :: LF :: hbuf := by
    rw [hb]
    rfl
  have hafter : buf.drop (2 + boundary.length) = CR :: LF :: hbuf := by
    rw [← List.drop_drop, hstart, List.drop_left]
  have hpadding : ((CR :: LF :: hbuf).takeWhile isblank) = [] := rfl
  have hdash : strncmp buf (ascii "--") 2 = 0 := by
    apply (strncmp_eq_zero buf (ascii "--") (by decide)).mpr
    rw [hb]
    exact ⟨boundary ++ CR :: LF :: hbuf, by simp [dashBoundary]⟩
  have hboundary : strncmp (buf.drop 2) boundary boundary.length = 0 := by
    apply (strncmp_eq_zero _ boundary hnul).mpr
    rw [hstart]
    exact List.prefix_append _ _
  have hcrlf : strncmp (CR :: LF :: hbuf) [CR, LF] 2 = 0 := by
    apply (strncmp_eq_zero _ [CR, LF] (by decide)).mpr
    exact ⟨hbuf, rfl⟩
  have hlen : buf.length = boundary.length + 2 + 2 + hbuf.length := by
    rw [hb]
    simp [dashBoundary, ascii]
    omega
  have hhlen : hbuf.length = p.block.length + 2 + z.length := by
    rw [hhbuf]
    simp
    omega
  have hge := WellFormedPart.block_ge boundary p hp
  have hfind : Scan.find [CR, LF, CR, LF] (cstr hbuf) = some (p.block.length - 2) := by
    have hcstr : cstr hbuf = p.block ++ CR :: LF :: cstr z := by
      have hno := WellFormedPart.block_no_nul boundary p hp
      rw [hhbuf, cstr, List.takeWhile_append_of_pos, List.takeWhile_cons_of_pos rfl,
        List.takeWhile_cons_of_pos rfl, cstr]
      intro c hc
      rw [bne_iff_ne]
      rintro rfl
      exact hno hc
    rw [hcstr]
    apply find_blank_line p.lines (cstr z) (WellFormedPart.lines_ne boundary p hp)
    intro l hl
    obtain ⟨hne, hcr, -⟩ := headerLines_bytes _ _ hp.lines l hl
    exact ⟨hne, hcr⟩
  obtain ⟨written, hparse⟩ : ∃ written,
      parseHttpHeaders hbuf = ⟨true, p.headers, written, CR :: LF :: z⟩ := by
    rw [hhbuf]
    exact headersLoop_lines .crlf mgMaxHeaders p.headers p.lines (CR :: LF :: z) hp.lines
      hlimits.headers rfl
  have hnames := partNames_contentDisposition p.name hp.name p.filename
    (fun f hf => (hp.filename f hf).2)
  rw [← hhbuf, ← hb]
  unfold parsePartHead
  dsimp only
  rw [if_neg (by rw [hdash, hboundary]; simp; omega)]
  have htail : (CR :: LF :: hbuf).drop 2 = hbuf := rfl
  simp only [hafter, hpadding, List.length_nil, Nat.add_zero]
  rw [if_neg (fun h => h hcrlf), htail, hfind]
  dsimp only
  rw [hparse]
  dsimp only
  rw [if_neg (by rw [hhlen]; simp; omega), if_pos rfl, hp.disposition]
  dsimp only
  rw [hnames]
  dsimp only
  unfold FormPart.hend
  rw [PartHead.part.injEq]
  exact ⟨by omega, rfl, rfl⟩

/-- The end of a body is recognised. -/
theorem parsePartHead_final (boundary z : List Byte) (hnul : NUL ∉ boundary) :
    parsePartHead boundary (dashBoundary boundary ++ (ascii "--" ++ z)) = .final := by
  obtain ⟨buf, hb⟩ : ∃ buf, buf = dashBoundary boundary ++ (ascii "--" ++ z) := ⟨_, rfl⟩
  have hstart : buf.drop 2 = boundary ++ (ascii "--" ++ z) := by
    rw [hb]
    rfl
  have hafter : buf.drop (2 + boundary.length) = ascii "--" ++ z := by
    rw [← List.drop_drop, hstart, List.drop_left]
  have hpadding : (ascii "--" ++ z).takeWhile isblank = [] := rfl
  have hdash : strncmp buf (ascii "--") 2 = 0 := by
    apply (strncmp_eq_zero buf (ascii "--") (by decide)).mpr
    rw [hb]
    exact ⟨boundary ++ (ascii "--" ++ z), by simp [dashBoundary]⟩
  have hboundary : strncmp (buf.drop 2) boundary boundary.length = 0 := by
    apply (strncmp_eq_zero _ boundary hnul).mpr
    rw [hstart]
    exact List.prefix_append _ _
  have hcrlf : strncmp (ascii "--" ++ z) [CR, LF] 2 ≠ 0 := by
    intro h
    obtain ⟨t, ht⟩ := (strncmp_eq_zero _ [CR, LF] (by decide)).mp h
    have hfirst : some CR = some 45 := congrArg List.head? ht
    exact absurd hfirst (by decide)
  have hend : strncmp (ascii "--" ++ z) (ascii "--") 2 = 0 := by
    apply (strncmp_eq_zero _ (ascii "--") (by decide)).mpr
    exact List.prefix_append _ _
  have hlen : ¬ buf.length < boundary.length + 2 := by
    rw [hb]
    simp [dashBoundary, ascii]
  rw [← hb]
  unfold parsePartHead
  dsimp only
  rw [if_neg (by rw [hdash, hboundary]; simp only [ne_eq, not_true_eq_false, or_false]; exact hlen)]
  simp only [hafter, hpadding, List.length_nil, Nat.add_zero]
  rw [if_pos hcrlf, if_neg (fun h => h hend)]

end CivetWeb
