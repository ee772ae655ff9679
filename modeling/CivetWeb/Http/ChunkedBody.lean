import CivetWeb.Strtol
import Mathlib.Data.List.Chain

namespace CivetWeb

def CRLF : List Byte := [CR, LF]

abbrev SEMICOLON : Byte := 59

/-- The trailer of a chunked body with the CRLF that ends it; `T` describes a line. -/
inductive Trailer (T : List Byte → Prop) : List Byte → Prop where
  | done : Trailer T CRLF
  | line (t s : List Byte) : T t → Trailer T s → Trailer T (t ++ CRLF ++ s)

/-- What is left of a chunked body where `r` bytes of the current chunk are left, and
its data. `L` relates a size line to its size, `T` describes a trailer line. -/
inductive ChunkedBody (L : List Byte → Nat → Prop) (T : List Byte → Prop) :
    Nat → List Byte → List Byte → Prop where
  | last (line s : List Byte) : L line 0 → Trailer T s → ChunkedBody L T 0 (line ++ CRLF ++ s) []
  | size (line s d : List Byte) (n : Nat) : L line n → 0 < n → ChunkedBody L T n s d →
      ChunkedBody L T 0 (line ++ CRLF ++ s) d
  | data (bs s d : List Byte) : bs ≠ [] → ChunkedBody L T 0 s d →
      ChunkedBody L T bs.length (bs ++ CRLF ++ s) (bs ++ d)

theorem Trailer.mono (T T' : List Byte → Prop) (hT : ∀ t, T t → T' t) (s : List Byte)
    (h : Trailer T s) : Trailer T' s := by
  induction h with
  | done => exact Trailer.done
  | line t s ht _ ih => exact Trailer.line t s (hT t ht) ih

theorem ChunkedBody.mono (L L' : List Byte → Nat → Prop) (T T' : List Byte → Prop)
    (hL : ∀ line n, L line n → L' line n) (hT : ∀ t, T t → T' t) (r : Nat) (s d : List Byte)
    (h : ChunkedBody L T r s d) : ChunkedBody L' T' r s d := by
  induction h with
  | last line s hl ht => exact ChunkedBody.last line s (hL line 0 hl) (ht.mono T T' hT)
  | size line s d n hl hn _ ih => exact ChunkedBody.size line s d n (hL line n hl) hn ih
  | data bs s d hne _ ih => exact ChunkedBody.data bs s d hne ih

def hexValue (digits : List Byte) : Nat := Numeral.value 16 digitValue digits

/-- A size line: digits whose value fits in a signed 64-bit integer, and what may follow them. -/
structure SizeLine (E : List Byte → List Byte → Prop) (line : List Byte) (n : Nat) : Prop where
  fits : n < 2 ^ 63
  shape : ∃ digits ext, line = digits ++ ext ∧ digits ≠ [] ∧ (∀ a ∈ digits, isxdigit a = true) ∧
    n = hexValue digits ∧ (∀ a ∈ ext.head?, isxdigit a = false) ∧ E digits ext

/-- No CR or LF inside a line. -/
def CleanLine (line : List Byte) : Prop := CR ∉ line ∧ LF ∉ line

instance (line : List Byte) : Decidable (CleanLine line) :=
  inferInstanceAs (Decidable (CR ∉ line ∧ LF ∉ line))

/-- A chunk extension, if there is one: a semicolon and anything on the line. -/
def ChunkExt (ext : List Byte) : Prop := (∀ a ∈ ext.head?, a = SEMICOLON) ∧ CleanLine ext

/-- The grammar of chunked bodies. -/
def GrammarBody : Nat → List Byte → List Byte → Prop :=
  ChunkedBody (SizeLine fun _ ext => ChunkExt ext) (fun t => t ≠ [] ∧ CleanLine t)

def NoCrlf (s : List Byte) : Prop := List.IsChain (fun a b => ¬ (a = CR ∧ b = LF)) s

/-- What the server takes for an extension: it stops at no LF, and a CR need not end the line. -/
def ReadExt (ext : List Byte) : Prop :=
  (∀ a ∈ ext.head?, a = SEMICOLON ∨ a = CR) ∧ NoCrlf ext

/-- A trailer line as the server takes it. -/
def ReadField (t : List Byte) : Prop := t ≠ [] ∧ CR ∉ t

/-- The bodies that the server decodes. -/
def ReadBody : Nat → List Byte → List Byte → Prop :=
  ChunkedBody (SizeLine fun _ ext => ReadExt ext) ReadField

/-- The bytes up to the first CRLF. -/
def crlfLine : List Byte → List Byte
  | [] => []
  | b :: s => if b = CR ∧ s.head? = some LF then [] else b :: crlfLine s

theorem crlfLine_cons (b : Byte) (s : List Byte) :
    crlfLine (b :: s) = if b = CR ∧ s.head? = some LF then [] else b :: crlfLine s := rfl

theorem crlfLine_append (line s : List Byte) (h : NoCrlf line) :
    crlfLine (line ++ CRLF ++ s) = line := by
  induction line with
  | nil => rfl
  | cons b line ih =>
    have hb : ¬ (b = CR ∧ (line ++ CRLF ++ s).head? = some LF) := by
      cases line with
      | nil =>
        have hdiff : CR ≠ LF := by decide
        simp [CRLF, hdiff]
      | cons c line =>
        have hbc := (List.isChain_cons_cons.mp h).1
        simpa using hbc
    rw [List.cons_append, List.cons_append, crlfLine_cons, if_neg hb, ih (List.IsChain.tail h)]

theorem noCrlf_of_not_mem (s : List Byte) (h : CR ∉ s ∨ LF ∉ s) : NoCrlf s := by
  induction s with
  | nil => exact List.isChain_nil
  | cons b s ih =>
    have hs := ih (h.imp (fun h hm => h (by simp [hm])) (fun h hm => h (by simp [hm])))
    refine List.isChain_cons.mpr ⟨?_, hs⟩
    intro c hc hbc
    have hmem : c ∈ s := List.mem_of_mem_head? hc
    rcases h with h | h
    · exact h (by simp [hbc.1])
    · exact h (by simp [← hbc.2, hmem])

theorem noCrlf_append (s t : List Byte) (hs : NoCrlf s) (ht : NoCrlf t)
    (h : ∀ a ∈ t.head?, a ≠ LF) : NoCrlf (s ++ t) :=
  List.isChain_append.mpr ⟨hs, ht, fun _ _ a ha hcrlf => h a ha hcrlf.2⟩

theorem isxdigit_ne : ∀ a, isxdigit a = true → a ≠ CR ∧ a ≠ LF ∧ a ≠ SEMICOLON :=
  byte_all _ (by decide +kernel)

theorem xdigits_clean (digits : List Byte) (h : ∀ a ∈ digits, isxdigit a = true) :
    CleanLine digits :=
  ⟨fun hm => (isxdigit_ne CR (h CR hm)).1 rfl, fun hm => (isxdigit_ne LF (h LF hm)).2.1 rfl⟩

/-- The size that a line announces. -/
def lineSize (line : List Byte) : Nat := hexValue (line.takeWhile isxdigit)

theorem lineSize_eq (digits ext : List Byte) (h : ∀ a ∈ digits, isxdigit a = true)
    (hext : ∀ a ∈ ext.head?, isxdigit a = false) : lineSize (digits ++ ext) = hexValue digits := by
  rw [lineSize, List.takeWhile_append_of_pos h]
  cases ext with
  | nil => simp
  | cons a ext => rw [List.takeWhile_cons_of_neg (by simp [hext a rfl]), List.append_nil]

theorem SizeLine.lineSize (E : List Byte → List Byte → Prop) (line : List Byte) (n : Nat)
    (h : SizeLine E line n) : lineSize line = n := by
  obtain ⟨digits, ext, rfl, -, hdigits, hn, hext, -⟩ := h.shape
  rw [lineSize_eq digits ext hdigits hext, hn]

/-- The size lines and trailer lines of a stream, each up to its first CRLF. -/
def trailerLines : Nat → List Byte → List (List Byte)
  | 0, _ => []
  | n + 1, s =>
    let line := crlfLine s
    if line = [] then [] else line :: trailerLines n (s.drop (line.length + 2))

def chunkLines : Nat → List Byte → List (List Byte)
  | 0, _ => []
  | n + 1, s =>
    let line := crlfLine s
    let next := s.drop (line.length + 2)
    if lineSize line = 0 then line :: trailerLines n next
    else line :: chunkLines n (next.drop (lineSize line + 2))

def bodyLines (s : List Byte) : List (List Byte) := chunkLines s.length s

theorem readLine_noCrlf (digits ext : List Byte) (h : ∀ a ∈ digits, isxdigit a = true) (hext : ReadExt ext) :
    NoCrlf (digits ++ ext) := by
  apply noCrlf_append digits ext (noCrlf_of_not_mem digits (Or.inl (xdigits_clean digits h).1)) hext.2
  intro a ha
  rcases hext.1 a ha with rfl | rfl <;> decide

theorem SizeLine.noCrlf {line : List Byte} {n : Nat} (h : SizeLine (fun _ ext => ReadExt ext) line n) :
    NoCrlf line := by
  obtain ⟨digits, ext, rfl, -, hdigits, -, -, hext⟩ := h.shape
  exact readLine_noCrlf digits ext hdigits hext

theorem drop_line (line s : List Byte) : (line ++ CRLF ++ s).drop (line.length + 2) = s := by
  have hlen : line.length + 2 = (line ++ CRLF).length := by simp [CRLF]
  rw [hlen, List.drop_left]

theorem trailerLines_line (n : Nat) (t s : List Byte) (ht : t ≠ []) (h : NoCrlf t) :
    trailerLines (n + 1) (t ++ CRLF ++ s) = t :: trailerLines n s := by
  rw [trailerLines]
  simp only [crlfLine_append t s h, if_neg ht, drop_line]

theorem trailerLines_done (n : Nat) (s : List Byte) : trailerLines n (CRLF ++ s) = [] := by
  cases n with
  | zero => rfl
  | succ n => rfl

theorem chunkLines_last (n : Nat) (line s : List Byte) (h : NoCrlf line) (hz : lineSize line = 0) :
    chunkLines (n + 1) (line ++ CRLF ++ s) = line :: trailerLines n s := by
  rw [chunkLines]
  simp only [crlfLine_append line s h, if_pos hz, drop_line]

theorem chunkLines_size (n : Nat) (line s : List Byte) (h : NoCrlf line)
    (hz : 0 < lineSize line) :
    chunkLines (n + 1) (line ++ CRLF ++ s) =
      line :: chunkLines n (s.drop (lineSize line + 2)) := by
  rw [chunkLines]
  simp only [crlfLine_append line s h, if_neg (by omega : ¬ lineSize line = 0), drop_line]

/-- The lines of a stream from a position inside the current chunk on. -/
def linesAfter (r n : Nat) (s : List Byte) : List (List Byte) :=
  if r = 0 then chunkLines n s else chunkLines n (s.drop (r + 2))

theorem trailerLines_of_trailer (T : List Byte → Prop) (s : List Byte) (h : Trailer T s)
    (hT : ∀ t, T t → t ≠ [] ∧ NoCrlf t) (n : Nat) (rest : List Byte) :
    ∀ t ∈ trailerLines n (s ++ rest), T t := by
  induction h generalizing n with
  | done =>
    rw [trailerLines_done]
    simp
  | line t s ht _ ih =>
    cases n with
    | zero => simp [trailerLines]
    | succ n =>
      obtain ⟨hne, hcrlf⟩ := hT t ht
      rw [List.append_assoc, trailerLines_line n t (s ++ rest) hne hcrlf]
      intro u hu
      rcases List.mem_cons.mp hu with rfl | hu
      · exact ht
      · exact ih n u hu

/-- The lines of a derivable body have no CR or LF in them. -/
theorem lines_of_grammar (r : Nat) (s d : List Byte) (h : GrammarBody r s d) (n : Nat)
    (rest : List Byte) : ∀ line ∈ linesAfter r n (s ++ rest), CleanLine line := by
  have hclean (line : List Byte) (m : Nat) (hl : SizeLine (fun _ ext => ChunkExt ext) line m) :
      CleanLine line := by
    obtain ⟨digits, ext, rfl, -, hdigits, -, -, -, hext⟩ := hl.shape
    have hd := xdigits_clean digits hdigits
    exact ⟨by simp [hd.1, hext.1], by simp [hd.2, hext.2]⟩
  induction h generalizing n with
  | last line s hl ht =>
    cases n with
    | zero => simp [linesAfter, chunkLines]
    | succ n =>
      have hc := hclean line 0 hl
      rw [linesAfter, if_pos rfl, List.append_assoc, chunkLines_last n line (s ++ rest)
        (noCrlf_of_not_mem line (Or.inl hc.1)) hl.lineSize]
      intro l hmem
      rcases List.mem_cons.mp hmem with rfl | hmem
      · exact hc
      · exact (trailerLines_of_trailer _ s ht (fun t ht =>
          ⟨ht.1, noCrlf_of_not_mem t (Or.inl ht.2.1)⟩) n rest l hmem).2
  | size line s d m hl hm _ ih =>
    cases n with
    | zero => simp [linesAfter, chunkLines]
    | succ n =>
      have hc := hclean line m hl
      have hsize := hl.lineSize
      rw [linesAfter, if_pos rfl, List.append_assoc, chunkLines_size n line (s ++ rest)
        (noCrlf_of_not_mem line (Or.inl hc.1)) (by omega)]
      intro l hmem
      rcases List.mem_cons.mp hmem with rfl | hmem
      · exact hc
      · have hrec := ih n
        rw [linesAfter, if_neg (by omega)] at hrec
        rw [hsize] at hmem
        exact hrec l hmem
  | data bs s d hne _ ih =>
    have hlen : bs.length ≠ 0 := by simpa using hne
    rw [linesAfter, if_neg hlen, List.append_assoc, drop_line]
    have hrec := ih n
    rw [linesAfter, if_pos rfl] at hrec
    exact hrec

theorem trailer_of_lines (s : List Byte) (h : Trailer ReadField s) (n : Nat)
    (hn : s.length ≤ n) (rest : List Byte)
    (hclean : ∀ t ∈ trailerLines n (s ++ rest), CleanLine t) :
    Trailer (fun t => t ≠ [] ∧ CleanLine t) s := by
  induction h generalizing n with
  | done => exact Trailer.done
  | line t s ht _ ih =>
    obtain ⟨m, rfl⟩ : ∃ m, n = m + 1 := ⟨n - 1, by simp [CRLF] at hn; omega⟩
    rw [List.append_assoc, trailerLines_line m t (s ++ rest) ht.1
      (noCrlf_of_not_mem t (Or.inl ht.2))] at hclean
    apply Trailer.line t s ⟨ht.1, hclean t (by simp)⟩
    apply ih m
    · simp only [CRLF, List.length_append, List.length_cons, List.length_nil] at hn
      omega
    · intro u hu
      exact hclean u (by simp [hu])

/-- A body that the server decodes is derivable where its lines have no CR or LF in them. -/
theorem grammar_of_lines (r : Nat) (s d : List Byte) (h : ReadBody r s d) (n : Nat)
    (hn : s.length ≤ n) (rest : List Byte)
    (hclean : ∀ line ∈ linesAfter r n (s ++ rest), CleanLine line) : GrammarBody r s d := by
  have hstrict (line : List Byte) (m : Nat) (hl : SizeLine (fun _ ext => ReadExt ext) line m)
      (hc : CleanLine line) : SizeLine (fun _ ext => ChunkExt ext) line m := by
    obtain ⟨digits, ext, rfl, hne, hdigits, hm, hx, hstart, -⟩ := hl.shape
    obtain ⟨hcr, hlf⟩ := hc
    simp only [List.mem_append, not_or] at hcr hlf
    refine ⟨hl.fits, digits, ext, rfl, hne, hdigits, hm, hx, ?_, hcr.2, hlf.2⟩
    intro a ha
    rcases hstart a ha with rfl | rfl
    · rfl
    · exact absurd (List.mem_of_mem_head? ha) hcr.2
  induction h generalizing n with
  | last line s hl ht =>
    obtain ⟨m, rfl⟩ : ∃ m, n = m + 1 := ⟨n - 1, by simp [CRLF] at hn; omega⟩
    rw [linesAfter, if_pos rfl, List.append_assoc, chunkLines_last m line (s ++ rest)
      hl.noCrlf hl.lineSize] at hclean
    apply ChunkedBody.last line s (hstrict line 0 hl (hclean line (by simp)))
    apply trailer_of_lines s ht m ?_ rest
    · intro t hmem
      exact hclean t (by simp [hmem])
    · simp only [CRLF, List.length_append, List.length_cons, List.length_nil] at hn
      omega
  | size line s d k hl hk _ ih =>
    obtain ⟨m, rfl⟩ : ∃ m, n = m + 1 := ⟨n - 1, by simp [CRLF] at hn; omega⟩
    have hsize := hl.lineSize
    rw [linesAfter, if_pos rfl, List.append_assoc, chunkLines_size m line (s ++ rest)
      hl.noCrlf (by omega)] at hclean
    apply ChunkedBody.size line s d k (hstrict line k hl (hclean line (by simp))) hk
    apply ih m
    · simp only [CRLF, List.length_append, List.length_cons, List.length_nil] at hn
      omega
    · rw [linesAfter, if_neg (by omega)]
      intro l hmem
      rw [hsize] at hclean
      exact hclean l (by simp [hmem])
  | data bs s d hne _ ih =>
    have hlen : bs.length ≠ 0 := by simpa using hne
    rw [linesAfter, if_neg hlen, List.append_assoc, drop_line] at hclean
    apply ChunkedBody.data bs s d hne
    apply ih n
    · simp only [List.length_append] at hn
      omega
    · rw [linesAfter, if_pos rfl]
      exact hclean

theorem readBody_of_grammar (r : Nat) (s d : List Byte) (h : GrammarBody r s d) : ReadBody r s d := by
  refine h.mono _ _ _ _ (fun line n hl => ?_) (fun t ht => ⟨ht.1, ht.2.1⟩) r s d
  obtain ⟨digits, ext, hline, hne, hdigits, hn, hstart, hext⟩ := hl.shape
  exact ⟨hl.fits, digits, ext, hline, hne, hdigits, hn, hstart, fun a ha => .inl (hext.1 a ha),
    noCrlf_of_not_mem ext (.inl hext.2.1)⟩

/-! ### A stream starts with at most one body -/

theorem line_unique (line line' s s' : List Byte) (h : NoCrlf line) (h' : NoCrlf line')
    (heq : line ++ CRLF ++ s = line' ++ CRLF ++ s') : line = line' ∧ s = s' := by
  have hline : line = line' := by rw [← crlfLine_append line s h, heq, crlfLine_append line' s' h']
  subst hline
  exact ⟨rfl, List.append_cancel_left heq⟩

theorem trailer_unique (e s u rest : List Byte) (h : Trailer ReadField e) (h' : Trailer ReadField s)
    (heq : e ++ u = s ++ rest) : e = s := by
  have hfield (t : List Byte) (ht : ReadField t) : NoCrlf t := noCrlf_of_not_mem t (.inl ht.2)
  induction h generalizing s with
  | done =>
    cases h' with
    | done => rfl
    | line t s ht _ =>
      rw [List.append_assoc _ s] at heq
      exact absurd (line_unique [] t u (s ++ rest) List.isChain_nil (hfield t ht) heq).1.symm ht.1
  | line t e ht _ ih =>
    rw [List.append_assoc _ e] at heq
    cases h' with
    | done => exact absurd (line_unique t [] (e ++ u) rest (hfield t ht) List.isChain_nil heq).1 ht.1
    | line t' s ht' hs =>
      rw [List.append_assoc _ s] at heq
      obtain ⟨rfl, hrest⟩ := line_unique t t' (e ++ u) (s ++ rest) (hfield t ht) (hfield t' ht') heq
      rw [ih s hs hrest]

/-- Where no chunk is left open a body starts with a size line. -/
theorem readBody_line (s d : List Byte) (h : ReadBody 0 s d) :
    ∃ line t n, s = line ++ CRLF ++ t ∧ SizeLine (fun _ ext => ReadExt ext) line n ∧
      (n = 0 ∧ d = [] ∧ Trailer ReadField t ∨ 0 < n ∧ ReadBody n t d) := by
  generalize hr : 0 = r at h
  cases h with
  | last line t hl ht => exact ⟨line, t, 0, rfl, hl, .inl ⟨rfl, rfl, ht⟩⟩
  | size line t d n hl hn ht => exact ⟨line, t, n, rfl, hl, .inr ⟨hn, ht⟩⟩
  | data bs t d hne _ => exact absurd (List.eq_nil_of_length_eq_zero hr.symm) hne

/-- What is left of a chunk comes first in a body. -/
theorem readBody_data (r : Nat) (s d : List Byte) (hr : 0 < r) (h : ReadBody r s d) :
    ∃ bs t d', s = bs ++ CRLF ++ t ∧ d = bs ++ d' ∧ bs.length = r ∧ ReadBody 0 t d' := by
  cases h with
  | last => omega
  | size => omega
  | data bs t d' _ ht => exact ⟨bs, t, d', rfl, rfl, rfl, ht⟩

theorem readBody_unique (r : Nat) (e s out d u rest : List Byte) (h : ReadBody r e out) (h' : ReadBody r s d)
    (heq : e ++ u = s ++ rest) : e = s ∧ out = d := by
  induction h generalizing s d with
  | last line t hl ht =>
    obtain ⟨line', t', n, rfl, hl', hmore⟩ := readBody_line s d h'
    rw [List.append_assoc _ t, List.append_assoc _ t'] at heq
    obtain ⟨rfl, hrest⟩ := line_unique line line' _ _ hl.noCrlf hl'.noCrlf heq
    rcases hmore with ⟨-, rfl, ht'⟩ | ⟨hn, -⟩
    · rw [trailer_unique t t' u rest ht ht' hrest]
      exact ⟨rfl, rfl⟩
    · have hsame := hl.lineSize.symm.trans hl'.lineSize
      omega
  | size line t out n hl hn _ ih =>
    obtain ⟨line', t', m, rfl, hl', hmore⟩ := readBody_line s d h'
    rw [List.append_assoc _ t, List.append_assoc _ t'] at heq
    obtain ⟨rfl, hrest⟩ := line_unique line line' _ _ hl.noCrlf hl'.noCrlf heq
    obtain rfl : n = m := hl.lineSize.symm.trans hl'.lineSize
    rcases hmore with ⟨hz, -⟩ | ⟨-, ht'⟩
    · omega
    · obtain ⟨rfl, rfl⟩ := ih t' d ht' hrest
      exact ⟨rfl, rfl⟩
  | data bs t out hne _ ih =>
    obtain ⟨bs', t', d', rfl, rfl, hlen, ht'⟩ := readBody_data _ s d (List.length_pos_of_ne_nil hne) h'
    simp only [List.append_assoc] at heq
    obtain ⟨rfl, hrest⟩ := List.append_inj heq hlen.symm
    obtain ⟨rfl, rfl⟩ := ih t' d' ht' (List.append_cancel_left hrest)
    exact ⟨rfl, rfl⟩

/-- What is left of a trailer where `k` bytes of CRLF CRLF have been seen. -/
def TrailerRest : Nat → List Byte → Prop
  | 0, e => ∃ t s, e = t ++ CRLF ++ s ∧ CR ∉ t ∧ Trailer ReadField s
  | 1, e => ∃ s, e = LF :: s ∧ Trailer ReadField s
  | 2, e => Trailer ReadField e
  | 3, e => e = [LF]
  | _, e => e = []

/-- The count of CRLF CRLF behind one more byte. -/
def trailerStep (k : Nat) (b : Byte) : Option Nat :=
  if k = 0 ∨ k = 2 then if b = CR then some (k + 1) else some 0
  else if b = LF then some (k + 1) else none

theorem trailerRest_nil (k : Nat) (hk : k < 4) : ¬ TrailerRest k [] := by
  match k, hk with
  | 0, _ => simp [TrailerRest, CRLF]
  | 1, _ => simp [TrailerRest]
  | 2, _ =>
    intro h
    generalize he : ([] : List Byte) = e at h
    cases h <;> simp [CRLF] at he
  | 3, _ => simp [TrailerRest]

theorem trailerRest_cons (k : Nat) (hk : k < 4) (b : Byte) (e : List Byte) :
    TrailerRest k (b :: e) ↔ ∃ k', trailerStep k b = some k' ∧ TrailerRest k' e := by
  have hlf : LF ≠ CR := by decide
  match k, hk with
  | 0, _ =>
    by_cases hb : b = CR
    · simp only [trailerStep, hb, true_or, if_true, Option.some.injEq, exists_eq_left', TrailerRest]
      constructor
      · intro ⟨t, s, he, ht, hs⟩
        cases t with
        | nil => exact ⟨s, by simpa [CRLF] using he, hs⟩
        | cons a t => exact absurd (by simp [(List.cons.inj he).1]) ht
      · intro ⟨s, he, hs⟩
        exact ⟨[], s, by simp [he, CRLF], by simp, hs⟩
    · simp only [trailerStep, hb, true_or, if_true, if_false, Option.some.injEq, exists_eq_left',
        TrailerRest]
      constructor
      · intro ⟨t, s, he, ht, hs⟩
        cases t with
        | nil => exact absurd (List.cons.inj he).1 hb
        | cons a t =>
          simp only [List.mem_cons, not_or] at ht
          exact ⟨t, s, (List.cons.inj he).2, ht.2, hs⟩
      · intro ⟨t, s, he, ht, hs⟩
        exact ⟨b :: t, s, by simp [he], by simp [Ne.symm hb, ht], hs⟩
  | 1, _ =>
    by_cases hb : b = LF
    · simp [trailerStep, hb, TrailerRest]
    · simp [trailerStep, hb, TrailerRest]
  | 2, _ =>
    by_cases hb : b = CR
    · simp only [trailerStep, hb, or_true, if_true, Option.some.injEq, exists_eq_left', TrailerRest]
      constructor
      · intro h
        generalize hs : CR :: e = s at h
        cases h with
        | done => exact (List.cons.inj hs).2
        | line t s ht _ =>
          cases t with
          | nil => exact absurd rfl ht.1
          | cons a t => exact absurd (by simp [(List.cons.inj hs).1]) ht.2
      · intro he
        rw [he]
        exact Trailer.done
    · simp only [trailerStep, hb, or_true, if_true, if_false, Option.some.injEq, exists_eq_left',
        TrailerRest]
      constructor
      · intro h
        generalize hs : b :: e = s at h
        cases h with
        | done => exact absurd (List.cons.inj hs).1 hb
        | line t s ht htail =>
          cases t with
          | nil => exact absurd rfl ht.1
          | cons a t =>
            have hcr := ht.2
            simp only [List.mem_cons, not_or] at hcr
            exact ⟨t, s, (List.cons.inj hs).2, hcr.2, htail⟩
      · intro ⟨t, s, he, ht, hs⟩
        rw [he, ← List.cons_append, ← List.cons_append]
        exact Trailer.line (b :: t) s ⟨by simp, by simp [Ne.symm hb, ht]⟩ hs
  | 3, _ =>
    by_cases hb : b = LF
    · simp [trailerStep, hb, TrailerRest]
    · simp [trailerStep, hb, TrailerRest]

end CivetWeb
