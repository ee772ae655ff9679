import CivetWeb.Http.Accepted
import Mathlib.Data.List.Forall2

namespace CivetWeb

def eolByte (c : Byte) : Bool := c == CR || c == LF

/-- The head that the bytes `buf[0..len)` hold. -/
def requestHead (buf : List Byte) (len : Nat) : List Byte :=
  let start := (buf.take len).dropWhile isspace
  start.take (getHttpHeaderLen start start.length).toNat

/-- The lines between the request line and the end of a head, each with the CR and
LF bytes behind it. -/
def headerBlocks (head : List Byte) : List (List Byte × List Byte) :=
  (Scan.blocks eolByte head).tail

/-- Every line behind the request line is the line of one header, in order. -/
def LinesRepresented (head : List Byte) (hs : List MgHeader) : Prop :=
  List.Forall₂ HeaderLine hs ((headerBlocks head).map Prod.fst)

/-- What the header parser can take over: `n` lines at most, each starting with a
name and each but the last closed by one line end. -/
structure GoodBlocks (n : Nat) (bs : List (List Byte × List Byte)) : Prop where
  count : bs.length ≤ n
  start : ∀ p ∈ bs, nameByte (deref p.1) = true
  ends : ∀ p ∈ bs.dropLast, p.2 = [CR, LF] ∨ p.2 = [LF]

/-- The request line stands on one line, and the header parser can take over the others. -/
def LinesRepresentable (head : List Byte) : Prop :=
  (∀ p ∈ (Scan.blocks eolByte head).head?, p.1.getLast? ≠ some SP) ∧
    GoodBlocks mgMaxHeaders (headerBlocks head)

theorem HeaderLine.bytes (h : MgHeader) (line : List Byte) (hl : HeaderLine h line) :
    ∀ a ∈ line, eolByte a = false ∧ a ≠ NUL := by
  have hname : ∀ a, nameByte a = true → eolByte a = false ∧ a ≠ NUL :=
    byte_all _ (by decide +kernel)
  have hblank : ∀ a, isblank a = true → eolByte a = false ∧ a ≠ NUL :=
    byte_all _ (by decide +kernel)
  have hvalue : ∀ a, valueByte a = true → eolByte a = false ∧ a ≠ NUL :=
    byte_all _ (by decide +kernel)
  obtain ⟨n, blanks, hblanks, rfl⟩ := hl.shape
  intro a ha
  simp only [List.mem_append, List.mem_cons, List.mem_replicate] at ha
  rcases ha with (ha | ⟨-, rfl⟩) | rfl | ha | ha
  · exact hname a (hl.name_bytes a ha)
  · decide
  · decide
  · exact hblank a (hblanks a ha)
  · exact hvalue a (hl.value_bytes a ha)

theorem HeaderLine.start (h : MgHeader) (line : List Byte) (hl : HeaderLine h line) :
    nameByte (deref line) = true := by
  simpa using hl.deref_nameByte h line []

theorem LineEnd.bytes_eol (e : LineEnd) : ∀ a ∈ e.bytes, eolByte a = true ∧ a ≠ NUL := by
  cases e <;> decide

/-- The lines of a header section, whose last line feed is not part of it. -/
def sectionBlocks (next : List Byte) : List (List Byte × List Byte) :=
  Scan.blocks eolByte ((next ++ [LF]).dropWhile eolByte)

theorem sectionBlocks_nil : sectionBlocks [] = [] := rfl

theorem sectionBlocks_start (c : Byte) (next : List Byte) (hc : eolByte c = false) :
    ∃ l b bs, sectionBlocks (c :: next) = (c :: l, b) :: bs := by
  rw [sectionBlocks, List.cons_append, List.dropWhile_cons_of_neg (by simp [hc])]
  exact Scan.blocks_head eolByte c _ hc

theorem sectionBlocks_line (h : MgHeader) (line next : List Byte) (hl : HeaderLine h line)
    (e : LineEnd) :
    sectionBlocks (line ++ e.bytes ++ next) =
      (line, e.bytes ++ (next ++ [LF]).takeWhile eolByte) :: sectionBlocks next := by
  have hline : ∀ a ∈ line, eolByte a = false := fun a ha => (hl.bytes h line a ha).1
  have hrun : ∀ a ∈ e.bytes ++ (next ++ [LF]).takeWhile eolByte, eolByte a = true := by
    intro a ha
    rcases List.mem_append.mp ha with ha | ha
    · exact (e.bytes_eol a ha).1
    · exact Scan.takeWhile_all _ _ a ha
  have hne : e.bytes ++ (next ++ [LF]).takeWhile eolByte ≠ [] := by cases e <;> simp [LineEnd.bytes]
  have hstart : (line ++ e.bytes ++ next ++ [LF]).dropWhile eolByte =
      line ++ e.bytes ++ next ++ [LF] := by
    obtain ⟨a, t, rfl⟩ : ∃ a t, line = a :: t := by
      cases line with
      | nil => exact absurd (hl.start h []) (by decide)
      | cons a t => exact ⟨a, t, rfl⟩
    exact List.dropWhile_cons_of_neg (by simp [hline a (by simp)])
  have hshape : line ++ e.bytes ++ next ++ [LF] =
      line ++ (e.bytes ++ (next ++ [LF]).takeWhile eolByte) ++ (next ++ [LF]).dropWhile eolByte := by
    simp
  rw [sectionBlocks, hstart, hshape]
  exact Scan.blocks_line eolByte line _ _ hline hrun hne (Scan.head_dropWhile _ _)

theorem GoodBlocks.nil (n : Nat) : GoodBlocks n [] := ⟨by simp, by simp, by simp⟩

theorem goodBlocks_cons (n : Nat) (l b : List Byte) (bs : List (List Byte × List Byte)) :
    GoodBlocks (n + 1) ((l, b) :: bs) ↔
      nameByte (deref l) = true ∧ (bs ≠ [] → b = [CR, LF] ∨ b = [LF]) ∧ GoodBlocks n bs := by
  constructor
  · intro ⟨h1, h2, h3⟩
    refine ⟨h2 (l, b) (by simp), ?_, by simpa using h1, fun p hp => h2 p (by simp [hp]), ?_⟩
    · intro hne
      exact h3 (l, b) (by simp [List.dropLast_cons_of_ne_nil hne])
    · intro p hp
      have hne : bs ≠ [] := by
        rintro rfl
        simp at hp
      exact h3 p (by simp [List.dropLast_cons_of_ne_nil hne, hp])
  · intro ⟨h1, h2, h3⟩
    refine ⟨by simpa using h3.count, ?_, ?_⟩
    · intro p hp
      rcases List.mem_cons.mp hp with rfl | hp
      · exact h1
      · exact h3.start p hp
    · intro p hp
      by_cases hne : bs = []
      · simp [hne] at hp
      · rw [List.dropLast_cons_of_ne_nil hne] at hp
        rcases List.mem_cons.mp hp with rfl | hp
        · exact h2 hne
        · exact h3.ends p hp

/-- The loop takes over no more headers than there are lines, and it takes over
all of them exactly where it can. -/
theorem headersLoop_blocks (n : Nat) (next rest : List Byte) (hnul : NUL ∉ next)
    (hstart : ∀ a ∈ next.head?, eolByte a = false) (hlast : ∀ a ∈ next.getLast?, eolByte a = true)
    (hok : (headersLoop n (next ++ NUL :: rest)).ok = true) :
    (headersLoop n (next ++ NUL :: rest)).headers.length ≤ (sectionBlocks next).length ∧
    (List.Forall₂ HeaderLine (headersLoop n (next ++ NUL :: rest)).headers
        ((sectionBlocks next).map Prod.fst) ↔ GoodBlocks n (sectionBlocks next)) := by
  induction n generalizing next with
  | zero =>
    refine ⟨by simp [headersLoop], ?_⟩
    constructor
    · intro h
      have hnil : sectionBlocks next = [] := by simpa [headersLoop] using h
      rw [hnil]
      exact GoodBlocks.nil 0
    · intro h
      have hnil : sectionBlocks next = [] := by simpa using h.count
      simp [headersLoop, hnil]
  | succ n ih =>
    cases hs : headerStep (next ++ NUL :: rest) with
    | invalid => simp [headersLoop, hs] at hok
    | endOfHeaders =>
      rw [headersLoop, hs]
      refine ⟨by simp, ?_⟩
      cases next with
      | nil => simp [sectionBlocks_nil, GoodBlocks.nil]
      | cons c next =>
        obtain ⟨l, b, bs, hbs⟩ := sectionBlocks_start c next (hstart c rfl)
        have hc : ¬ nameByte c = true := by
          intro hc
          have hname := headerStep_end _ hs
          rw [List.cons_append, List.takeWhile_cons_of_pos hc] at hname
          cases hname
        simp [hbs, goodBlocks_cons, hc]
    | field h written r stop =>
      rw [headersLoop_field n _ _ _ _ _ hs] at hok ⊢
      obtain ⟨line, hl, hcase⟩ := headerStep_field _ h written r stop hs
      have hline : NUL ∉ line := fun hmem => (hl.bytes h line NUL hmem).2 rfl
      obtain ⟨e, after, rfl, hr⟩ : ∃ (e : LineEnd) (after : List Byte),
          next = line ++ e.bytes ++ after ∧ r = after ++ NUL :: rest := by
        rcases hcase with ⟨e, he, -⟩ | ⟨he, hr, -⟩
        · have hmem : NUL ∉ line ++ e.bytes := by
            intro hmem
            rcases List.mem_append.mp hmem with hmem | hmem
            · exact hline hmem
            · exact (e.bytes_eol NUL hmem).2 rfl
          obtain ⟨after, h1, h2⟩ := Scan.split_before NUL next (line ++ e.bytes) rest r he hmem
          exact ⟨e, after, h1, h2⟩
        · -- a value that runs into the closing NUL would be the end of the section
          obtain ⟨after, h1, h2⟩ := Scan.split_before NUL next line rest r he hline
          exfalso
          cases after with
          | cons a after =>
            rw [h2] at hr
            exact hnul (by simp [h1, ← show a = NUL from hr])
          | nil =>
            rw [List.append_nil] at h1
            rw [h1] at hlast
            cases hgl : line.getLast? with
            | none =>
              rw [List.getLast?_eq_none_iff.mp hgl] at hl
              exact absurd (hl.start h []) (by decide)
            | some a =>
              have hmem : a ∈ line := List.mem_of_getLast? hgl
              have hend := hlast a hgl
              rw [(hl.bytes h line a hmem).1] at hend
              cases hend
      subst hr
      have hnul' : NUL ∉ after := fun hmem => hnul (by simp [hmem])
      have hlast' : ∀ a ∈ after.getLast?, eolByte a = true := by
        intro a ha
        apply hlast a
        rw [List.getLast?_append_of_ne_nil]
        · exact ha
        · rintro rfl
          simp at ha
      rw [sectionBlocks_line h line after hl e]
      by_cases hfirst : ∀ a ∈ after.head?, eolByte a = false
      · obtain ⟨hcount, hiff⟩ := ih after hnul' hfirst hlast' hok
        refine ⟨by simpa using hcount, ?_⟩
        have hend : sectionBlocks after ≠ [] → e.bytes ++ (after ++ [LF]).takeWhile eolByte = [CR, LF] ∨
            e.bytes ++ (after ++ [LF]).takeWhile eolByte = [LF] := by
          intro hne
          cases after with
          | nil => exact absurd sectionBlocks_nil hne
          | cons a after =>
            rw [List.cons_append, List.takeWhile_cons_of_neg (by simp [hfirst a rfl])]
            cases e <;> simp [LineEnd.bytes]
        simp only [List.map_cons, List.forall₂_cons, hiff, goodBlocks_cons]
        constructor
        · rintro ⟨-, h2⟩
          exact ⟨hl.start h line, hend, h2⟩
        · rintro ⟨-, -, h3⟩
          exact ⟨hl, h3⟩
      · -- an empty line: the loop takes over no header behind it
        obtain ⟨c, after, rfl, hc⟩ : ∃ c t, after = c :: t ∧ eolByte c = true := by
          cases after with
          | nil => simp at hfirst
          | cons c t => exact ⟨c, t, rfl, by simpa using hfirst⟩
        have hstuck : nameByte (deref (c :: after ++ NUL :: rest)) = false := by
          have h : ∀ a, eolByte a = true → nameByte a = false := byte_all _ (by decide +kernel)
          exact h c hc
        rw [headersLoop_stuck n _ hstuck]
        refine ⟨by simp, ?_⟩
        simp only [List.map_cons, List.forall₂_cons, List.forall₂_nil_left_iff, List.map_eq_nil_iff,
          goodBlocks_cons, List.cons_append, List.takeWhile_cons_of_pos hc]
        constructor
        · rintro ⟨-, hnil⟩
          rw [hnil]
          exact ⟨hl.start h line, fun hne => absurd rfl hne, GoodBlocks.nil n⟩
        · rintro ⟨-, hends, -⟩
          refine ⟨hl, ?_⟩
          by_contra hne
          have hdiff : LF ≠ CR := by decide
          have hbreak := hends hne
          cases e <;> simp [LineEnd.bytes, hdiff] at hbreak

/-- White space behind a word that runs over a line end leaves the line with a space at its end. -/
theorem broken_line (w ws : List Byte) (hw : ∀ a ∈ w, eolByte a = false)
    (hws : ∀ a ∈ ws, eolByte a = true ∨ a = SP) (hbreak : ∃ a ∈ ws, eolByte a = true) :
    ∃ u c t, w ++ SP :: ws = u ++ c :: t ∧ (∀ a ∈ u, eolByte a = false) ∧ eolByte c = true ∧
      u.getLast? = some SP := by
  induction ws generalizing w with
  | nil => simp at hbreak
  | cons a ws ih =>
    by_cases ha : eolByte a = true
    · refine ⟨w ++ [SP], a, ws, by simp, ?_, ha, by simp⟩
      intro b hb
      rcases List.mem_append.mp hb with hb | hb
      · exact hw b hb
      · rw [List.mem_singleton.mp hb]
        rfl
    · have hsp : a = SP := (hws a (by simp)).resolve_left ha
      subst hsp
      have hw' : ∀ a ∈ w ++ [SP], eolByte a = false := by
        intro b hb
        rcases List.mem_append.mp hb with hb | hb
        · exact hw b hb
        · rw [List.mem_singleton.mp hb]
          rfl
      obtain ⟨b, hb, hbe⟩ := hbreak
      have hmem : b ∈ ws := by
        rcases List.mem_cons.mp hb with rfl | hb
        · exact absurd hbe ha
        · exact hb
      obtain ⟨u, c, t, hut, hu⟩ := ih (w ++ [SP]) hw' (fun b hb => hws b (by simp [hb])) ⟨b, hmem, hbe⟩
      exact ⟨u, c, t, by simpa using hut, hu⟩

theorem sectionBlocks_suffix (x next : List Byte) :
    (sectionBlocks next).length ≤ (sectionBlocks (x ++ next)).length := by
  apply Scan.blocks_length_suffix
  rw [List.append_assoc]
  exact Scan.dropWhile_suffix eolByte x (next ++ [LF])

/-- Behind a line that is cut off by a line end come all lines of the text that follows. -/
theorem headerBlocks_line (w : List Byte) (c : Byte) (t : List Byte)
    (hw : ∀ a ∈ w, eolByte a = false) (hc : eolByte c = true) :
    headerBlocks (w ++ c :: t ++ [LF]) = sectionBlocks t ∧
    ∃ e, (Scan.blocks eolByte (w ++ c :: t ++ [LF])).head? = some (w, e) := by
  have hshape : w ++ c :: t ++ [LF] = w ++ c :: (t ++ [LF]) := by simp
  rw [headerBlocks, hshape, Scan.blocks_line_run eolByte w c _ hw hc]
  exact ⟨rfl, _, rfl⟩

theorem sectionBlocks_long (x version : List Byte) (b : Byte) (ws next : List Byte)
    (hv : ∀ a ∈ version, eolByte a = false) (hne : version ≠ []) (hb : eolByte b = true) :
    (sectionBlocks next).length < (sectionBlocks (x ++ (version ++ b :: (ws ++ next)))).length := by
  obtain ⟨c, v, rfl⟩ := List.exists_cons_of_ne_nil hne
  have hstart : sectionBlocks (c :: v ++ b :: (ws ++ next)) =
      (c :: v, b :: (ws ++ next ++ [LF]).takeWhile eolByte) :: sectionBlocks (ws ++ next) := by
    have hshape : c :: v ++ b :: (ws ++ next) ++ [LF] = c :: v ++ b :: (ws ++ next ++ [LF]) := by
      simp
    rw [sectionBlocks, hshape, List.cons_append,
      List.dropWhile_cons_of_neg (by simp [hv c (by simp)]), ← List.cons_append]
    exact Scan.blocks_line_run eolByte (c :: v) b _ hv hb
  have h1 := sectionBlocks_suffix ws next
  have h2 := sectionBlocks_suffix x (c :: v ++ b :: (ws ++ next))
  rw [hstart, List.length_cons] at h2
  omega

theorem eol_or_sp : ∀ a, isspace a = true ∧ malformedByte a = false → eolByte a = true ∨ a = SP :=
  byte_all _ (by decide +kernel)

theorem wordByte_not_eol : ∀ a, wordByte a = true → eolByte a = false :=
  byte_all _ (by decide +kernel)

/-- A request line that goes on behind a line end leaves a line that no header stands for. -/
theorem broken_head (u : List Byte) (c : Byte) (t x version : List Byte) (b : Byte)
    (ws next rest : List Byte) (hu : ∀ a ∈ u, eolByte a = false) (hc : eolByte c = true)
    (hsp : u.getLast? = some SP) (ht : t = x ++ (version ++ b :: (ws ++ next)))
    (hv : ∀ a ∈ version, eolByte a = false) (hne : version ≠ []) (hb : eolByte b = true)
    (hcount : (headersLoop mgMaxHeaders (next ++ NUL :: rest)).headers.length ≤
      (sectionBlocks next).length) :
    ¬ LinesRepresented (u ++ c :: t ++ [LF])
      (headersLoop mgMaxHeaders (next ++ NUL :: rest)).headers ∧
    ¬ LinesRepresentable (u ++ c :: t ++ [LF]) := by
  obtain ⟨hblocks, e, hfirst⟩ := headerBlocks_line u c t hu hc
  constructor
  · intro h
    have hlen := h.length_eq
    rw [hblocks, List.length_map, ht] at hlen
    have hlong := sectionBlocks_long x version b ws next hv hne hb
    omega
  · intro h
    exact h.1 (u, e) hfirst hsp

/-- A space in front of the first header belongs to a line that no header stands for. -/
theorem spaced_section (ws next : List Byte) (hs : List MgHeader)
    (hws : ∀ a ∈ ws, eolByte a = true ∨ a = SP) (hsp : ∃ a ∈ ws, eolByte a = false) (n : Nat) :
    ¬ List.Forall₂ HeaderLine hs ((sectionBlocks (ws ++ next)).map Prod.fst) ∧
    ¬ GoodBlocks n (sectionBlocks (ws ++ next)) := by
  obtain ⟨t, ht⟩ : ∃ t, (ws ++ next ++ [LF]).dropWhile eolByte = SP :: t := by
    induction ws with
    | nil => simp at hsp
    | cons a ws ih =>
      by_cases ha : eolByte a = true
      · obtain ⟨b, hb, hbe⟩ := hsp
        have hmem : b ∈ ws := by
          rcases List.mem_cons.mp hb with rfl | hb
          · rw [ha] at hbe
            cases hbe
          · exact hb
        obtain ⟨t, ht⟩ := ih (fun b hb => hws b (by simp [hb])) ⟨b, hmem, hbe⟩
        exact ⟨t, by rw [List.cons_append, List.cons_append, List.dropWhile_cons_of_pos ha, ht]⟩
      · have hsp : a = SP := (hws a (by simp)).resolve_left ha
        exact ⟨ws ++ next ++ [LF], by
          rw [List.cons_append, List.cons_append, List.dropWhile_cons_of_neg ha, hsp]⟩
  obtain ⟨l, b, bs, hbs⟩ := Scan.blocks_head eolByte SP t rfl
  rw [sectionBlocks, ht, hbs]
  constructor
  · intro h
    obtain ⟨h0, hl⟩ := List.forall₂_cons_right_iff.mp h
    obtain ⟨hs, hline, -, -⟩ := hl
    exact absurd (hline.start h0 _) (by simp [nameByte_sp])
  · intro h
    exact absurd (h.start (SP :: l, b) (by simp)) (by simp [nameByte_sp])

/-- The lines of a parsed head are all represented exactly where all of them can be. -/
theorem parsed_lines (pre rest text : List Byte) (info : RequestInfo)
    (hpre : ∀ a ∈ pre, malformedByte a = false)
    (hlast : ∃ a, pre.getLast? = some a ∧ (a = CR ∨ a = LF))
    (htext : parseRequestText (pre ++ NUL :: rest) = some (info, text)) :
    LinesRepresented (pre ++ [LF]) info.httpHeaders ↔ LinesRepresentable (pre ++ [LF]) := by
  obtain ⟨ws1, ws2, version, b, ws3, next, hshape, hmethod, huri, hversion, hkey, hb, hspaces, hnext,
    -, hok, -, hheaders⟩ := parseRequestText_some pre rest text info htext
  obtain ⟨d, hd, hdeol⟩ := hlast
  have hbe : eolByte b = true := by rcases hb with rfl | rfl <;> rfl
  have hm : ∀ a ∈ info.requestMethod, eolByte a = false :=
    fun a ha => wordByte_not_eol a (hmethod a ha)
  have hu : ∀ a ∈ info.requestUri, eolByte a = false := fun a ha => wordByte_not_eol a (huri a ha)
  have hv : ∀ a ∈ version, eolByte a = false := fun a ha => wordByte_not_eol a (hversion a ha)
  have hne : version ≠ [] := by
    intro hnil
    rw [hnil] at hkey
    exact absurd hkey (by decide)
  have hspace : ∀ a ∈ ws1 ++ ws2 ++ ws3, eolByte a = true ∨ a = SP := by
    intro a ha
    apply eol_or_sp a
    refine ⟨hspaces a ha, hpre a ?_⟩
    rw [hshape]
    rcases List.mem_append.mp ha with ha | ha
    · rcases List.mem_append.mp ha with ha | ha <;> simp [ha]
    · simp [ha]
  have hnul : NUL ∉ next := by
    intro hmem
    have hbad := hpre NUL (by rw [hshape]; simp [hmem])
    exact absurd hbad (by decide)
  have hstart : ∀ a ∈ next.head?, eolByte a = false := by
    have h : ∀ a, isspace a = false → eolByte a = false := byte_all _ (by decide +kernel)
    intro a ha
    exact h a (hnext a ha)
  have hend : ∀ a ∈ next.getLast?, eolByte a = true := by
    intro a ha
    have hda : pre.getLast? = some a := by
      rw [hshape]
      simp [List.getLast?_append, List.getLast?_cons, show next.getLast? = some a from ha]
    rw [hd, Option.some.injEq] at hda
    rw [← hda]
    rcases hdeol with rfl | rfl <;> rfl
  obtain ⟨hcount, hiff⟩ := headersLoop_blocks mgMaxHeaders next rest hnul hstart hend hok
  rw [hheaders]
  by_cases h1 : ∃ a ∈ ws1, eolByte a = true
  · obtain ⟨u, c, t, hut, hu, hc, hsp⟩ := broken_line info.requestMethod ws1 hm
      (fun a ha => hspace a (by simp [ha])) h1
    have hpu : pre = u ++ c :: (t ++ (info.requestUri ++ SP :: ws2) ++ (version ++ b :: (ws3 ++ next))) := by
      rw [hshape, ← List.cons_append, ← List.append_assoc, hut]
      simp
    obtain ⟨hno1, hno2⟩ := broken_head u c _ (t ++ (info.requestUri ++ SP :: ws2)) version b ws3 next
      rest hu hc hsp rfl hv hne hbe hcount
    rw [hpu]
    exact iff_of_false hno1 hno2
  by_cases h2 : ∃ a ∈ ws2, eolByte a = true
  · have hfirst : ∀ a ∈ info.requestMethod ++ SP :: (ws1 ++ info.requestUri), eolByte a = false := by
      intro a ha
      simp only [List.mem_append, List.mem_cons] at ha
      rcases ha with ha | rfl | ha | ha
      · exact hm a ha
      · rfl
      · exact Bool.eq_false_iff.mpr (fun he => h1 ⟨a, ha, he⟩)
      · exact hu a ha
    obtain ⟨u, c, t, hut, hu, hc, hsp⟩ := broken_line _ ws2 hfirst
      (fun a ha => hspace a (by simp [ha])) h2
    have hpu : pre = u ++ c :: (t ++ (version ++ b :: (ws3 ++ next))) := by
      have hassoc : pre = info.requestMethod ++ SP :: (ws1 ++ info.requestUri) ++ SP :: ws2 ++
          (version ++ b :: (ws3 ++ next)) := by
        rw [hshape]
        simp
      rw [hassoc, hut]
      simp
    obtain ⟨hno1, hno2⟩ := broken_head u c _ t version b ws3 next rest hu hc hsp rfl hv hne hbe hcount
    rw [hpu]
    exact iff_of_false hno1 hno2
  -- the request line is one line
  obtain ⟨line, hline⟩ : ∃ line, line = info.requestMethod ++ SP :: (ws1 ++ (info.requestUri ++
      SP :: (ws2 ++ version))) := ⟨_, rfl⟩
  have hlineb : ∀ a ∈ line, eolByte a = false := by
    intro a ha
    rw [hline] at ha
    simp only [List.mem_append, List.mem_cons] at ha
    rcases ha with ha | rfl | ha | ha | rfl | ha | ha
    · exact hm a ha
    · rfl
    · exact Bool.eq_false_iff.mpr (fun he => h1 ⟨a, ha, he⟩)
    · exact hu a ha
    · rfl
    · exact Bool.eq_false_iff.mpr (fun he => h2 ⟨a, ha, he⟩)
    · exact hv a ha
  have hpl : pre = line ++ b :: (ws3 ++ next) := by
    rw [hshape, hline]
    simp
  obtain ⟨hblocks, e, hfirst⟩ := headerBlocks_line line b (ws3 ++ next) hlineb hbe
  rw [LinesRepresented, LinesRepresentable, hpl, hblocks, hfirst]
  by_cases h3 : ∃ a ∈ ws3, eolByte a = false
  · obtain ⟨hno1, hno2⟩ := spaced_section ws3 next (parseHttpHeaders (next ++ NUL :: rest)).headers
      (fun a ha => hspace a (by simp [ha])) h3 mgMaxHeaders
    exact iff_of_false hno1 (fun h => hno2 h.2)
  · have hsec : sectionBlocks (ws3 ++ next) = sectionBlocks next := by
      have hws3 : ∀ a ∈ ws3, eolByte a = true := by
        intro a ha
        by_contra he
        exact h3 ⟨a, ha, by simpa using he⟩
      rw [sectionBlocks, List.append_assoc, List.dropWhile_append_of_pos hws3, sectionBlocks]
    have hword : ∀ p ∈ some (line, e), p.1.getLast? ≠ some SP := by
      intro p hp
      obtain ⟨v, z, hvz⟩ : ∃ v z, version = v ++ [z] :=
        ⟨version.dropLast, version.getLast hne, (List.dropLast_append_getLast hne).symm⟩
      rw [← Option.some.inj hp, hline, hvz]
      have hz := hversion z (by simp [hvz])
      simp only [List.getLast?_append, List.getLast?_cons, List.getLast?_nil]
      intro hsp
      have : z = SP := by simpa using hsp
      rw [this] at hz
      exact absurd hz (by decide)
    rw [hsec, parseHttpHeaders, hiff]
    exact ⟨fun hg => ⟨hword, hg⟩, fun hg => hg.2⟩

/-- The lines of an accepted head are all represented exactly where all of them can be. -/
theorem accepted_lines (buf : List Byte) (len : Nat) (r : ParsedRequest)
    (h : parseHttpRequest buf len = .ok r) :
    LinesRepresented ((buf.take r.length).dropWhile isspace) r.info.httpHeaders ↔
      LinesRepresentable (requestHead buf len) := by
  obtain ⟨ws, pre, rest, text, hbuf, hws, hhead, hlen, hle, hself, hpre, hlast, htext, -⟩ :=
    parseHttpRequest_ok buf len r h
  have hskip (t : List Byte) : (ws ++ (pre ++ [LF] ++ t)).dropWhile isspace = pre ++ [LF] ++ t := by
    rw [List.dropWhile_append_of_pos hws]
    cases hp : pre ++ [LF] with
    | nil => simp at hp
    | cons a t => exact List.dropWhile_cons_of_neg (by simpa [hp] using hhead)
  have htaken : (buf.take r.length).dropWhile isspace = pre ++ [LF] := by
    rw [hbuf, hlen, List.take_left' rfl, List.append_assoc]
    simpa using hskip []
  have hrequest : requestHead buf len = pre ++ [LF] := by
    have hcut : buf.take len = ws ++ (pre ++ [LF] ++ rest.take (len - r.length)) := by
      rw [hbuf, List.take_append, List.take_of_length_le (by rw [← hlen]; exact hle), hlen]
      simp
    have hfound : headerLenFrom 0 (pre ++ [LF]) ≠ 0 := by
      rw [hself]
      simp only [List.length_append, List.length_singleton]
      omega
    rw [requestHead, hcut, hskip, getHttpHeaderLen, List.take_length,
      headerLenFrom_append 0 _ _ hfound, hself, Int.toNat_natCast, List.take_left' rfl]
  rw [htaken, hrequest]
  exact parsed_lines pre rest text r.info hpre hlast htext

theorem accepted_lines_plain :
    LinesRepresented (ascii "GET / HTTP/1.1\r\nHost: a\r\nContent-Length: 5\r\n\r\n")
        [⟨ascii "Host", ascii "a"⟩, ⟨ascii "Content-Length", ascii "5"⟩] ↔
      LinesRepresentable (ascii "GET / HTTP/1.1\r\nHost: a\r\nContent-Length: 5\r\n\r\n") :=
  accepted_lines (ascii "GET / HTTP/1.1\r\nHost: a\r\nContent-Length: 5\r\n\r\nhello") 51
    ⟨46, ⟨ascii "GET", ascii "/", ascii "1.1",
      [⟨ascii "Host", ascii "a"⟩, ⟨ascii "Content-Length", ascii "5"⟩]⟩, _⟩ rfl

/-- A continuation line ends the header list, so the framing header behind it is lost. -/
theorem accepted_lines_dropped :
    ¬ ∀ (buf : List Byte) (len : Nat) (r : ParsedRequest), parseHttpRequest buf len = .ok r →
      LinesRepresented ((buf.take r.length).dropWhile isspace) r.info.httpHeaders := by
  intro h
  have hlost := h (ascii "GET / HTTP/1.1\r\nA: b\r\n c\r\nContent-Length: 5\r\n\r\nhello") 52
    ⟨47, ⟨ascii "GET", ascii "/", ascii "1.1", [⟨ascii "A", ascii "b"⟩]⟩, _⟩ rfl
  have hlen := hlost.length_eq
  exact absurd hlen (by decide)

end CivetWeb
