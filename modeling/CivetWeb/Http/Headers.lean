import CivetWeb.Bytes

namespace CivetWeb

structure MgHeader where
  name : List Byte
  value : List Byte
  deriving DecidableEq, Repr

def mgMaxHeaders : Nat := 64

abbrev COLON : Byte := 58

/-- `char` is signed: a byte above 127 compares below 33. -/
def nameByte (c : Byte) : Bool := c != COLON && 33 ≤ c && c ≤ 126
def isblank (c : Byte) : Bool := c == SP || c == TAB
def valueByte (c : Byte) : Bool := c != NUL && c != CR && c != LF

/-- One turn of the loop of `parse_http_headers` at `*buf`. A field carries the
bytes written over the ones consumed, the buffer at the new `*buf`, and whether
the loop breaks there. -/
inductive HeaderStep where
  | endOfHeaders
  | invalid
  | field (h : MgHeader) (written rest : List Byte) (stop : Bool)
  deriving DecidableEq, Repr

def zeros (n : Nat) : List Byte := List.replicate n NUL

def headerStep (buf : List Byte) : HeaderStep :=
  let name := buf.takeWhile nameByte
  let dp := buf.dropWhile nameByte
  if name = [] then .endOfHeaders
  else
    let spaces := dp.takeWhile (· == SP)
    let dp := dp.dropWhile (· == SP)
    if deref dp ≠ COLON then .invalid
    else
      let blanks := dp.tail.takeWhile isblank
      let dp := dp.tail.dropWhile isblank
      let value := dp.takeWhile valueByte
      let dp := dp.dropWhile valueByte
      let key := name ++ zeros (spaces.length + 1) ++ blanks ++ value
      if deref dp = CR then
        if deref dp.tail ≠ LF then .invalid
        else
          let rest := dp.tail.tail
          .field ⟨name, value⟩ (key ++ zeros 2) rest (deref rest == CR || deref rest == LF)
      else if deref dp = LF then
        let rest := dp.tail
        .field ⟨name, value⟩ (key ++ zeros 1) rest (deref rest == CR || deref rest == LF)
      else .field ⟨name, value⟩ key dp true

/-- The outcome of `parse_http_headers`: `ok` is false where it returns -1, else
the return value is the number of headers; `rest` is the buffer at `*buf`. -/
structure ParsedHeaders where
  ok : Bool
  headers : List MgHeader
  written : List Byte
  rest : List Byte
  deriving DecidableEq, Repr

def headersLoop : Nat → List Byte → ParsedHeaders
  | 0, buf => ⟨true, [], [], buf⟩
  | n + 1, buf =>
    match headerStep buf with
    | .endOfHeaders => ⟨true, [], [], buf⟩
    | .invalid => ⟨false, [], [], buf⟩
    | .field h written rest stop =>
      if stop then ⟨true, [h], written, rest⟩
      else
        let p := headersLoop n rest
        ⟨p.ok, h :: p.headers, written ++ p.written, p.rest⟩

def parseHttpHeaders (buf : List Byte) : ParsedHeaders := headersLoop mgMaxHeaders buf

/-- `get_header`: the value of the first header with this name. -/
def getHeader (hdr : List MgHeader) (name : List Byte) : Option (List Byte) :=
  (hdr.find? (fun h => mgStrcasecmp name h.name == 0)).map (·.value)

/-- The end of a header line as `parse_http_headers` accepts it. -/
inductive LineEnd where
  | crlf
  | lf
  deriving DecidableEq, Repr

def LineEnd.bytes : LineEnd → List Byte
  | .crlf => [CR, LF]
  | .lf => [LF]

/-- A header line without its end: name, blanks, colon, blanks, value. -/
structure HeaderLine (h : MgHeader) (line : List Byte) : Prop where
  name_ne : h.name ≠ []
  name_bytes : ∀ a ∈ h.name, nameByte a = true
  value_bytes : ∀ a ∈ h.value, valueByte a = true
  value_start : ∀ a ∈ h.value.head?, isblank a = false
  shape : ∃ (n : Nat) (blanks : List Byte), (∀ a ∈ blanks, isblank a = true) ∧
    line = h.name ++ List.replicate n SP ++ COLON :: (blanks ++ h.value)

theorem nameByte_sp : nameByte SP = false := rfl

theorem LineEnd.head_stop (e : LineEnd) (rest : List Byte) :
    ∃ b t, e.bytes ++ rest = b :: t ∧ valueByte b = false ∧ isblank b = false := by
  cases e
  · exact ⟨CR, LF :: rest, rfl, rfl, rfl⟩
  · exact ⟨LF, rest, rfl, rfl, rfl⟩

private theorem replicate_sp_all (n : Nat) :
    ∀ a ∈ List.replicate n SP, (a == SP) = true := by
  intro a ha
  simp [List.eq_of_mem_replicate ha]

/-- The scan of a header line splits it at the places its shape names. -/
private theorem headerLine_scan (h : MgHeader) (n : Nat) (blanks : List Byte) (b : Byte)
    (tail : List Byte) (hname : ∀ a ∈ h.name, nameByte a = true)
    (hblanks : ∀ a ∈ blanks, isblank a = true)
    (hstart : ∀ a ∈ h.value.head?, isblank a = false) (hb : isblank b = false) :
    let s := h.name ++ List.replicate n SP ++ COLON :: (blanks ++ h.value) ++ b :: tail
    s.takeWhile nameByte = h.name ∧
    s.dropWhile nameByte =
      List.replicate n SP ++ COLON :: (blanks ++ (h.value ++ b :: tail)) ∧
    (blanks ++ (h.value ++ b :: tail)).takeWhile isblank = blanks ∧
    (blanks ++ (h.value ++ b :: tail)).dropWhile isblank = h.value ++ b :: tail := by
  intro s
  have hs : s = h.name ++ (List.replicate n SP ++ COLON :: (blanks ++ (h.value ++ b :: tail))) := by
    simp [s]
  have hstop : ∃ c t, List.replicate n SP ++ COLON :: (blanks ++ (h.value ++ b :: tail)) = c :: t ∧
      nameByte c = false := by
    cases n with
    | zero => exact ⟨COLON, _, rfl, rfl⟩
    | succ n => exact ⟨SP, _, rfl, rfl⟩
  have hval : ∃ c t, h.value ++ b :: tail = c :: t ∧ isblank c = false := by
    cases hv : h.value with
    | nil => exact ⟨b, tail, rfl, hb⟩
    | cons a v => exact ⟨a, v ++ b :: tail, rfl, hstart a (by simp [hv])⟩
  obtain ⟨c, t, hc, hcn⟩ := hstop
  obtain ⟨d, u, hd, hdn⟩ := hval
  rw [hs, hc, hd]
  exact ⟨Scan.takeWhile_stop _ _ _ _ hname hcn, Scan.dropWhile_stop _ _ _ _ hname hcn,
    Scan.takeWhile_stop _ _ _ _ hblanks hdn, Scan.dropWhile_stop _ _ _ _ hblanks hdn⟩

/-- The loop breaks after a field where the next line is empty. -/
def stopsAt (rest : List Byte) : Bool := deref rest == CR || deref rest == LF

/-- A header line is taken over whole, and the loop goes on after its end. -/
theorem headerStep_line (h : MgHeader) (line : List Byte) (hl : HeaderLine h line) (e : LineEnd)
    (rest : List Byte) :
    ∃ written, written.length = (line ++ e.bytes).length ∧
      headerStep (line ++ e.bytes ++ rest) = .field h written rest (stopsAt rest) := by
  obtain ⟨n, blanks, hblanks, hline⟩ := hl.shape
  obtain ⟨b, t, hbt, hbv, hbb⟩ := e.head_stop rest
  have hscan := headerLine_scan h n blanks b t hl.name_bytes hblanks hl.value_start hbb
  obtain ⟨h1, h2, h3, h4⟩ := hscan
  have hsp : (COLON == SP) = false := rfl
  have hd : (List.replicate n SP ++ COLON :: (blanks ++ (h.value ++ b :: t))).dropWhile (· == SP) =
      COLON :: (blanks ++ (h.value ++ b :: t)) :=
    Scan.dropWhile_stop _ _ _ _ (replicate_sp_all n) hsp
  have ht : (List.replicate n SP ++ COLON :: (blanks ++ (h.value ++ b :: t))).takeWhile (· == SP) =
      List.replicate n SP := Scan.takeWhile_stop _ _ _ _ (replicate_sp_all n) hsp
  have hv := Scan.takeWhile_stop valueByte h.value b t hl.value_bytes hbv
  have hw := Scan.dropWhile_stop valueByte h.value b t hl.value_bytes hbv
  rw [List.append_assoc line, hbt, hline]
  simp only [headerStep, h1, h2, hl.name_ne, if_false, ht, hd, deref_cons, List.tail_cons,
    ne_eq, not_true_eq_false, h3, h4, hv, hw, List.length_replicate]
  cases e with
  | crlf =>
    obtain ⟨rfl, rfl⟩ : b = CR ∧ t = LF :: rest := by
      simpa [LineEnd.bytes, eq_comm] using hbt
    refine ⟨_, ?_, rfl⟩
    simp only [zeros, LineEnd.bytes, List.length_append, List.length_cons, List.length_nil,
      List.length_replicate]
    omega
  | lf =>
    obtain ⟨rfl, rfl⟩ : b = LF ∧ t = rest := by
      simpa [LineEnd.bytes, eq_comm] using hbt
    refine ⟨_, ?_, rfl⟩
    simp only [zeros, LineEnd.bytes, List.length_append, List.length_cons, List.length_nil,
      List.length_replicate]
    omega

/-- The last line of a string needs no end. -/
theorem headerStep_lastLine (h : MgHeader) (line : List Byte) (hl : HeaderLine h line) :
    ∃ written, headerStep (line ++ [NUL]) = .field h written [NUL] true := by
  obtain ⟨n, blanks, hblanks, hline⟩ := hl.shape
  obtain ⟨h1, h2, h3, h4⟩ := headerLine_scan h n blanks NUL [] hl.name_bytes hblanks hl.value_start rfl
  have hd := Scan.dropWhile_stop (· == SP) _ COLON (blanks ++ (h.value ++ [NUL]))
    (replicate_sp_all n) rfl
  have ht := Scan.takeWhile_stop (· == SP) _ COLON (blanks ++ (h.value ++ [NUL]))
    (replicate_sp_all n) rfl
  have hv := Scan.takeWhile_stop valueByte h.value NUL [] hl.value_bytes rfl
  have hw := Scan.dropWhile_stop valueByte h.value NUL [] hl.value_bytes rfl
  rw [hline]
  simp only [headerStep, h1, h2, hl.name_ne, if_false, ht, hd, deref_cons, List.tail_cons,
    ne_eq, not_true_eq_false, h3, h4, hv, hw]
  exact ⟨_, rfl⟩

private theorem split_run (p : Byte → Bool) (s : List Byte) :
    s = s.takeWhile p ++ s.dropWhile p := List.takeWhile_append_dropWhile.symm

private theorem run_of_sp (s : List Byte) :
    s.takeWhile (· == SP) = List.replicate (s.takeWhile (· == SP)).length SP := by
  apply List.eq_replicate_iff.mpr
  refine ⟨rfl, fun a ha => ?_⟩
  simpa using Scan.takeWhile_all _ s a ha

/-- Conversely every field the loop takes over is a header line, ended by a line
end or by the NUL that closes the buffer. -/
theorem headerStep_field (buf : List Byte) (h : MgHeader) (written rest : List Byte) (stop : Bool)
    (hs : headerStep buf = .field h written rest stop) :
    ∃ line, HeaderLine h line ∧
      ((∃ e : LineEnd, buf = line ++ e.bytes ++ rest ∧ stop = stopsAt rest) ∨
        (buf = line ++ rest ∧ deref rest = NUL ∧ stop = true)) := by
  obtain ⟨name, hname⟩ : ∃ name, name = buf.takeWhile nameByte := ⟨_, rfl⟩
  obtain ⟨d1, hd1⟩ : ∃ d1, d1 = buf.dropWhile nameByte := ⟨_, rfl⟩
  obtain ⟨d2, hd2⟩ : ∃ d2, d2 = d1.dropWhile (· == SP) := ⟨_, rfl⟩
  obtain ⟨d3, hd3⟩ : ∃ d3, d3 = d2.tail.dropWhile isblank := ⟨_, rfl⟩
  obtain ⟨d4, hd4⟩ : ∃ d4, d4 = d3.dropWhile valueByte := ⟨_, rfl⟩
  have hbuf : buf = name ++ (d1.takeWhile (· == SP) ++ d2) := by
    rw [hd2, ← split_run, hd1, hname]
    exact split_run _ _
  have htail : d2.tail = d2.tail.takeWhile isblank ++ (d3.takeWhile valueByte ++ d4) := by
    rw [hd4, ← split_run, hd3]
    exact split_run _ _
  simp only [headerStep, ← hname, ← hd1, ← hd2, ← hd3, ← hd4] at hs
  split_ifs at hs with a1 a2 a3 a4 a5
  all_goals
    simp only [HeaderStep.field.injEq] at hs
    obtain ⟨rfl, -, rfl, rfl⟩ := hs
    have hcolon : d2 = COLON :: d2.tail := deref_eq_cons (by simpa using a2) (by decide)
    have hl : HeaderLine ⟨name, d3.takeWhile valueByte⟩
        (name ++ List.replicate (d1.takeWhile (· == SP)).length SP ++
          COLON :: (d2.tail.takeWhile isblank ++ d3.takeWhile valueByte)) := by
      refine ⟨a1, ?_, Scan.takeWhile_all _ _, ?_, _, _, Scan.takeWhile_all _ _, rfl⟩
      · rw [hname]
        exact Scan.takeWhile_all _ _
      · intro a ha
        apply Scan.head_dropWhile isblank d2.tail a
        rw [← hd3]
        cases d3 with
        | nil => simp at ha
        | cons c d3 =>
          rw [List.takeWhile_cons] at ha
          split_ifs at ha
          · simpa using ha
          · simp at ha
    rw [← run_of_sp] at hl
    refine ⟨_, hl, ?_⟩
    have hwhole : buf = name ++ d1.takeWhile (· == SP) ++
        COLON :: (d2.tail.takeWhile isblank ++ d3.takeWhile valueByte) ++ d4 := by
      rw [hbuf, List.append_assoc, List.append_assoc, List.cons_append, List.append_assoc,
        ← htail, ← hcolon]
  · left
    refine ⟨.crlf, ?_, rfl⟩
    have h1 : d4 = CR :: d4.tail := deref_eq_cons a3 (by decide)
    have h2 : d4.tail = LF :: d4.tail.tail := deref_eq_cons (by simpa using a4) (by decide)
    rw [hwhole, List.append_assoc _ (LineEnd.bytes _)]
    congr 1
    rw [LineEnd.bytes, List.cons_append, List.cons_append, List.nil_append, ← h2, ← h1]
  · left
    refine ⟨.lf, ?_, rfl⟩
    have h1 : d4 = LF :: d4.tail := deref_eq_cons a5 (by decide)
    rw [hwhole, List.append_assoc _ (LineEnd.bytes _)]
    congr 1
  · right
    refine ⟨hwhole, ?_, rfl⟩
    cases hd : d4 with
    | nil => rfl
    | cons b t =>
      have hb := Scan.head_dropWhile valueByte d3 b (by rw [← hd4, hd]; rfl)
      simp only [hd, deref_cons] at a3 a5
      simpa [valueByte, a3, a5] using hb

theorem headerStep_end (buf : List Byte) (hs : headerStep buf = .endOfHeaders) :
    buf.takeWhile nameByte = [] := by
  unfold headerStep at hs
  dsimp only at hs
  split_ifs at hs with hname
  exact hname

theorem headersLoop_stuck (n : Nat) (rest : List Byte) (hstop : nameByte (deref rest) = false) :
    headersLoop n rest = ⟨true, [], [], rest⟩ := by
  cases n with
  | zero => rfl
  | succ n =>
    have hname : rest.takeWhile nameByte = [] := by
      cases rest with
      | nil => rfl
      | cons a t => exact List.takeWhile_cons_of_neg (by simpa using hstop)
    simp [headersLoop, headerStep, hname]

theorem stopsAt_not_nameByte (rest : List Byte) (h : stopsAt rest = true) :
    nameByte (deref rest) = false := by
  simp only [stopsAt, Bool.or_eq_true, beq_iff_eq] at h
  rcases h with h | h <;> rw [h] <;> rfl

/-- Breaking out of the loop behind a field is what its next turn would do. -/
theorem headersLoop_field (n : Nat) (buf : List Byte) (h : MgHeader) (written rest : List Byte)
    (stop : Bool) (hs : headerStep buf = .field h written rest stop) :
    headersLoop (n + 1) buf =
      ⟨(headersLoop n rest).ok, h :: (headersLoop n rest).headers,
        written ++ (headersLoop n rest).written, (headersLoop n rest).rest⟩ := by
  rw [headersLoop, hs]
  cases hstop : stop with
  | false => rfl
  | true =>
    have hstuck : nameByte (deref rest) = false := by
      obtain ⟨line, -, ⟨e, -, he⟩ | ⟨-, hnul, -⟩⟩ := headerStep_field buf h written rest stop hs
      · exact stopsAt_not_nameByte rest (he.symm.trans hstop)
      · rw [hnul]
        rfl
    simp [headersLoop_stuck n rest hstuck]

theorem HeaderLine.deref_nameByte (h : MgHeader) (line rest : List Byte) (hl : HeaderLine h line) :
    nameByte (deref (line ++ rest)) = true := by
  obtain ⟨n, blanks, -, rfl⟩ := hl.shape
  obtain ⟨a, t, hat⟩ := List.exists_cons_of_ne_nil hl.name_ne
  simpa [hat] using hl.name_bytes a (by simp [hat])

/-- The loop takes over as many header lines as it has turns for, each as one header. -/
theorem headersLoop_lines (e : LineEnd) (n : Nat) (hs : List MgHeader) (lines : List (List Byte))
    (rest : List Byte) (hl : List.Forall₂ HeaderLine hs lines) (hn : hs.length ≤ n)
    (hstop : nameByte (deref rest) = false) :
    ∃ written, headersLoop n (lines.flatMap (· ++ e.bytes) ++ rest) = ⟨true, hs, written, rest⟩ := by
  induction hl generalizing n with
  | nil => exact ⟨[], headersLoop_stuck n rest hstop⟩
  | @cons h line hs lines hline htail ih =>
    cases n with
    | zero => simp at hn
    | succ n =>
      obtain ⟨w, -, hstep⟩ := headerStep_line h line hline e (lines.flatMap (· ++ e.bytes) ++ rest)
      obtain ⟨ws, hrec⟩ := ih n (by simpa using hn)
      have hshape : (line :: lines).flatMap (· ++ e.bytes) ++ rest =
          line ++ e.bytes ++ (lines.flatMap (· ++ e.bytes) ++ rest) := by
        simp
      rw [hshape, headersLoop_field n _ _ _ _ _ hstep, hrec]
      exact ⟨w ++ ws, rfl⟩

/-- Whatever the loop is run on, each of its headers stands in a line of its own. -/
theorem headersLoop_headerLine (n : Nat) (buf : List Byte) :
    ∀ h ∈ (headersLoop n buf).headers, ∃ line, HeaderLine h line := by
  induction n generalizing buf with
  | zero => simp [headersLoop]
  | succ n ih =>
    intro h hmem
    cases hs : headerStep buf with
    | endOfHeaders => simp [headersLoop, hs] at hmem
    | invalid => simp [headersLoop, hs] at hmem
    | field h' written rest stop =>
      rw [headersLoop_field n buf h' written rest stop hs] at hmem
      rcases List.mem_cons.mp hmem with rfl | hmem
      · obtain ⟨line, hline, -⟩ := headerStep_field buf h written rest stop hs
        exact ⟨line, hline⟩
      · exact ih rest h hmem

end CivetWeb
