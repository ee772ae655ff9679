import CivetWeb.Http.Request
import Mathlib.Data.List.Forall2

namespace CivetWeb

/-- The words and headers of a request head. -/
structure RequestHead where
  method : List Byte
  uri : List Byte
  version : List Byte
  headers : List MgHeader

/-- What a client may put into a head. -/
structure RequestHead.WellFormed (r : RequestHead) : Prop where
  method_known : r.method ∈ httpMethods
  uri_start : isgraph (deref r.uri) = true
  uri_bytes : ∀ a ∈ r.uri, a ≠ SP ∧ iscntrl a = false
  version_bytes : ∀ a ∈ r.version, wordByte a = true
  headers_le : r.headers.length ≤ mgMaxHeaders

/-- A header line with only printable or extended bytes in its value. -/
def PlainLine (h : MgHeader) (line : List Byte) : Prop :=
  HeaderLine h line ∧ (∀ a ∈ line, isprint a = true ∨ 128 ≤ a)

/-- The bytes of a head whose header lines are `lines`. -/
def renderHead (e : LineEnd) (r : RequestHead) (lines : List (List Byte)) : List Byte :=
  r.method ++ SP :: (r.uri ++ SP :: (ascii "HTTP/" ++ r.version ++
    (e.bytes ++ lines.flatMap (· ++ e.bytes) ++ e.bytes)))

/-- How the classes of bytes lie in one another. -/
theorem byte_classes : ∀ a, (lineByte a = true ↔ isprint a = true ∨ 128 ≤ a) ∧
    (wordByte a = true → lineByte a = true) ∧ (a ≠ SP ∧ iscntrl a = false → wordByte a = true) ∧
    (isgraph a = true → isspace a = false) ∧ (nameByte a = true → isgraph a = true) :=
  byte_all _ (by decide +kernel)

theorem lineByte_iff (a : Byte) : lineByte a = true ↔ isprint a = true ∨ 128 ≤ a := (byte_classes a).1

theorem wordByte_lineByte (a : Byte) : wordByte a = true → lineByte a = true := (byte_classes a).2.1

theorem uriByte_wordByte (a : Byte) : a ≠ SP ∧ iscntrl a = false → wordByte a = true := (byte_classes a).2.2.1

theorem isgraph_not_isspace (a : Byte) : isgraph a = true → isspace a = false := (byte_classes a).2.2.2.1

theorem nameByte_isgraph (a : Byte) : nameByte a = true → isgraph a = true := (byte_classes a).2.2.2.2

theorem method_bytes (m : List Byte) (hm : m ∈ httpMethods) : ∀ a ∈ m, isgraph a = true := by
  have h : ∀ m ∈ httpMethods, ∀ a ∈ m, isgraph a = true := by decide
  exact h m hm

theorem method_ne_nil (m : List Byte) (hm : m ∈ httpMethods) : m ≠ [] := by
  have h : ∀ m ∈ httpMethods, m ≠ [] := by decide
  exact h m hm

/-- Behind a line end the scan goes on at the next line, unless that line is empty. -/
theorem headerLenFrom_eol (i : Nat) (e : LineEnd) (rest : List Byte)
    (h : lineByte (deref rest) = true) :
    headerLenFrom i (e.bytes ++ rest) = headerLenFrom (i + e.bytes.length) rest := by
  obtain ⟨a, t, rfl⟩ : ∃ a t, rest = a :: t := by
    cases rest with
    | nil => exact absurd h (by decide)
    | cons a t => exact ⟨a, t, rfl⟩
  simp only [deref_cons, lineByte, Bool.and_eq_true, bne_iff_ne] at h
  obtain ⟨⟨-, hcr⟩, hlf⟩ := h
  have h1 : (CR == a) = false := beq_eq_false_iff_ne.mpr (Ne.symm hcr)
  have h2 : (LF == a) = false := beq_eq_false_iff_ne.mpr (Ne.symm hlf)
  have m1 : malformedByte CR = false := rfl
  have m2 : malformedByte LF = false := rfl
  have c1 : (LF == CR) = false := rfl
  have c2 : (CR == LF) = false := rfl
  cases e <;>
    simp [LineEnd.bytes, headerLenFrom, List.isPrefixOf, h1, h2, m1, m2, c1, c2, -beq_iff_eq]

theorem headerLenFrom_blank (i : Nat) (e : LineEnd) :
    headerLenFrom i (e.bytes ++ e.bytes) = i + 2 * e.bytes.length := by
  cases e <;> rfl

/-- The scan over a line and its end, up to the next line or the blank line. -/
theorem headerLenFrom_lines (i : Nat) (e : LineEnd) (line : List Byte) (lines : List (List Byte))
    (hline : ∀ a ∈ line, lineByte a = true)
    (hlines : ∀ l ∈ lines, l ≠ [] ∧ ∀ a ∈ l, lineByte a = true) :
    headerLenFrom i (line ++ (e.bytes ++ lines.flatMap (· ++ e.bytes) ++ e.bytes)) =
      i + (line ++ (e.bytes ++ lines.flatMap (· ++ e.bytes) ++ e.bytes)).length := by
  induction lines generalizing i line with
  | nil =>
    rw [headerLenFrom_text i line _ hline, List.flatMap_nil, List.append_nil, headerLenFrom_blank]
    simp only [List.length_append]
    push_cast
    ring
  | cons l lines ih =>
    obtain ⟨hne, hl⟩ := hlines l (by simp)
    have hnext := ih (i + line.length + e.bytes.length) l hl (fun m hm => hlines m (by simp [hm]))
    have hshape : e.bytes ++ (l :: lines).flatMap (· ++ e.bytes) ++ e.bytes =
        e.bytes ++ (l ++ (e.bytes ++ lines.flatMap (· ++ e.bytes) ++ e.bytes)) := by
      simp
    have hstart : lineByte (deref (l ++ (e.bytes ++ lines.flatMap (· ++ e.bytes) ++ e.bytes)))
        = true := by
      obtain ⟨a, t, rfl⟩ := List.exists_cons_of_ne_nil hne
      exact hl a (by simp)
    rw [hshape, headerLenFrom_text i line _ hline, headerLenFrom_eol _ e _ hstart, hnext]
    simp only [List.length_append]
    push_cast
    ring


/-- The bytes of a line end before its line feed. -/
def LineEnd.cr : LineEnd → List Byte
  | .crlf => [CR]
  | .lf => []

theorem LineEnd.bytes_eq (e : LineEnd) : e.bytes = e.cr ++ [LF] := by
  cases e <;> rfl

theorem LineEnd.split (e : LineEnd) :
    ∃ b ws, e.bytes = b :: ws ∧ (b = CR ∨ b = LF) ∧ ∀ a ∈ ws, isspace a = true := by
  cases e
  · exact ⟨CR, [LF], rfl, Or.inl rfl, by decide⟩
  · exact ⟨LF, [], rfl, Or.inr rfl, by decide⟩

/-- The words of the request line as they stand in the buffer. -/
theorem parseRequestText_words (r : RequestHead) (hr : r.WellFormed) (b : Byte)
    (ws next : List Byte) (hb : b = CR ∨ b = LF) (hws : ∀ a ∈ ws, isspace a = true)
    (hnext : isspace (deref next) = false) (hs : List MgHeader) (w rest : List Byte)
    (hp : parseHttpHeaders next = ⟨true, hs, w, rest⟩) :
    ∃ buf, parseRequestText (r.method ++ SP :: (r.uri ++ SP :: (ascii "HTTP/" ++ r.version ++
      b :: (ws ++ next)))) = some (⟨r.method, r.uri, r.version, hs⟩, buf) := by
  have hmethod : ∀ a ∈ r.method, wordByte a = true := by
    intro a ha
    simp [wordByte, method_bytes r.method hr.method_known a ha]
  have huri : ∀ a ∈ r.uri, wordByte a = true :=
    fun a ha => uriByte_wordByte a (hr.uri_bytes a ha)
  have hhttp : ∀ a ∈ ascii "HTTP/", wordByte a = true := by decide
  have hversion : ∀ a ∈ ascii "HTTP/" ++ r.version, wordByte a = true := by
    intro a ha
    exact (List.mem_append.mp ha).elim (hhttp a) (hr.version_bytes a)
  obtain ⟨u, us, hu⟩ : ∃ u us, r.uri = u :: us := by
    cases h : r.uri with
    | nil => exact absurd hr.uri_start (by rw [h]; decide)
    | cons u us => exact ⟨u, us, rfl⟩
  have hug : isgraph u = true := by simpa [hu] using hr.uri_start
  have h1 := skipWord_run r.method SP [] (r.uri ++ SP :: (ascii "HTTP/" ++ r.version ++
    b :: (ws ++ next))) false hmethod rfl (by simp) (by simp [hu, isgraph_not_isspace u hug])
    (by simp [hu, hug])
  have h2 := skipWord_run r.uri SP [] (ascii "HTTP/" ++ r.version ++ b :: (ws ++ next)) false
    huri rfl (by simp) rfl (fun _ => rfl)
  have h3 := skipWord_run (ascii "HTTP/" ++ r.version) b ws next true hversion hb hws hnext
    (by simp)
  have hkey : strncmp (ascii "HTTP/" ++ r.version) (ascii "HTTP/") 5 = 0 := rfl
  have hdrop : (ascii "HTTP/" ++ r.version).drop 5 = r.version := rfl
  have hknown : isValidHttpMethod r.method = true := by
    simpa [isValidHttpMethod] using hr.method_known
  rw [List.nil_append] at h1 h2
  simp only [parseRequestText, h1, h2, h3, hp, hkey, hknown, hdrop, Option.bind_eq_bind,
    Option.bind_some, ne_eq, not_true_eq_false, if_false, Bool.not_true, Bool.false_eq_true]
  exact ⟨_, rfl⟩

/-- The header section behind the version, with its last line feed overwritten. -/
theorem header_section (e : LineEnd) (hs : List MgHeader) (lines : List (List Byte))
    (tail : List Byte) (hl : List.Forall₂ HeaderLine hs lines) (hn : hs.length ≤ mgMaxHeaders) :
    ∃ b ws next w rest,
      e.bytes ++ lines.flatMap (· ++ e.bytes) ++ e.cr ++ NUL :: tail = b :: (ws ++ next) ∧
      (b = CR ∨ b = LF) ∧ (∀ a ∈ ws, isspace a = true) ∧ isspace (deref next) = false ∧
      parseHttpHeaders next = ⟨true, hs, w, rest⟩ := by
  obtain ⟨b, ws, hbytes, hb, hws⟩ := e.split
  have hcr : ∀ a ∈ e.cr, isspace a = true := by cases e <;> decide
  have hend : nameByte (deref (e.cr ++ NUL :: tail)) = false := by cases e <;> rfl
  cases hl with
  | nil =>
    refine ⟨b, ws ++ e.cr, NUL :: tail, [], NUL :: tail, by simp [hbytes], hb, ?_, rfl, ?_⟩
    · intro a ha
      exact (List.mem_append.mp ha).elim (hws a) (hcr a)
    · exact headersLoop_stuck _ _ rfl
  | @cons h line hs lines hline htail =>
    obtain ⟨w, hloop⟩ := headersLoop_lines e mgMaxHeaders (h :: hs) (line :: lines)
      (e.cr ++ NUL :: tail) (.cons hline htail) hn hend
    refine ⟨b, ws, (line :: lines).flatMap (· ++ e.bytes) ++ (e.cr ++ NUL :: tail), w, _,
      by simp [hbytes], hb, hws, ?_, hloop⟩
    have hname := hline.deref_nameByte h line
      (e.bytes ++ lines.flatMap (· ++ e.bytes) ++ (e.cr ++ NUL :: tail))
    have hshape : (line :: lines).flatMap (· ++ e.bytes) ++ (e.cr ++ NUL :: tail) =
        line ++ (e.bytes ++ lines.flatMap (· ++ e.bytes) ++ (e.cr ++ NUL :: tail)) := by
      simp
    rw [hshape]
    exact isgraph_not_isspace _ (nameByte_isgraph _ hname)

/-- The first line of a head is text to the length scan. -/
theorem requestLine_bytes (r : RequestHead) (hr : r.WellFormed) :
    ∀ a ∈ r.method ++ SP :: (r.uri ++ SP :: (ascii "HTTP/" ++ r.version)), lineByte a = true := by
  have hhttp : ∀ a ∈ ascii "HTTP/", lineByte a = true := by decide
  intro a ha
  simp only [List.mem_append, List.mem_cons] at ha
  rcases ha with ha | rfl | ha | rfl | ha | ha
  · exact wordByte_lineByte a (by simp [wordByte, method_bytes r.method hr.method_known a ha])
  · rfl
  · exact wordByte_lineByte a (uriByte_wordByte a (hr.uri_bytes a ha))
  · rfl
  · exact hhttp a ha
  · exact wordByte_lineByte a (hr.version_bytes a ha)

theorem plainLines_bytes (hs : List MgHeader) (lines : List (List Byte))
    (hl : List.Forall₂ PlainLine hs lines) :
    ∀ l ∈ lines, l ≠ [] ∧ ∀ a ∈ l, lineByte a = true := by
  induction hl with
  | nil => simp
  | @cons h line hs lines hline _ ih =>
    intro l hmem
    rcases List.mem_cons.mp hmem with rfl | hmem
    · refine ⟨?_, fun a ha => (lineByte_iff a).mpr (hline.2 a ha)⟩
      rintro rfl
      have hname := hline.1.deref_nameByte h [] []
      exact absurd hname (by decide)
    · exact ih l hmem

theorem renderHead_headerLen (e : LineEnd) (r : RequestHead) (hr : r.WellFormed)
    (lines : List (List Byte)) (hl : List.Forall₂ PlainLine r.headers lines) :
    headerLenFrom 0 (renderHead e r lines) = (renderHead e r lines).length := by
  have hshape : renderHead e r lines =
      (r.method ++ SP :: (r.uri ++ SP :: (ascii "HTTP/" ++ r.version))) ++
        (e.bytes ++ lines.flatMap (· ++ e.bytes) ++ e.bytes) := by
    simp [renderHead]
  rw [hshape, headerLenFrom_lines 0 e _ lines (requestLine_bytes r hr) (plainLines_bytes _ _ hl)]
  simp

/-- A decided head decides every prefix and every extension. -/
theorem getHttpHeaderLen_head (head : List Byte) (hpos : head ≠ [])
    (h : headerLenFrom 0 head = head.length) :
    (∀ k < head.length, getHttpHeaderLen head k = 0) ∧
    ∀ ext k, head.length ≤ k → getHttpHeaderLen (head ++ ext) k = head.length := by
  have hlen := List.length_pos_of_ne_nil hpos
  constructor
  · intro k hk
    by_contra hne
    have hsplit := headerLenFrom_append 0 (head.take k) (head.drop k) hne
    rw [List.take_append_drop, h] at hsplit
    have hle := headerLenFrom_le 0 (head.take k)
    rw [← hsplit, List.length_take] at hle
    omega
  · intro ext k hk
    have hne : headerLenFrom 0 head ≠ 0 := by
      rw [h]
      omega
    rw [getHttpHeaderLen, List.take_append, List.take_of_length_le hk,
      headerLenFrom_append 0 head _ hne, h]

/-- The NUL over the last line feed of a head, with anything behind it. -/
theorem renderHead_set (e : LineEnd) (r : RequestHead) (lines : List (List Byte))
    (tail : List Byte) :
    (renderHead e r lines ++ tail).set ((renderHead e r lines).length - 1) NUL =
      r.method ++ SP :: (r.uri ++ SP :: (ascii "HTTP/" ++ r.version ++
        (e.bytes ++ lines.flatMap (· ++ e.bytes) ++ e.cr ++ NUL :: tail))) := by
  obtain ⟨pre, hpre⟩ : ∃ pre, pre = r.method ++ SP :: (r.uri ++ SP :: (ascii "HTTP/" ++ r.version ++
    (e.bytes ++ lines.flatMap (· ++ e.bytes) ++ e.cr))) := ⟨_, rfl⟩
  have hhead : renderHead e r lines = pre ++ [LF] := by
    simp [hpre, renderHead, e.bytes_eq]
  have hlen : (pre ++ [LF]).length - 1 = pre.length := by simp
  rw [hhead, hlen, List.append_assoc, List.set_append_right _ _ le_rfl, Nat.sub_self, hpre]
  simp

theorem parseRequestHead_render (e : LineEnd) (r : RequestHead) (hr : r.WellFormed)
    (lines : List (List Byte)) (hl : List.Forall₂ PlainLine r.headers lines) (tail : List Byte)
    (len : Nat) (hlen : (renderHead e r lines).length ≤ len) :
    ∃ buf, parseRequestHead (renderHead e r lines ++ tail) len =
      .ok ⟨(renderHead e r lines).length, ⟨r.method, r.uri, r.version, r.headers⟩, buf⟩ := by
  obtain ⟨m, ms, hm⟩ := List.exists_cons_of_ne_nil (method_ne_nil r.method hr.method_known)
  have hmg : isgraph m = true := method_bytes r.method hr.method_known m (by simp [hm])
  have hne : renderHead e r lines ≠ [] := by simp [renderHead]
  have hpos := List.length_pos_of_ne_nil hne
  obtain ⟨b, ws, next, w, rest, hsec, hb, hws, hnext, hparse⟩ := header_section e r.headers lines
    tail (hl.imp fun _ _ h => h.1) hr.headers_le
  obtain ⟨buf, htext⟩ := parseRequestText_words r hr b ws next hb hws hnext r.headers w rest hparse
  have hfound := (getHttpHeaderLen_head _ hne (renderHead_headerLen e r hr lines hl)).2 tail len hlen
  have hset := renderHead_set e r lines tail
  rw [hsec] at hset
  have hfirst : deref (renderHead e r lines ++ tail) = m := by simp [renderHead, hm]
  have hfirst' : deref (r.method ++ SP :: (r.uri ++ SP :: (ascii "HTTP/" ++ r.version ++
      b :: (ws ++ next)))) = m := by simp [hm]
  have hcntrl : iscntrl m = false ∧ (m == NUL || m == CR || m == LF) = false := by
    have h : ∀ a, isgraph a = true → iscntrl a = false ∧ (a == NUL || a == CR || a == LF) = false :=
      byte_all _ (by decide +kernel)
    exact h m hmg
  refine ⟨buf, ?_⟩
  rw [parseRequestHead, if_neg (by omega), hfirst, hcntrl.1, if_neg Bool.false_ne_true, hfound]
  simp only [Int.toNat_natCast, hset, hfirst', hcntrl.2, Bool.false_eq_true, if_false, htext]
  rw [if_neg (by omega)]

theorem parseHttpRequest_render (e : LineEnd) (r : RequestHead) (hr : r.WellFormed)
    (lines : List (List Byte)) (hl : List.Forall₂ PlainLine r.headers lines) (body : List Byte) :
    ∃ buf, parseHttpRequest (renderHead e r lines ++ body) (renderHead e r lines ++ body).length =
      .ok ⟨(renderHead e r lines).length, ⟨r.method, r.uri, r.version, r.headers⟩, buf⟩ := by
  obtain ⟨m, ms, hm⟩ := List.exists_cons_of_ne_nil (method_ne_nil r.method hr.method_known)
  have hmg : isgraph m = true := method_bytes r.method hr.method_known m (by simp [hm])
  obtain ⟨buf, hhead⟩ := parseRequestHead_render e r hr lines hl body
    (renderHead e r lines ++ body).length (by simp)
  have hskip : ((renderHead e r lines ++ body).take (renderHead e r lines ++ body).length).takeWhile
      isspace = [] := by
    have hstart : renderHead e r lines ++ body = m :: (ms ++ SP :: (r.uri ++ SP ::
        (ascii "HTTP/" ++ r.version ++ (e.bytes ++ lines.flatMap (· ++ e.bytes) ++ e.bytes))) ++
          body) := by
      simp [renderHead, hm]
    rw [List.take_length, hstart]
    exact List.takeWhile_cons_of_neg (by simp [isgraph_not_isspace m hmg])
  refine ⟨buf, ?_⟩
  rw [parseHttpRequest, hskip]
  simp only [List.length_nil, List.drop_zero, Nat.sub_zero, hhead, Nat.add_zero, List.take_zero,
    List.nil_append]

/-- Every well-formed head is measured and parsed back exactly, wherever the data
that is there ends and whatever bytes follow. -/
theorem parse_render (e : LineEnd) (r : RequestHead) (hr : r.WellFormed)
    (lines : List (List Byte)) (hl : List.Forall₂ PlainLine r.headers lines) :
    (∀ k < (renderHead e r lines).length, getHttpHeaderLen (renderHead e r lines) k = 0) ∧
    (∀ ext k, (renderHead e r lines).length ≤ k →
      getHttpHeaderLen (renderHead e r lines ++ ext) k = (renderHead e r lines).length) ∧
    ∀ body, ∃ buf, parseHttpRequest (renderHead e r lines ++ body)
        (renderHead e r lines ++ body).length =
      .ok ⟨(renderHead e r lines).length, ⟨r.method, r.uri, r.version, r.headers⟩, buf⟩ := by
  have hne : renderHead e r lines ≠ [] := by simp [renderHead]
  have hlen := getHttpHeaderLen_head _ hne (renderHead_headerLen e r hr lines hl)
  exact ⟨hlen.1, hlen.2, parseHttpRequest_render e r hr lines hl⟩

/-- The line `name: value`. -/
def plainLine (h : MgHeader) : List Byte := h.name ++ COLON :: SP :: h.value

theorem plainLine_spec (h : MgHeader) (hname : h.name ≠ [])
    (hbytes : ∀ a ∈ h.name, nameByte a = true) (hvalue : ∀ a ∈ h.value, isprint a = true ∨ 128 ≤ a)
    (hstart : deref h.value ≠ SP) : PlainLine h (plainLine h) := by
  have hv : ∀ a, isprint a = true ∨ 128 ≤ a → valueByte a = true ∧ (a ≠ SP → isblank a = false) :=
    byte_all _ (by decide +kernel)
  have hn : ∀ a, nameByte a = true → isprint a = true := byte_all _ (by decide +kernel)
  refine ⟨⟨hname, hbytes, fun a ha => (hv a (hvalue a ha)).1, ?_, 0, [SP], by decide, by
    simp [plainLine]⟩, ?_⟩
  · intro a ha
    obtain ⟨t, ht⟩ := List.head?_eq_some_iff.mp ha
    rw [ht, deref_cons] at hstart
    exact (hv a (hvalue a (by simp [ht]))).2 hstart
  · intro a ha
    simp only [plainLine, List.mem_append, List.mem_cons] at ha
    rcases ha with ha | rfl | rfl | ha
    · exact Or.inl (hn a (hbytes a ha))
    · exact Or.inl rfl
    · exact Or.inl rfl
    · exact hvalue a ha

/-- `POST /a/b/c.d?e=f&g HTTP/1.1` with two headers. -/
def postHead : RequestHead :=
  ⟨ascii "POST", ascii "/a/b/c.d?e=f&g", ascii "1.1",
    [⟨ascii "Key1", ascii "val1"⟩, ⟨ascii "Key2", ascii "val2"⟩]⟩

theorem parse_render_post :
    ∃ buf, parseHttpRequest
      (renderHead .crlf postHead (postHead.headers.map plainLine) ++ ascii "BODY")
      (renderHead .crlf postHead (postHead.headers.map plainLine) ++ ascii "BODY").length =
      .ok ⟨56, ⟨postHead.method, postHead.uri, postHead.version, postHead.headers⟩, buf⟩ :=
  (parse_render .crlf postHead
    ⟨by decide, by decide, by decide, by decide, by decide⟩
    (postHead.headers.map plainLine)
    (.cons (plainLine_spec _ (by decide) (by decide) (by decide) (by decide))
      (.cons (plainLine_spec _ (by decide) (by decide) (by decide) (by decide)) .nil))).2.2
    (ascii "BODY")

end CivetWeb
