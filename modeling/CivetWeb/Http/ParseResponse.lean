import CivetWeb.Http.Received
import CivetWeb.Http.RoundTrip
import CivetWeb.Format

namespace CivetWeb

structure ResponseInfo where
  statusCode : Int
  statusText : List Byte
  httpVersion : List Byte
  contentLength : Int
  httpHeaders : List MgHeader
  deriving DecidableEq, Repr

/-- A response that `parse_http_response` accepts: its return value, `ri`, and the buffer with the NULs
written into it. -/
structure ParsedResponse where
  length : Nat
  info : ResponseInfo
  buf : List Byte
  deriving DecidableEq, Repr

/-- The part of `parse_http_response` behind the length check; `text` is the buffer from the first byte of
the version, closed by the NUL over its last line feed. -/
def parseResponseText (text : List Byte) : Option (ResponseInfo × List Byte) := do
  if strncmp text (ascii "HTTP/") 5 ≠ 0 then none
  else if !isgraph (deref (text.drop 5)) then none
  else
    let (version, n1, p1) ← skipToEndOfWordAndTerminate (text.drop 5) false
    let (status, n2, p2) ← skipToEndOfWordAndTerminate p1 false
    let (l, tmp2) := strtoll 10 status
    if l < 100 ∨ 1000 ≤ l ∨ status.length - tmp2.length ≠ 3 ∨ deref tmp2 ≠ NUL then none
    else
      let statusText := p2.takeWhile isprint
      let p := p2.dropWhile isprint
      if deref p ≠ CR ∧ deref p ≠ LF then none
      else
        let p3 := p.tail.dropWhile isspace
        let h := parseHttpHeaders p3
        if !h.ok then none
        else some (⟨l, statusText, version, -1, h.headers⟩,
          text.take 5 ++ version ++ zeros n1 ++ status ++ zeros n2 ++ statusText ++
            zeros (p.length - p3.length) ++ h.written ++ h.rest)

/-- `parse_http_response` behind the leading white space; an error is its return value, zero or negative. -/
def parseResponseHead (buf : List Byte) (len : Nat) : Except Int ParsedResponse :=
  if len = 0 then .error 0
  else if iscntrl (deref buf) then .error (-1)
  else
    let responseLength := getHttpHeaderLen buf len
    if responseLength ≤ 0 then .error responseLength
    else
      let text := buf.set (responseLength.toNat - 1) NUL
      if deref text == NUL || deref text == CR || deref text == LF then .error (-1)
      else
        match parseResponseText text with
        | none => .error (-1)
        | some (info, text) => .ok ⟨responseLength.toNat, info, text⟩

def parseHttpResponse (buf : List Byte) (len : Nat) : Except Int ParsedResponse :=
  let initSkip := ((buf.take len).takeWhile isspace).length
  match parseResponseHead (buf.drop initSkip) (len - initSkip) with
  | .error e => .error e
  | .ok r => .ok ⟨r.length + initSkip, r.info, buf.take initSkip ++ r.buf⟩

/-! ### Heads that are read back -/

/-- The words of the status line. -/
structure StatusWords (version : List Byte) (status : Nat) : Prop where
  version_start : isgraph (deref version) = true
  version_bytes : ∀ a ∈ version, wordByte a = true
  low : 100 ≤ status
  high : status < 1000

/-- A line that can stand behind the status. -/
structure PlainText (t : List Byte) : Prop where
  start : isgraph (deref t) = true
  bytes : ∀ a ∈ t, isprint a = true

/-- The status as a word, and what `strtol` makes of it. -/
theorem status_word {n : Nat} (hlow : 100 ≤ n) (hhigh : n < 1000) :
    (∀ a ∈ decText n, wordByte a = true) ∧ isgraph (deref (decText n)) = true ∧
      strtoll 10 (decText n) = ((n : Int), []) := by
  have hdigit : ∀ a, isDigitIn 10 a = true → wordByte a = true ∧ isgraph a = true :=
    byte_all _ (by decide +kernel)
  have hdigits := decText_digits n
  refine ⟨fun a ha => (hdigit a (hdigits a ha)).1, ?_, ?_⟩
  · obtain ⟨d, ds, hd⟩ := List.exists_cons_of_ne_nil (decText_ne_nil n)
    rw [hd]
    exact (hdigit d (hdigits d (by simp [hd]))).2
  · have hread := strtol_text 10 (decText n) [] hdigits (decText_ne_nil n) (decText_plain n) (by simp)
    rw [List.append_nil, decText_value] at hread
    rw [strtoll, hread]
    simp only [Bool.false_eq_true, if_false, Prod.mk.injEq, and_true]
    omega

/-- The first line of a response up to its text. -/
def statusWords (version : List Byte) (status : Nat) : List Byte :=
  ascii "HTTP/" ++ version ++ SP :: (decText status ++ [SP])

/-- The words of the status line as they stand in the buffer, with `ws` in front of the text. -/
theorem parseResponseText_words {version ws t ws' next w rest : List Byte} {status : Nat} {b : Byte}
    {hs : List MgHeader} (hw : StatusWords version status) (hws : ∀ a ∈ ws, isspace a = true) (ht : PlainText t)
    (hb : b = CR ∨ b = LF) (hws' : ∀ a ∈ ws', isspace a = true) (hnext : isspace (deref next) = false)
    (hp : parseHttpHeaders next = ⟨true, hs, w, rest⟩) :
    parseResponseText (statusWords version status ++ (ws ++ (t ++ b :: (ws' ++ next)))) =
      some (⟨status, t, version, -1, hs⟩, ascii "HTTP/" ++ version ++ zeros 1 ++ decText status ++
        zeros (ws.length + 1) ++ t ++ zeros (ws'.length + 1) ++ w ++ rest) := by
  obtain ⟨hbytes, hstart, hvalue⟩ := status_word hw.low hw.high
  have hlow := hw.low
  have hhigh := hw.high
  obtain ⟨d, ds, hd⟩ := List.exists_cons_of_ne_nil (decText_ne_nil status)
  obtain ⟨c, cs, hc⟩ : ∃ c cs, t = c :: cs := by
    cases t with
    | nil => exact absurd ht.start (by decide)
    | cons c cs => exact ⟨c, cs, rfl⟩
  obtain ⟨v, vs, hv⟩ : ∃ v vs, version = v :: vs := by
    cases version with
    | nil => exact absurd hw.version_start (by decide)
    | cons v vs => exact ⟨v, vs, rfl⟩
  have hdg : isgraph d = true := by simpa [hd] using hstart
  have hcg : isgraph c = true := by simpa [hc] using ht.start
  have hvg : isgraph v = true := by simpa [hv] using hw.version_start
  have hshape : statusWords version status ++ (ws ++ (t ++ b :: (ws' ++ next))) =
      ascii "HTTP/" ++ (version ++ SP :: (decText status ++ SP :: (ws ++ (t ++ b :: (ws' ++ next))))) := by
    simp [statusWords]
  have hkey (s : List Byte) : strncmp (ascii "HTTP/" ++ s) (ascii "HTTP/") 5 = 0 := rfl
  have hdrop (s : List Byte) : (ascii "HTTP/" ++ s).drop 5 = s ∧ (ascii "HTTP/" ++ s).take 5 = ascii "HTTP/" :=
    ⟨rfl, rfl⟩
  have h1 := skipWord_run version SP [] (decText status ++ SP :: (ws ++ (t ++ b :: (ws' ++ next)))) false
    hw.version_bytes rfl (by simp) (by simp [hd, isgraph_not_isspace d hdg]) (by simp [hd, hdg])
  have h2 := skipWord_run (decText status) SP ws (t ++ b :: (ws' ++ next)) false hbytes rfl hws
    (by simp [hc, isgraph_not_isspace c hcg]) (by simp [hc, hcg])
  rw [List.nil_append] at h1
  have heol : isprint b = false := by rcases hb with rfl | rfl <;> rfl
  have htake := Scan.takeWhile_stop isprint t b (ws' ++ next) ht.bytes heol
  have htext := Scan.dropWhile_stop isprint t b (ws' ++ next) ht.bytes heol
  have hskip : (ws' ++ next).dropWhile isspace = next := by
    rw [List.dropWhile_append_of_pos hws']
    cases next with
    | nil => rfl
    | cons c next => exact List.dropWhile_cons_of_neg (by simpa using hnext)
  have hgraph : isgraph (deref (version ++ SP :: (decText status ++ SP :: (ws ++ (t ++ b :: (ws' ++ next)))))) =
      true := by
    rw [hv, List.cons_append, deref_cons]
    exact hvg
  have hcode : ¬ ((status : Int) < 100 ∨ 1000 ≤ (status : Int) ∨
      (decText status).length - ([] : List Byte).length ≠ 3 ∨ deref [] ≠ NUL) := by
    rw [decText_three status ⟨hlow, by omega⟩]
    simp [deref]
    omega
  have hend : ¬ (b ≠ CR ∧ b ≠ LF) := by
    rcases hb with rfl | rfl <;> simp
  rw [hshape]
  unfold parseResponseText
  simp only [hkey, (hdrop _).1, (hdrop _).2, ne_eq, not_true_eq_false, if_false, hgraph, Bool.not_true,
    Bool.false_eq_true, Option.bind_eq_bind, h1, Option.bind_some, h2, hvalue, htake, htext, deref_cons,
    List.tail_cons, hskip, hp]
  rw [if_neg hcode, if_neg hend]
  have hzeros : (b :: (ws' ++ next)).length - next.length = ws'.length + 1 := by
    simp only [List.length_cons, List.length_append]
    omega
  rw [hzeros]
  rfl

/-- A head that is measured whole is parsed with the NUL over its last line feed. -/
theorem parseHttpResponse_of_head {pre tail text : List Byte} {len : Nat} {info : ResponseInfo}
    (hfound : headerLenFrom 0 (ascii "HTTP/" ++ pre ++ [LF]) = (ascii "HTTP/" ++ pre ++ [LF]).length)
    (hlen : (ascii "HTTP/" ++ pre ++ [LF]).length ≤ len)
    (htext : parseResponseText (ascii "HTTP/" ++ pre ++ NUL :: tail) = some (info, text)) :
    parseHttpResponse (ascii "HTTP/" ++ pre ++ [LF] ++ tail) len =
      .ok ⟨(ascii "HTTP/" ++ pre ++ [LF]).length, info, text⟩ := by
  obtain ⟨head, hhead⟩ : ∃ head, head = ascii "HTTP/" ++ pre ++ [LF] := ⟨_, rfl⟩
  have hpos : 0 < head.length := by simp [hhead]
  have hle : head.length ≤ len := hhead ▸ hlen
  have hmeasured : headerLenFrom 0 head = head.length := hhead ▸ hfound
  have hscan : getHttpHeaderLen (head ++ tail) len = head.length := by
    rw [getHttpHeaderLen, List.take_append, List.take_of_length_le hle,
      headerLenFrom_append 0 head _ (by omega), hmeasured]
  have hset : (head ++ tail).set (head.length - 1) NUL = ascii "HTTP/" ++ pre ++ NUL :: tail := by
    simp [hhead]
  have hskip : ((head ++ tail).take len).takeWhile isspace = [] := by
    obtain ⟨n, hn⟩ : ∃ n, len = n + 1 := ⟨len - 1, by omega⟩
    rw [hn, hhead]
    rfl
  have hfirst : deref (head ++ tail) = 72 := by
    rw [hhead]
    rfl
  have hfirst' : deref (ascii "HTTP/" ++ pre ++ NUL :: tail) = 72 := rfl
  rw [← hhead, parseHttpResponse, hskip]
  simp only [List.length_nil, List.drop_zero, Nat.sub_zero, List.take_zero, List.nil_append]
  rw [parseResponseHead, if_neg (by omega), hfirst, if_neg (by decide), hscan, if_neg (by omega)]
  simp only [Int.toNat_natCast, hset, hfirst', htext]
  rfl

/-- A response head with these lines, where `ws` stands in front of the text `t`. -/
def renderResponse (e : LineEnd) (version : List Byte) (status : Nat) (ws t : List Byte)
    (lines : List (List Byte)) : List Byte :=
  statusWords version status ++ (ws ++ (t ++ (e.bytes ++ lines.flatMap (· ++ e.bytes) ++ e.bytes)))

/-- A head that is measured whole is parsed back, with the first line behind the white space as its text. -/
theorem parseHttpResponse_render (e : LineEnd) (ws tail : List Byte) {version t : List Byte} {status len : Nat}
    {hs : List MgHeader} {lines : List (List Byte)} (hw : StatusWords version status)
    (hws : ∀ a ∈ ws, isspace a = true) (ht : PlainText t) (hl : List.Forall₂ PlainLine hs lines)
    (hn : hs.length ≤ mgMaxHeaders) (hfound : headerLenFrom 0 (renderResponse e version status ws t lines) =
      (renderResponse e version status ws t lines).length)
    (hlen : (renderResponse e version status ws t lines).length ≤ len) :
    ∃ buf, parseHttpResponse (renderResponse e version status ws t lines ++ tail) len =
        .ok ⟨(renderResponse e version status ws t lines).length, ⟨status, t, version, -1, hs⟩, buf ++ tail⟩ ∧
      buf.length = (renderResponse e version status ws t lines).length := by
  obtain ⟨b, ws', next, w, rest, hsec, hb, hws', hnext, hparse⟩ := header_section e hs lines []
    (hl.imp fun _ _ h => h.1) hn
  have hnul : NUL ∈ next := by
    have hmem : NUL ∈ b :: (ws' ++ next) := by
      rw [← hsec]
      simp
    have hbne : NUL ≠ b := by rcases hb with rfl | rfl <;> decide
    rcases List.mem_append.mp ((List.mem_cons.mp hmem).resolve_left hbne) with h | h
    · exact absurd (hws' NUL h) (by decide)
    · exact h
  have hmore := headersLoop_append mgMaxHeaders next tail hnul
  rw [parseHttpHeaders] at hparse
  rw [hparse] at hmore
  obtain ⟨hparse', hlength⟩ := hmore
  have hnext' : isspace (deref (next ++ tail)) = false := by
    cases next with
    | nil => cases hnul
    | cons c next => exact hnext
  have htext := parseResponseText_words hw hws ht hb hws' hnext' hparse'
  obtain ⟨pre, hpre⟩ : ∃ pre, statusWords version status ++ (ws ++ (t ++ (e.bytes ++ lines.flatMap (· ++ e.bytes) ++
      e.cr))) = ascii "HTTP/" ++ pre :=
    ⟨version ++ SP :: (decText status ++ SP :: (ws ++ (t ++ (e.bytes ++ lines.flatMap (· ++ e.bytes) ++ e.cr)))), by
      simp [statusWords]⟩
  have hhead : renderResponse e version status ws t lines = ascii "HTTP/" ++ pre ++ [LF] := by
    rw [← hpre, renderResponse]
    conv_lhs => rw [e.bytes_eq]
    simp [e.bytes_eq]
  have hclosed : statusWords version status ++ (ws ++ (t ++ b :: (ws' ++ (next ++ tail)))) =
      ascii "HTTP/" ++ pre ++ NUL :: tail := by
    rw [← hpre]
    have hsec' := congrArg (· ++ tail) hsec
    simp only [List.append_assoc, List.cons_append, List.nil_append] at hsec' ⊢
    rw [← hsec']
  rw [hclosed] at htext
  rw [hhead] at hfound hlen ⊢
  refine ⟨ascii "HTTP/" ++ version ++ zeros 1 ++ decText status ++ zeros (ws.length + 1) ++ t ++
    zeros (ws'.length + 1) ++ w ++ rest, ?_, ?_⟩
  · rw [parseHttpResponse_of_head hfound hlen htext]
    simp
  · have hlens := congrArg List.length hclosed
    simp only [List.length_append, List.length_cons, List.length_nil, zeros, List.length_replicate,
      statusWords] at hlens ⊢
    dsimp only at hlength
    omega

end CivetWeb
