import CivetWeb.Http.HeaderLen
import CivetWeb.Http.Headers

namespace CivetWeb

/-- Extended ASCII counts as part of a word. -/
def wordByte (c : Byte) : Bool := 127 < c || isgraph c

/-- `skip_to_end_of_word_and_terminate` at `*ppw`: the word, the number of bytes
zeroed behind it and the buffer at the new `*ppw`; `none` where it returns -1. -/
def skipToEndOfWordAndTerminate (buf : List Byte) (eol : Bool) :
    Option (List Byte × Nat × List Byte) :=
  let word := buf.takeWhile wordByte
  let ppw := buf.dropWhile wordByte
  let c := deref ppw
  if (if eol then c != CR && c != LF else c != SP) then none
  else
    let next := ppw.tail.dropWhile isspace
    if !eol && !isgraph (deref next) then none
    else some (word, ppw.length - next.length, next)

/-- The names in the table `http_methods`. -/
def httpMethods : List (List Byte) :=
  ["GET", "POST", "PUT", "DELETE", "HEAD", "OPTIONS", "CONNECT", "PATCH", "PROPFIND", "MKCOL",
    "LOCK", "UNLOCK", "PROPPATCH", "COPY", "MOVE", "REPORT"].map ascii

def isValidHttpMethod (method : List Byte) : Bool := httpMethods.contains method

structure RequestInfo where
  requestMethod : List Byte
  requestUri : List Byte
  httpVersion : List Byte
  httpHeaders : List MgHeader
  deriving DecidableEq, Repr

/-- A request that `parse_http_request` accepts: its return value, `ri`, and the
buffer with the NULs written into it. -/
structure ParsedRequest where
  length : Nat
  info : RequestInfo
  buf : List Byte
  deriving DecidableEq, Repr

/-- The part of `parse_http_request` behind the length check; `text` is the buffer
from the first byte of the method, closed by the NUL over its last line feed. -/
def parseRequestText (text : List Byte) : Option (RequestInfo × List Byte) := do
  let (method, n1, p1) ← skipToEndOfWordAndTerminate text false
  let (uri, n2, p2) ← skipToEndOfWordAndTerminate p1 false
  let (version, n3, p3) ← skipToEndOfWordAndTerminate p2 true
  if strncmp version (ascii "HTTP/") 5 ≠ 0 then none
  else if !isValidHttpMethod method then none
  else
    let p := parseHttpHeaders p3
    if !p.ok then none
    else some (⟨method, uri, version.drop 5, p.headers⟩,
      method ++ zeros n1 ++ uri ++ zeros n2 ++ version ++ zeros n3 ++ p.written ++ p.rest)

/-- `parse_http_request` behind the leading white space; an error is its return
value, zero or negative. -/
def parseRequestHead (buf : List Byte) (len : Nat) : Except Int ParsedRequest :=
  if len = 0 then .error 0
  else if iscntrl (deref buf) then .error (-1)
  else
    let requestLength := getHttpHeaderLen buf len
    if requestLength ≤ 0 then .error requestLength
    else
      let text := buf.set (requestLength.toNat - 1) NUL
      if deref text == NUL || deref text == CR || deref text == LF then .error (-1)
      else
        match parseRequestText text with
        | none => .error (-1)
        | some (info, text) => .ok ⟨requestLength.toNat, info, text⟩

def parseHttpRequest (buf : List Byte) (len : Nat) : Except Int ParsedRequest :=
  let initSkip := ((buf.take len).takeWhile isspace).length
  match parseRequestHead (buf.drop initSkip) (len - initSkip) with
  | .error e => .error e
  | .ok r => .ok ⟨r.length + initSkip, r.info, buf.take initSkip ++ r.buf⟩

/-- A word ends at the byte the caller asks for, and the white space behind it goes too. -/
theorem skipWord_run (w : List Byte) (b : Byte) (ws next : List Byte) (eol : Bool)
    (hw : ∀ a ∈ w, wordByte a = true) (hb : if eol then b = CR ∨ b = LF else b = SP)
    (hws : ∀ a ∈ ws, isspace a = true) (hnext : isspace (deref next) = false)
    (hg : eol = false → isgraph (deref next) = true) :
    skipToEndOfWordAndTerminate (w ++ b :: (ws ++ next)) eol = some (w, ws.length + 1, next) := by
  have hbw : wordByte b = false := by
    cases eol
    · simp only [Bool.false_eq_true, if_false] at hb
      subst hb
      rfl
    · simp only [if_true] at hb
      rcases hb with rfl | rfl <;> rfl
  have hd : (ws ++ next).dropWhile isspace = next := by
    rw [List.dropWhile_append_of_pos hws]
    cases next with
    | nil => rfl
    | cons c t => exact List.dropWhile_cons_of_neg (by simpa using hnext)
  unfold skipToEndOfWordAndTerminate
  rw [Scan.takeWhile_stop wordByte w b _ hw hbw, Scan.dropWhile_stop wordByte w b _ hw hbw]
  simp only [deref_cons, List.tail_cons, hd, List.length_cons, List.length_append]
  have hlen : ws.length + next.length + 1 - next.length = ws.length + 1 := by omega
  cases eol
  · simp only [Bool.false_eq_true, if_false] at hb
    simp [hb, hg rfl, hlen]
  · simp only [if_true] at hb
    rcases hb with rfl | rfl <;> simp [hlen]

/-- Conversely a word that was accepted splits the buffer this way. -/
theorem skipWord_some (buf w next : List Byte) (n : Nat) (eol : Bool)
    (h : skipToEndOfWordAndTerminate buf eol = some (w, n, next)) :
    ∃ b ws, buf = w ++ b :: (ws ++ next) ∧ n = ws.length + 1 ∧ (∀ a ∈ w, wordByte a = true) ∧
      (if eol then b = CR ∨ b = LF else b = SP) ∧ (∀ a ∈ ws, isspace a = true) ∧
      (∀ a ∈ next.head?, isspace a = false) ∧ (eol = false → isgraph (deref next) = true) := by
  unfold skipToEndOfWordAndTerminate at h
  obtain ⟨d, hd⟩ : ∃ d, d = buf.dropWhile wordByte := ⟨_, rfl⟩
  obtain ⟨stuck, hstuck⟩ : ∃ stuck : Bool,
      stuck = if eol then deref d != CR && deref d != LF else deref d != SP := ⟨_, rfl⟩
  simp only [← hd, ← hstuck] at h
  split_ifs at h with h1 h2
  simp only [Option.some.injEq, Prod.mk.injEq] at h
  obtain ⟨rfl, rfl, rfl⟩ := h
  have hb : if eol then deref d = CR ∨ deref d = LF else deref d = SP := by
    rw [hstuck] at h1
    cases eol
    · simpa using h1
    · simpa [or_iff_not_imp_left] using h1
  obtain ⟨b, t, rfl⟩ : ∃ b t, d = b :: t := by
    cases d with
    | nil => cases eol <;> exact absurd hb (by decide)
    | cons b t => exact ⟨b, t, rfl⟩
  refine ⟨b, t.takeWhile isspace, ?_, ?_, Scan.takeWhile_all _ _, hb, Scan.takeWhile_all _ _,
    Scan.head_dropWhile _ _, ?_⟩
  · rw [List.tail_cons, List.takeWhile_append_dropWhile, hd, List.takeWhile_append_dropWhile]
  · have := congrArg List.length (List.takeWhile_append_dropWhile (p := isspace) (l := t))
    simp only [List.length_append, List.length_cons, List.tail_cons] at this ⊢
    omega
  · rintro rfl
    simpa using h2

end CivetWeb
