import CivetWeb.Form.UrlEncoded

namespace CivetWeb

/-- The size of an object is computed modulo 2^64. -/
def sizeSub (a b : Nat) : Nat := (a + 2 ^ 64 - b) % 2 ^ 64

def DELIMITER_START : List Byte := [CR, LF, 45, 45]

/-- `search_boundary` in the bytes `buf`: the first CRLF, `--` and boundary that end within them. -/
def searchBoundary (buf boundary : List Byte) : Option Nat :=
  Scan.find (DELIMITER_START ++ boundary) buf

/-- One of `:,; \t`, or the NUL that stands before the value of a header without blanks. -/
def attributeStart (c : Byte) : Bool := c == NUL || c ∈ ascii ":,; " || c == TAB

/-- The end of an attribute value without quotes. -/
def attributeByte (c : Byte) : Bool := !(c ∈ ascii ",; " || c == TAB)

/-- The loop of `strstr` that looks for an attribute: the first `pat` that does not continue a word;
`before` is the byte before the text. -/
def findAttribute (pat : List Byte) : Byte → List Byte → Option Nat
  | _, [] => none
  | before, c :: s =>
    if pat.isPrefixOf (c :: s) && attributeStart before then some 0
    else (findAttribute pat c s).map (· + 1)

/-- A part of a string from one offset to another. -/
structure Span where
  begin : Nat
  stop : Nat
  deriving DecidableEq, Repr

def Span.bytes (s : Span) (text : List Byte) : List Byte :=
  (text.drop s.begin).take (s.stop - s.begin)

/-- The attribute `attr` of a `Content-Disposition`, with quotes around its value or without; the outer
`none` is a value whose closing quote is missing. -/
def findAttributeValue (attr contentDisp : List Byte) : Option (Option Span) :=
  match findAttribute (attr ++ [EQUALS, QUOTE]) NUL contentDisp with
  | some i =>
    let begin := i + attr.length + 2
    (strchrAt (contentDisp.drop begin) QUOTE).map (fun j => some ⟨begin, begin + j⟩)
  | none =>
    match findAttribute (attr ++ [EQUALS]) NUL contentDisp with
    | none => some none
    | some i =>
      let begin := i + attr.length + 1
      some (some ⟨begin, begin + ((contentDisp.drop begin).takeWhile attributeByte).length⟩)

/-- The field name and the file name that a `Content-Disposition` gives; `none` is malformed. -/
def partNames (contentDisp : List Byte) : Option (List Byte × Option (List Byte)) :=
  match findAttributeValue (ascii "name") contentDisp with
  | none => none
  | some none => none
  | some (some name) =>
    match findAttributeValue (ascii "filename") contentDisp with
    | none => none
    | some none => some (name.bytes contentDisp, none)
    | some (some file) =>
      -- name and filename must not overlap
      if ¬ (name.stop < file.begin ∨ file.stop < name.begin) then none
      else if file.begin < file.stop then
        some (name.bytes contentDisp, some (file.bytes contentDisp))
      else some (name.bytes contentDisp, none)

/-- What the head of a part says. -/
inductive PartHead where
  | malformed
  | final
  | part (hend : Nat) (name : List Byte) (filename : Option (List Byte))
  deriving DecidableEq, Repr

/-- From the delimiter at the start of the buffer to the data of the part, which is at the offset `hend`. -/
def parsePartHead (boundary buf : List Byte) : PartHead :=
  let bl := boundary.length
  if buf.length < bl + 2 ∨ strncmp buf (ascii "--") 2 ≠ 0 ∨
      strncmp (buf.drop 2) boundary bl ≠ 0 then .malformed
  else
    let padding := (buf.drop (2 + bl)).takeWhile isblank
    let boundaryEnd := buf.drop (2 + bl + padding.length)
    if strncmp boundaryEnd [CR, LF] 2 ≠ 0 then
      if strncmp boundaryEnd (ascii "--") 2 ≠ 0 then .malformed else .final
    else
      let hbuf := boundaryEnd.drop 2
      match Scan.find [CR, LF, CR, LF] (cstr hbuf) with
      | none => .malformed
      | some hend =>
        let p := parseHttpHeaders hbuf
        -- the headers have to end where the empty line is
        if p.rest.length + (hend + 2) ≠ hbuf.length then .malformed
        else
          match getHeader (if p.ok then p.headers else []) (ascii "Content-Disposition") with
          | none => .malformed
          | some contentDisp =>
            match partNames contentDisp with
            | none => .malformed
            | some (name, filename) =>
              .part (2 + bl + padding.length + 2 + hend + 4) name filename

/-- The loop that skips the preamble, at `preambleLength`; it may look at 1024 places. `mem` is the buffer
with what stands behind its end. -/
def skipPreamble (boundary mem : List Byte) (limit : Nat) : Nat → Nat → Nat
  | 0, preambleLength => preambleLength
  | n + 1, preambleLength =>
    if preambleLength < limit ∧
        strncmp (mem.drop (preambleLength + 2)) boundary boundary.length ≠ 0 then
      skipPreamble boundary mem limit n (preambleLength + 1)
    else preambleLength

/-- The locals of one turn of the loop over the parts; `hend` and `next` are offsets into the buffer. -/
structure PartLocals where
  hend : Nat
  name : List Byte
  storage : UInt32
  getBlock : Nat
  next : Option Nat

/-- The places the loop over a multipart body goes through: the head of the loop over the parts, and
the head of the loop over the blocks of the data of a part. -/
inductive PartsAt (W : Type) where
  | part (first : Bool) (s : FormState W)
  | block (p : PartLocals) (s : FormState W)

def FormState.log {W : Type} (s : FormState W) (e : FormEvent) : FormState W :=
  { s with events := s.events ++ [e] }

section
variable {W : Type} (env : FormHandler W) (boundary : List Byte)

/-- Makes `buf` the contents of the buffer. -/
def setBuf (buf : List Byte) (s : FormState W) : FormState W :=
  { s with buf := buf, events := s.events ++ [.fill buf.length] }

/-- A turn from the delimiter on. -/
def partBegin (s : FormState W) : PartsAt W ⊕ FormResult W :=
  match parsePartHead boundary s.buf with
  | .malformed => .inr (-1, s)
  | .final => .inr (s.fieldCount, s)
  | .part hend name filename =>
    let s := { s with fieldCount := s.fieldCount + 1, path := [] }
    let (storage, s) := urlEncodedFieldFound env name filename s
    -- the search starts at the end of the last header line, two bytes before the data
    let next := (searchBoundary (s.buf.drop (hend - 2)) boundary).map (· + (hend - 2))
    let s := if storage = MG_FORM_FIELD_STORAGE_STORE then openStore env s else s
    .inl (.block ⟨hend, name, storage, 0, next⟩ s)

/-- Removes the preamble; `stale` is what the buffer held before. The last result is false where
`buf_fill` runs below zero: the length that `memmove` is given is then out of all bounds. -/
def removePreamble (stale : List Byte) (s : FormState W) : FormState W × Bool :=
  let mem := s.buf ++ NUL :: stale.drop (s.buf.length + 1)
  let n := skipPreamble boundary mem (sizeSub s.buf.length boundary.length) 1024 0
  if strncmp (mem.drop (n + 2)) boundary boundary.length = 0 then
    if n ≤ s.buf.length then (setBuf (s.buf.drop n) s, true)
    else (s.log (.fill (sizeSub s.buf.length n)), false)
  else (s, true)

/-- A turn of the loop over the parts, up to the data of the part. -/
def partStep (stale : List Byte) (first : Bool) (s : FormState W) : PartsAt W ⊕ FormResult W :=
  match fillBuf env s with
  | (false, s) => .inr (-1, s)
  | (true, s) =>
    if s.buf.length < 1 then .inr (-1, s)
    else if first then
      match removePreamble boundary stale s with
      | (s, true) => partBegin env boundary s
      | (s, false) => .inr (-1, s)
    else partBegin env boundary s

/-- The key for `field_get`, which only the first block has. -/
def PartLocals.key (p : PartLocals) : List Byte := if 0 < p.getBlock then [] else p.name

/-- The last block of the data is written, and the file is closed; the answer says whether
`field_store` stops the request. -/
def writeLast (data : List Byte) (towrite : Nat) (s : FormState W) : Bool × FormState W :=
  let ((n, failed), w) := env.fwrite data towrite s.world
  let s := { s with world := w }
  if n ≠ towrite ∨ failed then (false, dropStore env s)
  else closeStore env { s with fileSize := s.fileSize + n }

/-- The end of a turn of the loop over the parts: the buffer goes on at the delimiter. -/
def partFinish (p : PartLocals) (storage : UInt32) (stop : Bool) (s : FormState W) :
    PartsAt W ⊕ FormResult W :=
  if stop ∨ storageAborts storage then .inr (s.fieldCount, s)
  else
    match p.next with
    | some next => .inl (.part false (setBuf (s.buf.drop (next + 2)) s))
    | none => .inl (.part false (setBuf [] s))

/-- What follows the loop over the blocks of the data of a part. -/
def partEnd (p : PartLocals) (s : FormState W) : PartsAt W ⊕ FormResult W :=
  let towrite := (p.next.map (sizeSub · p.hend)).getD 0
  if p.storage = MG_FORM_FIELD_STORAGE_GET then
    let (r, s) := unencodedFieldGet env p.key (s.buf.drop p.hend) towrite
      (s.log (.use p.hend towrite s.buf.length))
    if r = MG_FORM_FIELD_HANDLE_ABORT then .inr (s.fieldCount, s)
    else
      let storage := if r = MG_FORM_FIELD_HANDLE_NEXT then MG_FORM_FIELD_STORAGE_SKIP else p.storage
      partFinish p storage false s
  else if p.storage = MG_FORM_FIELD_STORAGE_STORE ∧ s.fpOpen then
    let (stop, s) := writeLast env (s.buf.drop p.hend) towrite
      (s.log (.use p.hend towrite s.buf.length))
    partFinish p p.storage stop s
  else partFinish p p.storage false s

/-- The end of a turn of the loop over the blocks: the buffer keeps its last bytes, and more is read. -/
def blockRefill (p : PartLocals) (towrite : Nat) (s : FormState W) : PartsAt W ⊕ FormResult W :=
  let s := setBuf ((s.buf.drop (p.hend + towrite)).take (boundary.length + 4)) s
  match env.mgRead (MG_BUF_LEN - 1 - s.buf.length) s.world with
  | (none, w) =>
    let s := { s with world := w }
    .inr (-1, if s.fpOpen then dropStore env s else s)
  | (some r, w) =>
    let s := { s with world := w }
    if r.val = [] ∧ s.allDataRead then .inr (-1, if s.fpOpen then dropStore env s else s)
    else
      let s := setBuf (s.buf ++ r.val) s
      let next := searchBoundary s.buf boundary
      let s := if next = none ∧ r.val = [] then { s with allDataRead := true } else s
      .inl (.block { p with hend := 0, next := next } s)

/-- A turn of the loop over the blocks of the data of a part. -/
def partBlock (p : PartLocals) (s : FormState W) : PartsAt W ⊕ FormResult W :=
  match p.next with
  | some _ => partEnd env p s
  | none =>
    let available := sizeSub s.buf.length p.hend
    if available < boundary.length + 4 then .inr (-1, s)
    else
      let towrite := available - (boundary.length + 4)
      if p.storage = MG_FORM_FIELD_STORAGE_GET then
        let (r, s) := unencodedFieldGet env p.key (s.buf.drop p.hend) towrite
          (s.log (.use p.hend towrite s.buf.length))
        let p := { p with getBlock := p.getBlock + 1 }
        if r = MG_FORM_FIELD_HANDLE_ABORT then partEnd env p s
        else if r = MG_FORM_FIELD_HANDLE_NEXT then
          blockRefill env boundary { p with storage := MG_FORM_FIELD_STORAGE_SKIP } towrite s
        else blockRefill env boundary p towrite s
      else if p.storage = MG_FORM_FIELD_STORAGE_STORE ∧ s.fpOpen then
        blockRefill env boundary p towrite
          (writeStore env (s.buf.drop p.hend) towrite (s.log (.use p.hend towrite s.buf.length)))
      else blockRefill env boundary p towrite s

def partsStep (stale : List Byte) : PartsAt W → PartsAt W ⊕ FormResult W
  | .part first s => partStep env boundary stale first s
  | .block p s => partBlock env boundary p s

end

end CivetWeb
