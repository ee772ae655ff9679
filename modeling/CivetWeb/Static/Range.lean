import CivetWeb.Conn.Framing
import CivetWeb.Response.HeadOnce
import CivetWeb.Static.SendFile

namespace CivetWeb

/-- `parse_range_header`: what `sscanf` with `"bytes=%lld-%lld"` returns, and the two numbers, which it
leaves as they are where it converts none. -/
def parseRangeHeader (header : List Byte) (a b : Int) : Int × Int × Int :=
  if !(ascii "bytes=").isPrefixOf header then
    (if header.isPrefixOf (ascii "bytes=") then -1 else 0, a, b)
  else
    let s := header.drop 6
    let first := strtoll 10 (s ++ [NUL])
    if first.2.length = s.length + 1 then (if s.all isspace then -1 else 0, a, b)
    else if deref first.2 ≠ 45 then (1, first.1, b)
    else
      let second := strtoll 10 first.2.tail
      if second.2.length = first.2.tail.length then (1, first.1, b) else (2, first.1, second.1)

structure FileStat where
  size : Nat
  lastModified : Nat
  isDirectory : Bool
  isGzipped : Bool
  deriving DecidableEq, Repr

/-- The files that `mg_stat` and `mg_fopen` find; an open file has its status read again. -/
structure StaticFiles where
  stat : List Byte → Option FileStat
  fopen : List Byte → Option (FileStat × OpenFile)
  strerror : List Byte

/-- `MG_FILE_COMPRESSION_SIZE_LIMIT` -/
def MG_FILE_COMPRESSION_SIZE_LIMIT : Nat := 1024

/-- The result of an operation on `int64_t`. -/
def int64 (n : Int) : Int := n.bmod (2 ^ 64)

/-- What is sent of a file: `cl` bytes from `r1` on, with this status and this `Content-Range`, which is empty
where it is no range. -/
structure StaticPart where
  statusCode : Int
  r1 : Int
  cl : Int
  range : List Byte
  deriving DecidableEq, Repr

/-- The part of `handle_static_file_request` about the `Range` header. -/
def staticPart (rangeHdr : Option (List Byte)) (cl : Int) (size : Nat) : StaticPart :=
  let (n, r1, r2) := (rangeHdr.map (parseRangeHeader · 0 0)).getD (0, 0, 0)
  if 0 < n ∧ 0 ≤ r1 ∧ 0 ≤ r2 then
    let cl := if n = 2 then int64 ((if cl < r2 then cl else r2) - r1 + 1) else int64 (cl - r1)
    ⟨206, r1, cl, (mgSnprintf 128 (ascii "bytes " ++ intText r1 ++ 45 :: intText (int64 (r1 + cl - 1)) ++
      SLASH :: intText size)).1⟩
  else ⟨200, r1, cl, []⟩

/-- The text of the `Content-Length` header; none where the buffer is too small. -/
def contentLengthText (cl : Int) : Option (List Byte) :=
  let len := mgSnprintf 32 (intText cl)
  if len.2 then none else some len.1

/-- The `Etag` of `construct_etag`. -/
def constructEtag (stat : FileStat) : List Byte :=
  (mgSnprintf 64 (QUOTE :: hexText stat.lastModified ++ DOT :: intText stat.size ++ [QUOTE])).1

/-- The arguments of `handle_static_file_request` that only go into the head of the response; `siteHeaders`
are the calls of `send_static_cache_header`, `send_additional_header` and `send_cors_header`. -/
structure StaticHeaders where
  mimeType : List Byte
  siteHeaders : List ResponseCall
  additionalHeaders : List Byte
  deriving DecidableEq, Repr

def headerCall (name : String) (value : List Byte) : ResponseCall :=
  .add (some (ascii name)) (some value) (-1)

/-- The calls that add the headers of the response. -/
def staticAdds (gmtTimeString : Nat → List Byte) (headers : StaticHeaders) (stat : FileStat)
    (encoding : Option (List Byte)) (part : StaticPart) : List ResponseCall :=
  headers.siteHeaders ++
    [.add (some (ascii "Content-Type")) (some headers.mimeType) headers.mimeType.length,
      headerCall "Last-Modified" (gmtTimeString stat.lastModified), headerCall "Etag" (constructEtag stat)] ++
    ((contentLengthText part.cl).map (headerCall "Content-Length")).toList ++
    [headerCall "Accept-Ranges" (ascii "bytes")] ++
    (encoding.map (headerCall "Content-Encoding")).toList ++
    (if part.range = [] then [] else [headerCall "Content-Range" part.range]) ++
    (if headers.additionalHeaders = [] then [] else [.addLines headers.additionalHeaders])

/-- The calls in front of `mg_response_header_send`. -/
def staticHead (gmtTimeString : Nat → List Byte) (headers : StaticHeaders) (stat : FileStat)
    (encoding : Option (List Byte)) (part : StaticPart) : List ResponseCall :=
  .start part.statusCode :: staticAdds gmtTimeString headers stat encoding part

/-- The answer to a request for a file: an error, or a part of the file, with the connection in front of
`mg_response_header_send` and behind it, and its output behind the body. -/
inductive StaticAnswer where
  | httpError (status : Nat) (text : List Byte)
  | sent (part : StaticPart) (ready head : ResponseConn) (error : Option (Nat × List Byte)) (out : Output)

/-- `handle_static_file_request` without compression on the fly; `results` is what `sendfile` returns. -/
def handleStaticFileRequest (gmtTimeString : Nat → List Byte) (files : StaticFiles)
    (allowSendfileCall : List Byte) (acceptGzip : Bool) (conn : ResponseConn) (path : List Byte)
    (stat : FileStat) (headers : StaticHeaders) (results : List Int) (fseeko : Bool) : StaticAnswer :=
  let rangeHdr := mgGetHeader conn.toConn (ascii "Range")
  let gzPath := mgSnprintf UTF8_PATH_MAX (path ++ ascii ".gz")
  if INT64_MAX < stat.size then
    .httpError 500 (ascii "Error: File size is too large to send\n" ++ intText stat.size)
  else if stat.isGzipped && gzPath.2 then
    .httpError 500 (ascii "Error: Path of zipped file too long (" ++ path ++ ascii ")")
  else
    let gz :=
      if stat.isGzipped then some stat
      else if acceptGzip && rangeHdr.isNone && MG_FILE_COMPRESSION_SIZE_LIMIT ≤ stat.size && !gzPath.2 then
        (files.stat gzPath.1).filter (!·.isDirectory)
      else none
    let (path, cl) :=
      match gz with
      | some gz => (gzPath.1, gz.size)
      | none => (path, stat.size)
    match files.fopen path with
    | none => .httpError 500 (ascii "Error: Cannot open file\nfopen(" ++ path ++ ascii "): " ++ files.strerror)
    | some (stat, file) =>
      let part := staticPart rangeHdr cl stat.size
      if part.statusCode = 206 ∧ stat.isGzipped = true then
        .httpError 416 (ascii "Error: Range requests in gzipped files are not supported")
      else
        let encoding := if gz.isSome then some (ascii "gzip") else none
        let ready := responseRun gmtTimeString conn (staticHead gmtTimeString headers stat encoding part)
        let head := (mgResponseHeaderSend gmtTimeString ready).2
        if conn.requestInfo.requestMethod = ascii "HEAD" then .sent part ready head none head.out
        else
          let (error, _, out) :=
            sendFileData ⟨conn.ssl, allowSendfileCall, head.out⟩ file part.r1 part.cl false results fseeko
          .sent part ready head error out

/-- A `Range` header for the bytes from `a` to `b`, or from `a` on. -/
def rangeHeader (a : Int) (b : Option Int) : List Byte :=
  ascii "bytes=" ++ intText a ++ 45 :: (b.map intText).getD []

/-- The last byte of a range in a file of `size` bytes. -/
def rangeEnd (b : Option Int) (size : Nat) : Int := min (b.getD (size - 1)) (size - 1)

/-- The value of the header `Content-Range`. -/
def contentRange (first last : Int) (size : Nat) : List Byte :=
  ascii "bytes " ++ intText first ++ 45 :: intText last ++ SLASH :: intText size

/-- An answer to a request for a range: on the wire, a head with the status 206, this range and its length and behind
it just these bytes; or a head with the status 200 and the whole file; or no file. No length that is advertised is
zero or wrong. -/
inductive RangeAnswered (conn : ResponseConn) (content : List Byte) (a : Int) (b : Option Int) :
    StaticAnswer → Prop where
  | range (e : Int) (part : StaticPart) (ready head : ResponseConn) (out : Output) (date : List Byte) :
    head.out.sent = conn.out.sent ++ responseHead conn.toConn 206 ready.responseHeaders date →
    e = rangeEnd b content.length → ready.statusCode = 206 → 0 ≤ a → a ≤ e → e < content.length →
    headerValues ready.responseHeaders (ascii "Content-Range") = [contentRange a e content.length] →
    headerValues ready.responseHeaders (ascii "Content-Length") = [intText (e - a + 1)] →
    out.sent = head.out.sent ++ (content.drop a.toNat).take (e - a + 1).toNat →
    RangeAnswered conn content a b (.sent part ready head none out)
  | whole (part : StaticPart) (ready head : ResponseConn) (out : Output) (date : List Byte) :
    head.out.sent = conn.out.sent ++ responseHead conn.toConn 200 ready.responseHeaders date →
    ready.statusCode = 200 →
    (∀ v ∈ headerValues ready.responseHeaders (ascii "Content-Length"),
      v = intText content.length ∧ 0 < content.length) →
    out.sent = head.out.sent ++ content →
    RangeAnswered conn content a b (.sent part ready head none out)
  | refused (text : List Byte) : RangeAnswered conn content a b (.httpError 416 text)

/-! ### The condition -/

/-- The headers that the configuration puts in front of those of `handle_static_file_request`. -/
def StaticHeaders.site (headers : StaticHeaders) : List MgHeader := headers.siteHeaders.flatMap ResponseCall.headers

/-- The headers that come last. -/
def StaticHeaders.additional (headers : StaticHeaders) : List MgHeader :=
  (ResponseCall.addLines headers.additionalHeaders).headers

/-- The values of this name among the configured headers that are stored, with `own` headers of
`handle_static_file_request` between them. -/
def StaticHeaders.configured (headers : StaticHeaders) (own : Nat) (name : List Byte) : List (List Byte) :=
  headerValues (headers.site.take mgMaxHeaders) name ++
    headerValues (headers.additional.take (mgMaxHeaders - headers.site.length - own)) name

/-- There is room for a header of `handle_static_file_request` that comes behind `front` others of its own. -/
def StaticHeaders.Room (headers : StaticHeaders) (front : Nat) : Prop := headers.site.length + front < mgMaxHeaders

instance (headers : StaticHeaders) (front : Nat) : Decidable (headers.Room front) :=
  inferInstanceAs (Decidable (_ < _))

/-- No configured header has the name of one of `handle_static_file_request`; or, where that one finds no room, one has
it, with this value. -/
def StaticHeaders.Leaves (headers : StaticHeaders) (name : List Byte) (front : Nat) (value : List Byte) : Prop :=
  headers.configured 6 name = if headers.Room front then [] else [value]

instance (headers : StaticHeaders) (name : List Byte) (front : Nat) (value : List Byte) :
    Decidable (headers.Leaves name front value) := inferInstanceAs (Decidable (_ = _))

/-- The range begins and ends within the file, and the configured headers leave its length and range to the headers
that say so; or it is none, does not begin behind the first byte of the file, and no length is advertised but that of a
file that is not empty. -/
def RangeInFile (size : Nat) (headers : StaticHeaders) (a : Int) (b : Option Int) : Prop :=
  if 0 ≤ a ∧ ∀ n ∈ b, 0 ≤ n then
    a < size ∧ (∀ n ∈ b, a ≤ n ∧ (n < size ∨ ¬ headers.Room 3 ∧ size - a < INT64_MAX)) ∧
      headers.Leaves (ascii "Content-Length") 3 (intText (rangeEnd b size - a + 1)) ∧
      headers.Leaves (ascii "Content-Range") 5 (contentRange a (rangeEnd b size) size)
  else (a ≤ 0 ∨ size = 0) ∧ (headers.Room 3 → 0 < size) ∧
    ∀ v ∈ headers.configured 5 (ascii "Content-Length"), v = intText size ∧ 0 < size

/-! ### What the function makes of a range -/

theorem parseRangeHeader_rangeHeader (a : Int) (b : Option Int) (ha : -2 ^ 63 ≤ a ∧ a < 2 ^ 63)
    (hb : ∀ n ∈ b, -2 ^ 63 ≤ n ∧ n < 2 ^ 63) :
    parseRangeHeader (rangeHeader a b) 0 0 = (if b.isSome then 2 else 1, a, b.getD 0) := by
  obtain ⟨s, hs⟩ : ∃ s, s = intText a ++ 45 :: (b.map intText).getD [] := ⟨_, rfl⟩
  have hheader : rangeHeader a b = ascii "bytes=" ++ s := by
    rw [rangeHeader, hs, List.append_assoc]
  have hbegins : (ascii "bytes=").isPrefixOf (ascii "bytes=" ++ s) = true :=
    List.isPrefixOf_iff_prefix.mpr (List.prefix_append _ _)
  have hdrop : (ascii "bytes=" ++ s).drop 6 = s := List.drop_left' rfl
  have hfirst : strtoll 10 (s ++ [NUL]) = (a, 45 :: ((b.map intText).getD [] ++ [NUL])) := by
    rw [hs, List.append_assoc, List.cons_append]
    exact strtoll_intText a 45 _ ha.1 ha.2 rfl (by decide)
  have hread : (45 :: ((b.map intText).getD [] ++ [NUL])).length ≠ s.length + 1 := by
    have hpos := List.length_pos_of_ne_nil (intText_ne_nil a)
    rw [hs]
    simp only [List.length_cons, List.length_append, List.length_nil]
    omega
  unfold parseRangeHeader
  rw [hheader, hbegins, hdrop]
  simp only [Bool.not_true, Bool.false_eq_true, if_false, hfirst, hread, deref_cons, ne_eq,
    not_true_eq_false, List.tail_cons]
  cases b with
  | none => rfl
  | some n =>
    obtain ⟨hlow, hhigh⟩ := hb n rfl
    have hsecond : strtoll 10 (intText n ++ [NUL]) = (n, [NUL]) :=
      strtoll_intText n NUL [] hlow hhigh rfl (by decide)
    have hlonger : [NUL].length ≠ (intText n ++ [NUL]).length := by
      have hpos := List.length_pos_of_ne_nil (intText_ne_nil n)
      rw [List.length_append]
      omega
    simp only [Option.map_some, Option.getD_some, hsecond, hlonger, if_false]
    rfl

theorem int64_bounds (n : Int) : -2 ^ 63 ≤ int64 n ∧ int64 n < 2 ^ 63 := by
  have hlow := Int.le_bmod (x := n) (m := 2 ^ 64) (by decide)
  have hhigh := Int.bmod_lt (x := n) (m := 2 ^ 64) (by decide)
  unfold int64
  omega

theorem int64_range (n : Int) (hlow : -2 ^ 63 ≤ n) (hhigh : n ≤ 2 ^ 63) :
    int64 n = if n = 2 ^ 63 then -2 ^ 63 else n := by
  unfold int64
  split_ifs with h
  · rw [h]
    decide
  · exact Int.bmod_eq_of_le (by omega) (by omega)

/-- The length of a part is always printed. -/
theorem contentLengthText_int64 (cl : Int) (hlow : -2 ^ 63 ≤ cl) (hhigh : cl < 2 ^ 63) :
    contentLengthText cl = some (intText cl) := by
  have hfits := intText_length_le cl hlow hhigh
  unfold contentLengthText
  rw [mgSnprintf_fits 32 _ (by omega)]
  rfl

theorem intText_noNul (n : Int) : NUL ∉ intText n := by
  have hdigits (m : Nat) : NUL ∉ decText m := fun h => absurd (decText_digits m NUL h) (by decide)
  rw [intText]
  split_ifs
  · exact fun h => (List.mem_cons.mp h).elim (by decide) (hdigits _)
  · exact hdigits _

theorem staticPart_whole (a : Int) (b : Option Int) (cl : Int) (size : Nat) (ha : -2 ^ 63 ≤ a ∧ a < 2 ^ 63)
    (hb : ∀ n ∈ b, -2 ^ 63 ≤ n ∧ n < 2 ^ 63) (hneg : ¬ (0 ≤ a ∧ ∀ n ∈ b, 0 ≤ n)) :
    staticPart (some (rangeHeader a b)) cl size = ⟨200, a, cl, []⟩ := by
  unfold staticPart
  rw [Option.map_some, parseRangeHeader_rangeHeader a b ha hb, Option.getD_some]
  dsimp only
  apply if_neg
  rintro ⟨-, h1, h2⟩
  apply hneg
  refine ⟨h1, ?_⟩
  rintro n rfl
  exact h2

/-- The part of a file that a range gets. -/
theorem staticPart_range (a : Int) (b : Option Int) (size : Nat) (ha : a < 2 ^ 63)
    (hb : ∀ n ∈ b, n < 2 ^ 63) (hsize : (size : Int) < 2 ^ 63) (hrange : 0 ≤ a ∧ ∀ n ∈ b, 0 ≤ n) :
    ∃ cl, staticPart (some (rangeHeader a b)) size size =
        ⟨206, a, cl, contentRange a (int64 (a + cl - 1)) size⟩ ∧
      cl = match b with
        | none => int64 (size - a)
        | some n => int64 ((if (size : Int) < n then (size : Int) else n) - a + 1) := by
  obtain ⟨cl, hcl⟩ : ∃ cl, cl = match b with
    | none => int64 (size - a)
    | some n => int64 ((if (size : Int) < n then (size : Int) else n) - a + 1) := ⟨_, rfl⟩
  refine ⟨cl, ?_, hcl⟩
  have hparse := parseRangeHeader_rangeHeader a b ⟨by omega, ha⟩
    (fun n hn => ⟨by have := hrange.2 n hn; omega, hb n hn⟩)
  -- three numbers of at most 20 characters fit the buffer
  have hfits : (contentRange a (int64 (a + cl - 1)) size).length < 128 := by
    have h1 := intText_length_le a (by omega) ha
    have h2 := intText_length_le _ (int64_bounds (a + cl - 1)).1 (int64_bounds (a + cl - 1)).2
    have h3 := intText_length_le size (by omega) hsize
    have hword : (ascii "bytes ").length = 6 := rfl
    simp only [contentRange, List.length_append, List.length_cons]
    omega
  rw [contentRange] at hfits ⊢
  unfold staticPart
  rw [Option.map_some, hparse, Option.getD_some]
  cases b with
  | none =>
    dsimp only at hcl ⊢
    rw [if_pos ⟨by simp, hrange.1, by simp⟩, if_neg (by simp), ← hcl, mgSnprintf_fits _ _ hfits]
  | some n =>
    dsimp only at hcl ⊢
    rw [Option.getD_some, if_pos ⟨by simp, hrange.1, hrange.2 n rfl⟩, if_pos (by simp), ← hcl,
      mgSnprintf_fits _ _ hfits]

theorem contentRange_text (first last : Int) (size : Nat) :
    contentRange first last size ≠ [] ∧ NUL ∉ contentRange first last size := by
  have hfixed : NUL ∉ ascii "bytes " ∧ NUL ≠ 45 ∧ NUL ≠ SLASH := by decide
  refine ⟨List.append_ne_nil_of_right_ne_nil _ (List.cons_ne_nil _ _), ?_⟩
  simp only [contentRange, List.mem_append, List.mem_cons, intText_noNul, hfixed, or_false, not_false_eq_true]

theorem rangeEnd_ge (a : Int) (b : Option Int) (size : Nat) :
    a ≤ rangeEnd b size ↔ a < size ∧ ∀ n ∈ b, a ≤ n := by
  cases b with
  | none =>
    simp only [rangeEnd, Option.getD_none, Option.mem_def, reduceCtorEq, false_implies, implies_true, and_true]
    omega
  | some n =>
    simp only [rangeEnd, Option.getD_some, Option.mem_def, Option.some.injEq, forall_eq']
    omega

/-- A range that begins in the file: the length that the function computes is the right one exactly if the range ends
there too, and what is sent are its bytes unless that length overflows. -/
theorem staticPart_cl (content : List Byte) (a : Int) (b : Option Int) (cl e : Int) (hrange : 0 ≤ a ∧ ∀ n ∈ b, 0 ≤ n)
    (hsize : (content.length : Int) ≤ INT64_MAX) (hlast : ∀ n ∈ b, -2 ^ 63 ≤ n ∧ n < 2 ^ 63)
    (hcl : cl = match b with
      | none => int64 (content.length - a)
      | some n => int64 ((if (content.length : Int) < n then (content.length : Int) else n) - a + 1))
    (he : e = rangeEnd b content.length) (ha : a < content.length) (hb : ∀ n ∈ b, a ≤ n) :
    (a ≤ e ∧ e < content.length) ∧ (cl = e - a + 1 ↔ ∀ n ∈ b, n < content.length) ∧
      (fileRange content a cl = (content.drop a.toNat).take (e - a + 1).toNat ↔
        ∀ n ∈ b, n < content.length ∨ content.length - a < INT64_MAX) := by
  have hmax : INT64_MAX = 2 ^ 63 - 1 := rfl
  have hoff : (min (max a 0) content.length).toNat = a.toNat := by omega
  have hrest : (content.drop a.toNat).length = content.length - a.toNat := List.length_drop
  rw [fileRange, hoff]
  cases b with
  | none =>
    rw [rangeEnd, Option.getD_none, min_self] at he
    dsimp only at hcl
    rw [int64_range _ (by omega) (by omega), if_neg (by omega)] at hcl
    have hlen : cl = e - a + 1 := by omega
    exact ⟨by omega, iff_of_true hlen fun n hn => absurd hn (Option.not_mem_none n),
      iff_of_true (by rw [hlen]) fun n hn => absurd hn (Option.not_mem_none n)⟩
  | some n =>
    have hn := hb n rfl
    have hn64 := hlast n rfl
    rw [rangeEnd, Option.getD_some] at he
    dsimp only at hcl
    rw [int64_range _ (by split_ifs <;> omega) (by split_ifs <;> omega)] at hcl
    have hends : cl = e - a + 1 ↔ n < content.length := by
      split_ifs at hcl <;> omega
    simp only [Option.mem_def, Option.some.injEq, forall_eq']
    refine ⟨by omega, hends, ?_⟩
    by_cases hin : n < content.length
    · exact iff_of_true (by rw [hends.mpr hin]) (.inl hin)
    -- behind the end the length is one too large, and there is nothing more to send
    have hright : (content.drop a.toNat).take (e - a + 1).toNat = content.drop a.toNat :=
      List.take_of_length_le (by omega)
    rw [hright, List.take_eq_self_iff, hrest]
    split_ifs at hcl <;> omega

theorem sendFileData_noError (conn : SendConn) (file : OpenFile) (offset len : Int) (noBuffering : Bool)
    (results : List Int) : (sendFileData conn file offset len noBuffering results true).1 = none := by
  have hseek (n : Nat) : ¬ (0 < n ∧ true = false) := fun h => absurd h.2 (by decide)
  unfold sendFileData
  simp only [hseek, if_false]
  split_ifs
  all_goals rfl

theorem range_names : (mgStrcasecmp (ascii "Content-Length") (ascii "Content-Length") == 0) = true ∧
    (mgStrcasecmp (ascii "Content-Range") (ascii "Content-Range") == 0) = true ∧
    mgStrcasecmp (ascii "Content-Length") (ascii "Content-Range") ≠ 0 ∧
    mgStrcasecmp (ascii "Content-Range") (ascii "Content-Length") ≠ 0 ∧
    ∀ name ∈ [ascii "Content-Type", ascii "Last-Modified", ascii "Etag", ascii "Accept-Ranges"],
      mgStrcasecmp (ascii "Content-Length") name ≠ 0 ∧ mgStrcasecmp (ascii "Content-Range") name ≠ 0 := by decide

/-- The header of a name that no other one has, as far as the list goes. -/
theorem headerValues_only {name : List Byte} (pre post : List MgHeader) (h : MgHeader) (m : Nat)
    (hname : (mgStrcasecmp name h.name == 0) = true) (hpre : ∀ x ∈ pre, mgStrcasecmp name x.name ≠ 0)
    (hpost : ∀ x ∈ post, mgStrcasecmp name x.name ≠ 0) :
    headerValues ((pre ++ h :: post).take m) name = if pre.length < m then [h.value] else [] := by
  have hnone (hs : List MgHeader) (hother : ∀ x ∈ hs, mgStrcasecmp name x.name ≠ 0) (n : Nat) :
      (hs.take n).filter (fun h => mgStrcasecmp name h.name == 0) = [] := by
    refine List.filter_eq_nil_iff.mpr fun x hx => ?_
    simpa using hother x (List.mem_of_mem_take hx)
  rw [headerValues, List.take_append, List.filter_append, hnone pre hpre, List.nil_append]
  by_cases hroom : pre.length < m
  · obtain ⟨n, hn⟩ : ∃ n, m - pre.length = n + 1 := ⟨m - pre.length - 1, by omega⟩
    rw [if_pos hroom, hn, List.take_succ_cons, List.filter_cons, if_pos hname, hnone post hpost]
    rfl
  · rw [if_neg hroom, Nat.sub_eq_zero_of_le (not_lt.mp hroom)]
    rfl

section
variable (gmtTimeString : Nat → List Byte) (files : StaticFiles) (allowSendfileCall : List Byte)
variable (acceptGzip : Bool) (conn : ResponseConn) (path : List Byte) (stat : FileStat)
variable (headers : StaticHeaders) (results : List Int) (opened : FileStat) (file : OpenFile)
variable (a : Int) (b : Option Int)

/-- A request with a `Range` header for a file that is there, is no gzipped one and can be read, on a network
that takes the answer. -/
structure RangeRequest : Prop where
  range : mgGetHeader conn.toConn (ascii "Range") = some (rangeHeader a b)
  method : conn.requestInfo.requestMethod ≠ ascii "HEAD"
  plain : stat.isGzipped = false ∧ opened.isGzipped = false
  size : stat.size = file.content.length ∧ opened.size = file.content.length
  fopen : files.fopen path = some (opened, file)
  fresh : file.pos = 0 ∧ file.size = file.content.length
  offT : (file.content.length : Int) ≤ INT64_MAX
  first : -2 ^ 63 ≤ a ∧ a < 2 ^ 63
  last : ∀ n ∈ b, -2 ^ 63 ≤ n ∧ n < 2 ^ 63
  reads : none ∉ file.reads
  sendfile : SendfileResults file.content results 0
    (sanityOffset file.size (staticPart (some (rangeHeader a b)) file.content.length file.content.length).r1)
    (staticPart (some (rangeHeader a b)) file.content.length file.content.length).cl
  server : conn.connectionType = .request ∧ conn.protocolType = PROTOCOL_TYPE_HTTP1 ∧ conn.requestState = 0
  adds : ∀ call ∈ headers.siteHeaders, call.closes = false
  lines : LinesFit gmtTimeString conn.toConn (staticHead gmtTimeString headers opened none
    (staticPart (some (rangeHeader a b)) file.content.length file.content.length))
  writes : TakesWrites (file.content.length + 70) conn.out

theorem headerValues_take_append (hs hs' : List MgHeader) (m : Nat) (name : List Byte) :
    headerValues ((hs ++ hs').take m) name =
      headerValues (hs.take m) name ++ headerValues (hs'.take (m - hs.length)) name := by
  rw [headerValues, List.take_append, List.filter_append, List.map_append]
  rfl

/-- The header list in front of `mg_response_header_send`: those of the site, the file's, the length, the range. -/
theorem staticAdds_headers (part : StaticPart) {text : List Byte} (hlength : contentLengthText part.cl = some text) :
    ∃ file : List MgHeader, file.length = 3 ∧
      (∀ h ∈ file, mgStrcasecmp (ascii "Content-Length") h.name ≠ 0 ∧
        mgStrcasecmp (ascii "Content-Range") h.name ≠ 0) ∧
      (staticAdds gmtTimeString headers opened none part).flatMap ResponseCall.headers =
        headers.site ++ ((file ++ ⟨ascii "Content-Length", cstr text⟩ :: ⟨ascii "Accept-Ranges", ascii "bytes"⟩ ::
          (if part.range = [] then [] else [⟨ascii "Content-Range", cstr part.range⟩])) ++ headers.additional) := by
  refine ⟨[⟨ascii "Content-Type", headers.mimeType⟩,
    ⟨ascii "Last-Modified", cstr (gmtTimeString opened.lastModified)⟩, ⟨ascii "Etag", cstr (constructEtag opened)⟩],
    rfl, ?_, ?_⟩
  · simp only [List.forall_mem_cons]
    exact ⟨range_names.2.2.2.2 _ (by simp), range_names.2.2.2.2 _ (by simp), range_names.2.2.2.2 _ (by simp),
      List.forall_mem_nil _⟩
  have hname (name : String) (value : List Byte) (hnul : NUL ∉ ascii name) :
      (headerCall name value).headers = [⟨ascii name, cstr value⟩] := by
    rw [headerCall, ResponseCall.headers, cstr_of_no_nul _ hnul]
    rfl
  have htype : (ResponseCall.add (some (ascii "Content-Type")) (some headers.mimeType)
      headers.mimeType.length).headers = [⟨ascii "Content-Type", headers.mimeType⟩] := by
    rw [ResponseCall.headers, cstr_of_no_nul _ (by decide), if_pos (Int.natCast_nonneg _), Int.toNat_natCast,
      List.take_length]
  have hrange : (if part.range = [] then [] else [headerCall "Content-Range" part.range]).flatMap
      ResponseCall.headers =
        if part.range = [] then [] else [⟨ascii "Content-Range", cstr part.range⟩] := by
    split_ifs <;> simp [hname "Content-Range" _ (by decide)]
  have hmore : (if headers.additionalHeaders = [] then []
      else [ResponseCall.addLines headers.additionalHeaders]).flatMap ResponseCall.headers = headers.additional := by
    unfold StaticHeaders.additional
    split_ifs with hnone
    · rw [hnone]
      decide
    · rw [List.flatMap_singleton]
  have hbytes : cstr (ascii "bytes") = ascii "bytes" := by decide
  unfold staticAdds StaticHeaders.site
  rw [hlength]
  simp only [List.flatMap_append, List.flatMap_cons, Option.map_some, Option.map_none,
    Option.toList_some, Option.toList_none, htype, hname "Last-Modified" _ (by decide), hname "Etag" _ (by decide),
    hname "Content-Length" _ (by decide), hname "Accept-Ranges" _ (by decide), hbytes, hrange, hmore,
    List.append_assoc, List.append_nil, List.nil_append, List.cons_append]

/-- The values of the headers that advertise a part, among those of the configured headers. -/
theorem staticAdds_values (part : StaticPart) (text : List Byte) (hlength : contentLengthText part.cl = some text)
    (htext : NUL ∉ text) (hrange : NUL ∉ part.range) :
    headerValues (acceptedHeaders (staticAdds gmtTimeString headers opened none part)) (ascii "Content-Length") =
        headerValues (headers.site.take mgMaxHeaders) (ascii "Content-Length") ++
          ((if headers.Room 3 then [text] else []) ++
            headerValues (headers.additional.take (mgMaxHeaders - headers.site.length -
              if part.range = [] then 5 else 6)) (ascii "Content-Length")) ∧
      (part.range ≠ [] →
        headerValues (acceptedHeaders (staticAdds gmtTimeString headers opened none part)) (ascii "Content-Range") =
          headerValues (headers.site.take mgMaxHeaders) (ascii "Content-Range") ++
            ((if headers.Room 5 then [part.range] else []) ++
              headerValues (headers.additional.take (mgMaxHeaders - headers.site.length - 6))
                (ascii "Content-Range"))) := by
  obtain ⟨file, hthree, hfile, hall⟩ := staticAdds_headers gmtTimeString headers opened part hlength
  obtain ⟨hlengthName, hrangeName, hcross, hcross', hnames⟩ := range_names
  have haccept := hnames (ascii "Accept-Ranges") (by simp)
  have hroom (front : Nat) : front < mgMaxHeaders - headers.site.length ↔ headers.Room front := by
    rw [StaticHeaders.Room]
    omega
  rw [acceptedHeaders, hall, cstr_of_no_nul _ htext]
  simp only [headerValues_take_append headers.site]
  constructor
  · rw [headerValues_take_append, headerValues_only file _ ⟨ascii "Content-Length", text⟩ _ hlengthName
      (fun x hx => (hfile x hx).1) ?_, hthree]
    · simp only [hroom]
      split_ifs <;> simp [hthree]
    · refine List.forall_mem_cons.mpr ⟨haccept.1, fun x hx => ?_⟩
      split_ifs at hx
      · cases hx
      · rw [List.mem_singleton.mp hx]
        exact hcross
  · intro hsome
    have hlist : file ++ ⟨ascii "Content-Length", text⟩ :: ⟨ascii "Accept-Ranges", ascii "bytes"⟩ ::
        [⟨ascii "Content-Range", part.range⟩] =
          file ++ [⟨ascii "Content-Length", text⟩, ⟨ascii "Accept-Ranges", ascii "bytes"⟩] ++
            [⟨ascii "Content-Range", part.range⟩] := by
      rw [List.append_assoc]
      rfl
    have hothers : ∀ x ∈ file ++ [⟨ascii "Content-Length", text⟩, ⟨ascii "Accept-Ranges", ascii "bytes"⟩],
        mgStrcasecmp (ascii "Content-Range") x.name ≠ 0 := by
      simp only [List.forall_mem_append, List.forall_mem_cons]
      exact ⟨fun x hx => (hfile x hx).2, hcross', haccept.2, List.forall_mem_nil _⟩
    rw [if_neg hsome, cstr_of_no_nul _ hrange, hlist, headerValues_take_append,
      headerValues_only _ [] ⟨ascii "Content-Range", part.range⟩ _ hrangeName hothers (List.forall_mem_nil _)]
    simp only [List.length_append, List.length_cons, List.length_nil, hthree, hroom]

/-- A header goes out once with this value: the one of `handle_static_file_request` where there is room for it, or a
configured one. -/
theorem stored_single (own front : Nat) (name text value : List Byte) :
    headerValues (headers.site.take mgMaxHeaders) name ++ ((if headers.Room front then [text] else []) ++
        headerValues (headers.additional.take (mgMaxHeaders - headers.site.length - own)) name) = [value] ↔
      (headers.Room front → text = value) ∧
        headers.configured own name = if headers.Room front then [] else [value] := by
  rw [StaticHeaders.configured]
  split_ifs with hroom
  · simp only [List.append_eq_singleton_iff, List.append_eq_nil_iff, List.cons_append, List.nil_append,
      List.cons.injEq, reduceCtorEq, and_false, or_false, hroom, true_implies]
    tauto
  · simp only [hroom, false_implies, true_and, List.nil_append]

theorem stored_all (own front : Nat) (name text : List Byte) (p : List Byte → Prop) :
    (∀ v ∈ headerValues (headers.site.take mgMaxHeaders) name ++ ((if headers.Room front then [text] else []) ++
        headerValues (headers.additional.take (mgMaxHeaders - headers.site.length - own)) name), p v) ↔
      (headers.Room front → p text) ∧ ∀ v ∈ headers.configured own name, p v := by
  rw [StaticHeaders.configured]
  simp only [List.forall_mem_append]
  split_ifs with hroom
  · simp only [List.forall_mem_singleton, hroom, true_implies]
    tauto
  · simp only [hroom, false_implies, List.not_mem_nil, implies_true, true_and]

theorem staticAdds_closes (encoding : Option (List Byte)) (part : StaticPart)
    (hadds : ∀ call ∈ headers.siteHeaders, call.closes = false) :
    ∀ call ∈ staticAdds gmtTimeString headers opened encoding part, call.closes = false := by
  simp only [staticAdds, List.forall_mem_append]
  refine ⟨⟨⟨⟨⟨⟨hadds, ?_⟩, ?_⟩, ?_⟩, ?_⟩, ?_⟩, ?_⟩
  · simp [headerCall, ResponseCall.closes]
  · simp [headerCall, ResponseCall.closes]
  · simp [headerCall, ResponseCall.closes]
  · simp [headerCall, ResponseCall.closes]
  · split_ifs <;> simp [headerCall, ResponseCall.closes]
  · split_ifs <;> simp [ResponseCall.closes]

/-- The request is answered by the head for a part of the file and the bytes of this part. -/
theorem handleStaticFileRequest_sent (h : RangeRequest gmtTimeString files conn path stat headers results
    opened file a b) : ∃ (part : StaticPart) (ready head : ResponseConn) (out : Output) (date : List Byte),
      part = staticPart (some (rangeHeader a b)) file.content.length file.content.length ∧
      handleStaticFileRequest gmtTimeString files allowSendfileCall acceptGzip conn path stat headers results
          true = .sent part ready head none out ∧
      ready.statusCode = part.statusCode ∧
      ready.responseHeaders = acceptedHeaders (staticAdds gmtTimeString headers opened none part) ∧
      head.out.sent = conn.out.sent ++ responseHead conn.toConn part.statusCode ready.responseHeaders date ∧
      out.sent = head.out.sent ++ fileRange file.content part.r1 part.cl := by
  obtain ⟨part, hpart⟩ : ∃ part,
      part = staticPart (some (rangeHeader a b)) file.content.length file.content.length := ⟨_, rfl⟩
  have hsendfile := h.sendfile
  have hlines := h.lines
  have hmax : INT64_MAX = 2 ^ 63 - 1 := rfl
  have hfirst := h.first
  have hr1 : part.r1 ≤ INT64_MAX ∧ validStatus part.statusCode = true := by
    by_cases hrange : 0 ≤ a ∧ ∀ n ∈ b, 0 ≤ n
    · obtain ⟨cl, hcl, -⟩ := staticPart_range a b file.content.length hfirst.2 (fun n hn => (h.last n hn).2)
        (by have := h.offT; omega) hrange
      rw [hpart, hcl]
      exact ⟨by dsimp only; omega, rfl⟩
    · rw [hpart, staticPart_whole a b _ _ hfirst h.last hrange]
      exact ⟨by dsimp only; omega, rfl⟩
  rw [← hpart] at hsendfile hlines
  -- the head goes out once, with the headers that found room
  obtain ⟨hrequest, hhttp, hfresh⟩ := h.server
  have hserver : conn.isHttpRequest = true := by
    simp [ResponseConn.isHttpRequest, hrequest, hhttp, PROTOCOL_TYPE_HTTP1, PROTOCOL_TYPE_WEBSOCKET]
  have hquiet := staticAdds_closes gmtTimeString headers opened none part h.adds
  obtain ⟨ready, hready⟩ : ∃ ready, ready = responseRun gmtTimeString conn
    (staticHead gmtTimeString headers opened none part) := ⟨_, rfl⟩
  have hopened := opened_run gmtTimeString conn (staticHead gmtTimeString headers opened none part) part.statusCode
    (staticAdds gmtTimeString headers opened none part) hserver hfresh
    ⟨[], List.forall_mem_nil _, hr1.2, hquiet, rfl⟩
  rw [← hready] at hopened
  have hmem (x : MgHeader) (hx : x ∈ ready.responseHeaders) :
      ∃ call ∈ staticAdds gmtTimeString headers opened none part, x ∈ call.headers := by
    rw [hopened] at hx
    exact acceptedHeaders_mem _ x hx
  obtain ⟨out, t, hsend, hhead, hrest⟩ := mgResponseHeaderSend_sends gmtTimeString ready (file.content.length + 1)
    (by rw [hopened]; exact hserver) (by rw [hopened]; rfl) (by rw [hopened]; exact hr1.2)
    (by rw [hopened]; exact List.length_take_le _ _)
    (fun x hx => (hmem x hx).elim fun call hc => headers_noNul call x hc.2)
    (by rw [hopened]; exact hlines.status _ hr1.2)
    (fun x hx => (hmem x hx).elim fun call hc => hlines.header call (List.mem_cons_of_mem _ hc.1) x hc.2)
    hlines.date (by rw [hopened]; exact h.writes)
  obtain ⟨head, hhead'⟩ : ∃ head, head = (mgResponseHeaderSend gmtTimeString ready).2 := ⟨_, rfl⟩
  have hout : head.out = out := by rw [hhead', hsend]
  have hsent := sendFileData_fileRange file part.r1 part.cl false results hr1.1 h.fresh.1 h.fresh.2 h.reads
    hsendfile ⟨conn.ssl, allowSendfileCall, head.out⟩ (by rw [hout]; exact hrest)
  have herror := sendFileData_noError ⟨conn.ssl, allowSendfileCall, head.out⟩ file part.r1 part.cl false results
  refine ⟨part, ready, head, (sendFileData ⟨conn.ssl, allowSendfileCall, head.out⟩ file part.r1 part.cl false results
    true).2.2, gmtTimeString t, hpart, ?_, by rw [hopened]; rfl, by rw [hopened], ?_, hsent⟩
  · have hsmall : ¬ INT64_MAX < (stat.size : Int) := by
      rw [h.size.1]
      exact not_lt.mpr h.offT
    have hnone : ((if stat.isGzipped = true then some stat
        else if (acceptGzip && (some (rangeHeader a b)).isNone && MG_FILE_COMPRESSION_SIZE_LIMIT ≤ stat.size &&
          !(mgSnprintf UTF8_PATH_MAX (path ++ ascii ".gz")).2) = true then
          (files.stat (mgSnprintf UTF8_PATH_MAX (path ++ ascii ".gz")).1).filter (!·.isDirectory)
        else none) : Option FileStat) = none := by
      simp [h.plain.1]
    unfold handleStaticFileRequest
    rw [h.range]
    dsimp only
    rw [if_neg hsmall, if_neg (by simp [h.plain.1]), hnone]
    dsimp only
    rw [h.fopen, h.size.1]
    dsimp only
    rw [h.size.2, ← hpart, if_neg (by simp [h.plain.2]), if_neg h.method, Option.isSome_none,
      if_neg Bool.false_ne_true, ← hready, ← hhead', herror]
  · rw [hout, hhead, hopened]
    rfl

/-- A range is answered with just its bytes and a head that says so, or with the whole file, exactly if it begins and
ends within the file, or has a negative end and does not begin behind the first byte, and the configured headers leave
the length and the range to the headers that say so. -/
theorem handleStaticFileRequest_range (h : RangeRequest gmtTimeString files conn path stat headers results
    opened file a b) :
    RangeAnswered conn file.content a b (handleStaticFileRequest gmtTimeString files allowSendfileCall acceptGzip
      conn path stat headers results true) ↔ RangeInFile file.content.length headers a b := by
  obtain ⟨part, ready, head, out, date, hpart', hanswer, hstatus', hheaders, hhead, hsent⟩ :=
    handleStaticFileRequest_sent gmtTimeString files allowSendfileCall acceptGzip conn path stat headers results opened
      file a b h
  have hmax : INT64_MAX = 2 ^ 63 - 1 := rfl
  have hoffT := h.offT
  have hfirst := h.first
  have hlast := h.last
  have hvalues (text : List Byte) := staticAdds_values gmtTimeString headers opened part text
  rw [hanswer, RangeInFile]
  rw [← hheaders] at hvalues
  by_cases hrange : 0 ≤ a ∧ ∀ n ∈ b, 0 ≤ n
  · obtain ⟨cl, hpart, hcl⟩ := staticPart_range a b file.content.length hfirst.2
      (fun n hn => (hlast n hn).2) (by omega) hrange
    rw [if_pos hrange]
    obtain rfl := hpart'.trans hpart
    have hbounds : -2 ^ 63 ≤ cl ∧ cl < 2 ^ 63 := by
      cases b with
      | none => rw [hcl]; exact int64_bounds _
      | some n => rw [hcl]; exact int64_bounds _
    obtain ⟨hne, hnul⟩ := contentRange_text a (int64 (a + cl - 1)) file.content.length
    obtain ⟨hlengths, hranges⟩ := hvalues (intText cl) (contentLengthText_int64 cl hbounds.1 hbounds.2)
      (intText_noNul cl) hnul
    have hranges := hranges hne
    dsimp only at hsent hlengths hranges
    rw [if_neg hne] at hlengths
    obtain ⟨e, he⟩ : ∃ e, e = rangeEnd b file.content.length := ⟨_, rfl⟩
    rw [← he]
    have hcl' := staticPart_cl file.content a b cl e hrange hoffT hlast hcl he
    constructor
    · rintro (⟨e', _, _, _, _, _, -, he', -, h0, hle, hlt, hr, hl, hsent'⟩ | ⟨_, _, _, _, _, -, hstatus, -⟩)
      · rw [← he] at he'
        rw [he'] at hle hlt hr hl hsent'
        have hin : a < file.content.length ∧ ∀ n ∈ b, a ≤ n := (rangeEnd_ge a b _).mp (he ▸ hle)
        rw [hlengths, stored_single] at hl
        rw [hranges, stored_single] at hr
        obtain ⟨-, hends, hbody⟩ := hcl' hin.1 hin.2
        rw [hsent, List.append_cancel_left_eq] at hsent'
        refine ⟨hin.1, fun n hn => ⟨hin.2 n hn, ?_⟩, hl.2, hr.2⟩
        by_cases hroom : headers.Room 3
        · exact .inl (hends.mp (intText_inj _ _ (hl.1 hroom)) n hn)
        · exact (hbody.mp hsent' n hn).imp_right fun h => ⟨hroom, h⟩
      · exact absurd (show (206 : Int) = 200 from hstatus'.symm.trans hstatus) (by decide)
    · rintro ⟨ha, hb, hleaves, hleaves'⟩
      obtain ⟨⟨hle, hlt⟩, hends, hbody⟩ := hcl' ha fun n hn => (hb n hn).1
      have hend (hroom : headers.Room 3) : cl = e - a + 1 :=
        hends.mpr fun n hn => (hb n hn).2.resolve_right fun h => h.1 hroom
      refine .range e _ _ _ _ date hhead he hstatus' hrange.1 hle hlt ?_ ?_ ?_
      · rw [hranges, stored_single]
        refine ⟨fun hroom => ?_, hleaves'⟩
        have hroom' : headers.Room 3 := by
          rw [StaticHeaders.Room] at hroom ⊢
          omega
        rw [hend hroom', int64_range _ (by omega) (by omega), if_neg (by omega)]
        congr 1
        omega
      · rw [hlengths, stored_single]
        exact ⟨fun hroom => congrArg intText (hend hroom), hleaves⟩
      · rw [hsent, hbody.mpr fun n hn => (hb n hn).2.imp_right And.right]
  · rw [if_neg hrange]
    obtain rfl := hpart'.trans (staticPart_whole a b file.content.length file.content.length hfirst hlast hrange)
    obtain ⟨hlengths, -⟩ := hvalues (intText file.content.length)
      (contentLengthText_int64 file.content.length (by omega) (by omega)) (intText_noNul _) List.not_mem_nil
    dsimp only at hsent hlengths
    rw [if_pos rfl] at hlengths
    constructor
    · rintro (⟨_, _, _, _, _, _, -, -, hstatus, -⟩ | ⟨_, _, _, _, _, -, -, hadvertised, hall⟩)
      · exact absurd (show (200 : Int) = 206 from hstatus'.symm.trans hstatus) (by decide)
      · rw [hsent, List.append_cancel_left_eq] at hall
        have hsize := congrArg List.length hall
        rw [fileRange, List.length_take, List.length_drop] at hsize
        rw [hlengths, stored_all] at hadvertised
        exact ⟨by omega, fun hroom => (hadvertised.1 hroom).2, hadvertised.2⟩
    · rintro ⟨hzero, hadvertised⟩
      refine .whole _ _ _ _ date hhead hstatus' ?_ ?_
      · rw [hlengths, stored_all]
        exact ⟨fun hroom => ⟨rfl, hadvertised.1 hroom⟩, hadvertised.2⟩
      · rw [hsent, fileRange]
        rcases hzero with hzero | hempty
        · rw [show (min (max a 0) (file.content.length : Int)).toNat = 0 by omega, List.drop_zero, Int.toNat_natCast,
            List.take_length]
        · rw [List.length_eq_zero_iff.mp hempty, List.drop_nil, List.take_nil]

end

/-- A request for the bytes from 0 on to the last one. -/
def rangeConn (last : Int) : ResponseConn := { requestConn with
  requestInfo := ⟨ascii "GET", ascii "/a", ascii "1.1", [⟨ascii "Range", rangeHeader 0 (some last)⟩]⟩ }

/-- A disk with one file. -/
def threeBytes : StaticFiles where
  stat := fun _ => none
  fopen := fun _ => some (⟨3, 0, false, false⟩, ⟨ascii "abc", 3, 0, []⟩)
  strerror := []

theorem rangeConn_request (last : Int) (hlast : last = 1 ∨ last = 3) :
    RangeRequest anyDate threeBytes (rangeConn last) (ascii "/a") ⟨3, 0, false, false⟩ ⟨ascii "text/plain", [], []⟩
      [] ⟨3, 0, false, false⟩ ⟨ascii "abc", 3, 0, []⟩ 0 (some last) := by
  have hrange : mgGetHeader (rangeConn last).toConn (ascii "Range") = some (rangeHeader 0 (some last)) := by
    rcases hlast with rfl | rfl
    · decide +kernel
    · decide +kernel
  have hheader : ∀ call ∈ staticHead anyDate ⟨ascii "text/plain", [], []⟩ ⟨3, 0, false, false⟩ none
      (staticPart (some (rangeHeader 0 (some last))) (ascii "abc").length (ascii "abc").length),
      ∀ h ∈ call.headers, (headerText h.name h.value).length ≤ INT_MAX := by
    rcases hlast with rfl | rfl
    · decide +kernel
    · decide +kernel
  have hget : ascii "GET" ≠ ascii "HEAD" := by decide
  exact {
    range := hrange
    method := hget
    plain := ⟨rfl, rfl⟩
    size := ⟨rfl, rfl⟩
    fopen := rfl
    fresh := ⟨rfl, rfl⟩
    offT := by decide
    first := by decide
    last := fun n hn => by
      have hn : last = n := Option.some.inj hn
      omega
    reads := by decide
    sendfile := trivial
    server := ⟨rfl, rfl, rfl⟩
    adds := List.forall_mem_nil _
    lines := ⟨fun status hstatus => statusLine_fits (ascii "1.1") status (by decide) hstatus, hheader,
      fun _ => by rw [anyDate]; decide⟩
    writes := takesWrites_accepting 73 350 _ (by decide) rfl rfl }

theorem handleStaticFileRequest_range_first :
    RangeAnswered (rangeConn 1) (ascii "abc") 0 (some 1) (handleStaticFileRequest anyDate threeBytes (ascii "yes") false
      (rangeConn 1) (ascii "/a") ⟨3, 0, false, false⟩ ⟨ascii "text/plain", [], []⟩ [] true) :=
  (handleStaticFileRequest_range anyDate threeBytes (ascii "yes") false (rangeConn 1) (ascii "/a")
    ⟨3, 0, false, false⟩ ⟨ascii "text/plain", [], []⟩ [] ⟨3, 0, false, false⟩ ⟨ascii "abc", 3, 0, []⟩ 0 (some 1)
    (rangeConn_request 1 (Or.inl rfl))).mpr (by
      rw [RangeInFile, if_pos ⟨le_refl _, by decide⟩]
      exact ⟨by decide, by decide, by decide, by decide⟩)

/-- The bytes from 0 to 3 of a file of three bytes: four bytes are advertised and three sent. -/
theorem handleStaticFileRequest_range_behind :
    ¬ RangeAnswered (rangeConn 3) (ascii "abc") 0 (some 3) (handleStaticFileRequest anyDate threeBytes (ascii "yes")
      false (rangeConn 3) (ascii "/a") ⟨3, 0, false, false⟩ ⟨ascii "text/plain", [], []⟩ [] true) := by
  have hrequest := rangeConn_request 3 (Or.inr rfl)
  obtain ⟨part, ready, head, out, date, hpart, hanswer, hstatus', hheaders, -⟩ := handleStaticFileRequest_sent anyDate
    threeBytes (ascii "yes") false (rangeConn 3) (ascii "/a") ⟨3, 0, false, false⟩ ⟨ascii "text/plain", [], []⟩ []
    ⟨3, 0, false, false⟩ ⟨ascii "abc", 3, 0, []⟩ 0 (some 3) hrequest
  have hrange : staticPart (some (rangeHeader 0 (some 3))) (ascii "abc").length (ascii "abc").length =
      ⟨206, 0, 4, ascii "bytes 0-3/3"⟩ := by decide +kernel
  obtain rfl := hpart.trans hrange
  have hlengths : headerValues ready.responseHeaders (ascii "Content-Length") = [ascii "4"] := by
    rw [hheaders]
    decide +kernel
  rw [hanswer]
  rintro (⟨e, _, _, _, _, _, -, rfl, -, -, -, -, -, hlength, -⟩ | ⟨_, _, _, _, _, -, hstatus, -⟩)
  · rw [hlengths] at hlength
    exact absurd hlength (by decide +kernel)
  · exact absurd (hstatus'.symm.trans hstatus) (by decide)

end CivetWeb
