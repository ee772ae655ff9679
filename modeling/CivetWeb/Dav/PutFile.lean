import CivetWeb.Dav.MoveFile
import CivetWeb.Conn.RequestBody
import CivetWeb.Static.Range

namespace CivetWeb

open FileTree

/-- The loop of `forward_body_data` into a file: whether the body came to its end and was written, what
was written, and the connection. -/
def forwardLoop (space : Nat) : Nat → Conn → List Byte → Bool × List Byte × Conn
  | 0, conn, written => (false, written, conn)
  | n + 1, conn, written =>
    match mgRead conn MG_BUF_LEN with
    | (none, conn) => (false, written, conn)
    | (some bs, conn) =>
      if bs = [] then (true, written, conn)
      else if space < written.length + bs.length then
        (false, written ++ bs.take (space - written.length), conn)
      else forwardLoop space n conn (written ++ bs)

/-- The error that `forward_body_data` answers with, or the status that it leaves in the connection;
what it has written. -/
structure Forwarded where
  error : Option DavReply
  status : Nat
  written : List Byte
  deriving DecidableEq, Repr

def forwardBodyData (proc : Process) (conn : Conn) : Forwarded :=
  let expect := mgGetHeader conn (ascii "Expect")
  if expect.any (fun e => mgStrcasecmp e (ascii "100-continue") ≠ 0) then
    ⟨some ⟨417, ascii "Error: Can not fulfill expectation"⟩, 417, []⟩
  else
    let status := if expect.isSome then 100 else 200
    if conn.consumedContent ≠ 0 then ⟨some ⟨500, ascii "Error: Size mismatch"⟩, 500, []⟩
    else
      -- every read takes a byte at least
      let (success, written, _) := forwardLoop proc.diskSpace (conn.unread.length + 1) conn []
      if success then ⟨none, status, written⟩ else ⟨some ⟨500, []⟩, 500, written⟩

/-- The loop of `put_dir` over the slashes of the path. -/
def putDirLoop (proc : Process) (path : List Byte) : List Nat → FileSys → Int → Int × FileSys
  | [], fs, res => (res, fs)
  | len :: slashes, fs, res =>
    if UTF8_PATH_MAX ≤ len then (-1, fs)
    else
      let buf := path.take len
      let res := if path.length = len + 1 then 0 else res
      if (proc.mgStat fs buf).isSome then putDirLoop proc path slashes fs res
      else
        match proc.mkdir fs buf with
        | .error _ => (-2, fs)
        | .ok fs => putDirLoop proc path slashes fs res

/-- `put_dir`: creates the directories of a path, 0 if it is a directory itself. -/
def putDir (proc : Process) (fs : FileSys) (path : List Byte) : Int × FileSys :=
  putDirLoop proc path
    ((List.range path.length).filter (fun i => 2 ≤ i && path[i]? == some SLASH)) fs 1

/-- What is written to a file from a position on. -/
def writeAt (content : List Byte) (pos : Nat) (bs : List Byte) : List Byte :=
  if bs = [] then content
  else content.take pos ++ List.replicate (pos - content.length) NUL ++ bs ++
    content.drop (pos + bs.length)

/-- The part of `put_file` behind the opening of the file `p`, which is empty in `fs`. -/
def putContent (proc : Process) (conn : Conn) (fs : FileSys) (p : List (List Byte))
    (path : List Byte) : DavReply × FileSys :=
  let range := mgGetHeader conn (ascii "Content-Range")
  let r := range.map (parseRangeHeader · 0 0)
  let seek := r.filter (fun r => 0 < r.1)
  if seek.any (fun r => r.2.1 < 0) then
    (⟨500, ascii "Error: Internal error processing file " ++ path⟩, fs)
  else
    let pos := (seek.map (fun r => r.2.1.toNat)).getD 0
    let forwarded := forwardBodyData proc conn
    let fs := fs.set p (some (.file (writeAt [] pos forwarded.written)))
    match forwarded.error with
    | some reply => (reply, fs)
    | none => (⟨if proc.closeFails then 507 else forwarded.status, []⟩, fs)

def putFile (proc : Process) (conn : Conn) (fs : FileSys) (path : List Byte) :
    DavReply × FileSys :=
  let create (fs : FileSys) : DavReply × FileSys :=
    match proc.mgFopenWrite fs path with
    | none => (⟨500, ascii "Error: Can not create file\nfopen(" ++ path⟩, fs)
    | some (p, fs) => putContent proc conn fs p path
  match proc.mgStat fs path with
  | some .dir => (⟨200, []⟩, fs)
  | some (.file _) =>
    if proc.writable path then create fs
    else
      (⟨403, ascii "Error: Put not possible\nReplacing " ++ path ++ ascii " is not allowed"⟩, fs)
  | none =>
    match putDir proc fs path with
    | (rc, fs) =>
      if rc = 0 then (⟨201, []⟩, fs)
      else if rc = -1 then (⟨414, ascii "Error: Path too long\nput_dir(" ++ path⟩, fs)
      else if rc = -2 then
        (⟨500, ascii "Error: Can not create directory\nput_dir(" ++ path⟩, fs)
      else create fs

/-- What the loop writes when it succeeds is the body. -/
theorem forwardLoop_body (space n : Nat) (body payload rest got : List Byte) (conn : Conn)
    (h : BodyState body payload rest got conn) (hok : (forwardLoop space n conn got).1 = true) :
    (forwardLoop space n conn got).2.1 = payload := by
  induction n generalizing conn got with
  | zero => cases hok
  | succ n ih =>
    have hnext := mgRead_body body payload rest got conn MG_BUF_LEN h
    have hend := mgRead_end body payload rest got conn MG_BUF_LEN (by decide) h
    rw [forwardLoop] at hok ⊢
    cases hread : mgRead conn MG_BUF_LEN with
    | mk r c =>
      rw [hread] at hok hnext hend
      cases r with
      | none => cases hok
      | some bs =>
        by_cases hbs : bs = []
        · simp only [hbs, if_true]
          exact (hend (by rw [hbs])).symm
        · simp only [hbs, if_false] at hok ⊢
          split_ifs at hok ⊢ with hspace
          exact ih (got ++ bs) c hnext hok

theorem forwardBodyData_body (proc : Process) (body payload rest : List Byte) (conn : Conn)
    (h : BodyState body payload rest [] conn) (hok : (forwardBodyData proc conn).error = none) :
    (forwardBodyData proc conn).written = payload := by
  have hloop := forwardLoop_body proc.diskSpace (conn.unread.length + 1) body payload rest [] conn h
  unfold forwardBodyData at hok ⊢
  generalize forwardLoop proc.diskSpace (conn.unread.length + 1) conn [] = res at hok hloop ⊢
  obtain ⟨success, written, c⟩ := res
  dsimp only at hok hloop ⊢
  split_ifs at hok ⊢ <;> exact hloop ‹_›

theorem Process.mgFopenWrite_spec (proc : Process) (fs fs' : FileSys) (path : List Byte)
    (p : List (List Byte)) (h : proc.mgFopenWrite fs path = some (p, fs')) :
    fs.walk (proc.fileName path) = .ok p ∧ fs' = fs.set p (some (.file [])) := by
  unfold Process.mgFopenWrite at h
  split_ifs at h
  split at h
  · cases h
  · unfold Tree.openWrite at h
    cases hw : fs.walk (proc.fileName path) with
    | error e =>
      rw [hw] at h
      cases h
    | ok q =>
      have hopen (h : some (q, fs.set q (some (.file []))) = some (p, fs')) :
          Except.ok (ε := Errno) q = .ok p ∧ fs' = fs.set p (some (.file [])) := by
        obtain ⟨rfl, rfl⟩ := Prod.mk.inj (Option.some.inj h)
        exact ⟨rfl, rfl⟩
      rw [hw] at h
      dsimp only at h
      cases hn : fs.node q with
      | none =>
        rw [hn] at h
        by_cases hslash : ((proc.fileName path).slash || !(proc.fileName path).plain) = true
        · simp only [hslash, if_true] at h
          cases h
        · simp only [hslash] at h
          exact hopen h
      | some n =>
        rw [hn] at h
        cases n with
        | dir => cases h
        | file content =>
          by_cases hslash : (proc.fileName path).slash = true
          · simp only [hslash, if_true] at h
            cases h
          · simp only [hslash] at h
            exact hopen h

/-- The range `a-b` of a file, as `Content-Range: bytes a-b/n` gives it; `none` is a request without
that header. -/
def ContentRange (conn : Conn) : Option (Nat × Nat) → Prop
  | none => mgGetHeader conn (ascii "Content-Range") = none
  | some (a, b) => ∃ first last total : List Byte,
      (∀ d ∈ first ++ last, isDigitIn 10 d = true) ∧ first ≠ [] ∧ last ≠ [] ∧
      Numeral.value 10 digitValue first = a ∧ Numeral.value 10 digitValue last = b ∧
      mgGetHeader conn (ascii "Content-Range") =
        some (ascii "bytes " ++ (first ++ 45 :: (last ++ SLASH :: total)))

/-- The content `new` has the body at the range of the request, and the old content elsewhere. -/
def RangeStored (range : Option (Nat × Nat)) (content body new : List Byte) : Prop :=
  match range with
  | none => new = body
  | some (a, b) => (∀ i < body.length, new[a + i]? = body[i]?) ∧
      ∀ i < content.length, i < a ∨ b < i → new[i]? = content[i]?

/-- The form of the header that `Content-Range` has is not the one that is looked for. -/
theorem parseRangeHeader_contentRange (s : List Byte) (a b : Int) :
    parseRangeHeader (ascii "bytes " ++ s) a b = (0, a, b) := by
  have hother : (ascii "bytes=").isPrefixOf (ascii "bytes " ++ s) = false := rfl
  have hlonger : (ascii "bytes " ++ s).isPrefixOf (ascii "bytes=") = false := rfl
  simp [parseRangeHeader, hother, hlonger]

theorem putContent_body (proc : Process) (conn : Conn) (fs : FileSys) (p : List (List Byte))
    (path : List Byte) (range : Option (Nat × Nat)) (body payload rest : List Byte)
    (hbody : BodyState body payload rest [] conn) (hrange : ContentRange conn range)
    (hok : (putContent proc conn fs p path).1.status < 400) :
    (putContent proc conn fs p path).2 = fs.set p (some (.file payload)) := by
  have hseek : ((mgGetHeader conn (ascii "Content-Range")).map (parseRangeHeader · 0 0)).filter
      (fun r => 0 < r.1) = none := by
    cases range with
    | none =>
      rw [hrange]
      rfl
    | some r =>
      obtain ⟨first, last, total, -, -, -, -, -, hheader⟩ := hrange
      rw [hheader, Option.map_some, parseRangeHeader_contentRange]
      rfl
  unfold putContent at hok ⊢
  simp only [hseek, Option.any_none, Bool.false_eq_true, if_false, Option.map_none,
    Option.getD_none] at hok ⊢
  have hdata := forwardBodyData_body proc body payload rest conn hbody
  have herror : ∀ reply, (forwardBodyData proc conn).error = some reply → 400 ≤ reply.status := by
    intro reply hreply
    unfold forwardBodyData at hreply
    dsimp only at hreply
    split_ifs at hreply <;> (obtain rfl := Option.some.inj hreply; decide)
  cases he : (forwardBodyData proc conn).error with
  | some reply =>
    rw [he] at hok
    have := herror reply he
    dsimp only at hok
    omega
  | none =>
    dsimp only
    rw [hdata he]
    by_cases hnil : payload = [] <;> simp [writeAt, hnil]

/-- After a successful `PUT` to a file it holds the body alone, so that what was to be stored is stored
exactly where the request has no range, or one that covers the file from its start. -/
theorem putFile_range (proc : Process) (conn : Conn) (fs : FileSys) (path content : List Byte)
    (range : Option (Nat × Nat)) (body payload rest : List Byte)
    (hfile : proc.mgStat fs path = some (.file content))
    (hbody : BodyState body payload rest [] conn) (hrange : ContentRange conn range)
    (hlen : ∀ a b, range = some (a, b) →
      a ≤ b ∧ a ≤ content.length ∧ payload.length = b - a + 1)
    (hok : (putFile proc conn fs path).1.status < 400) :
    ∃ p new, fs.walk (proc.fileName path) = .ok p ∧
      (putFile proc conn fs path).2.node p = some (.file new) ∧
      (∀ q, q ≠ p → (putFile proc conn fs path).2.node q = fs.node q) ∧
      (RangeStored range content payload new ↔
        ∀ a b, range = some (a, b) → a = 0 ∧ content.length ≤ b + 1) := by
  have hcreate : ∃ p, fs.walk (proc.fileName path) = .ok p ∧
      (putFile proc conn fs path).2 = (fs.set p (some (.file []))).set p (some (.file payload)) := by
    unfold putFile at hok ⊢
    simp only [hfile] at hok ⊢
    by_cases hwritable : proc.writable path = true
    · simp only [hwritable, if_true] at hok ⊢
      cases hopen : proc.mgFopenWrite fs path with
      | none =>
        simp only [hopen] at hok
        omega
      | some r =>
        obtain ⟨p, fs'⟩ := r
        obtain ⟨hw, rfl⟩ := proc.mgFopenWrite_spec fs fs' path p hopen
        simp only [hopen] at hok ⊢
        exact ⟨p, hw, putContent_body proc conn _ p path range body payload rest hbody hrange hok⟩
    · simp only [hwritable] at hok
      simp at hok
  obtain ⟨p, hw, hfs⟩ := hcreate
  refine ⟨p, payload, hw, by rw [hfs]; simp [Tree.set], ?_, ?_⟩
  · intro q hq
    rw [hfs]
    simp [Tree.set, hq]
  · cases range with
    | none => simp [RangeStored]
    | some r =>
      obtain ⟨a, b⟩ := r
      obtain ⟨hab, hac, hpay⟩ := hlen a b rfl
      simp only [RangeStored, Option.some.injEq, Prod.mk.injEq]
      constructor
      · rintro ⟨hstored, hkept⟩ a' b' ⟨rfl, rfl⟩
        have ha : a = 0 := by
          -- the last byte of the range lies beyond the new content unless the range starts at 0
          by_contra hpos
          have hlast := hstored (payload.length - 1) (by omega)
          rw [List.getElem?_eq_none (by omega), List.getElem?_eq_getElem (by omega)] at hlast
          cases hlast
        refine ⟨ha, ?_⟩
        by_contra hlong
        have hnext := hkept (b + 1) (by omega) (Or.inr (by omega))
        rw [List.getElem?_eq_none (by omega), List.getElem?_eq_getElem (by omega)] at hnext
        cases hnext
      · intro h
        obtain ⟨rfl, hcover⟩ := h a b ⟨rfl, rfl⟩
        refine ⟨fun i _ => by rw [Nat.zero_add], ?_⟩
        rintro i hi (hlt | hgt)
        · omega
        · omega

/-- A `PUT` of `body` with a `Content-Range`. -/
def rangeRequest (body : String) (range : String) : Conn :=
  { overwriteRequest with
    buf := ascii body
    dataLen := (ascii body).length
    contentLen := (ascii body).length
    requestInfo := ⟨ascii "PUT", ascii "/a", ascii "1.1", [⟨ascii "Content-Range", ascii range⟩]⟩ }

theorem rangeRequest_body (body range : String) :
    BodyState (ascii body) (ascii body) [] [] (rangeRequest body range) := by
  refine ⟨BodyAt.plain (ascii body) ⟨le_rfl, ?_, le_rfl⟩ rfl rfl rfl ?_ rfl rfl, fun _ => trivial⟩
  · exact Int.natCast_nonneg _
  · simp [Conn.unread, rangeRequest, overwriteRequest, sockBytes]

theorem putFile_range_whole : ∃ p new,
    oneFile.walk (freeProcess.fileName (ascii "/r/a")) = .ok p ∧
      (putFile freeProcess (rangeRequest "more" "bytes 0-3/4") oneFile (ascii "/r/a")).2.node p =
        some (.file new) ∧
      (∀ q, q ≠ p → (putFile freeProcess (rangeRequest "more" "bytes 0-3/4") oneFile
        (ascii "/r/a")).2.node q = oneFile.node q) ∧
      (RangeStored (some (0, 3)) (ascii "data") (ascii "more") new ↔
        ∀ a b, some (0, 3) = some (a, b) → a = 0 ∧ (ascii "data").length ≤ b + 1) := by
  apply putFile_range freeProcess (rangeRequest "more" "bytes 0-3/4") oneFile (ascii "/r/a")
    (ascii "data") (some (0, 3)) (ascii "more") (ascii "more") []
  · decide +kernel
  · exact rangeRequest_body "more" "bytes 0-3/4"
  · exact ⟨ascii "0", ascii "3", ascii "4", by decide, by decide, by decide, by decide, by decide,
      by decide⟩
  · rintro a b ⟨rfl, rfl⟩
    decide
  · decide +kernel

/-- The second byte of a file is to be replaced; the file is cut to that byte. -/
theorem putFile_range_cut :
    ContentRange (rangeRequest "X" "bytes 1-1/4") (some (1, 1)) ∧
      (putFile freeProcess (rangeRequest "X" "bytes 1-1/4") oneFile (ascii "/r/a")).1.status = 200 ∧
      (putFile freeProcess (rangeRequest "X" "bytes 1-1/4") oneFile (ascii "/r/a")).2.node
        [ascii "r", ascii "a"] = some (.file (ascii "X")) ∧
      ¬ RangeStored (some (1, 1)) (ascii "data") (ascii "X") (ascii "X") := by
  refine ⟨⟨ascii "1", ascii "1", ascii "4", by decide, by decide, by decide, by decide, by decide,
    by decide⟩, by decide +kernel, by decide +kernel, ?_⟩
  rintro ⟨hstored, -⟩
  exact absurd (hstored 0 (by decide)) (by decide)

end CivetWeb
