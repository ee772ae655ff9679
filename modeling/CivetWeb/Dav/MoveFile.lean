import CivetWeb.Dav.FileSystem
import CivetWeb.Conn.KeepAlive
import CivetWeb.Form.DotSegments
import CivetWeb.Form.UrlDecode
import CivetWeb.Format

namespace CivetWeb

open FileTree

/-- The answer to a request: its status, and the message of an error. -/
structure DavReply where
  status : Nat
  message : List Byte
  deriving DecidableEq, Repr

/-- The destination on this server that the header names, before its dot segments are removed. The bytes
of a URI of type 3 or 4 are all decoded. -/
def localDest (conn : Conn) (destinationHdr : List Byte) : Option (List Byte) :=
  match getUriType destinationHdr with
  | 2 => some destinationHdr
  | 3 | 4 =>
    let check := mgStrcasecmp conn.domain.enableAuthDomainCheck (ascii "yes") == 0
    (getRelUrlAtCurrentServer destinationHdr conn.lsaPort
      (if check then some conn.domain.authenticationDomain else none)).map
      (fun h => cstr ((mgUrlDecode h (h.length + 1) false).getD []))
  | _ => none

/-- `dest_path`, where the destination is legal. -/
def destPath (conn : Conn) (root : Option (List Byte)) (destinationHdr : List Byte) :
    Option (List Byte) := do
  let root ← root
  let dest ← localDest conn destinationHdr
  let dest := removeDotSegments dest
  if deref dest ≠ SLASH then none
  else
    let (path, truncated) := mgSnprintf UTF8_PATH_MAX (root ++ SLASH :: dest)
    if truncated then none else some path

def doOverwrite (conn : Conn) : Bool :=
  match mgGetHeader conn (ascii "Overwrite") with
  | none => false
  | some hdr => deref hdr == 84 || deref hdr == 116

def renameStatus : Errno → Nat
  | .EEXIST => 412
  | .EACCES => 403
  | .ENOENT => 409
  | _ => 400

/-- The copy or move at the end of `dav_move_file`; copying is not there on Linux. -/
def davRename (proc : Process) (fs : FileSys) (path dest : List Byte) (doCopy : Bool) :
    DavReply × FileSys :=
  if doCopy then (⟨403, ascii "COPY forbidden"⟩, fs)
  else
    match proc.rename fs path dest with
    | .error e => (⟨renameStatus e, ascii "Operation failed"⟩, fs)
    | .ok fs => (⟨204, []⟩, fs)

def davMoveFile (proc : Process) (root : Option (List Byte)) (conn : Conn) (fs : FileSys)
    (path : List Byte) (doCopy : Bool) : DavReply × FileSys :=
  match mgGetHeader conn (ascii "Destination") with
  | none | some [] => (⟨400, ascii "Missing destination"⟩, fs)
  | some destinationHdr =>
    match destPath conn root destinationHdr with
    | none => (⟨502, ascii "Illegal destination"⟩, fs)
    | some dest =>
      if (proc.mgStat fs dest).isSome then
        if doOverwrite conn then
          match proc.remove fs dest with
          | .error _ => (⟨403, ascii "Cannot overwrite file: " ++ dest⟩, fs)
          | .ok fs => davRename proc fs path dest doCopy
        else (⟨412, ascii "Destination already exists: " ++ dest⟩, fs)
      else davRename proc fs path dest doCopy

/-- The destination of a request, where it is legal. -/
def requestDest (root : Option (List Byte)) (conn : Conn) : Option (List Byte) :=
  ((mgGetHeader conn (ascii "Destination")).filter (· ≠ [])).bind (destPath conn root)

/-- An error leaves the file system as it was; a success has moved the source to the destination, and
left the rest. -/
structure MoveAtomic (proc : Process) (fs fs' : FileSys) (status : Nat) (path : List Byte)
    (dest : Option (List Byte)) : Prop where
  failed : 400 ≤ status → ∀ p, fs'.node p = fs.node p
  moved : status = 204 → ∃ d s t, dest = some d ∧ fs.walk (proc.fileName path) = .ok s ∧
    fs.walk (proc.fileName d) = .ok t ∧ fs.node s ≠ none ∧
    (∀ q, fs'.node (t ++ q) = fs.node (s ++ q)) ∧
    (s ≠ t → ∀ q, fs'.node (s ++ q) = none) ∧
    ∀ p, ¬ s <+: p → ¬ t <+: p → fs'.node p = fs.node p

/-- The destination is there and can be removed, but then the source cannot take its place. -/
def LosesDestination (proc : Process) (root : Option (List Byte)) (conn : Conn) (fs : FileSys)
    (path : List Byte) (doCopy : Bool) : Prop :=
  ∃ dest fs', requestDest root conn = some dest ∧ (proc.mgStat fs dest).isSome = true ∧
    doOverwrite conn = true ∧ proc.remove fs dest = .ok fs' ∧
    (doCopy = true ∨ ∀ fs'', proc.rename fs' path dest ≠ .ok fs'')

theorem renameStatus_failed (e : Errno) : 400 ≤ renameStatus e := by
  unfold renameStatus
  split <;> decide

theorem davRename_error (proc : Process) (fs : FileSys) (path dest : List Byte) (e : Errno)
    (h : proc.rename fs path dest = .error e) :
    davRename proc fs path dest false = (⟨renameStatus e, ascii "Operation failed"⟩, fs) := by
  simp [davRename, h]

theorem davRename_ok (proc : Process) (fs fs' : FileSys) (path dest : List Byte)
    (h : proc.rename fs path dest = .ok fs') :
    davRename proc fs path dest false = (⟨204, []⟩, fs') := by
  simp [davRename, h]

theorem unchanged_atomic (proc : Process) (fs : FileSys) (status : Nat) (path : List Byte)
    (dest : Option (List Byte)) (h : 400 ≤ status) : MoveAtomic proc fs fs status path dest :=
  ⟨fun _ _ => rfl, fun h204 => by omega⟩

/-- A file system without a node at `p` that has all others. -/
theorem set_none_le (fs : FileSys) (p r : List (List Byte)) (n : Node (List Byte))
    (h : (fs.set p none).node r = some n) : r ≠ p ∧ fs.node r = some n := by
  by_cases hr : r = p
  · simp [Tree.set, hr] at h
  · refine ⟨hr, ?_⟩
    simpa [Tree.set, hr] using h

/-- The last part of `dav_move_file`, when nothing has been removed before it. -/
theorem davRename_atomic (proc : Process) (fs : FileSys) (path dest : List Byte) (doCopy : Bool) :
    MoveAtomic proc fs (davRename proc fs path dest doCopy).2
      (davRename proc fs path dest doCopy).1.status path (some dest) := by
  cases doCopy with
  | true => exact unchanged_atomic proc fs 403 path _ (by decide)
  | false =>
    cases hr : proc.rename fs path dest with
    | error e =>
      rw [davRename_error proc fs path dest e hr]
      exact unchanged_atomic proc fs _ path _ (renameStatus_failed e)
    | ok fs' =>
      rw [davRename_ok proc fs fs' path dest hr]
      refine ⟨fun h => absurd h (by simp), fun _ => ?_⟩
      obtain ⟨s, t, n, hs, hn, ht, hcase⟩ := proc.rename_spec fs fs' path dest hr
      refine ⟨dest, s, t, rfl, hs, ht, by rw [hn]; simp, ?_⟩
      rcases hcase with ⟨rfl, rfl⟩ | ⟨hmoved, hgone, -, hrest⟩
      · exact ⟨fun _ => rfl, fun hne => absurd rfl hne, fun _ _ _ => rfl⟩
      · exact ⟨hmoved, fun _ => hgone, hrest⟩

/-- Replacing a destination that was removed is a move in the file system that had it. -/
theorem replaced_atomic (proc : Process) (fs fs1 fs2 : FileSys) (path dest : List Byte)
    (hremove : proc.remove fs dest = .ok fs1) (hrename : proc.rename fs1 path dest = .ok fs2) :
    MoveAtomic proc fs fs2 204 path (some dest) := by
  refine ⟨fun h => absurd h (by decide), fun _ => ?_⟩
  obtain ⟨t', n', ht', -, rfl⟩ := proc.remove_spec fs fs1 dest hremove
  obtain ⟨s, t, n, hs, hn, ht, hcase⟩ := proc.rename_spec _ fs2 path dest hrename
  have hle : ∀ r m, (fs.set t' none).node r = some m → fs.node r = some m :=
    fun r m h => (set_none_le fs t' r m h).2
  have hs' : fs.walk (proc.fileName path) = .ok s := walkFrom_mono _ fs _ _ s hle hs
  have ht'' : fs.walk (proc.fileName dest) = .ok t := walkFrom_mono _ fs _ _ t hle ht
  obtain rfl : t' = t := Except.ok.inj (ht'.symm.trans ht'')
  obtain ⟨hne, hsn⟩ := set_none_le fs t' s n hn
  refine ⟨dest, s, t', rfl, hs', ht', by rw [hsn]; simp, ?_⟩
  rcases hcase with ⟨rfl, -⟩ | ⟨hmoved, hgone, hst, hrest⟩
  · exact absurd rfl hne
  · refine ⟨?_, fun _ => hgone, ?_⟩
    · intro q
      have hq : s ++ q ≠ t' := fun heq => hst (heq ▸ List.prefix_append s q)
      rw [hmoved q]
      simp [Tree.set, hq]
    · intro p hsp htp
      have hp : p ≠ t' := fun heq => htp (heq ▸ List.prefix_rfl)
      rw [hrest p hsp htp]
      simp [Tree.set, hp]

/-- The outcomes of `dav_move_file`. -/
theorem davMoveFile_cases (proc : Process) (root : Option (List Byte)) (conn : Conn) (fs : FileSys)
    (path : List Byte) (doCopy : Bool) :
    (∃ reply, 400 ≤ reply.status ∧ davMoveFile proc root conn fs path doCopy = (reply, fs) ∧
        ¬ LosesDestination proc root conn fs path doCopy) ∨
      ∃ dest, requestDest root conn = some dest ∧
        ((proc.mgStat fs dest = none ∧
            davMoveFile proc root conn fs path doCopy = davRename proc fs path dest doCopy) ∨
          ∃ fs1, (proc.mgStat fs dest).isSome = true ∧ doOverwrite conn = true ∧
            proc.remove fs dest = .ok fs1 ∧
            davMoveFile proc root conn fs path doCopy = davRename proc fs1 path dest doCopy) := by
  have hnodest (h : requestDest root conn = none) :
      ¬ LosesDestination proc root conn fs path doCopy := by
    rintro ⟨dest, -, hdest, -⟩
    rw [h] at hdest
    cases hdest
  cases hhdr : mgGetHeader conn (ascii "Destination") with
  | none =>
    exact Or.inl ⟨⟨400, ascii "Missing destination"⟩, by decide, by simp [davMoveFile, hhdr],
      hnodest (by simp [requestDest, hhdr])⟩
  | some hdr =>
    cases hdr with
    | nil =>
      exact Or.inl ⟨⟨400, ascii "Missing destination"⟩, by decide, by simp [davMoveFile, hhdr],
        hnodest (by simp [requestDest, hhdr])⟩
    | cons c hdr =>
      have hrequest : requestDest root conn = destPath conn root (c :: hdr) := by
        rw [requestDest, hhdr]
        rfl
      cases hpath : destPath conn root (c :: hdr) with
      | none =>
        exact Or.inl ⟨⟨502, ascii "Illegal destination"⟩, by decide, by simp [davMoveFile, hhdr, hpath],
          hnodest (hrequest.trans hpath)⟩
      | some dest =>
        have hdest : requestDest root conn = some dest := hrequest.trans hpath
        have hsame (dest' : List Byte) (h : requestDest root conn = some dest') : dest' = dest :=
          Option.some.inj (h.symm.trans hdest)
        cases hstat : proc.mgStat fs dest with
        | none =>
          exact Or.inr ⟨dest, hdest, Or.inl ⟨hstat, by simp [davMoveFile, hhdr, hpath, hstat]⟩⟩
        | some n =>
          by_cases hover : doOverwrite conn = true
          · cases hremove : proc.remove fs dest with
            | error e =>
              refine Or.inl ⟨⟨403, ascii "Cannot overwrite file: " ++ dest⟩, by simp,
                by simp [davMoveFile, hhdr, hpath, hstat, hover, hremove], ?_⟩
              rintro ⟨dest', fs', hdest', -, -, hremove', -⟩
              obtain rfl := hsame dest' hdest'
              rw [hremove] at hremove'
              cases hremove'
            | ok fs1 =>
              exact Or.inr ⟨dest, hdest, Or.inr ⟨fs1, by rw [hstat]; rfl, hover, hremove,
                by simp [davMoveFile, hhdr, hpath, hstat, hover, hremove]⟩⟩
          · refine Or.inl ⟨⟨412, ascii "Destination already exists: " ++ dest⟩, by simp,
              by simp [davMoveFile, hhdr, hpath, hstat, hover], ?_⟩
            rintro ⟨-, -, -, -, hover', -⟩
            exact hover hover'

/-- A destination that was removed for nothing is missing afterwards. -/
theorem removed_not_atomic (proc : Process) (fs fs1 : FileSys) (status : Nat) (path dest : List Byte)
    (dest' : Option (List Byte)) (hstatus : 400 ≤ status) (hremove : proc.remove fs dest = .ok fs1) :
    ¬ MoveAtomic proc fs fs1 status path dest' := by
  intro h
  obtain ⟨p, n, -, hn, rfl⟩ := proc.remove_spec fs fs1 dest hremove
  have hsame := h.failed hstatus p
  rw [hn] at hsame
  simp [Tree.set] at hsame

/-- A move or copy is atomic exactly where it does not lose its destination. -/
theorem davMoveFile_atomic (proc : Process) (root : Option (List Byte)) (conn : Conn) (fs : FileSys)
    (path : List Byte) (doCopy : Bool) :
    MoveAtomic proc fs (davMoveFile proc root conn fs path doCopy).2
        (davMoveFile proc root conn fs path doCopy).1.status path (requestDest root conn) ↔
      ¬ LosesDestination proc root conn fs path doCopy := by
  rcases davMoveFile_cases proc root conn fs path doCopy with
    ⟨reply, hfailed, hrun, hkept⟩ | ⟨dest, hdest, ⟨hstat, hrun⟩ | ⟨fs1, hstat, hover, hremove, hrun⟩⟩
  · rw [hrun]
    exact ⟨fun _ => hkept, fun _ => unchanged_atomic proc fs _ path _ hfailed⟩
  · rw [hrun, hdest]
    refine ⟨fun _ => ?_, fun _ => davRename_atomic proc fs path dest doCopy⟩
    rintro ⟨dest', -, hdest', hstat', -⟩
    obtain rfl := Option.some.inj (hdest'.symm.trans hdest)
    rw [hstat] at hstat'
    cases hstat'
  · have hloses (h : doCopy = true ∨ ∀ fs2, proc.rename fs1 path dest ≠ .ok fs2) :
        LosesDestination proc root conn fs path doCopy :=
      ⟨dest, fs1, hdest, hstat, hover, hremove, h⟩
    rw [hrun, hdest]
    cases doCopy with
    | true =>
      exact iff_of_false (removed_not_atomic proc fs fs1 403 path dest _ (by decide) hremove)
        (fun h => h (hloses (Or.inl rfl)))
    | false =>
      cases hrename : proc.rename fs1 path dest with
      | error e =>
        rw [davRename_error proc fs1 path dest e hrename]
        exact iff_of_false
          (removed_not_atomic proc fs fs1 _ path dest _ (renameStatus_failed e) hremove)
          (fun h => h (hloses (Or.inr (fun fs2 hok => by rw [hrename] at hok; cases hok))))
      | ok fs2 =>
        rw [davRename_ok proc fs1 fs2 path dest hrename]
        refine iff_of_true (replaced_atomic proc fs fs1 fs2 path dest hremove hrename) ?_
        rintro ⟨dest', fs1', hdest', -, -, hremove', hcopy | hnone⟩
        · cases hcopy
        · obtain rfl := Option.some.inj (hdest'.symm.trans hdest)
          obtain rfl := Except.ok.inj (hremove'.symm.trans hremove)
          exact hnone fs2 hrename

/-- The file `/r/a` alone. -/
def oneFile : FileSys where
  node p :=
    if p = [] ∨ p = [ascii "r"] then some .dir
    else if p = [ascii "r", ascii "a"] then some (.file (ascii "data"))
    else none
  paths := [[], [ascii "r"], [ascii "r", ascii "a"]]
  covers p hp := by
    by_cases h1 : p = [] ∨ p = [ascii "r"]
    · rcases h1 with rfl | rfl <;> simp
    · rw [if_neg h1] at hp
      split_ifs at hp with h2
      · simp [h2]
      · exact absurd rfl hp

/-- A process that nothing is denied to. -/
def freeProcess : Process where
  cwd := []
  statDenied _ := none
  removeDenied _ := none
  renameDenied _ _ := none
  mkdirDenied _ := none
  openDenied _ := none
  writable _ := true
  diskSpace := 1000
  closeFails := false

/-- A request to put something in the place of `/a`. -/
def overwriteRequest : Conn where
  ssl := false
  domains := []
  domCtx := 0
  lsaPort := 80
  sock := []
  buf := []
  dataLen := 0
  requestLen := 0
  contentLen := 0
  consumedContent := 0
  isChunked := 0
  mustClose := false
  handledRequests := 1
  protocolType := PROTOCOL_TYPE_HTTP1
  requestInfo := ⟨ascii "MOVE", ascii "/a", ascii "1.1",
    [⟨ascii "Destination", ascii "/a"⟩, ⟨ascii "Overwrite", ascii "T"⟩]⟩
  infoContentLength := -1
  localUri := some (ascii "/a")

/-- A file that is moved to where it is gets lost, and so does a file that something is to be copied to. -/
theorem davMoveFile_loses_file :
    (davMoveFile freeProcess (some (ascii "/r")) overwriteRequest oneFile (ascii "/r/a") false).1.status =
        409 ∧
      (davMoveFile freeProcess (some (ascii "/r")) overwriteRequest oneFile (ascii "/r/a") false).2.node
        [ascii "r", ascii "a"] = none ∧
      (davMoveFile freeProcess (some (ascii "/r")) overwriteRequest oneFile (ascii "/r/b") true).1.status =
        403 ∧
      (davMoveFile freeProcess (some (ascii "/r")) overwriteRequest oneFile (ascii "/r/b") true).2.node
        [ascii "r", ascii "a"] = none ∧
      ¬ MoveAtomic freeProcess oneFile
        (davMoveFile freeProcess (some (ascii "/r")) overwriteRequest oneFile (ascii "/r/a") false).2
        (davMoveFile freeProcess (some (ascii "/r")) overwriteRequest oneFile
          (ascii "/r/a") false).1.status
        (ascii "/r/a") (requestDest (some (ascii "/r")) overwriteRequest) := by
  have hstatus : (davMoveFile freeProcess (some (ascii "/r")) overwriteRequest oneFile (ascii "/r/a")
      false).1.status = 409 := by decide +kernel
  have hlost : (davMoveFile freeProcess (some (ascii "/r")) overwriteRequest oneFile (ascii "/r/a")
      false).2.node [ascii "r", ascii "a"] = none := by decide +kernel
  refine ⟨hstatus, hlost, by decide +kernel, by decide +kernel, ?_⟩
  intro h
  have hsame := h.failed (by rw [hstatus]; decide) [ascii "r", ascii "a"]
  rw [hlost] at hsame
  have hthere : oneFile.node [ascii "r", ascii "a"] = some (.file (ascii "data")) := by decide
  rw [hthere] at hsame
  cases hsame

end CivetWeb
