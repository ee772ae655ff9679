import CivetWeb.Dav.RemoveDirectory
import CivetWeb.Lib.System

namespace CivetWeb

open FileTree Segments

/-! ### Requests that change files -/

def mkcolStatus : Errno → Nat
  | .EEXIST => 405
  | .EACCES => 403
  | .ENOENT => 409
  | _ => 500

/-- `dav_mkcol`, where `lastModified` is the time of a file as `stat` gives it. -/
def davMkcol (proc : Process) (lastModified : List Byte → Int) (conn : Conn) (fs : FileSys) (path : List Byte) :
    DavReply × FileSys :=
  if (proc.mgStat fs path).isSome ∧ lastModified path ≠ 0 then (⟨405, ascii "Error: mkcol(" ++ path⟩, fs)
  else if 0 < (conn.dataLen : Int) - conn.requestLen then (⟨415, ascii "Error: mkcol(" ++ path⟩, fs)
  else
    match proc.mkdir fs path with
    | .ok fs => (⟨201, []⟩, fs)
    | .error e => (⟨mkcolStatus e, ascii "Error processing " ++ path⟩, fs)

/-- The methods that `handle_request` handles as changes of files. -/
inductive DavMethod where
  | put
  | delete
  | mkcol
  | move
  | copy
  deriving DecidableEq, Repr

/-- A request with its decoded URI, and what the process may do while it is handled. -/
structure DavRequest where
  method : DavMethod
  conn : Conn
  uri : List Byte
  proc : Process
  reader : DirReader
  lastModified : List Byte → Int

/-- The dispatch of `handle_request` for a URI that `interpret_uri` maps to the root and what follows it; a
path that does not fit makes it no request to a file. -/
def handlePutDelete (root : List Byte) (fs : FileSys) (r : DavRequest) : DavReply × FileSys :=
  let (path, truncated) := mgSnprintf (UTF8_PATH_MAX - 1) (root ++ removeDotSegments r.uri)
  if truncated then (⟨404, ascii "Not found"⟩, fs)
  else
    match r.method with
    | .put => putFile r.proc r.conn fs path
    | .delete => deleteFile r.proc r.reader fs path
    | .mkcol => davMkcol r.proc r.lastModified r.conn fs path
    | .move => davMoveFile r.proc (some root) r.conn fs path false
    | .copy => davMoveFile r.proc (some root) r.conn fs path true

def davStep (root : List Byte) (fs : FileSys) (r : DavRequest) : Option FileSys := some (handlePutDelete root fs r).2

/-! ### Names below the root -/

/-- The names behind the root are those of entries. -/
def BelowDir (proc : Process) (root path : List Byte) : Prop :=
  ∃ names : List (List Byte), (proc.fileName path).comps = (proc.fileName root).comps ++ names.map Comp.name

theorem BelowDir.target {proc : Process} {root path : List Byte} (h : BelowDir proc root path) :
    (proc.fileName root).target <+: (proc.fileName path).target := by
  obtain ⟨names, hnames⟩ := h
  have hfold : ∀ p : List (List Byte), p <+: (names.map Comp.name).foldl (fun p c => c.follow p) p := by
    clear hnames
    induction names with
    | nil => exact fun p => List.prefix_rfl
    | cons n names ih => exact fun p => (List.prefix_append p [n]).trans (ih (p ++ [n]))
  rw [FileName.target, FileName.target, hnames, List.foldl_append]
  exact hfold _

theorem comps_append (proc : Process) {root s : List Byte} (hroot : root ≠ []) :
    (proc.fileName (root ++ SLASH :: s)).comps =
      (proc.fileName root).comps ++ ((s.splitOn SLASH).filter (· ≠ [])).map pathComp := by
  have hfirst : deref (root ++ SLASH :: s) = deref root := by
    cases root with
    | nil => exact absurd rfl hroot
    | cons c root => rfl
  simp only [Process.fileName]
  rw [hfirst, List.splitOn_append_cons_self, List.filter_append, List.map_append, List.append_assoc]

/-- A path without dots at the end of its segments leads down. -/
theorem belowDir_safe (proc : Process) {root s : List Byte} (hroot : root ≠ []) (hs : NoDotEnd SLASH DOT s) :
    BelowDir proc root (root ++ SLASH :: s) := by
  refine ⟨(s.splitOn SLASH).filter (· ≠ []), ?_⟩
  rw [comps_append proc hroot]
  congr 1
  refine List.map_congr_left fun c hc => ?_
  have hlast := hs.segments c (List.mem_filter.mp hc).1
  rw [pathComp, if_neg, if_neg]
  · rintro rfl
    exact hlast rfl
  · rintro rfl
    exact hlast rfl

theorem belowDir_request (proc : Process) {root uri : List Byte} (hroot : root ≠ []) (huri : deref uri = SLASH) :
    BelowDir proc root (root ++ removeDotSegments uri) := by
  have hsafe := (removeDotSegments_isSafe uri).no_dot_end
  have hslash : deref (removeDotSegments uri) = SLASH := by
    rw [removeDotSegments_safePath uri (Or.inl huri)]
    exact safePath_slash uri
  cases h : removeDotSegments uri with
  | nil =>
    rw [h] at hslash
    cases hslash
  | cons c s =>
    rw [h] at hslash hsafe
    obtain rfl : c = SLASH := hslash
    exact belowDir_safe proc hroot (hsafe.suffix (List.suffix_cons SLASH s))

/-! ### What each call changes -/

/-- The file system is as it has to be, and as it was outside of `r`. -/
structure Contained (r : List (List Byte)) (fs fs' : FileSys) : Prop where
  sound : fs'.Sound ProperName
  agrees : fs.AgreesOutside fs' r

theorem Contained.refl {fs : FileSys} (r : List (List Byte)) (h : fs.Sound ProperName) : Contained r fs fs :=
  ⟨h, Tree.AgreesOutside.refl fs r⟩

theorem Contained.trans {r : List (List Byte)} {fs fs' fs'' : FileSys} (h : Contained r fs fs')
    (h' : Contained r fs' fs'') : Contained r fs fs'' := ⟨h'.sound, h.agrees.trans h'.agrees⟩

section Calls

variable {proc : Process} {reader : DirReader} {fs fs' : FileSys} {path : List Byte} {r : List (List Byte)}

theorem remove_contained (hsound : fs.Sound ProperName) (hpath : r <+: (proc.fileName path).target)
    (h : proc.remove fs path = .ok fs') : Contained r fs fs' := by
  unfold Process.remove at h
  split_ifs at h
  split at h
  · cases h
  · obtain ⟨p, hwalk, -, rfl, -⟩ := hsound.removed h
    exact ⟨hsound.remove h, set_agreesOutside fs none (walk_target hwalk ▸ hpath)⟩

theorem rmdir_contained (hsound : fs.Sound ProperName) (hpath : r <+: (proc.fileName path).target)
    (h : proc.rmdir fs path = .ok fs') : Contained r fs fs' := by
  unfold Process.rmdir at h
  split_ifs at h
  split at h
  · cases h
  · unfold Tree.rmdir at h
    cases hfind : fs.find (proc.fileName path) with
    | error e =>
      rw [hfind] at h
      cases h
    | ok found =>
      obtain ⟨p, n⟩ := found
      obtain ⟨hwalk, -⟩ := find_spec fs _ p n hfind
      rw [hfind] at h
      cases n with
      | file content => cases h
      | dir =>
        dsimp only at h
        split_ifs at h with hplain hempty
        obtain rfl := Except.ok.inj h
        refine ⟨hsound.unset p (walk_plain fs _ p (by simpa using hplain) hwalk) ?_,
          set_agreesOutside fs none (walk_target hwalk ▸ hpath)⟩
        intro q hq
        exact (isEmpty_iff fs p).mp hempty (p ++ q) (List.prefix_append p q) (by simpa using hq)

theorem mkdir_contained (hcwd : ∀ n ∈ proc.cwd, ProperName n) (hsound : fs.Sound ProperName)
    (hpath : r <+: (proc.fileName path).target ∨ fs.node (proc.fileName path).target = some .dir)
    (h : proc.mkdir fs path = .ok fs') : Contained r fs fs' := by
  unfold Process.mkdir at h
  split_ifs at h
  split at h
  · cases h
  · obtain ⟨p, hwalk, hnone, rfl, hsound'⟩ := hsound.mkdir (fileName_proper proc hcwd path) h
    obtain rfl := walk_target hwalk
    rcases hpath with hpath | hdir
    · exact ⟨hsound', set_agreesOutside fs _ hpath⟩
    · rw [hdir] at hnone
      cases hnone

theorem rename_contained {dest : List Byte} (hcwd : ∀ n ∈ proc.cwd, ProperName n) (hsound : fs.Sound ProperName)
    (hpath : r <+: (proc.fileName path).target) (hdest : r <+: (proc.fileName dest).target)
    (h : proc.rename fs path dest = .ok fs') : Contained r fs fs' := by
  have hends := proc.rename_spec fs fs' path dest h
  unfold Process.rename at h
  split_ifs at h
  split at h
  · cases h
  · refine ⟨hsound.rename (fileName_proper proc hcwd dest) h, ?_⟩
    obtain ⟨s, d, n, hs, -, hd, ⟨-, rfl⟩ | ⟨-, -, -, hrest⟩⟩ := hends
    · exact Tree.AgreesOutside.refl _ r
    · intro q hq
      refine hrest q (fun hpre => hq (?_ : r <+: q)) fun hpre => hq ?_
      · exact (walk_target hs ▸ hpath).trans hpre
      · exact (walk_target hd ▸ hdest).trans hpre

/-! ### What each request changes -/

theorem removeEntries_contained (removeDir : FileSys → List Byte → Bool × FileSys) {dir : List Byte}
    (names : List (List Byte)) (state : Bool × FileSys) (hsound : state.2.Sound ProperName) (hdir : dir ≠ [])
    (hpath : r <+: (proc.fileName dir).target)
    (hnames : ∀ name ∈ names, (name = [DOT] ∨ name = [DOT, DOT]) ∨ ProperName name)
    (hrec : ∀ fs path, fs.Sound ProperName → path ≠ [] → r <+: (proc.fileName path).target →
      Contained r fs (removeDir fs path).2) :
    Contained r state.2 (names.foldl (removeEntry removeDir proc dir) state).2 := by
  induction names generalizing state with
  | nil => exact Contained.refl r hsound
  | cons name names ih =>
    obtain ⟨ok, fs⟩ := state
    have hturn : Contained r fs (removeEntry removeDir proc dir (ok, fs) name).2 := by
      rcases hnames name List.mem_cons_self with hdots | hname
      · rw [removeEntry_dots removeDir (ok, fs) hdots]
        exact Contained.refl r hsound
      · have hentry : r <+: (proc.fileName (dir ++ SLASH :: name)).target := by
          rw [FileName.target, fileName_entry proc hdir hname, List.foldl_append]
          exact hpath.trans (List.prefix_append _ [name])
        simp only [removeEntry]
        rw [if_neg (not_or.mpr ⟨hname.not_here, hname.not_up⟩)]
        by_cases hlen : (dir ++ SLASH :: name).length < UTF8_PATH_MAX
        · rw [mgSnprintf_fits _ _ hlen]
          simp only [Bool.false_eq_true, if_false]
          split
          · exact hrec fs _ hsound (by simp) hentry
          · split
            · exact remove_contained hsound hentry ‹_›
            · exact Contained.refl r hsound
        · rw [mgSnprintf, if_neg hlen]
          simp only [if_true]
          exact Contained.refl r hsound
    exact hturn.trans (ih _ hturn.sound fun m hm => hnames m (List.mem_cons_of_mem name hm))

theorem removeDirectoryLoop_contained (n : Nat) (fs : FileSys) (dir : List Byte) (hsound : fs.Sound ProperName)
    (hdir : dir ≠ []) (hpath : r <+: (proc.fileName dir).target) :
    Contained r fs (removeDirectoryLoop proc reader n fs dir).2 := by
  induction n generalizing fs dir with
  | zero => exact Contained.refl r hsound
  | succ n ih =>
    rw [removeDirectoryLoop]
    cases hopen : proc.opendir reader fs dir with
    | none => exact Contained.refl r hsound
    | some names =>
      have hnames : ∀ name ∈ names, (name = [DOT] ∨ name = [DOT, DOT]) ∨ ProperName name := by
        unfold Process.opendir at hopen
        split_ifs at hopen
        split at hopen
        · cases hopen
        · split at hopen
          · rename_i p hfind
            obtain rfl := Option.some.inj hopen
            intro name hname
            rcases List.mem_cons.mp ((reader.perm fs p).mem_iff.mp hname) with h | h
            · exact Or.inl (Or.inl h)
            rcases List.mem_cons.mp h with h | h
            · exact Or.inl (Or.inr h)
            · exact Or.inr (hsound.proper _ ((mem_children fs p name).mp h) name (by simp))
          · cases hopen
      have hloop := removeEntries_contained (removeDirectoryLoop proc reader n) names (true, fs) hsound hdir hpath
        hnames fun fs' path hsound' hne hpath' => ih fs' path hsound' hne hpath'
      dsimp only
      split
      · exact hloop.trans (rmdir_contained hloop.sound hpath ‹_›)
      · exact hloop

theorem deleteFile_contained (hsound : fs.Sound ProperName) (hne : path ≠ [])
    (hpath : r <+: (proc.fileName path).target) : Contained r fs (deleteFile proc reader fs path).2 := by
  unfold deleteFile
  split
  · exact Contained.refl r hsound
  · have hdir : Contained r fs (removeDirectoryLoop proc reader (UTF8_PATH_MAX + 1) fs path).2 :=
      removeDirectoryLoop_contained (UTF8_PATH_MAX + 1) fs path hsound hne hpath
    dsimp only
    split_ifs <;> exact hdir
  · split_ifs
    · exact Contained.refl r hsound
    · split
      · exact remove_contained hsound hpath ‹_›
      · exact Contained.refl r hsound

theorem davMkcol_contained (lastModified : List Byte → Int) (conn : Conn) (hcwd : ∀ n ∈ proc.cwd, ProperName n)
    (hsound : fs.Sound ProperName) (hpath : r <+: (proc.fileName path).target) :
    Contained r fs (davMkcol proc lastModified conn fs path).2 := by
  unfold davMkcol
  split_ifs
  · exact Contained.refl r hsound
  · exact Contained.refl r hsound
  · split
    · exact mkdir_contained hcwd hsound (Or.inl hpath) ‹_›
    · exact Contained.refl r hsound

theorem davRename_contained {dest : List Byte} (doCopy : Bool) (hcwd : ∀ n ∈ proc.cwd, ProperName n)
    (hsound : fs.Sound ProperName) (hpath : r <+: (proc.fileName path).target)
    (hdest : r <+: (proc.fileName dest).target) : Contained r fs (davRename proc fs path dest doCopy).2 := by
  unfold davRename
  split_ifs
  · exact Contained.refl r hsound
  · split
    · exact Contained.refl r hsound
    · exact rename_contained hcwd hsound hpath hdest ‹_›

/-- The directories on the way that are not below `r` are there. -/
def Anchored (proc : Process) (r : List (List Byte)) (fs : FileSys) (path : List Byte) : Prop :=
  ∀ len, 2 ≤ len → path[len]? = some SLASH →
    r <+: (proc.fileName (path.take len)).target ∨ fs.node (proc.fileName (path.take len)).target = some .dir

theorem Anchored.of_contained (h : Anchored proc r fs path) (hfs : Contained r fs fs') : Anchored proc r fs' path := by
  intro len hlen hslash
  by_cases hpre : r <+: (proc.fileName (path.take len)).target
  · exact Or.inl hpre
  · refine Or.inr ?_
    rw [hfs.agrees _ hpre]
    exact (h len hlen hslash).resolve_left hpre

theorem putDirLoop_contained (slashes : List Nat) (res : Int) (hcwd : ∀ n ∈ proc.cwd, ProperName n)
    (hsound : fs.Sound ProperName) (hanchored : Anchored proc r fs path)
    (hslashes : ∀ len ∈ slashes, 2 ≤ len ∧ path[len]? = some SLASH) :
    Contained r fs (putDirLoop proc path slashes fs res).2 := by
  induction slashes generalizing fs res with
  | nil => exact Contained.refl r hsound
  | cons len slashes ih =>
    obtain ⟨hlen, hslash⟩ := hslashes len List.mem_cons_self
    have hrest := fun l hl => hslashes l (List.mem_cons_of_mem len hl)
    rw [putDirLoop]
    by_cases hlong : UTF8_PATH_MAX ≤ len
    · rw [if_pos hlong]
      exact Contained.refl r hsound
    rw [if_neg hlong]
    dsimp only
    split
    · exact ih _ hsound hanchored hrest
    · split
      · exact Contained.refl r hsound
      · have hmade := mkdir_contained hcwd hsound (hanchored len hlen hslash) ‹_›
        exact hmade.trans (ih _ hmade.sound (hanchored.of_contained hmade) hrest)

/-- What is written to the file that `mg_fopen` opens. -/
theorem putContent_contained {p : List (List Byte)} {fs₁ : FileSys} (conn : Conn)
    (hcwd : ∀ n ∈ proc.cwd, ProperName n) (hsound : fs.Sound ProperName) (hpath : r <+: (proc.fileName path).target)
    (hopen : proc.mgFopenWrite fs path = some (p, fs₁)) :
    Contained r fs (putContent proc conn fs₁ p path).2 := by
  obtain ⟨hwrite, rfl⟩ : fs.openWrite (proc.fileName path) = .ok p ∧ fs₁ = fs.set p (some (.file [])) := by
    unfold Process.mgFopenWrite at hopen
    split_ifs at hopen
    split at hopen
    · cases hopen
    · split at hopen
      · cases hopen
      · obtain ⟨rfl, rfl⟩ := Prod.mk.inj (Option.some.inj hopen)
        exact ⟨‹_›, rfl⟩
  have hfile := hsound.openWrite (fileName_proper proc hcwd path) hwrite
  have hagrees (n : Option (Node (List Byte))) : fs.AgreesOutside (fs.set p n) r :=
    set_agreesOutside fs n (walk_target (hfile []).1 ▸ hpath)
  have hwritten (content : List Byte) :
      Contained r fs ((fs.set p (some (.file []))).set p (some (.file content))) := by
    have hsame : ∀ q, ((fs.set p (some (.file []))).set p (some (.file content))).node q =
        (fs.set p (some (.file content))).node q := by
      intro q
      by_cases hq : q = p <;> simp [Tree.set, hq]
    refine ⟨(hfile content).2.congr hsame, ?_⟩
    intro q hq
    rw [hsame]
    exact hagrees _ q hq
  unfold putContent
  dsimp only
  split
  · exact ⟨(hfile []).2, hagrees _⟩
  · split
    · exact hwritten _
    · exact hwritten _

theorem putFile_contained (conn : Conn) (hcwd : ∀ n ∈ proc.cwd, ProperName n) (hsound : fs.Sound ProperName)
    (hpath : r <+: (proc.fileName path).target) (hanchored : Anchored proc r fs path) :
    Contained r fs (putFile proc conn fs path).2 := by
  have hdir : Contained r fs (putDir proc fs path).2 := by
    refine putDirLoop_contained _ 1 hcwd hsound hanchored ?_
    intro len hlen
    simpa using (List.mem_filter.mp hlen).2
  unfold putFile
  dsimp only
  split
  · exact Contained.refl r hsound
  · split_ifs
    · split
      · exact Contained.refl r hsound
      · exact putContent_contained conn hcwd hsound hpath ‹_›
    · exact Contained.refl r hsound
  · split_ifs
    · exact hdir
    · exact hdir
    · exact hdir
    · split
      · exact hdir
      · exact hdir.trans (putContent_contained conn hcwd hdir.sound hpath ‹_›)

end Calls

theorem destPath_belowDir (proc : Process) {conn : Conn} {root hdr dest : List Byte} (hroot : root ≠ [])
    (h : destPath conn (some root) hdr = some dest) : BelowDir proc root dest := by
  unfold destPath at h
  cases hlocal : localDest conn hdr with
  | none => simp [hlocal] at h
  | some s =>
    simp only [hlocal, Option.bind_eq_bind, Option.bind_some] at h
    by_cases hslash : deref (removeDotSegments s) = SLASH
    swap
    · rw [if_pos hslash] at h
      cases h
    rw [if_neg (not_not.mpr hslash)] at h
    by_cases hfits : (root ++ SLASH :: removeDotSegments s).length < UTF8_PATH_MAX
    · rw [mgSnprintf_fits _ _ hfits] at h
      simp only [Bool.false_eq_true, if_false, Option.some.injEq] at h
      rw [← h]
      exact belowDir_safe proc hroot (removeDotSegments_isSafe s).no_dot_end
    · rw [mgSnprintf, if_neg hfits] at h
      simp at h

theorem davMoveFile_contained {proc : Process} {root path : List Byte} {fs : FileSys} (conn : Conn) (doCopy : Bool)
    (hroot : root ≠ []) (hcwd : ∀ n ∈ proc.cwd, ProperName n) (hsound : fs.Sound ProperName)
    (hpath : BelowDir proc root path) :
    Contained (proc.fileName root).target fs (davMoveFile proc (some root) conn fs path doCopy).2 := by
  have hbelow (dest : List Byte) (h : requestDest (some root) conn = some dest) : BelowDir proc root dest := by
    obtain ⟨hdr, -, hdest⟩ := Option.bind_eq_some_iff.mp h
    exact destPath_belowDir proc hroot hdest
  rcases davMoveFile_cases proc (some root) conn fs path doCopy with
    ⟨reply, -, hrun, -⟩ | ⟨dest, hdest, ⟨-, hrun⟩ | ⟨fs₁, -, -, hremove, hrun⟩⟩
  · rw [hrun]
    exact Contained.refl _ hsound
  · rw [hrun]
    exact davRename_contained doCopy hcwd hsound hpath.target (hbelow dest hdest).target
  · have hremoved := remove_contained hsound (hbelow dest hdest).target hremove
    rw [hrun]
    exact hremoved.trans
      (davRename_contained doCopy hcwd hremoved.sound hpath.target (hbelow dest hdest).target)

/-! ### Runs -/

/-- The way to the root is there, so that it is for every path below the root. -/
theorem anchored_belowDir {proc : Process} {root path : List Byte} {fs : FileSys}
    (hwalk : ∀ ds, ds <+: (proc.fileName root).comps → ds ≠ (proc.fileName root).comps →
      (proc.fileName root).target <+: ds.foldl (fun p c => c.follow p) [] ∨
        fs.node (ds.foldl (fun p c => c.follow p) []) = some .dir)
    (hpath : BelowDir proc root path) : Anchored proc (proc.fileName root).target fs path := by
  intro len hlen hslash
  obtain ⟨names, hnames⟩ := hpath
  obtain ⟨hlt, hget⟩ := List.getElem?_eq_some_iff.mp hslash
  have hsplit : path = path.take len ++ SLASH :: path.drop (len + 1) := by
    conv_lhs => rw [← List.take_append_drop len path]
    rw [List.drop_eq_getElem_cons hlt, hget]
  have hne : path.take len ≠ [] := by
    intro h
    have hzero := congrArg List.length h
    rw [List.length_take_of_le hlt.le, List.length_nil] at hzero
    omega
  have hpre : (proc.fileName (path.take len)).comps <+: (proc.fileName root).comps ++ names.map Comp.name := by
    rw [← hnames]
    conv_rhs => rw [hsplit]
    rw [comps_append proc hne]
    exact List.prefix_append _ _
  rcases List.prefix_or_prefix_of_prefix hpre (List.prefix_append (proc.fileName root).comps _) with h | h
  · by_cases heq : (proc.fileName (path.take len)).comps = (proc.fileName root).comps
    · refine Or.inl ?_
      rw [FileName.target, FileName.target, heq]
    · exact hwalk _ h heq
  · obtain ⟨ds, hds⟩ := h
    rw [← hds, List.prefix_append_right_inj] at hpre
    refine Or.inl (BelowDir.target ⟨names.take ds.length, ?_⟩)
    rw [← hds, List.prefix_iff_eq_take.mp hpre, List.map_take]
    simp

/-- No sequence of requests changes anything outside of the document root, and none leaves a file system
with a loose node or an impossible name. -/
theorem davRequests_contained (proc : Process) (hcwd : ∀ n ∈ proc.cwd, ProperName n) (root : List Byte)
    (fs₀ fs : FileSys) (rs : List DavRequest) (hsound : fs₀.Sound ProperName)
    (hroot : proc.mgStat fs₀ root = some .dir)
    (hrs : ∀ r ∈ rs, r.proc.cwd = proc.cwd ∧ deref r.uri = SLASH)
    (hrun : System.run (davStep root) fs₀ rs = some fs) :
    fs.Sound ProperName ∧ ∀ q, ¬ (proc.fileName root).target <+: q → fs.node q = fs₀.node q := by
  obtain ⟨hne, hbefore⟩ : root ≠ [] ∧ ∀ ds, ds <+: (proc.fileName root).comps → ds ≠ (proc.fileName root).comps →
      fs₀.node (ds.foldl (fun p c => c.follow p) []) = some .dir := by
    unfold Process.mgStat Process.stat at hroot
    by_cases hnil : root = []
    · simp [hnil] at hroot
    refine ⟨hnil, ?_⟩
    rw [if_neg hnil] at hroot
    cases hwalk : fs₀.walk (proc.fileName root) with
    | ok p => exact (walkFrom_target fs₀ _ [] p hwalk).2
    | error e =>
      cases hdenied : proc.statDenied root <;> simp [hdenied, Tree.find, hwalk] at hroot
  have hkeep : ∀ fs r fs', Contained (proc.fileName root).target fs₀ fs →
      r.proc.cwd = proc.cwd ∧ deref r.uri = SLASH → davStep root fs r = some fs' →
        Contained (proc.fileName root).target fs₀ fs' := by
    rintro fs r fs' hfs ⟨hsame, huri⟩ hstep
    have hname : r.proc.fileName = proc.fileName := by
      funext path
      rw [Process.fileName, hsame, Process.fileName]
    have hcwd' : ∀ n ∈ r.proc.cwd, ProperName n := hsame ▸ hcwd
    obtain rfl := Option.some.inj hstep
    refine hfs.trans ?_
    unfold handlePutDelete
    dsimp only
    by_cases hfits : (root ++ removeDotSegments r.uri).length < UTF8_PATH_MAX - 1
    swap
    · rw [mgSnprintf, if_neg hfits]
      exact Contained.refl _ hfs.sound
    rw [mgSnprintf_fits _ _ hfits]
    simp only [Bool.false_eq_true, if_false]
    have hbelow : BelowDir r.proc root (root ++ removeDotSegments r.uri) := belowDir_request r.proc hne huri
    have hpath := hbelow.target
    have hpathne : root ++ removeDotSegments r.uri ≠ [] := by simp [hne]
    rw [← hname]
    cases hmethod : r.method with
    | put =>
      refine putFile_contained r.conn hcwd' hfs.sound hpath (anchored_belowDir ?_ hbelow)
      intro ds hds hdsne
      rw [hname] at hds hdsne ⊢
      by_cases hpre : (proc.fileName root).target <+: ds.foldl (fun p c => c.follow p) []
      · exact Or.inl hpre
      · exact Or.inr (by rw [hfs.agrees _ hpre, hbefore ds hds hdsne])
    | delete => exact deleteFile_contained hfs.sound hpathne hpath
    | mkcol => exact davMkcol_contained r.lastModified r.conn hcwd' hfs.sound hpath
    | move => exact davMoveFile_contained r.conn false hne hcwd' hfs.sound hbelow
    | copy => exact davMoveFile_contained r.conn true hne hcwd' hfs.sound hbelow
  have halways := System.always_of_invariant (davStep root) (Contained (proc.fileName root).target fs₀)
    (fun _ r => r.proc.cwd = proc.cwd ∧ deref r.uri = SLASH) hkeep fs₀ rs (Contained.refl _ hsound)
    (System.along_of_forall (davStep root) _ fs₀ rs hrs)
  obtain ⟨hend, hagrees⟩ := halways.run _ _ fs₀ fs rs hrun
  exact ⟨hend, hagrees⟩

/-- A request of an overwriting client. -/
def filesRequest (method : DavMethod) (uri : String) : DavRequest :=
  ⟨method, overwriteRequest, ascii uri, freeProcess, plainReader, fun _ => 1⟩

theorem davRequests_contained_dots : ∃ fs,
    System.run (davStep (ascii "/r")) oneFile [filesRequest .mkcol "/../b", filesRequest .delete "/a"] = some fs ∧
      fs.Sound ProperName ∧ fs.node [ascii "b"] = none := by
  refine ⟨_, rfl, ?_⟩
  obtain ⟨hsound, hagrees⟩ := davRequests_contained freeProcess (by simp [freeProcess]) (ascii "/r") oneFile _
    [filesRequest .mkcol "/../b", filesRequest .delete "/a"] oneFile_sound (by decide +kernel)
    (by
      intro r hr
      rcases List.mem_cons.mp hr with rfl | hr
      · exact ⟨rfl, by decide⟩
      · obtain rfl := List.mem_singleton.mp hr
        exact ⟨rfl, by decide⟩) rfl
  refine ⟨hsound, (hagrees [ascii "b"] ?_).trans (by decide)⟩
  have htarget : (freeProcess.fileName (ascii "/r")).target = [ascii "r"] := by decide +kernel
  rw [htarget]
  decide

end CivetWeb
