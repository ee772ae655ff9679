import CivetWeb.Dav.PutFile
import CivetWeb.Http.SafePath
import CivetWeb.Lib.ClosedTree

namespace CivetWeb

open FileTree Segments

/-! ### Removing a directory -/

/-- What `opendir` denies, and the order in which `readdir` gives the entries of a directory. -/
structure DirReader where
  denied : List Byte → Option Errno
  entries : FileSys → List (List Byte) → List (List Byte)
  perm : ∀ fs p, (entries fs p).Perm ([DOT] :: [DOT, DOT] :: fs.children p)

/-- `opendir` and the entries that `readdir` then gives. -/
def Process.opendir (proc : Process) (reader : DirReader) (fs : FileSys) (path : List Byte) :
    Option (List (List Byte)) :=
  if path = [] then none
  else
    match reader.denied path with
    | some _ => none
    | none =>
      match fs.find (proc.fileName path) with
      | .ok (p, .dir) => some (reader.entries fs p)
      | _ => none

/-- `rmdir`. -/
def Process.rmdir (proc : Process) (fs : FileSys) (path : List Byte) : Except Errno FileSys :=
  if path = [] then .error .ENOENT
  else
    match proc.removeDenied path with
    | some e => .error e
    | none => fs.rmdir (proc.fileName path)

/-- The body of the loop in `remove_directory`, for one entry. -/
def removeEntry (removeDir : FileSys → List Byte → Bool × FileSys) (proc : Process) (dir : List Byte)
    (state : Bool × FileSys) (name : List Byte) : Bool × FileSys :=
  let (ok, fs) := state
  if name = [DOT] ∨ name = [DOT, DOT] then (ok, fs)
  else
    let (path, truncated) := mgSnprintf UTF8_PATH_MAX (dir ++ SLASH :: name)
    if truncated then (false, fs)
    else
      let stat := proc.mgStat fs path
      let ok := ok && stat.isSome
      match stat with
      | some .dir =>
        let (rc, fs) := removeDir fs path
        (ok && rc, fs)
      | _ =>
        -- `remove` gives 0 for a file that it has removed
        match proc.remove fs path with
        | .ok fs => (false, fs)
        | .error _ => (ok, fs)

def removeDirectoryLoop (proc : Process) (reader : DirReader) : Nat → FileSys → List Byte → Bool × FileSys
  | 0, fs, _ => (false, fs)
  | n + 1, fs, dir =>
    match proc.opendir reader fs dir with
    | none => (false, fs)
    | some names =>
      let (ok, fs) := names.foldl (removeEntry (removeDirectoryLoop proc reader n) proc dir) (true, fs)
      match proc.rmdir fs dir with
      | .ok fs => (ok, fs)
      | .error _ => (ok, fs)

/-- `remove_directory`: every level makes the path longer, up to the size of its buffer. -/
def removeDirectory (proc : Process) (reader : DirReader) (fs : FileSys) (dir : List Byte) : Bool × FileSys :=
  removeDirectoryLoop proc reader (UTF8_PATH_MAX + 1) fs dir

def deleteFile (proc : Process) (reader : DirReader) (fs : FileSys) (path : List Byte) : DavReply × FileSys :=
  match proc.mgStat fs path with
  | none => (⟨404, ascii "Error: Cannot delete file\nFile " ++ path ++ ascii " not found"⟩, fs)
  | some .dir =>
    let (ok, fs) := removeDirectory proc reader fs path
    if ok then (⟨204, []⟩, fs) else (⟨500, ascii "Error: Could not delete " ++ path⟩, fs)
  | some (.file _) =>
    if !proc.writable path then
      (⟨403, ascii "Error: Delete not possible\nDeleting " ++ path ++ ascii " is not allowed"⟩, fs)
    else
      match proc.remove fs path with
      | .ok fs => (⟨204, []⟩, fs)
      | .error _ => (⟨423, ascii "Error: Cannot delete file\nremove(" ++ path⟩, fs)

theorem Process.remove_denied (proc : Process) (fs : FileSys) {path : List Byte} {e : Errno} (hpath : path ≠ [])
    (h : proc.removeDenied path = some e) : proc.remove fs path = .error e := by
  rw [Process.remove, if_neg hpath, h]

theorem Process.remove_allowed (proc : Process) (fs : FileSys) {path : List Byte} (hpath : path ≠ [])
    (h : proc.removeDenied path = none) : proc.remove fs path = fs.remove (proc.fileName path) := by
  rw [Process.remove, if_neg hpath, h]

/-! ### Names of entries -/

/-- A name that an entry of a directory can have. -/
structure ProperName (c : List Byte) : Prop where
  ne_nil : c ≠ []
  no_slash : SLASH ∉ c
  not_here : c ≠ [DOT]
  not_up : c ≠ [DOT, DOT]

theorem pathComp_proper {c : List Byte} (h : ProperName c) : pathComp c = .name c := by
  rw [pathComp, if_neg h.not_here, if_neg h.not_up]

/-- All names in a path are proper. -/
theorem fileName_proper (proc : Process) (hcwd : ∀ n ∈ proc.cwd, ProperName n) (path n : List Byte)
    (hn : .name n ∈ (proc.fileName path).comps) : ProperName n := by
  rw [Process.fileName, List.mem_append] at hn
  rcases hn with hn | hn
  · split_ifs at hn
    · cases hn
    · obtain ⟨m, hm, heq⟩ := List.mem_map.mp hn
      obtain rfl := Comp.name.inj heq
      exact hcwd m hm
  · obtain ⟨c, hc, heq⟩ := List.mem_map.mp hn
    obtain ⟨hsplit, hnil⟩ := List.mem_filter.mp hc
    unfold pathComp at heq
    split_ifs at heq with hhere hup
    obtain rfl := Comp.name.inj heq
    exact ⟨by simpa using hnil, not_mem_splitOn path c hsplit, hhere, hup⟩

section Entry

variable (proc : Process) {dir name : List Byte} (hdir : dir ≠ []) (hname : ProperName name)

include hname

theorem fileName_entry_slash : (proc.fileName (dir ++ SLASH :: name)).slash = false := by
  have hlast : (dir ++ SLASH :: name).getLast? = name.getLast? := by
    rw [List.getLast?_append, List.getLast?_cons_of_ne_nil hname.ne_nil]
    cases h : name.getLast? with
    | none => exact absurd (List.getLast?_eq_none_iff.mp h) hname.ne_nil
    | some c => rfl
  simp only [Process.fileName]
  rw [hlast, beq_eq_false_iff_ne]
  intro h
  exact hname.no_slash (List.mem_of_getLast? h)

include hdir

theorem fileName_entry :
    (proc.fileName (dir ++ SLASH :: name)).comps = (proc.fileName dir).comps ++ [.name name] := by
  have hfirst : deref (dir ++ SLASH :: name) = deref dir := by
    cases dir with
    | nil => exact absurd rfl hdir
    | cons c dir => rfl
  have hsingle : name.splitOn SLASH = [name] := splitOn_single hname.no_slash
  simp only [Process.fileName]
  rw [hfirst, List.splitOn_append_cons_self, List.filter_append, hsingle, List.map_append]
  simp [hname.ne_nil, pathComp_proper hname]

theorem fileName_entry_plain : (proc.fileName (dir ++ SLASH :: name)).plain = true := by
  rw [FileName.plain, fileName_entry proc hdir hname]
  simp

end Entry

/-! ### What stays -/

/-- Why the node with the names `s` below the directory `dir`, at `p`, is not removed: it cannot be, its
path does not fit the buffer, it is a directory that cannot be read, or it is below one that cannot be
read or that is not seen to be a directory. -/
def Held (proc : Process) (reader : DirReader) (fs : FileSys) (dir : List Byte) (p s : List (List Byte)) : Prop :=
  proc.removeDenied (dir ++ rooted s) ≠ none ∨
    (proc.fileName (dir ++ rooted s)).plain = false ∨
    (s ≠ [] ∧ UTF8_PATH_MAX ≤ (dir ++ rooted s).length) ∨
    (fs.node (p ++ s) = some .dir ∧ (s = [] ∨ proc.statDenied (dir ++ rooted s) = none) ∧
      reader.denied (dir ++ rooted s) ≠ none) ∨
    ∃ r, r <+: s ∧ r ≠ s ∧
      (reader.denied (dir ++ rooted r) ≠ none ∨ r ≠ [] ∧ proc.statDenied (dir ++ rooted r) ≠ none)

/-- A node stays if it or a node below it is held. -/
def Remains (proc : Process) (reader : DirReader) (fs : FileSys) (dir : List Byte) (p s : List (List Byte)) : Prop :=
  ∃ r, s <+: r ∧ fs.node (p ++ r) ≠ none ∧ Held proc reader fs dir p r

/-- The node `s` lets `remove_directory` report a success: a directory that can be read, or a file that
cannot be removed. -/
def Passes (proc : Process) (reader : DirReader) (fs : FileSys) (dir : List Byte) (p s : List (List Byte)) : Prop :=
  (dir ++ rooted s).length < UTF8_PATH_MAX ∧ proc.statDenied (dir ++ rooted s) = none ∧
    (fs.node (p ++ s) = some .dir → reader.denied (dir ++ rooted s) = none) ∧
    (fs.node (p ++ s) ≠ some .dir → proc.removeDenied (dir ++ rooted s) ≠ none)

theorem append_rooted (dir name : List Byte) (s : List (List Byte)) :
    dir ++ rooted (name :: s) = (dir ++ SLASH :: name) ++ rooted s := by
  rw [rooted_cons]
  simp

section Remains

variable {proc : Process} {reader : DirReader} {fs fs' : FileSys} {dir name : List Byte} {p : List (List Byte)}

/-- Whether a node stays depends on the nodes below it. -/
theorem remains_congr (s : List (List Byte)) (h : ∀ r, s <+: r → fs'.node (p ++ r) = fs.node (p ++ r)) :
    Remains proc reader fs' dir p s ↔ Remains proc reader fs dir p s := by
  unfold Remains
  refine exists_congr fun r => and_congr_right fun hr => ?_
  unfold Held
  rw [h r hr]

theorem passes_congr (s : List (List Byte)) (h : fs'.node (p ++ s) = fs.node (p ++ s)) :
    Passes proc reader fs' dir p s ↔ Passes proc reader fs dir p s := by
  unfold Passes
  rw [h]

theorem passes_cons (s : List (List Byte)) :
    Passes proc reader fs dir p (name :: s) ↔
      Passes proc reader fs (dir ++ SLASH :: name) (p ++ [name]) s := by
  unfold Passes
  rw [append_rooted, List.append_assoc p [name] s, List.singleton_append]

/-- What is held below a directory that is read, and whose entry `name` is a directory. -/
theorem held_cons (s : List (List Byte)) (hread : reader.denied dir = none)
    (hlen : (dir ++ SLASH :: name).length < UTF8_PATH_MAX) (hstat : proc.statDenied (dir ++ SLASH :: name) = none) :
    Held proc reader fs dir p (name :: s) ↔ Held proc reader fs (dir ++ SLASH :: name) (p ++ [name]) s := by
  unfold Held
  rw [append_rooted, List.append_assoc p [name] s, List.singleton_append]
  refine or_congr Iff.rfl (or_congr Iff.rfl (or_congr ?_ (or_congr ?_ ?_)))
  · by_cases hs : s = []
    · subst hs
      simp only [rooted_nil, List.append_nil]
      simp
      simpa using hlen
    · simp [hs]
  · by_cases hs : s = []
    · subst hs
      simp [hstat]
    · simp [hs]
  · constructor
    · rintro ⟨r, hr, hne, hdenied⟩
      cases r with
      | nil =>
        rw [rooted_nil, List.append_nil] at hdenied
        rcases hdenied with hdenied | hdenied
        · exact absurd hread hdenied
        · exact absurd rfl hdenied.1
      | cons m r =>
        obtain ⟨rfl, hrs⟩ := List.cons_prefix_cons.mp hr
        refine ⟨r, hrs, by simpa using hne, ?_⟩
        rw [append_rooted] at hdenied
        refine hdenied.imp id fun h => ⟨?_, h.2⟩
        rintro rfl
        rw [rooted_nil, List.append_nil] at h
        exact h.2 hstat
    · rintro ⟨r, hr, hne, hdenied⟩
      refine ⟨name :: r, List.cons_prefix_cons.mpr ⟨rfl, hr⟩, by simpa using hne, ?_⟩
      rw [append_rooted]
      exact hdenied.imp id fun h => ⟨by simp, h.2⟩

theorem remains_cons (s : List (List Byte)) (hread : reader.denied dir = none)
    (hlen : (dir ++ SLASH :: name).length < UTF8_PATH_MAX) (hstat : proc.statDenied (dir ++ SLASH :: name) = none) :
    Remains proc reader fs dir p (name :: s) ↔
      Remains proc reader fs (dir ++ SLASH :: name) (p ++ [name]) s := by
  unfold Remains
  constructor
  · rintro ⟨r, ⟨u, rfl⟩, hnode, hheld⟩
    refine ⟨s ++ u, List.prefix_append s u, by simpa using hnode, ?_⟩
    exact (held_cons (s ++ u) hread hlen hstat).mp hheld
  · rintro ⟨r, hr, hnode, hheld⟩
    refine ⟨name :: r, List.cons_prefix_cons.mpr ⟨rfl, hr⟩, by simpa using hnode, ?_⟩
    exact (held_cons r hread hlen hstat).mpr hheld

/-- What a removal of the node `top` below the directory `dir` leaves, where `fs` was before. -/
structure Cleaned (proc : Process) (reader : DirReader) (fs : FileSys) (dir : List Byte) (p top : List (List Byte))
    (fs' : FileSys) : Prop where
  sound : fs'.Sound ProperName
  outside : ∀ q, ¬ p ++ top <+: q → fs'.node q = fs.node q
  kept : ∀ s, top <+: s → Remains proc reader fs dir p s → fs'.node (p ++ s) = fs.node (p ++ s)
  gone : ∀ s, top <+: s → ¬ Remains proc reader fs dir p s → fs'.node (p ++ s) = none

/-- Where nothing is removed, everything has to be held. -/
theorem cleaned_refl {top : List (List Byte)} (hsound : fs.Sound ProperName)
    (hheld : ∀ s, top <+: s → fs.node (p ++ s) ≠ none → Remains proc reader fs dir p s) :
    Cleaned proc reader fs dir p top fs := by
  refine ⟨hsound, fun q _ => rfl, fun s _ _ => rfl, ?_⟩
  intro s hs hgone
  by_contra hnode
  exact hgone (hheld s hs hnode)

theorem remains_of_held {s : List (List Byte)} (hnode : fs.node (p ++ s) ≠ none)
    (hheld : Held proc reader fs dir p s) : Remains proc reader fs dir p s :=
  ⟨s, List.prefix_rfl, hnode, hheld⟩

/-- An entry that cannot be removed, or a directory with something in it that is not seen to be one. -/
theorem blocked_cleaned (hsound : fs.Sound ProperName)
    (hblocked : proc.removeDenied (dir ++ SLASH :: name) ≠ none ∨
      ∃ u, u ≠ [] ∧ fs.node (p ++ name :: u) ≠ none)
    (hseen : proc.statDenied (dir ++ SLASH :: name) ≠ none ∨ ∀ u, u ≠ [] → fs.node (p ++ name :: u) = none) :
    Cleaned proc reader fs dir p [name] fs := by
  have hbelow : ∀ u, u ≠ [] → fs.node (p ++ name :: u) ≠ none →
      Held proc reader fs dir p (name :: u) := by
    intro u hu hnode
    have hstat := hseen.resolve_right fun hnone => hnode (hnone u hu)
    refine Or.inr (Or.inr (Or.inr (Or.inr ⟨[name], ?_, by simpa using hu.symm, Or.inr ⟨by simp, ?_⟩⟩)))
    · exact List.cons_prefix_cons.mpr ⟨rfl, List.nil_prefix⟩
    · simpa using hstat
  refine cleaned_refl hsound ?_
  rintro s ⟨u, rfl⟩ hnode
  by_cases hu : u = []
  · subst hu
    rcases hblocked with hdenied | ⟨u, hu, hnode'⟩
    · exact remains_of_held hnode (Or.inl (by simpa using hdenied))
    · refine ⟨name :: u, ?_, hnode', hbelow u hu hnode'⟩
      exact List.cons_prefix_cons.mpr ⟨rfl, List.nil_prefix⟩
  · exact remains_of_held hnode (hbelow u hu hnode)

/-- An entry that is removed, with nothing in it. -/
theorem removed_cleaned (hsound : fs.Sound ProperName) (hdir : dir ≠ []) (hname : ProperName name)
    (hread : reader.denied dir = none) (hdenied : proc.removeDenied (dir ++ SLASH :: name) = none)
    (hlen : (dir ++ SLASH :: name).length < UTF8_PATH_MAX)
    (hseen : proc.statDenied (dir ++ SLASH :: name) = none → fs.node (p ++ [name]) ≠ some .dir)
    (hempty : ∀ u, u ≠ [] → fs.node (p ++ name :: u) = none) :
    Cleaned proc reader fs dir p [name] (fs.set (p ++ [name]) none) := by
  have hunset : ∀ u, (fs.set (p ++ [name]) none).node (p ++ name :: u) = none := by
    intro u
    by_cases hu : u = []
    · simp [Tree.set, hu]
    · simp [Tree.set, hu, hempty u hu]
  refine ⟨hsound.unset _ (by simp) (fun u hu => by simpa using hempty u hu), ?_, ?_, ?_⟩
  · intro q hq
    refine if_neg ?_
    rintro rfl
    exact hq List.prefix_rfl
  · rintro s ⟨u, rfl⟩ ⟨r, hr, hnode, hheld⟩
    obtain ⟨w, rfl⟩ : ∃ w, r = name :: w := by
      obtain ⟨w, hw⟩ := hr
      exact ⟨u ++ w, by simp [← hw]⟩
    have hw : w = [] := by
      by_contra hw
      exact hnode (hempty w hw)
    subst hw
    exfalso
    have hpath : dir ++ rooted [name] = dir ++ SLASH :: name := by simp
    unfold Held at hheld
    rw [hpath] at hheld
    rcases hheld with h | h | h | h | ⟨t, ht, hne, h⟩
    · exact h hdenied
    · rw [fileName_entry_plain proc hdir hname] at h
      cases h
    · exact absurd h.2 (by omega)
    · exact hseen (h.2.1.resolve_left (by simp)) h.1
    · rcases List.prefix_cons_iff.mp ht with rfl | ⟨t, rfl, htail⟩
      · simp [hread] at h
      · obtain rfl := List.prefix_nil.mp htail
        exact hne rfl
  · rintro s ⟨u, rfl⟩ -
    exact hunset u

/-- What is not seen to be a directory is removed if that is allowed and nothing is in it. -/
theorem remove_cleaned (hsound : fs.Sound ProperName) (hdir : dir ≠ []) (hname : ProperName name)
    (hleads : fs.Leads (proc.fileName dir) p) (hp : fs.node p = some .dir) (hread : reader.denied dir = none)
    (hnode : fs.node (p ++ [name]) ≠ none) (hlen : (dir ++ SLASH :: name).length < UTF8_PATH_MAX)
    (hseen : proc.statDenied (dir ++ SLASH :: name) = none → fs.node (p ++ [name]) ≠ some .dir) :
    (∃ e, proc.remove fs (dir ++ SLASH :: name) = .error e ∧ Cleaned proc reader fs dir p [name] fs ∧
        (proc.statDenied (dir ++ SLASH :: name) = none → proc.removeDenied (dir ++ SLASH :: name) ≠ none)) ∨
      ∃ fs', proc.remove fs (dir ++ SLASH :: name) = .ok fs' ∧ Cleaned proc reader fs dir p [name] fs' ∧
        proc.removeDenied (dir ++ SLASH :: name) = none := by
  have hentry : fs.Leads (proc.fileName (dir ++ SLASH :: name)) (p ++ [name]) :=
    hleads.child hp (fileName_entry proc hdir hname)
  have hwalk : fs.walk (proc.fileName (dir ++ SLASH :: name)) = .ok (p ++ [name]) := hentry.walk fun q _ => rfl
  have hslash : (proc.fileName (dir ++ SLASH :: name)).slash = false := fileName_entry_slash proc hname
  have hplain := fileName_entry_plain proc hdir hname
  have hfile (hnotdir : fs.node (p ++ [name]) ≠ some .dir) : ∀ u, u ≠ [] → fs.node (p ++ name :: u) = none := by
    intro u hu
    simpa using hsound.nothing_below (p ++ [name]) u hu hnotdir
  have hseen' : proc.statDenied (dir ++ SLASH :: name) ≠ none ∨
      ∀ u, u ≠ [] → fs.node (p ++ name :: u) = none := by
    by_cases hstat : proc.statDenied (dir ++ SLASH :: name) = none
    · exact Or.inr (hfile (hseen hstat))
    · exact Or.inl hstat
  cases hdenied : proc.removeDenied (dir ++ SLASH :: name) with
  | some e =>
    refine Or.inl ⟨e, proc.remove_denied fs (by simp) hdenied, ?_, fun _ => by simp⟩
    exact blocked_cleaned hsound (Or.inl (by simp [hdenied])) hseen'
  | none =>
    have hallowed := proc.remove_allowed fs (by simp) hdenied
    cases hn : fs.node (p ++ [name]) with
    | none => exact absurd hn hnode
    | some n =>
      cases n with
      | file content =>
        refine Or.inr ⟨_, hallowed.trans (remove_file hwalk hslash hplain hn), ?_, rfl⟩
        exact removed_cleaned hsound hdir hname hread hdenied hlen hseen (hfile (by simp [hn]))
      | dir =>
        rw [hallowed, remove_dir hwalk hplain hn]
        by_cases hempty : fs.isEmpty (p ++ [name]) = true
        · rw [if_pos hempty]
          refine Or.inr ⟨_, rfl, ?_, rfl⟩
          refine removed_cleaned hsound hdir hname hread hdenied hlen hseen ?_
          intro u hu
          simpa using (isEmpty_iff fs (p ++ [name])).mp hempty (p ++ [name] ++ u) (List.prefix_append _ u)
            (by simpa using hu)
        · rw [if_neg hempty]
          refine Or.inl ⟨_, rfl, ?_, fun hstat => absurd hn (hseen hstat)⟩
          refine blocked_cleaned hsound (Or.inr ?_) hseen'
          rw [FileTree.isEmpty_iff] at hempty
          push Not at hempty
          obtain ⟨q, ⟨u, rfl⟩, hne, hq⟩ := hempty
          exact ⟨u, by simpa using hne, by simpa using hq⟩

end Remains

/-! ### The loop over the entries -/

/-- What `remove_directory` does with the directory `dir` at `p`. -/
structure DirCleaned (proc : Process) (reader : DirReader) (fs : FileSys) (dir : List Byte) (p : List (List Byte))
    (out : Bool × FileSys) : Prop where
  cleaned : Cleaned proc reader fs dir p [] out.2
  ok : out.1 = true ↔ reader.denied dir = none ∧
    ∀ s, s ≠ [] → fs.node (p ++ s) ≠ none → Passes proc reader fs dir p s

section Loop

variable {proc : Process} {reader : DirReader} {fs : FileSys} {dir name : List Byte} {p : List (List Byte)}
variable (removeDir : FileSys → List Byte → Bool × FileSys)

theorem removeEntry_dots (state : Bool × FileSys) (hname : name = [DOT] ∨ name = [DOT, DOT]) :
    removeEntry removeDir proc dir state name = state := by
  rw [removeEntry, if_pos hname]

/-- One turn of the loop, where removing a directory does what it has to. -/
theorem removeEntry_spec (ok : Bool) (hsound : fs.Sound ProperName) (hdir : dir ≠ [])
    (hleads : fs.Leads (proc.fileName dir) p) (hp : fs.node p = some .dir) (hread : reader.denied dir = none)
    (hnode : fs.node (p ++ [name]) ≠ none)
    (hrec : ∀ path q, dir.length < path.length → path.length < UTF8_PATH_MAX → fs.Leads (proc.fileName path) q →
      fs.node q = some .dir → DirCleaned proc reader fs path q (removeDir fs path)) :
    Cleaned proc reader fs dir p [name] (removeEntry removeDir proc dir (ok, fs) name).2 ∧
      ((removeEntry removeDir proc dir (ok, fs) name).1 = true ↔
        ok = true ∧ ∀ u, fs.node (p ++ name :: u) ≠ none → Passes proc reader fs dir p (name :: u)) := by
  have hname : ProperName name := hsound.proper _ hnode name (by simp)
  have hpath : dir ++ rooted [name] = dir ++ SLASH :: name := by simp
  simp only [removeEntry]
  rw [if_neg (not_or.mpr ⟨hname.not_here, hname.not_up⟩)]
  by_cases hlen : (dir ++ SLASH :: name).length < UTF8_PATH_MAX
  swap
  · have hcut : (mgSnprintf UTF8_PATH_MAX (dir ++ SLASH :: name)).2 = true := by
      rw [mgSnprintf, if_neg hlen]
    simp only [hcut, if_true]
    refine ⟨cleaned_refl hsound ?_, ?_⟩
    · rintro s ⟨u, rfl⟩ hs
      refine remains_of_held hs (Or.inr (Or.inr (Or.inl ⟨by simp, ?_⟩)))
      rw [List.singleton_append, append_rooted, List.length_append]
      omega
    · refine iff_of_false (by simp) fun h => ?_
      have hpass := (h.2 [] hnode).1
      rw [hpath] at hpass
      exact hlen hpass
  rw [mgSnprintf_fits _ _ hlen]
  simp only [Bool.false_eq_true, if_false]
  have hentry : fs.Leads (proc.fileName (dir ++ SLASH :: name)) (p ++ [name]) :=
    hleads.child hp (fileName_entry proc hdir hname)
  have hwalk : fs.walk (proc.fileName (dir ++ SLASH :: name)) = .ok (p ++ [name]) := hentry.walk fun q _ => rfl
  have hslash : (proc.fileName (dir ++ SLASH :: name)).slash = false := fileName_entry_slash proc hname
  cases hstat : proc.statDenied (dir ++ SLASH :: name) with
  | some e =>
    have hnone : proc.mgStat fs (dir ++ SLASH :: name) = none := by
      simp [Process.mgStat, Process.stat, hstat]
    simp only [hnone]
    have hbad : ¬ ∀ u, fs.node (p ++ name :: u) ≠ none → Passes proc reader fs dir p (name :: u) := by
      intro h
      have hpass := (h [] hnode).2.1
      rw [hpath, hstat] at hpass
      cases hpass
    rcases remove_cleaned hsound hdir hname hleads hp hread hnode hlen (by simp [hstat]) with
      ⟨e', hremove, hclean, -⟩ | ⟨fs', hremove, hclean, -⟩
    · rw [hremove]
      exact ⟨hclean, by simp [hbad]⟩
    · rw [hremove]
      exact ⟨hclean, by simp [hbad]⟩
  | none =>
    cases hn : fs.node (p ++ [name]) with
    | none => exact absurd hn hnode
    | some n =>
      cases n with
      | file content =>
        have hfile : proc.mgStat fs (dir ++ SLASH :: name) = some (.file content) := by
          simp [Process.mgStat, Process.stat, hstat, find_file hwalk hslash hn]
        simp only [hfile, Option.isSome_some, Bool.and_true]
        have hbelow : ∀ u, u ≠ [] → fs.node (p ++ name :: u) = none := by
          intro u hu
          simpa using hsound.nothing_below (p ++ [name]) u hu (by simp [hn])
        have hpass : (∀ u, fs.node (p ++ name :: u) ≠ none → Passes proc reader fs dir p (name :: u)) ↔
            proc.removeDenied (dir ++ SLASH :: name) ≠ none := by
          constructor
          · intro h
            have hlast := (h [] hnode).2.2.2 (by simp [hn])
            rwa [hpath] at hlast
          · intro hdenied u hu
            have hnil : u = [] := by
              by_contra hne
              exact hu (hbelow u hne)
            subst hnil
            unfold Passes
            rw [hpath]
            exact ⟨hlen, hstat, fun h => absurd (hn.symm.trans h) (by simp), fun _ => hdenied⟩
        rw [hpass]
        rcases remove_cleaned hsound hdir hname hleads hp hread hnode hlen (fun _ => by simp [hn]) with
          ⟨e, hremove, hclean, hdenied⟩ | ⟨fs', hremove, hclean, hdenied⟩
        · rw [hremove]
          exact ⟨hclean, by simp [hdenied hstat]⟩
        · rw [hremove]
          exact ⟨hclean, by simp [hdenied]⟩
      | dir =>
        have hfile : proc.mgStat fs (dir ++ SLASH :: name) = some .dir := by
          simp [Process.mgStat, Process.stat, hstat, find_dir hwalk hn]
        simp only [hfile, Option.isSome_some, Bool.and_true, Bool.and_eq_true]
        obtain ⟨⟨hsound', houtside, hkept, hgone⟩, hok⟩ :=
          hrec (dir ++ SLASH :: name) (p ++ [name]) (by simp) hlen hentry hn
        refine ⟨⟨hsound', by simpa using houtside, ?_, ?_⟩, and_congr_right fun _ => hok.trans ?_⟩
        · rintro s ⟨u, rfl⟩ hs
          simpa using hkept u List.nil_prefix ((remains_cons u hread hlen hstat).mp hs)
        · rintro s ⟨u, rfl⟩ hs
          simpa using hgone u List.nil_prefix fun h => hs ((remains_cons u hread hlen hstat).mpr h)
        · constructor
          · rintro ⟨hopen, hpass⟩ u hu
            by_cases hnil : u = []
            · subst hnil
              unfold Passes
              rw [hpath]
              exact ⟨hlen, hstat, fun _ => hopen, fun h => absurd hn h⟩
            · exact (passes_cons u).mpr (hpass u hnil (by simpa using hu))
          · intro hpass
            refine ⟨?_, fun u _ hu => (passes_cons u).mp (hpass u (by simpa using hu))⟩
            have hfirst := (hpass [] hnode).2.2.1 hn
            rwa [hpath] at hfirst

theorem append_prefix_iff (p : List (List Byte)) (m : List Byte) (q : List (List Byte)) :
    p ++ [m] <+: q ↔ ∃ u, q = p ++ m :: u := by
  constructor
  · rintro ⟨u, rfl⟩
    exact ⟨u, by simp⟩
  · rintro ⟨u, rfl⟩
    exact ⟨u, by simp⟩

/-- What the loop leaves of the entries it has been given. -/
structure LoopCleaned (proc : Process) (reader : DirReader) (fs : FileSys) (dir : List Byte) (p : List (List Byte))
    (names : List (List Byte)) (ok : Bool) (out : Bool × FileSys) : Prop where
  sound : out.2.Sound ProperName
  outside : ∀ q, (∀ name ∈ names, ¬ p ++ [name] <+: q) → out.2.node q = fs.node q
  kept : ∀ name ∈ names, ∀ u, Remains proc reader fs dir p (name :: u) →
    out.2.node (p ++ name :: u) = fs.node (p ++ name :: u)
  gone : ∀ name ∈ names, ∀ u, ¬ Remains proc reader fs dir p (name :: u) → out.2.node (p ++ name :: u) = none
  ok : out.1 = true ↔ ok = true ∧
    ∀ name ∈ names, ∀ u, fs.node (p ++ name :: u) ≠ none → Passes proc reader fs dir p (name :: u)

theorem removeEntries_spec (names : List (List Byte)) (ok : Bool) (hnodup : names.Nodup)
    (hsound : fs.Sound ProperName) (hdir : dir ≠ []) (hleads : fs.Leads (proc.fileName dir) p)
    (hp : fs.node p = some .dir) (hread : reader.denied dir = none)
    (hnames : ∀ name ∈ names, (name = [DOT] ∨ name = [DOT, DOT]) ∨ fs.node (p ++ [name]) ≠ none)
    (hrec : ∀ fs path q, fs.Sound ProperName → dir.length < path.length → path.length < UTF8_PATH_MAX →
      fs.Leads (proc.fileName path) q → fs.node q = some .dir →
        DirCleaned proc reader fs path q (removeDir fs path)) :
    LoopCleaned proc reader fs dir p names ok (names.foldl (removeEntry removeDir proc dir) (ok, fs)) := by
  induction names generalizing fs ok with
  | nil => exact ⟨hsound, fun q _ => rfl, by simp, by simp, by simp⟩
  | cons m names ih =>
    have hturn : Cleaned proc reader fs dir p [m] (removeEntry removeDir proc dir (ok, fs) m).2 ∧
        ((removeEntry removeDir proc dir (ok, fs) m).1 = true ↔
          ok = true ∧ ∀ u, fs.node (p ++ m :: u) ≠ none → Passes proc reader fs dir p (m :: u)) := by
      rcases hnames m List.mem_cons_self with hdots | hnode
      · rw [removeEntry_dots removeDir (ok, fs) hdots]
        have hnone : ∀ u, fs.node (p ++ m :: u) = none := by
          intro u
          by_contra hnode
          have hproper := hsound.proper _ hnode m (by simp)
          exact hdots.elim hproper.not_here hproper.not_up
        refine ⟨cleaned_refl hsound ?_, by simp [hnone]⟩
        rintro s ⟨u, rfl⟩ hs
        exact absurd (hnone u) hs
      · exact removeEntry_spec removeDir ok hsound hdir hleads hp hread hnode fun path q => hrec fs path q hsound
    rw [List.foldl_cons]
    generalize removeEntry removeDir proc dir (ok, fs) m = state at hturn ⊢
    obtain ⟨ok', fs'⟩ := state
    obtain ⟨⟨hsound', houtside, hkept, hgone⟩, hok⟩ := hturn
    obtain ⟨hm, hnodup'⟩ := List.nodup_cons.mp hnodup
    have habove : ∀ q, ¬ (p <+: q ∧ p ≠ q) → fs'.node q = fs.node q := by
      intro q hq
      refine houtside q fun hpre => hq ?_
      obtain ⟨u, rfl⟩ := (append_prefix_iff p m q).mp hpre
      exact ⟨List.prefix_append p _, by simp⟩
    have hother : ∀ name ∈ names, ∀ u, fs'.node (p ++ name :: u) = fs.node (p ++ name :: u) := by
      intro name hname u
      refine houtside _ fun hpre => hm ?_
      obtain ⟨w, hw⟩ := (append_prefix_iff p m _).mp hpre
      have hsame : name = m := by simpa using congrArg List.head? (List.append_cancel_left hw)
      exact hsame ▸ hname
    have hremains : ∀ name ∈ names, ∀ u, Remains proc reader fs' dir p (name :: u) ↔
        Remains proc reader fs dir p (name :: u) := by
      intro name hname u
      refine remains_congr (name :: u) ?_
      rintro r ⟨w, rfl⟩
      exact hother name hname (u ++ w)
    have hrest := ih ok' hnodup' hsound' (hleads.of_same habove) (by rw [habove p (by simp), hp])
      (fun name hname => (hnames name (List.mem_cons_of_mem m hname)).imp id fun h => by
        rw [hother name hname []]
        exact h)
    have hlast : ∀ u, (names.foldl (removeEntry removeDir proc dir) (ok', fs')).2.node (p ++ m :: u) =
        fs'.node (p ++ m :: u) := by
      intro u
      refine hrest.outside _ fun name hname hpre => hm ?_
      obtain ⟨w, hw⟩ := (append_prefix_iff p name _).mp hpre
      have hsame : m = name := by simpa using congrArg List.head? (List.append_cancel_left hw)
      exact hsame ▸ hname
    refine ⟨hrest.sound, ?_, ?_, ?_, ?_⟩
    · intro q hq
      rw [hrest.outside q fun name hname => hq name (List.mem_cons_of_mem m hname),
        houtside q (hq m List.mem_cons_self)]
    · intro name hname u hs
      rcases List.mem_cons.mp hname with rfl | hname
      · rw [hlast, hkept _ (by simp) hs]
      · rw [hrest.kept name hname u ((hremains name hname u).mpr hs), hother name hname u]
    · intro name hname u hs
      rcases List.mem_cons.mp hname with rfl | hname
      · rw [hlast, hgone _ (by simp) hs]
      · exact hrest.gone name hname u fun h => hs ((hremains name hname u).mp h)
    · have hpasses : ∀ name ∈ names, ∀ u, (fs'.node (p ++ name :: u) ≠ none →
          Passes proc reader fs' dir p (name :: u)) ↔
          (fs.node (p ++ name :: u) ≠ none → Passes proc reader fs dir p (name :: u)) := by
        intro name hname u
        rw [hother name hname u, passes_congr (name :: u) (hother name hname u)]
      rw [hrest.ok, hok, List.forall_mem_cons, and_assoc]
      refine and_congr_right fun _ => and_congr_right fun _ => forall₂_congr fun name hname => ?_
      exact forall_congr' (hpasses name hname)

end Loop

/-! ### The whole directory -/

theorem Remains.above {proc : Process} {reader : DirReader} {fs : FileSys} {dir : List Byte}
    {p s t : List (List Byte)} (h : Remains proc reader fs dir p s) (ht : t <+: s) :
    Remains proc reader fs dir p t := by
  obtain ⟨r, hr, hnode, hheld⟩ := h
  exact ⟨r, ht.trans hr, hnode, hheld⟩

theorem entries_nodup (reader : DirReader) (fs : FileSys) (p : List (List Byte)) (hsound : fs.Sound ProperName) :
    (reader.entries fs p).Nodup := by
  have hproper : ∀ name ∈ fs.children p, ProperName name := by
    intro name hname
    exact hsound.proper _ ((mem_children fs p name).mp hname) name (by simp)
  rw [(reader.perm fs p).nodup_iff, List.nodup_cons, List.nodup_cons]
  refine ⟨?_, fun h => (hproper _ h).not_up rfl, children_nodup fs p⟩
  intro h
  rcases List.mem_cons.mp h with h | h
  · cases h
  · exact (hproper _ h).not_here rfl

/-- The loop has gone through everything below the directory. -/
theorem LoopCleaned.below {proc : Process} {reader : DirReader} {fs : FileSys} {dir : List Byte}
    {p : List (List Byte)} {ok : Bool} {out : Bool × FileSys} (hsound : fs.Sound ProperName)
    (h : LoopCleaned proc reader fs dir p (reader.entries fs p) ok out) (s : List (List Byte)) (hs : s ≠ []) :
    (Remains proc reader fs dir p s → out.2.node (p ++ s) = fs.node (p ++ s)) ∧
      (¬ Remains proc reader fs dir p s → out.2.node (p ++ s) = none) := by
  obtain ⟨name, u, rfl⟩ := List.exists_cons_of_ne_nil hs
  by_cases hname : name ∈ reader.entries fs p
  · exact ⟨h.kept name hname u, h.gone name hname u⟩
  · have hnone : fs.node (p ++ [name]) = none := by
      by_contra hnode
      refine hname ((reader.perm fs p).mem_iff.mpr ?_)
      exact List.mem_cons_of_mem _ (List.mem_cons_of_mem _ ((mem_children fs p name).mpr hnode))
    have hbelow : fs.node (p ++ name :: u) = none := by
      by_cases hu : u = []
      · rw [hu, hnone]
      · simpa using hsound.nothing_below (p ++ [name]) u hu (by simp [hnone])
    have hsame : out.2.node (p ++ name :: u) = fs.node (p ++ name :: u) := by
      refine h.outside _ fun m hm hpre => hname ?_
      obtain ⟨w, hw⟩ := (append_prefix_iff p m _).mp hpre
      have heq : name = m := by simpa using congrArg List.head? (List.append_cancel_left hw)
      exact heq ▸ hm
    exact ⟨fun _ => hsame, fun _ => hsame.trans hbelow⟩

section Leave

variable {proc : Process} {reader : DirReader} {fs fs' : FileSys} {dir : List Byte} {p : List (List Byte)} {ok : Bool}

/-- The loop reports a success if every node below the directory lets it. -/
theorem LoopCleaned.ok_iff (hsound : fs.Sound ProperName)
    (h : LoopCleaned proc reader fs dir p (reader.entries fs p) true (ok, fs')) :
    ok = true ↔ ∀ s, s ≠ [] → fs.node (p ++ s) ≠ none → Passes proc reader fs dir p s := by
  refine h.ok.trans ?_
  constructor
  · rintro ⟨-, hpasses⟩ s hs hnode
    obtain ⟨name, u, rfl⟩ := List.exists_cons_of_ne_nil hs
    refine hpasses name ((reader.perm fs p).mem_iff.mpr ?_) u hnode
    refine List.mem_cons_of_mem _ (List.mem_cons_of_mem _ ((mem_children fs p name).mpr ?_))
    by_cases hu : u = []
    · rwa [hu] at hnode
    · have habove := hsound.above (p ++ [name]) u hu (by simpa using hnode)
      simp [habove]
  · exact fun hpasses => ⟨rfl, fun name _ u hnode => hpasses (name :: u) (by simp) hnode⟩

theorem LoopCleaned.above {names : List (List Byte)} (h : LoopCleaned proc reader fs dir p names true (ok, fs'))
    (q : List (List Byte)) (hq : ¬ (p <+: q ∧ p ≠ q)) : fs'.node q = fs.node q := by
  refine h.outside q fun name _ hpre => hq ?_
  obtain ⟨u, rfl⟩ := (append_prefix_iff p name q).mp hpre
  exact ⟨List.prefix_append p _, by simp⟩

/-- A directory that something is held in stays. -/
theorem stays_cleaned (hsound : fs.Sound ProperName)
    (h : LoopCleaned proc reader fs dir p (reader.entries fs p) true (ok, fs'))
    (hheld : Remains proc reader fs dir p []) : Cleaned proc reader fs dir p [] fs' := by
  have hbelow := h.below hsound
  refine ⟨h.sound, ?_, ?_, ?_⟩
  · intro q hq
    rw [List.append_nil] at hq
    exact h.above q fun hpq => hq hpq.1
  · intro s _ hs
    by_cases hnil : s = []
    · rw [hnil, List.append_nil, h.above p (by simp)]
    · exact (hbelow s hnil).1 hs
  · intro s _ hs
    by_cases hnil : s = []
    · exact absurd (hnil ▸ hheld) hs
    · exact (hbelow s hnil).2 hs

/-- A directory that the loop has emptied is removed. -/
theorem emptied_cleaned (hsound : fs.Sound ProperName) (hread : reader.denied dir = none)
    (hdenied : proc.removeDenied dir = none) (hplain : (proc.fileName dir).plain = true) (hp : p ≠ [])
    (h : LoopCleaned proc reader fs dir p (reader.entries fs p) true (ok, fs'))
    (hempty : fs'.isEmpty p = true) : Cleaned proc reader fs dir p [] (fs'.set p none) := by
  have hbelow := h.below hsound
  have hnone : ∀ s, s ≠ [] → fs'.node (p ++ s) = none := by
    intro s hs
    exact (isEmpty_iff fs' p).mp hempty (p ++ s) (List.prefix_append p s) (by simpa using hs)
  have hgone : ¬ Remains proc reader fs dir p [] := by
    rintro ⟨r, -, hr, hheld⟩
    by_cases hnil : r = []
    · subst hnil
      unfold Held at hheld
      simp [hdenied, hplain, hread] at hheld
    · refine hr ?_
      rw [← (hbelow r hnil).1 (remains_of_held hr hheld), hnone r hnil]
  refine ⟨h.sound.unset p hp hnone, ?_, ?_, ?_⟩
  · intro q hq
    rw [List.append_nil] at hq
    have hne : q ≠ p := fun h => hq (h ▸ List.prefix_rfl)
    rw [← h.above q fun hpq => hq hpq.1]
    exact if_neg hne
  · exact fun s _ hs => absurd (hs.above List.nil_prefix) hgone
  · intro s _ _
    by_cases hnil : s = []
    · simp [Tree.set, hnil]
    · simp [Tree.set, hnil, hnone s hnil]

/-- The `rmdir` behind the loop. -/
theorem rmdir_cleaned (hsound : fs.Sound ProperName) (hdir : dir ≠ []) (hleads : fs.Leads (proc.fileName dir) p)
    (hp : fs.node p = some .dir) (hread : reader.denied dir = none)
    (h : LoopCleaned proc reader fs dir p (reader.entries fs p) true (ok, fs')) :
    (∃ e, proc.rmdir fs' dir = .error e ∧ Cleaned proc reader fs dir p [] fs') ∨
      ∃ u, proc.rmdir fs' dir = .ok u ∧ Cleaned proc reader fs dir p [] u := by
  have hp' : fs'.node p = some .dir := by rw [h.above p (by simp), hp]
  have hwalk : fs'.walk (proc.fileName dir) = .ok p := hleads.walk h.above
  have hnode : fs.node (p ++ []) ≠ none := by simp [hp]
  cases hdenied : proc.removeDenied dir with
  | some e =>
    refine Or.inl ⟨e, by simp [Process.rmdir, hdir, hdenied], stays_cleaned hsound h ?_⟩
    exact remains_of_held hnode (Or.inl (by simp [hdenied]))
  | none =>
    have hrmdir : proc.rmdir fs' dir = fs'.rmdir (proc.fileName dir) := by
      simp [Process.rmdir, hdir, hdenied]
    rw [hrmdir, rmdir_dir hwalk hp']
    by_cases hplain : (proc.fileName dir).plain = true
    swap
    · rw [if_pos (by simpa using hplain)]
      refine Or.inl ⟨_, rfl, stays_cleaned hsound h ?_⟩
      exact remains_of_held hnode (Or.inr (Or.inl (by simpa using hplain)))
    rw [if_neg (by simpa using hplain)]
    by_cases hempty : fs'.isEmpty p = true
    · rw [if_pos hempty]
      refine Or.inr ⟨_, rfl, ?_⟩
      exact emptied_cleaned hsound hread hdenied hplain (walk_plain fs' _ p hplain hwalk) h hempty
    · rw [if_neg hempty]
      refine Or.inl ⟨_, rfl, stays_cleaned hsound h ?_⟩
      rw [FileTree.isEmpty_iff] at hempty
      push Not at hempty
      obtain ⟨q, ⟨s, rfl⟩, hne, hq⟩ := hempty
      have hs : s ≠ [] := by simpa using hne
      by_contra hno
      exact hq ((h.below hsound s hs).2 fun hremains => hno (hremains.above List.nil_prefix))

end Leave

/-- What a level does, if the levels below do so. -/
theorem removeDirectoryLoop_spec (proc : Process) (reader : DirReader) (n : Nat) (fs : FileSys) (dir : List Byte)
    (p : List (List Byte)) (hsound : fs.Sound ProperName) (hdir : dir ≠ []) (hn : UTF8_PATH_MAX < n + dir.length)
    (hpos : 0 < n) (hleads : fs.Leads (proc.fileName dir) p) (hp : fs.node p = some .dir) :
    DirCleaned proc reader fs dir p (removeDirectoryLoop proc reader n fs dir) := by
  induction n generalizing fs dir p with
  | zero => omega
  | succ n ih =>
    have hwalk : fs.walk (proc.fileName dir) = .ok p := hleads.walk fun q _ => rfl
    rw [removeDirectoryLoop]
    cases hread : reader.denied dir with
    | some e =>
      have hopen : proc.opendir reader fs dir = none := by
        simp [Process.opendir, hdir, hread]
      rw [hopen]
      refine ⟨cleaned_refl hsound ?_, by simp [hread]⟩
      intro s _ hnode
      refine remains_of_held hnode ?_
      by_cases hs : s = []
      · subst hs
        exact Or.inr (Or.inr (Or.inr (Or.inl ⟨by simpa using hp, Or.inl rfl, by simp [hread]⟩)))
      · exact Or.inr (Or.inr (Or.inr (Or.inr ⟨[], List.nil_prefix, Ne.symm hs, Or.inl (by simp [hread])⟩)))
    | none =>
      have hopen : proc.opendir reader fs dir = some (reader.entries fs p) := by
        simp [Process.opendir, hdir, hread, find_dir hwalk hp]
      rw [hopen]
      dsimp only
      have hnames : ∀ name ∈ reader.entries fs p,
          (name = [DOT] ∨ name = [DOT, DOT]) ∨ fs.node (p ++ [name]) ≠ none := by
        intro name hname
        rcases List.mem_cons.mp ((reader.perm fs p).mem_iff.mp hname) with h | h
        · exact Or.inl (Or.inl h)
        rcases List.mem_cons.mp h with h | h
        · exact Or.inl (Or.inr h)
        · exact Or.inr ((mem_children fs p name).mp h)
      have hloop := removeEntries_spec (removeDirectoryLoop proc reader n) (reader.entries fs p) true
        (entries_nodup reader fs p hsound) hsound hdir hleads hp hread hnames (by
          intro fs' path q hsound' hlonger hshort hleads' hq
          exact ih fs' path q hsound' (by rintro rfl; simp at hlonger) (by omega) (by omega) hleads' hq)
      generalize (reader.entries fs p).foldl (removeEntry (removeDirectoryLoop proc reader n) proc dir) (true, fs) =
        out at hloop ⊢
      obtain ⟨ok, fs'⟩ := out
      have hok : ok = true ↔ reader.denied dir = none ∧
          ∀ s, s ≠ [] → fs.node (p ++ s) ≠ none → Passes proc reader fs dir p s := by
        rw [hloop.ok_iff hsound, hread]
        simp
      rcases rmdir_cleaned hsound hdir hleads hp hread hloop with ⟨e, hrmdir, hcleaned⟩ | ⟨u, hrmdir, hcleaned⟩
      · dsimp only
        rw [hrmdir]
        exact ⟨hcleaned, hok⟩
      · dsimp only
        rw [hrmdir]
        exact ⟨hcleaned, hok⟩

theorem mgStat_dir {proc : Process} {fs : FileSys} {path : List Byte} {p : List (List Byte)}
    (hleads : fs.Leads (proc.fileName path) p) (h : proc.mgStat fs path = some .dir) :
    path ≠ [] ∧ fs.node p = some .dir := by
  have hwalk : fs.walk (proc.fileName path) = .ok p := hleads.walk fun q _ => rfl
  unfold Process.mgStat Process.stat at h
  by_cases hpath : path = []
  · simp [hpath] at h
  refine ⟨hpath, ?_⟩
  rw [if_neg hpath] at h
  cases hdenied : proc.statDenied path with
  | some e => simp [hdenied] at h
  | none =>
    cases hfind : fs.find (proc.fileName path) with
    | error e => simp [hdenied, hfind] at h
    | ok r =>
      obtain ⟨q, n⟩ := r
      obtain ⟨hq, hnode⟩ := find_spec fs _ q n hfind
      simp only [hdenied, hfind, Option.some.injEq] at h
      obtain rfl := Except.ok.inj (hq.symm.trans hwalk)
      rw [hnode, h]

theorem removeDirectory_spec (proc : Process) (reader : DirReader) (fs : FileSys) (dir : List Byte)
    (p : List (List Byte)) (hsound : fs.Sound ProperName) (hleads : fs.Leads (proc.fileName dir) p)
    (hdir : proc.mgStat fs dir = some .dir) :
    DirCleaned proc reader fs dir p (removeDirectory proc reader fs dir) := by
  obtain ⟨hne, hp⟩ := mgStat_dir hleads hdir
  exact removeDirectoryLoop_spec proc reader _ fs dir p hsound hne (by omega) (by omega) hleads hp

theorem deleteFile_dir {proc : Process} {fs : FileSys} {path : List Byte} (reader : DirReader)
    (h : proc.mgStat fs path = some .dir) :
    deleteFile proc reader fs path =
      (if (removeDirectory proc reader fs path).1 then ⟨204, []⟩ else ⟨500, ascii "Error: Could not delete " ++ path⟩,
        (removeDirectory proc reader fs path).2) := by
  rw [deleteFile, h]
  dsimp only
  split_ifs <;> rfl

/-- The reader that gives the entries as the tree has them. -/
def plainReader : DirReader where
  denied _ := none
  entries fs p := [DOT] :: [DOT, DOT] :: fs.children p
  perm _ _ := List.Perm.refl _

theorem oneFile_sound : oneFile.Sound ProperName where
  root := rfl
  parent p n hnode := by
    have hmem := oneFile.covers _ hnode
    have hlist : p ++ [n] = [ascii "r"] ∨ p ++ [n] = [ascii "r", ascii "a"] := by
      simpa [oneFile] using hmem
    rcases hlist with h | h
    · have hsplit : p ++ [n] = [] ++ [ascii "r"] := h
      have hp := (List.append_inj' hsplit rfl).1
      rw [hp]
      rfl
    · have hsplit : p ++ [n] = [ascii "r"] ++ [ascii "a"] := h
      have hp := (List.append_inj' hsplit rfl).1
      rw [hp]
      decide
  proper p hnode n hn := by
    have hmem := oneFile.covers _ hnode
    have hlist : p = [] ∨ p = [ascii "r"] ∨ p = [ascii "r", ascii "a"] := by
      simpa [oneFile] using hmem
    have hname : n = ascii "r" ∨ n = ascii "a" := by
      rcases hlist with rfl | rfl | rfl
      · cases hn
      · exact Or.inl (by simpa using hn)
      · simpa using hn
    rcases hname with rfl | rfl <;> exact ⟨by decide, by decide, by decide, by decide⟩

theorem oneFile_leads : oneFile.Leads (freeProcess.fileName (ascii "/r")) [ascii "r"] := by
  have hcomps : (freeProcess.fileName (ascii "/r")).comps = [.name (ascii "r")] := by decide +kernel
  rw [Tree.Leads, Tree.walk, hcomps]
  rfl

theorem oneFile_below {s : List (List Byte)} (h : oneFile.node ([ascii "r"] ++ s) ≠ none) :
    s = [] ∨ s = [ascii "a"] := by
  have hmem := oneFile.covers _ h
  simpa [oneFile] using hmem

theorem oneFile_not_held (s : List (List Byte)) (h : oneFile.node ([ascii "r"] ++ s) ≠ none) :
    ¬ Held freeProcess plainReader oneFile (ascii "/r") [ascii "r"] s := by
  have hplain : (freeProcess.fileName (ascii "/r" ++ rooted s)).plain = true := by
    rcases oneFile_below h with rfl | rfl <;> decide +kernel
  have hshort : ¬ UTF8_PATH_MAX ≤ (ascii "/r" ++ rooted s).length := by
    rcases oneFile_below h with rfl | rfl <;> decide +kernel
  rintro (hheld | hheld | hheld | hheld | ⟨r, -, -, hheld | hheld⟩)
  · exact hheld rfl
  · rw [hplain] at hheld
    cases hheld
  · exact hshort hheld.2
  · exact hheld.2.2 rfl
  · exact hheld rfl
  · exact hheld.2 rfl

/-- A `DELETE` of a directory takes out everything in it but what cannot be removed or read, with the
directories on the way there, and changes nothing else. -/
theorem deleteFile_directory (proc : Process) (reader : DirReader) (fs : FileSys) (path : List Byte)
    (p : List (List Byte)) (hsound : fs.Sound ProperName) (hleads : fs.Leads (proc.fileName path) p)
    (hdir : proc.mgStat fs path = some .dir) :
    (deleteFile proc reader fs path).2.Sound ProperName ∧
      (∀ q, ¬ p <+: q → (deleteFile proc reader fs path).2.node q = fs.node q) ∧
      (∀ s, Remains proc reader fs path p s →
        (deleteFile proc reader fs path).2.node (p ++ s) = fs.node (p ++ s)) ∧
      ∀ s, ¬ Remains proc reader fs path p s → (deleteFile proc reader fs path).2.node (p ++ s) = none := by
  obtain ⟨hsound', houtside, hkept, hgone⟩ := (removeDirectory_spec proc reader fs path p hsound hleads hdir).cleaned
  rw [deleteFile_dir reader hdir]
  refine ⟨hsound', ?_, fun s => hkept s List.nil_prefix, fun s => hgone s List.nil_prefix⟩
  simpa using houtside

theorem deleteFile_directory_file :
    (deleteFile freeProcess plainReader oneFile (ascii "/r")).2.node [ascii "r", ascii "a"] = none ∧
      (deleteFile freeProcess plainReader oneFile (ascii "/r")).2.node [] = some .dir := by
  obtain ⟨-, houtside, -, hgone⟩ := deleteFile_directory freeProcess plainReader oneFile (ascii "/r") [ascii "r"]
    oneFile_sound oneFile_leads (by decide +kernel)
  refine ⟨hgone [ascii "a"] ?_, houtside [] (by decide)⟩
  rintro ⟨r, -, hnode, hheld⟩
  exact oneFile_not_held r hnode hheld

/-- The answer to a `DELETE` of a directory is a success exactly where every file in it stays, since
`remove_directory` takes the 0 of `remove` for a failure. -/
theorem deleteFile_answer (proc : Process) (reader : DirReader) (fs : FileSys) (path : List Byte)
    (p : List (List Byte)) (hsound : fs.Sound ProperName) (hleads : fs.Leads (proc.fileName path) p)
    (hdir : proc.mgStat fs path = some .dir) :
    ((deleteFile proc reader fs path).1.status = 204 ↔ reader.denied path = none ∧
        ∀ s, s ≠ [] → fs.node (p ++ s) ≠ none → Passes proc reader fs path p s) ∧
      ((deleteFile proc reader fs path).1.status = 204 → ∀ s content,
        fs.node (p ++ s) = some (.file content) →
          (deleteFile proc reader fs path).2.node (p ++ s) = some (.file content)) := by
  obtain ⟨hcleaned, hok⟩ := removeDirectory_spec proc reader fs path p hsound hleads hdir
  obtain ⟨-, hp⟩ := mgStat_dir hleads hdir
  have hstatus : (deleteFile proc reader fs path).1.status = 204 ↔ (removeDirectory proc reader fs path).1 = true := by
    rw [deleteFile_dir reader hdir]
    split_ifs with h <;> simp [h]
  refine ⟨hstatus.trans hok, ?_⟩
  intro h s content hfile
  obtain ⟨-, hpasses⟩ := hok.mp (hstatus.mp h)
  have hs : s ≠ [] := by
    rintro rfl
    rw [List.append_nil, hp] at hfile
    cases hfile
  have hnode : fs.node (p ++ s) ≠ none := by simp [hfile]
  have hpass := hpasses s hs hnode
  have hdenied := hpass.2.2.2 (by simp [hfile])
  rw [deleteFile_dir reader hdir]
  rw [← hfile]
  exact hcleaned.kept s List.nil_prefix (remains_of_held hnode (Or.inl hdenied))

theorem deleteFile_answer_file : (deleteFile freeProcess plainReader oneFile (ascii "/r")).1.status ≠ 204 := by
  obtain ⟨hanswer, -⟩ := deleteFile_answer freeProcess plainReader oneFile (ascii "/r") [ascii "r"]
    oneFile_sound oneFile_leads (by decide +kernel)
  intro h
  have hfile := (hanswer.mp h).2 [ascii "a"] (by simp) (by decide)
  exact hfile.2.2.2 (by decide) rfl

end CivetWeb
