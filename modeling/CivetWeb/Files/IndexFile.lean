import CivetWeb.Files.PathInfo

namespace CivetWeb

/-! ### Index files -/

/-- A directory without the slashes at its end. -/
def dirName (path : List Byte) : List Byte := path.rdropWhile (· == SLASH)

/-- An index file that fits into `room` bytes and exists. -/
def indexExists (fs : FileView) (room : Nat) (dir name : List Byte) : Bool :=
  dir.length + name.length + 2 ≤ room && (mgStat fs (dir ++ SLASH :: name)).isSome

/-- The first index file of a directory. -/
def indexIn (fs : FileView) (config : UriConfig) (room : Nat) (dir : List Byte) : Option (List Byte) :=
  ((optionEntries (config.indexFiles.getD [])).find? (indexExists fs room dir)).map (dir ++ SLASH :: ·)

/-- The index file for a directory below the root in the fallback root. -/
def fallbackIndex (fs : FileView) (config : UriConfig) (room : Nat) (dir : List Byte) : Option (List Byte) :=
  match config.documentRoot, config.fallbackDocumentRoot with
  | some root, some fallback =>
    if root.isPrefixOf dir ∧
        fallback.length + 1 + ((dir.drop root.length).dropWhile (· == SLASH)).length + 1 < UTF8_PATH_MAX then
      (indexIn fs config UTF8_PATH_MAX (dirName (fallbackPath root fallback dir))).map (mgStrlcpy · room)
    else none
  | _, _ => none

/-- The index file for a path. -/
def indexPath (fs : FileView) (config : UriConfig) (room : Nat) (path : List Byte) : Option (List Byte) :=
  (indexIn fs config room (dirName path)).or (fallbackIndex fs config room (dirName path))

theorem prefix_dirName (path : List Byte) : dirName path <+: path := List.rdropWhile_prefix _ _

theorem dirName_slashes (path : List Byte) : ∃ n, path = dirName path ++ List.replicate n SLASH := by
  refine ⟨(path.rtakeWhile (· == SLASH)).length, ?_⟩
  have hall : ∀ c ∈ path.rtakeWhile (· == SLASH), c = SLASH := by
    intro c hc
    have h := List.mem_rtakeWhile_imp hc
    simpa using h
  rw [← List.eq_replicate_of_mem hall]
  exact List.rdropWhile_append_rtakeWhile.symm

/-- What the names leave that are written one after another to the same place, each with its NUL. -/
def namesLeft (names : List (List Byte)) (rest : List Byte) : List Byte :=
  names.foldl (fun rest name => name ++ NUL :: rest.drop (name.length + 1)) rest

/-- The index files that there is room for behind a directory. -/
def fittingNames (config : UriConfig) (room : Nat) (dir : List Byte) : List (List Byte) :=
  (optionEntries (config.indexFiles.getD [])).filter fun name => dir.length + name.length + 2 ≤ room

theorem namesLeft_length (names : List (List Byte)) (rest : List Byte)
    (hfit : ∀ name ∈ names, name.length + 1 ≤ rest.length) : (namesLeft names rest).length = rest.length := by
  induction names generalizing rest with
  | nil => rfl
  | cons name names ih =>
    obtain ⟨hname, hnames⟩ := List.forall_mem_cons.mp hfit
    have hlen : (name ++ NUL :: rest.drop (name.length + 1)).length = rest.length := by
      simp only [List.length_append, List.length_cons, List.length_drop]
      omega
    rw [namesLeft, List.foldl_cons, ← namesLeft, ih _ (by rw [hlen]; exact hnames), hlen]

/-- The names that are written behind a directory, one after another. -/
theorem indexLoop_find (fs : FileView) (dir : List Byte) (room : Nat) (names : List (List Byte))
    (rest : List Byte) (filestat : Option Bool) (hdir : NUL ∉ dir) (hnames : ∀ name ∈ names, NUL ∉ name)
    (hroom : room ≤ dir.length + 1 + rest.length) :
    (∃ name, names.find? (indexExists fs room dir) = some name ∧
      (indexLoop fs room dir.length names (dir ++ SLASH :: rest) filestat).found = true ∧
        cstr (indexLoop fs room dir.length names (dir ++ SLASH :: rest) filestat).path = dir ++ SLASH :: name) ∨
    names.find? (indexExists fs room dir) = none ∧
      (indexLoop fs room dir.length names (dir ++ SLASH :: rest) filestat).found = false ∧
      (indexLoop fs room dir.length names (dir ++ SLASH :: rest) filestat).path =
        dir ++ SLASH :: namesLeft (names.filter fun name => dir.length + name.length + 2 ≤ room) rest := by
  induction names generalizing rest filestat with
  | nil => exact .inr ⟨rfl, rfl, rfl⟩
  | cons name names ih =>
    have hnames' : ∀ name ∈ names, NUL ∉ name := fun n hn => hnames n (by simp [hn])
    rw [indexLoop]
    by_cases hshort : room - (dir.length + 1) < name.length + 1
    · have hno : indexExists fs room dir name = false := by
        have hfits : ¬ dir.length + name.length + 2 ≤ room := by omega
        rw [indexExists, decide_eq_false hfits, Bool.false_and]
      have hskip : ¬ dir.length + name.length + 2 ≤ room := by omega
      rw [if_pos hshort, List.find?_cons_of_neg (by rw [hno]; simp), List.filter_cons_of_neg (by simpa using hskip)]
      exact ih rest filestat hnames' hroom
    · rw [if_neg hshort]
      have hfits : dir.length + name.length + 2 ≤ room := by omega
      rw [List.filter_cons_of_pos (by simpa using hfits), namesLeft, List.foldl_cons, ← namesLeft]
      have hwritten : copyInto (dir ++ SLASH :: rest) (dir.length + 1) (name ++ [NUL]) =
          dir ++ SLASH :: (name ++ NUL :: rest.drop (name.length + 1)) := by
        have htake : (dir ++ SLASH :: rest).take (dir.length + 1) = dir ++ [SLASH] := by
          rw [List.take_length_add_append, List.take_succ_cons, List.take_zero]
        have hlen : (name ++ [NUL]).length = name.length + 1 := by simp
        rw [copyInto, htake, hlen, ← List.drop_drop, drop_append_one]
        simp only [List.append_assoc, List.cons_append, List.nil_append]
      have hplain : NUL ∉ dir ++ SLASH :: name := by
        rw [List.mem_append, List.mem_cons, not_or, not_or]
        exact ⟨hdir, by decide, hnames name (by simp)⟩
      have hcstr : cstr (dir ++ SLASH :: (name ++ NUL :: rest.drop (name.length + 1))) = dir ++ SLASH :: name := by
        have h := cstr_append_nul hplain (rest.drop (name.length + 1))
        rwa [List.append_assoc, List.cons_append] at h
      rw [hwritten]
      dsimp only
      rw [hcstr]
      by_cases hfound : (mgStat fs (dir ++ SLASH :: name)).isSome = true
      · have hyes : indexExists fs room dir name = true := by
          rw [indexExists, decide_eq_true hfits, hfound, Bool.true_and]
        rw [if_pos hfound, List.find?_cons_of_pos hyes]
        exact .inl ⟨name, rfl, rfl, hcstr⟩
      · have hno : indexExists fs room dir name = false := by
          rw [indexExists, Bool.not_eq_true _ |>.mp hfound, Bool.and_false]
        have hkept : (name ++ NUL :: rest.drop (name.length + 1)).length = rest.length := by
          simp only [List.length_append, List.length_cons, List.length_drop]
          omega
        rw [if_neg hfound, List.find?_cons_of_neg (by rw [hno]; simp)]
        exact ih (name ++ NUL :: rest.drop (name.length + 1)) (mgStat fs (dir ++ SLASH :: name)) hnames'
          (by rw [hkept]; exact hroom)

/-- What the search of index files leaves: the path of the file, or the directory. -/
theorem substituteIndexFileAux_index (fs : FileView) (config : UriConfig) (path : List Byte) (room : Nat)
    (filestat : Option Bool) (hlen : (cstr path).length < path.length) (hroom : room ≤ path.length)
    (hnames : ∀ name ∈ optionEntries (config.indexFiles.getD []), NUL ∉ name) :
    (∃ p, indexIn fs config room (dirName (cstr path)) = some p ∧
      (substituteIndexFileAux fs config path room filestat).found = true ∧
        cstr (substituteIndexFileAux fs config path room filestat).path = p) ∨
    indexIn fs config room (dirName (cstr path)) = none ∧
      (substituteIndexFileAux fs config path room filestat).found = false ∧
      (substituteIndexFileAux fs config path room filestat).path = dirName (cstr path) ++
        NUL :: namesLeft (fittingNames config room (dirName (cstr path)))
          (path.drop ((dirName (cstr path)).length + 1)) := by
  obtain ⟨dir, hdir⟩ : ∃ dir, dir = dirName (cstr path) := ⟨_, rfl⟩
  have hbefore : dir <+: path := hdir ▸ (prefix_dirName _).trans (prefix_cstr path)
  have hshort : dir.length < path.length := by
    have h := (prefix_dirName (cstr path)).length_le
    rw [← hdir] at h
    omega
  have hplain : NUL ∉ dir := fun h => cstr_noNul path ((prefix_dirName (cstr path)).mem (hdir ▸ h))
  obtain ⟨rest, hbehind, hrest, hset⟩ : ∃ rest : List Byte, path.drop (dir.length + 1) = rest ∧
      dir.length + 1 + rest.length = path.length ∧ ∀ c, path.set dir.length c = dir ++ c :: rest := by
    obtain ⟨t, ht⟩ := hbefore
    cases t with
    | nil =>
      rw [← ht, List.append_nil] at hshort
      omega
    | cons b t =>
      refine ⟨t, ?_, ?_, ?_⟩
      · rw [← ht, ← List.drop_drop, List.drop_left]
        rfl
      · rw [← ht, List.length_append, List.length_cons]
        omega
      · intro c
        rw [← ht, List.set_append_right _ _ (le_refl _), Nat.sub_self, List.set_cons_zero]
  have hend : pathEnd path = dir.length := by rw [pathEnd, hdir, dirName]
  have hloop := indexLoop_find fs dir room (optionEntries (config.indexFiles.getD [])) rest filestat hplain hnames
    (by omega)
  rw [substituteIndexFileAux, hend, hset, ← hdir, indexIn]
  rcases hloop with ⟨name, hname, hfound, hpath⟩ | ⟨hnone, hmissing, hpath⟩
  · rw [if_pos hfound, hname]
    exact .inl ⟨_, rfl, hfound, hpath⟩
  · rw [hmissing, if_neg Bool.false_ne_true, hnone]
    refine .inr ⟨rfl, rfl, ?_⟩
    dsimp only
    rw [hpath, List.set_append_right _ _ (le_refl _), Nat.sub_self, List.set_cons_zero, hbehind, fittingNames]

/-- `dirName` drops no slash but those at the end. -/
theorem dirName_idem (path : List Byte) : dirName (dirName path) = dirName path :=
  List.rdropWhile_idempotent _ _

theorem fallbackPath_length (root fallback dir : List Byte)
    (hfits : fallback.length + 1 + ((dir.drop root.length).dropWhile (· == SLASH)).length + 1 < UTF8_PATH_MAX) :
    (fallbackPath root fallback dir).length < UTF8_PATH_MAX := by
  rw [fallbackPath, List.length_append, List.length_append]
  split_ifs
  · rw [List.length_singleton]
    omega
  · rw [List.length_nil]
    omega

theorem fallbackPath_noNul (root fallback dir : List Byte) (hfallback : NUL ∉ fallback) (hdir : NUL ∉ dir) :
    NUL ∉ fallbackPath root fallback dir := by
  have hsub : NUL ∉ (dir.drop root.length).dropWhile (· == SLASH) := fun h =>
    hdir (List.mem_of_mem_drop ((List.dropWhile_sublist _).mem h))
  rw [fallbackPath, List.mem_append, List.mem_append, not_or, not_or]
  refine ⟨hfallback, ?_, hsub⟩
  split_ifs
  · decide
  · exact List.not_mem_nil

section
variable (fs : FileView) (config : UriConfig) (path : List Byte) (room : Nat) (filestat : Option Bool)
variable (hlen : (cstr path).length < path.length) (hroom : room ≤ path.length)
variable (hnames : ∀ name ∈ optionEntries (config.indexFiles.getD []), NUL ∉ name)
variable (hfallback : ∀ fallback ∈ config.fallbackDocumentRoot, NUL ∉ fallback)
include hlen hroom hnames hfallback

/-- An index file is found in the directory or else in the fallback root. -/
theorem substituteIndexFile_index :
    (∃ p, indexPath fs config room (cstr path) = some p ∧
      (substituteIndexFile fs config path room filestat).found = true ∧
        cstr (substituteIndexFile fs config path room filestat).path = p) ∨
    indexPath fs config room (cstr path) = none ∧
      (substituteIndexFile fs config path room filestat).found = false ∧
      (substituteIndexFile fs config path room filestat).path = dirName (cstr path) ++
        NUL :: namesLeft (fittingNames config room (dirName (cstr path)))
          (path.drop ((dirName (cstr path)).length + 1)) := by
  have hplain : NUL ∉ dirName (cstr path) := fun h => cstr_noNul path ((prefix_dirName (cstr path)).mem h)
  rw [indexPath, substituteIndexFile]
  rcases substituteIndexFileAux_index fs config path room filestat hlen hroom hnames with
    ⟨p, hp, hfound, hcstr⟩ | ⟨hnone, hmissing, hpath⟩
  · rw [if_pos hfound, hp]
    exact .inl ⟨p, rfl, hfound, hcstr⟩
  obtain ⟨dir, hdir⟩ : ∃ dir, dir = dirName (cstr path) := ⟨_, rfl⟩
  rw [hmissing, if_neg Bool.false_ne_true, hnone, Option.none_or, fallbackIndex, hpath, cstr_append_nul hplain]
  rw [← hdir] at hplain hpath ⊢
  have hstay : (none : Option (List Byte)) = none ∧
      (substituteIndexFileAux fs config path room filestat).found = false ∧
      (substituteIndexFileAux fs config path room filestat).path =
        dir ++ NUL :: namesLeft (fittingNames config room dir) (path.drop (dir.length + 1)) :=
    ⟨rfl, hmissing, hpath⟩
  cases hroot : config.documentRoot with
  | none => exact .inr hstay
  | some root =>
    cases hother : config.fallbackDocumentRoot with
    | none => exact .inr hstay
    | some fallback =>
      dsimp only
      by_cases hinside : root.isPrefixOf dir = true
      swap
      · rw [if_neg hinside, if_neg fun h => hinside h.1]
        exact .inr hstay
      rw [if_pos hinside]
      by_cases hfits : fallback.length + 1 + ((dir.drop root.length).dropWhile (· == SLASH)).length + 1 < UTF8_PATH_MAX
      swap
      · rw [if_neg hfits, if_neg fun h => hfits h.2]
        exact .inr hstay
      rw [if_pos hfits, if_pos ⟨hinside, hfits⟩]
      have hscratch : (fallbackPath root fallback dir).length < UTF8_PATH_MAX ∧
          NUL ∉ fallbackPath root fallback dir := by
        exact ⟨fallbackPath_length root fallback dir hfits,
          fallbackPath_noNul root fallback dir (hfallback fallback (by rw [hother]; rfl)) hplain⟩
      have hcstr := cstr_stringBuffer hscratch.2 UTF8_PATH_MAX
      have hbuf := length_stringBuffer hscratch.1.le
      have haux := substituteIndexFileAux_index fs config (stringBuffer UTF8_PATH_MAX (fallbackPath root fallback dir))
        UTF8_PATH_MAX (substituteIndexFileAux fs config path room filestat).filestat
        (by rw [hcstr, hbuf]; exact hscratch.1) (by rw [hbuf]) hnames
      rw [hcstr] at haux
      rcases haux with ⟨p, hp, hfound, hpath'⟩ | ⟨hnone', hmissing', -⟩
      · have hp' : NUL ∉ p := hpath' ▸ cstr_noNul _
        rw [if_pos hfound, hp, hpath']
        refine .inl ⟨mgStrlcpy p room, rfl, rfl, ?_⟩
        dsimp only
        rw [copyInto, List.take_zero, List.nil_append, List.append_assoc, List.singleton_append]
        exact cstr_append_nul (fun h => hp' (List.mem_of_mem_take h)) _
      · rw [hmissing', if_neg Bool.false_ne_true, hnone']
        exact .inr ⟨rfl, rfl, rfl⟩

end

end CivetWeb
