import CivetWeb.Files.IndexFile

namespace CivetWeb

/-! ### Paths below a directory -/

/-- The path is the directory or leads into it. -/
def Below (dir path : List Byte) : Prop :=
  ∃ rest, path = dirName dir ++ rest ∧ ∀ c ∈ rest.head?, c = SLASH

/-- Slashes at the end are dropped, and nothing else. -/
theorem dirName_append (s t : List Byte) :
    dirName (s ++ t) = if dirName t = [] then dirName s else s ++ dirName t := by
  induction t using List.reverseRecOn with
  | nil => rw [List.append_nil, if_pos (by rfl)]
  | append_singleton t c ih =>
    rw [← List.append_assoc]
    by_cases hc : (c == SLASH) = true
    · have hdrop (u : List Byte) : dirName (u ++ [c]) = dirName u := List.rdropWhile_concat_pos _ _ _ hc
      rw [hdrop, hdrop, ih]
    · have hkeep (u : List Byte) : dirName (u ++ [c]) = u ++ [c] := List.rdropWhile_concat_neg _ _ _ hc
      rw [hkeep, hkeep, if_neg (by simp), List.append_assoc]

theorem below_self (dir : List Byte) : Below dir (dirName dir) := ⟨[], by simp, by simp⟩

theorem below_append {dir s : List Byte} (hs : ∀ c ∈ s.head?, c = SLASH) : Below dir (dir ++ s) := by
  obtain ⟨n, hn⟩ := dirName_slashes dir
  refine ⟨List.replicate n SLASH ++ s, ?_, ?_⟩
  · conv_lhs => rw [hn]
    rw [List.append_assoc]
  · cases n with
    | zero => exact hs
    | succ n =>
      intro c hc
      rw [List.replicate_succ, List.cons_append, List.head?_cons, Option.mem_some_iff] at hc
      exact hc.symm

theorem below_dirName {dir path : List Byte} (h : Below dir path) : Below dir (dirName path) := by
  obtain ⟨rest, rfl, hrest⟩ := h
  rw [dirName_append]
  split_ifs with hnil
  · rw [dirName_idem]
    exact below_self dir
  · refine ⟨dirName rest, rfl, fun c hc => hrest c ?_⟩
    obtain ⟨t, ht⟩ := prefix_dirName rest
    rw [← ht, List.head?_append_of_ne_nil _ hnil]
    exact hc

theorem below_extend {dir path s : List Byte} (h : Below dir path) (hs : ∀ c ∈ s.head?, c = SLASH) :
    Below dir (path ++ s) := by
  obtain ⟨rest, rfl, hrest⟩ := h
  refine ⟨rest ++ s, by rw [List.append_assoc], ?_⟩
  cases rest with
  | nil => exact hs
  | cons b rest => exact hrest

theorem below_trans {dir mid path : List Byte} (h : Below dir mid) (hp : Below mid path) : Below dir path := by
  obtain ⟨rest, rfl, hrest⟩ := hp
  exact below_extend (below_dirName h) hrest

theorem below_take {dir path : List Byte} (h : Below dir path) {n : Nat} (hn : (dirName dir).length ≤ n) :
    Below dir (path.take n) := by
  obtain ⟨rest, rfl, hrest⟩ := h
  refine ⟨rest.take (n - (dirName dir).length), ?_, ?_⟩
  · rw [List.take_append, List.take_of_length_le hn]
  · intro c hc
    cases rest with
    | nil => simp at hc
    | cons b rest =>
      cases hm : n - (dirName dir).length with
      | zero => simp [hm] at hc
      | succ m =>
        rw [hm, List.take_succ_cons] at hc
        exact hrest c hc

theorem below_length {dir path : List Byte} (h : Below dir path) : (dirName dir).length ≤ path.length := by
  obtain ⟨rest, rfl, -⟩ := h
  rw [List.length_append]
  omega

theorem fallbackPath_below (root dir : List Byte) {fallback : List Byte} (hne : fallback ≠ []) :
    Below fallback (fallbackPath root fallback dir) := by
  rw [fallbackPath]
  split_ifs with hlast
  · exact below_append (by simp)
  · -- the fallback root ends with a slash of its own
    obtain ⟨before, c, rfl⟩ := List.eq_nil_or_concat fallback |>.resolve_left hne
    have hc : c = SLASH := by simpa using hlast
    have hdir : dirName (before ++ [SLASH]) = dirName before := List.rdropWhile_concat_pos _ _ _ (by rfl)
    obtain ⟨rest, hrest, hhead⟩ : Below before (before ++ SLASH :: (dir.drop root.length).dropWhile (· == SLASH)) :=
      below_append (by simp)
    rw [hc, List.concat_eq_append]
    refine ⟨rest, ?_, hhead⟩
    rw [hdir, ← hrest]
    simp

/-- An index file of a directory below the root is below it. -/
theorem indexIn_below {fs : FileView} {config : UriConfig} {room : Nat} {dir path p : List Byte}
    (hbelow : Below dir path) (h : indexIn fs config room (dirName path) = some p) : Below dir p := by
  obtain ⟨name, -, rfl⟩ := Option.map_eq_some_iff.mp h
  exact below_extend (below_dirName hbelow) (by simp)

/-- So is the one that stands for it in the fallback root. -/
theorem indexPath_below {fs : FileView} {config : UriConfig} {room : Nat} {root path p : List Byte}
    (hfallback : ∀ fallback ∈ config.fallbackDocumentRoot, fallback ≠ [] ∧ Below root fallback)
    (hroom : (dirName root).length + 1 ≤ room) (hbelow : Below root path)
    (h : indexPath fs config room path = some p) : Below root p := by
  rcases Option.or_eq_some_iff.mp h with hin | ⟨-, hother⟩
  · exact indexIn_below hbelow hin
  rw [fallbackIndex] at hother
  cases hroot : config.documentRoot with
  | none => simp [hroot] at hother
  | some documentRoot =>
    cases hfb : config.fallbackDocumentRoot with
    | none => simp [hroot, hfb] at hother
    | some fallback =>
      simp only [hroot, hfb] at hother
      split_ifs at hother with hfits
      obtain ⟨q, hq, rfl⟩ := Option.map_eq_some_iff.mp hother
      obtain ⟨hne, hinside⟩ := hfallback fallback (by rw [hfb]; rfl)
      exact below_take (below_trans hinside (indexIn_below (fallbackPath_below _ _ hne) hq)) (by omega)

/-! ### The levels of the search -/

/-- The directory has the name of a script that exists, or an index file. -/
def levelEnd (fs : FileView) (config : UriConfig) (room sepPos : Nat) (dir : List Byte) : Option SearchEnd :=
  if (mgStat fs dir).isSome = true ∧ extentionMatchesScript config dir = true then some (.script sepPos)
  else if mgStrcasecmp config.allowIndexScriptSubRes (ascii "yes") = 0 then
    (indexPath fs config room dir).map fun path =>
      if extentionMatchesScript config path = true then .indexScript sepPos path else .indexFile sepPos
  else none

/-- What names that are written to the same place leave of the byte `t` places behind its start. -/
def indexByte (names : List (List Byte)) (t : Nat) (c : Byte) : Byte :=
  names.foldl (fun c name => if t ≤ name.length then (name ++ [NUL]).getD t NUL else c) c

/-- The directory that is looked at for a place of the path, where the search does so: the part in front of a slash.
Index files that are looked for in vain leave the copy of the path cut in front of a run of slashes, so that of the
run only a slash counts that is the last one, or that the names left; the directory is then the one in front of
the run. -/
def searchedDir (config : UriConfig) (room : Nat) (path : List Byte) (m : Nat) : Option (List Byte) :=
  let dir := dirName (path.take m)
  if path[m]? ≠ some SLASH then none
  else if mgStrcasecmp config.allowIndexScriptSubRes (ascii "yes") ≠ 0 ∨ path[m + 1]? ≠ some SLASH then
    some (path.take m)
  else if dir.length < m ∧ indexByte (fittingNames config room dir) (m - dir.length - 1) SLASH = SLASH then some dir
  else none

/-- A part of a path that consists of slashes. -/
def SlashRun (path : List Byte) (i n : Nat) : Prop := ∀ j, i ≤ j → j < n → path[j]? = some SLASH

theorem indexByte_cases (names : List (List Byte)) (t : Nat) :
    (∀ c, indexByte names t c = c) ∨ ∃ b, ∀ c, indexByte names t c = b := by
  induction names with
  | nil => exact .inl fun c => rfl
  | cons name names ih =>
    have hstep (c : Byte) : indexByte (name :: names) t c =
        indexByte names t (if t ≤ name.length then (name ++ [NUL]).getD t NUL else c) := rfl
    rcases ih with hsame | ⟨b, hb⟩
    · by_cases ht : t ≤ name.length
      · exact .inr ⟨_, fun c => by rw [hstep, hsame, if_pos ht]⟩
      · exact .inl fun c => by rw [hstep, hsame, if_neg ht]
    · exact .inr ⟨b, fun c => by rw [hstep, hb]⟩

/-- Names that are written a second time change nothing. -/
theorem indexByte_again (names : List (List Byte)) (t : Nat) (c : Byte) :
    indexByte names t (indexByte names t c) = indexByte names t c := by
  rcases indexByte_cases names t with hsame | ⟨b, hb⟩
  · rw [hsame]
  · rw [hb, hb]

theorem namesLeft_get (names : List (List Byte)) (rest : List Byte) (t : Nat)
    (hfit : ∀ name ∈ names, name.length + 1 ≤ rest.length) :
    (namesLeft names rest)[t]? = rest[t]?.map (indexByte names t) := by
  induction names generalizing rest with
  | nil => exact Option.map_id'.symm ▸ rfl
  | cons name names ih =>
    obtain ⟨hname, hnames⟩ := List.forall_mem_cons.mp hfit
    obtain ⟨rest', hrest'⟩ : ∃ rest', rest' = name ++ NUL :: rest.drop (name.length + 1) := ⟨_, rfl⟩
    have hlen : rest'.length = rest.length := by
      simp only [hrest', List.length_append, List.length_cons, List.length_drop]
      omega
    have hget : rest'[t]? = rest[t]?.map fun c => if t ≤ name.length then (name ++ [NUL]).getD t NUL else c := by
      have hsplit : rest' = (name ++ [NUL]) ++ rest.drop (name.length + 1) := by
        rw [hrest', List.append_assoc, List.singleton_append]
      have hfront : (name ++ [NUL]).length = name.length + 1 := by rw [List.length_append, List.length_singleton]
      rw [hsplit]
      by_cases ht : t ≤ name.length
      · rw [List.getElem?_append_left (by omega), List.getElem?_eq_getElem (l := rest) (by omega), Option.map_some,
          if_pos ht, List.getD_eq_getElem?_getD, List.getElem?_eq_getElem (by omega), Option.getD_some]
      · simp only [if_neg ht, Option.map_id']
        rw [List.getElem?_append_right (by omega), hfront, List.getElem?_drop, Nat.add_sub_of_le (by omega)]
    have hleft : namesLeft (name :: names) rest = namesLeft names rest' := by rw [hrest']; rfl
    rw [hleft, ih rest' (by rw [hlen]; exact hnames), hget, Option.map_map]
    rfl

theorem fittingNames_fit {config : UriConfig} {room : Nat} {dir name : List Byte}
    (h : name ∈ fittingNames config room dir) : dir.length + name.length + 2 ≤ room := by
  simpa using (List.mem_filter.mp h).2

theorem cstr_set_length {buf : List Byte} {n : Nat} (hn : n < buf.length) : (cstr (buf.set n NUL)).length ≤ n := by
  have h := (prefix_cstr (buf.take n)).length_le
  rw [List.length_take] at h
  rw [List.set_eq_take_append_cons_drop, if_pos hn, cstr_cut]
  omega

/-- The copy of a path behind which index files of a directory were looked for in vain. -/
def missedCopy (config : UriConfig) (room : Nat) (dir copy : List Byte) : List Byte :=
  dirName dir ++ NUL :: namesLeft (fittingNames config room (dirName dir)) (copy.drop ((dirName dir).length + 1))

theorem missedCopy_length {config : UriConfig} {room : Nat} {dir copy : List Byte}
    (hdir : dir.length < copy.length) (hroom : room ≤ copy.length) :
    (missedCopy config room dir copy).length = copy.length := by
  have hshort := (prefix_dirName dir).length_le
  have hfit : ∀ name ∈ fittingNames config room (dirName dir),
      name.length + 1 ≤ (copy.drop ((dirName dir).length + 1)).length := by
    intro name hname
    have h := fittingNames_fit hname
    rw [List.length_drop]
    omega
  rw [missedCopy, List.length_append, List.length_cons, namesLeft_length _ _ hfit, List.length_drop]
  omega

section
variable (fs : FileView) (config : UriConfig) (room : Nat)
variable (hnames : ∀ name ∈ optionEntries (config.indexFiles.getD []), NUL ∉ name)
variable (hfallback : ∀ fallback ∈ config.fallbackDocumentRoot, NUL ∉ fallback)
include hnames hfallback

/-- What the search does at a slash. -/
theorem searchLoop_slash (tmpStr : List Byte) (n : Nat) (filestat : Option Bool)
    (hslash : tmpStr[n]? = some SLASH) (hroom : room ≤ tmpStr.length) :
    match levelEnd fs config room n (cstr (tmpStr.set n NUL)) with
    | some e => (searchLoop fs config room (n + 1) tmpStr filestat).1 = e
    | none => ∃ filestat', searchLoop fs config room (n + 1) tmpStr filestat =
        searchLoop fs config room n
          (if mgStrcasecmp config.allowIndexScriptSubRes (ascii "yes") = 0 then
            (missedCopy config room (cstr (tmpStr.set n NUL)) (tmpStr.set n NUL)).set n SLASH
          else tmpStr) filestat' := by
  obtain ⟨hn, hget⟩ := List.getElem?_eq_some_iff.mp hslash
  obtain ⟨dir, hdir⟩ : ∃ dir, dir = cstr (tmpStr.set n NUL) := ⟨_, rfl⟩
  obtain ⟨filestat', hstat⟩ : ∃ filestat', filestat' = if dir = [] then filestat else mgStat fs dir := ⟨_, rfl⟩
  have hback : (tmpStr.set n NUL).set n SLASH = tmpStr := by
    rw [List.set_set, ← hget, List.set_getElem_self]
  have hscript : (decide (dir ≠ []) && filestat'.isSome &&
        (decide (dir ≠ []) && extentionMatchesScript config dir)) = true ↔
      (mgStat fs dir).isSome = true ∧ extentionMatchesScript config dir = true := by
    rw [hstat]
    by_cases hnil : dir = []
    · simp [hnil, mgStat_nil]
    · simp [hnil]
  have hshort : dir.length < (tmpStr.set n NUL).length := by
    have h := cstr_set_length hn
    rw [← hdir] at h
    rw [List.length_set]
    omega
  rw [searchLoop, if_pos hslash]
  dsimp only
  rw [← hdir, ← hstat, levelEnd]
  by_cases hs : (mgStat fs dir).isSome = true ∧ extentionMatchesScript config dir = true
  · rw [if_pos hs, if_pos (hscript.mpr hs)]
  rw [if_neg hs, if_neg fun h => hs (hscript.mp h)]
  by_cases hallow : mgStrcasecmp config.allowIndexScriptSubRes (ascii "yes") = 0
  swap
  · rw [if_neg hallow, if_neg hallow, hback]
    exact ⟨filestat', by rw [if_neg hallow]⟩
  rw [if_pos hallow, if_pos hallow]
  have hindex := substituteIndexFile_index fs config (tmpStr.set n NUL) room filestat' (by rw [← hdir]; exact hshort)
    (by rw [List.length_set]; exact hroom) hnames hfallback
  rw [← hdir] at hindex
  rcases hindex with ⟨p, hp, hfound, hpath⟩ | ⟨hnone, hmissing, hpath⟩
  · rw [hp, hfound, hpath]
    rfl
  · rw [hnone, hmissing, if_neg Bool.false_ne_true, hpath]
    exact ⟨_, by rw [if_pos hallow, missedCopy]⟩

end

/-- The places of two lists with the same beginning. -/
theorem getElem?_of_take {s t : List Byte} {n i : Nat} (h : s.take n = t.take n) (hi : i < n) : s[i]? = t[i]? := by
  have hs := List.getElem?_take_of_lt (l := s) hi
  have ht := List.getElem?_take_of_lt (l := t) hi
  rw [← hs, ← ht, h]

theorem take_of_take_succ {s t : List Byte} {n : Nat} (h : s.take (n + 1) = t.take (n + 1)) : s.take n = t.take n := by
  have h' := congrArg (List.take n) h
  rwa [List.take_take, List.take_take, Nat.min_eq_left (by omega)] at h'

theorem dirName_last (path : List Byte) {n : Nat} (hn : n + 1 = (dirName path).length) :
    (dirName path)[n]? ≠ some SLASH := by
  have hne : dirName path ≠ [] := List.ne_nil_of_length_pos (by omega)
  have hlast := List.rdropWhile_last_not (· == SLASH) path hne
  intro h
  have hget : (dirName path).getLast hne = SLASH := by
    rw [← Option.some_inj, ← List.getLast?_eq_some_getLast, List.getLast?_eq_getElem?, ← h, ← hn, Nat.add_sub_cancel]
  apply hlast
  rw [beq_iff_eq]
  exact hget

/-- The directory in front of a run of slashes. -/
theorem dirName_run {path : List Byte} {i n : Nat} (hi : i ≤ n) (hn : n ≤ path.length)
    (hdir : dirName (path.take i) = path.take i) (hrun : SlashRun path i n) :
    dirName (path.take n) = path.take i := by
  obtain ⟨k, rfl⟩ := Nat.exists_eq_add_of_le hi
  have hslashes : (path.drop i).take k = List.replicate k SLASH := by
    apply List.ext_getElem?
    intro j
    rw [List.getElem?_replicate]
    split_ifs with hj
    · rw [List.getElem?_take_of_lt hj, List.getElem?_drop]
      exact hrun _ (by omega) (by omega)
    · exact List.getElem?_take_eq_none (by omega)
  have hnil : dirName (List.replicate k SLASH) = [] := by
    rw [dirName, List.rdropWhile_eq_nil_iff]
    intro c hc
    rw [List.eq_of_mem_replicate hc]
    rfl
  rw [List.take_add, hslashes, dirName_append, if_pos hnil, hdir]

/-- The slashes in front of a place. -/
theorem slashRun_dirName {path : List Byte} {n : Nat} (hn : n ≤ path.length) :
    ∃ i ≤ n, dirName (path.take n) = path.take i ∧ SlashRun path i n := by
  obtain ⟨k, hk⟩ := dirName_slashes (path.take n)
  obtain ⟨dir, hdir⟩ : ∃ dir, dir = dirName (path.take n) := ⟨_, rfl⟩
  rw [← hdir] at hk ⊢
  have hlen : dir.length + k = n := by
    have h := congrArg List.length hk
    rw [List.length_append, List.length_replicate, List.length_take_of_le hn] at h
    exact h.symm
  refine ⟨dir.length, by omega, ?_, fun j hj hjn => ?_⟩
  · have h := congrArg (List.take dir.length) hk
    rw [List.take_take, Nat.min_eq_left (by omega), List.take_left] at h
    exact h.symm
  · rw [← List.getElem?_take_of_lt hjn, hk, List.getElem?_append_right hj, List.getElem?_replicate, if_pos (by omega)]

theorem searchedDir_take {config : UriConfig} {room : Nat} {path dir : List Byte} {m : Nat}
    (h : searchedDir config room path m = some dir) :
    path[m]? = some SLASH ∧ ∃ i ≤ m, SlashRun path i (m + 1) ∧ dir = path.take i := by
  rw [searchedDir] at h
  split_ifs at h with hslash hplain hleft
  · rw [not_not] at hslash
    refine ⟨hslash, m, le_refl m, fun j hj hjm => ?_, (Option.some.inj h).symm⟩
    rw [show j = m by omega, hslash]
  · rw [not_not] at hslash
    obtain ⟨hm, -⟩ := List.getElem?_eq_some_iff.mp hslash
    obtain ⟨i, hi, hdir, hrun⟩ := slashRun_dirName hm.le
    refine ⟨hslash, i, hi, fun j hj hjm => ?_, (Option.some.inj h).symm.trans hdir⟩
    by_cases hj' : j = m
    · rw [hj', hslash]
    · exact hrun j hj (by omega)

/-- The copy of a path in front of a place of the search: the path, or cut in front of a run of slashes, with what
the names of the index files left behind the cut. -/
inductive Copied (config : UriConfig) (room : Nat) (path tmpStr : List Byte) (n : Nat) : Prop
  | kept (htake : tmpStr.take n = path.take n)
      (hlast : mgStrcasecmp config.allowIndexScriptSubRes (ascii "yes") = 0 → path[n]? = some SLASH →
        dirName (path.take n) = path.take n)
  | cut (i : Nat) (hi : i < n) (hallow : mgStrcasecmp config.allowIndexScriptSubRes (ascii "yes") = 0)
      (hdir : dirName (path.take i) = path.take i) (hrun : SlashRun path i (n + 1))
      (htake : tmpStr.take i = path.take i) (hnul : tmpStr[i]? = some NUL)
      (hleft : ∀ j, i < j → j < n →
        tmpStr[j]? = some (indexByte (fittingNames config room (path.take i)) (j - i - 1) SLASH))

section
variable {config : UriConfig} {room : Nat} {path tmpStr : List Byte} {n : Nat}

/-- The copy shows which directory is looked at. -/
theorem Copied.searched (hplain : NUL ∉ path) (hn : n < path.length) (h : Copied config room path tmpStr (n + 1)) :
    searchedDir config room path n = if tmpStr[n]? = some SLASH then some (cstr (tmpStr.set n NUL)) else none := by
  have hplain' (i : Nat) : NUL ∉ path.take i := fun hmem => hplain (List.mem_of_mem_take hmem)
  rw [searchedDir]
  rcases h with ⟨htake, hlast⟩ | ⟨i, hi, hallow, hdir, hrun, htake, hnul, hleft⟩
  · have hget : tmpStr[n]? = path[n]? := getElem?_of_take htake (by omega)
    rw [hget]
    by_cases hslash : path[n]? = some SLASH
    swap
    · rw [if_pos hslash, if_neg hslash]
    have hplace : mgStrcasecmp config.allowIndexScriptSubRes (ascii "yes") ≠ 0 ∨ path[n + 1]? ≠ some SLASH := by
      by_cases hallow : mgStrcasecmp config.allowIndexScriptSubRes (ascii "yes") = 0
      swap
      · exact .inl hallow
      refine .inr fun hnext => ?_
      -- a slash behind this one was the first of its run
      have hself := hlast hallow hnext
      have hno : (dirName (path.take (n + 1)))[n]? ≠ some SLASH :=
        dirName_last _ (by rw [hself, List.length_take_of_le hn])
      rw [hself, List.getElem?_take_of_lt (by omega)] at hno
      exact hno hslash
    obtain ⟨hlt, -⟩ := List.getElem?_eq_some_iff.mp (hget.trans hslash)
    have hfront := take_of_take_succ htake
    rw [if_neg (not_not.mpr hslash), if_pos hplace, if_pos hslash, cstr_set_nul hlt (by rw [hfront]; exact hplain' n),
      hfront]
  · have hslash : path[n]? = some SLASH := hrun n (by omega) (by omega)
    have hnext : path[n + 1]? = some SLASH := hrun (n + 1) (by omega) (by omega)
    have hfront : dirName (path.take n) = path.take i :=
      dirName_run (by omega) hn.le hdir fun j hj hjn => hrun j hj (by omega)
    have hlen : (path.take i).length = i := List.length_take_of_le (by omega)
    rw [if_neg (not_not.mpr hslash), if_neg (not_or.mpr ⟨not_not.mpr hallow, not_not.mpr hnext⟩)]
    rw [hfront, hlen]
    rcases Nat.lt_or_ge i n with hlt | hge
    · have hset : cstr (tmpStr.set n NUL) = path.take i := by
        obtain ⟨hi', hnul'⟩ := List.getElem?_eq_some_iff.mp hnul
        have hcut : tmpStr.set n NUL = path.take i ++ NUL :: (tmpStr.drop (i + 1)).set (n - (i + 1)) NUL := by
          conv_lhs => rw [← List.take_append_drop i tmpStr, List.drop_eq_getElem_cons hi', hnul', htake]
          rw [List.set_append_right _ _ (by omega), hlen, show n - i = (n - (i + 1)) + 1 by omega, List.set_cons_succ]
        rw [hcut, cstr_append_nul (hplain' i)]
      rw [hset, hleft n hlt (by omega)]
      by_cases hleft' : indexByte (fittingNames config room (path.take i)) (n - i - 1) SLASH = SLASH
      · rw [if_pos ⟨hlt, hleft'⟩, if_pos (by rw [hleft'])]
      · rw [if_neg fun h => hleft' h.2, if_neg fun h => hleft' (Option.some.inj h)]
    · have heq : i = n := by omega
      rw [if_neg fun h => absurd h.1 (by omega), ← heq, hnul, if_neg (by decide)]

theorem Copied.skip (hslash : tmpStr[n]? ≠ some SLASH)
    (h : Copied config room path tmpStr (n + 1)) : Copied config room path tmpStr n := by
  rcases h with ⟨htake, -⟩ | ⟨i, hi, hallow, hdir, hrun, htake, hnul, hleft⟩
  · refine .kept (take_of_take_succ htake) fun _ hpath => absurd hpath ?_
    rw [← getElem?_of_take htake (by omega)]
    exact hslash
  · rcases Nat.lt_or_ge i n with hlt | hge
    · exact .cut i hlt hallow hdir (fun j hj hjn => hrun j hj (by omega)) htake hnul fun j hj hjn =>
        hleft j hj (by omega)
    · have heq : i = n := by omega
      exact .kept (heq ▸ htake) fun _ _ => heq ▸ hdir

/-- Index files that are looked for in vain cut the copy in front of the slashes. -/
theorem copied_missed {i : Nat} (hn : n < path.length) (hi : i ≤ n)
    (hallow : mgStrcasecmp config.allowIndexScriptSubRes (ascii "yes") = 0)
    (hdir : dirName (path.take i) = path.take i) (hrun : SlashRun path i (n + 1)) {dir : List Byte}
    (hfront : dirName dir = path.take i) (hlen : n < tmpStr.length) (hroom : room ≤ tmpStr.length)
    (hbytes : ∀ j, i < j → j < n → ∃ b, tmpStr[j]? = some b ∧
      indexByte (fittingNames config room (path.take i)) (j - i - 1) b =
        indexByte (fittingNames config room (path.take i)) (j - i - 1) SLASH) :
    Copied config room path ((missedCopy config room dir (tmpStr.set n NUL)).set n SLASH) n := by
  have hlen' : (path.take i).length = i := List.length_take_of_le (by omega)
  obtain ⟨left, hleft⟩ : ∃ left, left =
      namesLeft (fittingNames config room (path.take i)) ((tmpStr.set n NUL).drop (i + 1)) := ⟨_, rfl⟩
  have hcopy : missedCopy config room dir (tmpStr.set n NUL) = path.take i ++ NUL :: left := by
    rw [missedCopy, hfront, hlen', ← hleft]
  rw [hcopy]
  rcases Nat.lt_or_ge i n with hlt | hge
  · have hget (j : Nat) (hj : j < n) :
        ((path.take i ++ NUL :: left).set n SLASH)[j]? = (path.take i ++ NUL :: left)[j]? :=
      List.getElem?_set_ne (by omega)
    refine .cut i hlt hallow hdir hrun ?_ ?_ fun j hj hjn => ?_
    · rw [List.take_set_of_le hlt.le, List.take_left' hlen']
    · rw [hget i hlt, List.getElem?_append_right (by omega), hlen', Nat.sub_self, List.getElem?_cons_zero]
    · obtain ⟨b, hb, hsame⟩ := hbytes j hj hjn
      obtain ⟨t, rfl⟩ := Nat.exists_eq_add_of_lt hj
      have hfit : ∀ name ∈ fittingNames config room (path.take i),
          name.length + 1 ≤ ((tmpStr.set n NUL).drop (i + 1)).length := by
        intro name hname
        have h := fittingNames_fit hname
        rw [List.length_drop, List.length_set]
        omega
      rw [show i + t + 1 - i - 1 = t by omega] at hsame ⊢
      rw [hget _ hjn, List.getElem?_append_right (by omega), hlen', show i + t + 1 - i = t + 1 by omega,
        List.getElem?_cons_succ, hleft, namesLeft_get _ _ _ hfit, List.getElem?_drop,
        show i + 1 + t = i + t + 1 by omega, List.getElem?_set_ne (by omega), hb, Option.map_some, hsame]
  · have heq : i = n := by omega
    refine .kept ?_ fun _ _ => heq ▸ hdir
    rw [List.take_set_of_le (le_refl n), ← heq, List.take_left' hlen']

/-- What a search in vain leaves of the copy. -/
theorem Copied.missed (hplain : NUL ∉ path) (hn : n < path.length) (hslash : tmpStr[n]? = some SLASH)
    (hroom : room ≤ tmpStr.length) (h : Copied config room path tmpStr (n + 1)) :
    Copied config room path
      (if mgStrcasecmp config.allowIndexScriptSubRes (ascii "yes") = 0 then
        (missedCopy config room (cstr (tmpStr.set n NUL)) (tmpStr.set n NUL)).set n SLASH
      else tmpStr) n := by
  obtain ⟨hlt, -⟩ := List.getElem?_eq_some_iff.mp hslash
  have hsearched := h.searched hplain hn
  rw [if_pos hslash] at hsearched
  by_cases hallow : mgStrcasecmp config.allowIndexScriptSubRes (ascii "yes") = 0
  swap
  · rw [if_neg hallow]
    rcases h with ⟨htake, -⟩ | ⟨i, hi, hallow', -⟩
    · exact .kept (take_of_take_succ htake) fun h => absurd h hallow
    · exact absurd hallow' hallow
  rw [if_pos hallow]
  obtain ⟨-, k, hk, hrun, hdir⟩ := searchedDir_take hsearched
  obtain ⟨i, hi, hfront, hslashes⟩ := slashRun_dirName (show k ≤ path.length by omega)
  have hself : dirName (path.take i) = path.take i := by rw [← hfront, dirName_idem]
  have hrun' : SlashRun path i (n + 1) := fun j hj hjn =>
    if hjk : j < k then hslashes j hj hjk else hrun j (by omega) hjn
  refine copied_missed hn (by omega) hallow hself hrun' (by rw [hdir, hfront]) hlt hroom fun j hj hjn => ?_
  rcases h with ⟨htake, -⟩ | ⟨i', hi', -, hdir', hrun'', -, -, hleft⟩
  · exact ⟨SLASH, by rw [getElem?_of_take htake (by omega), hrun' j hj.le (by omega)], rfl⟩
  · have hsame : i' = i := by
      have hcut := dirName_run (by omega) hn.le hdir' fun j hj hjn => hrun'' j hj (by omega)
      have hfront' := dirName_run (by omega) hn.le hself fun j hj hjn => hrun' j hj (by omega)
      have hlen := congrArg List.length (hcut.symm.trans hfront')
      rwa [List.length_take_of_le (by omega), List.length_take_of_le (by omega)] at hlen
    rw [← hsame] at hj ⊢
    exact ⟨_, hleft j hj (by omega), indexByte_again _ _ _⟩

end

section
variable (fs : FileView) (config : UriConfig) (room : Nat)
variable (hnames : ∀ name ∈ optionEntries (config.indexFiles.getD []), NUL ∉ name)
variable (hfallback : ∀ fallback ∈ config.fallbackDocumentRoot, NUL ∉ fallback)
variable (path : List Byte) (hplain : NUL ∉ path)
include hnames hfallback hplain

/-- One place of the search: it ends there, or goes on in front of it. -/
theorem searchLoop_step (tmpStr : List Byte) (n : Nat) (filestat : Option Bool) (hn : n < path.length)
    (hcopied : Copied config room path tmpStr (n + 1)) (hroom : room ≤ tmpStr.length) :
    (∃ dir, searchedDir config room path n = some dir ∧
      levelEnd fs config room n dir = some (searchLoop fs config room (n + 1) tmpStr filestat).1) ∨
    (∀ dir, searchedDir config room path n = some dir → levelEnd fs config room n dir = none) ∧
      ∃ tmpStr' filestat', Copied config room path tmpStr' n ∧ tmpStr'.length = tmpStr.length ∧
        searchLoop fs config room (n + 1) tmpStr filestat = searchLoop fs config room n tmpStr' filestat' := by
  have hsearched := hcopied.searched hplain hn
  by_cases hslash : tmpStr[n]? = some SLASH
  swap
  · rw [if_neg hslash] at hsearched
    refine .inr ⟨fun dir hdir => ?_, tmpStr, filestat, hcopied.skip hslash, rfl, ?_⟩
    · rw [hsearched] at hdir
      cases hdir
    · rw [searchLoop, if_neg hslash]
  rw [if_pos hslash] at hsearched
  have hstep := searchLoop_slash fs config room hnames hfallback tmpStr n filestat hslash hroom
  have hmissed := hcopied.missed hplain hn hslash hroom
  obtain ⟨hlt, -⟩ := List.getElem?_eq_some_iff.mp hslash
  have hdir := cstr_set_length hlt
  cases hend : levelEnd fs config room n (cstr (tmpStr.set n NUL)) with
  | some e =>
    rw [hend] at hstep
    exact .inl ⟨_, hsearched, by rw [hend, hstep]⟩
  | none =>
    rw [hend] at hstep
    obtain ⟨filestat', heq⟩ := hstep
    refine .inr ⟨fun dir hdir' => ?_, _, filestat', hmissed, ?_, heq⟩
    · rw [hsearched] at hdir'
      rw [← Option.some.inj hdir', hend]
    · split_ifs
      · rw [List.length_set, missedCopy_length (by rw [List.length_set]; omega) (by rw [List.length_set]; exact hroom),
          List.length_set]
      · rfl

/-- The search ends at the last place whose directory has a script's name or an index file. -/
theorem searchLoop_last (tmpStr : List Byte) (n : Nat) (filestat : Option Bool) (hn : n ≤ path.length)
    (hcopied : Copied config room path tmpStr n) (hroom : room ≤ tmpStr.length) :
    (∀ m < n, ∀ dir, searchedDir config room path m = some dir → levelEnd fs config room m dir = none) ∧
        (searchLoop fs config room n tmpStr filestat).1 = .nothing ∨
      ∃ m < n, (∀ k < n, m < k → ∀ dir, searchedDir config room path k = some dir →
          levelEnd fs config room k dir = none) ∧
        ∃ dir, searchedDir config room path m = some dir ∧
          levelEnd fs config room m dir = some (searchLoop fs config room n tmpStr filestat).1 := by
  induction n generalizing tmpStr filestat with
  | zero => exact .inl ⟨fun m hm => absurd hm (by omega), rfl⟩
  | succ n ih =>
    rcases searchLoop_step fs config room hnames hfallback path hplain tmpStr n filestat hn hcopied hroom with
      hfound | ⟨hnone, tmpStr', filestat', hcopied', hlen, heq⟩
    · exact .inr ⟨n, by omega, fun k hk hnk => absurd hk (by omega), hfound⟩
    · have hlast (k : Nat) (hk : k < n + 1) (hge : ¬ k < n) (dir : List Byte)
          (hdir : searchedDir config room path k = some dir) : levelEnd fs config room k dir = none := by
        rw [show k = n by omega] at hdir ⊢
        exact hnone dir hdir
      rw [heq]
      rcases ih tmpStr' filestat' (by omega) hcopied' (by omega) with ⟨hall, hend⟩ | ⟨m, hm, hbehind, hend⟩
      · refine .inl ⟨fun k hk => ?_, hend⟩
        by_cases hkn : k < n
        · exact hall k hkn
        · exact hlast k hk hkn
      · refine .inr ⟨m, by omega, fun k hk hmk => ?_, hend⟩
        by_cases hkn : k < n
        · exact hbehind k hkn hmk
        · exact hlast k hk hkn

end

end CivetWeb
