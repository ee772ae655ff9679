import CivetWeb.Files.SearchLevels

namespace CivetWeb

/-! ### The name that is chosen -/

/-- The name after a search that ended so, in a buffer of `size` bytes. -/
def endName (size : Nat) (path : List Byte) : SearchEnd → List Byte
  | .nothing => path
  | .script sepPos => path.take sepPos
  | .indexScript sepPos script =>
    if size ≤ script.length + (path.drop sepPos).length + 2 then [] else script
  | .indexFile sepPos => path.take sepPos

theorem takeScript_name {path : List Byte} {sepPos size : Nat} (hplain : NUL ∉ path)
    (hslash : path[sepPos]? = some SLASH) (hsize : path.length + 2 ≤ size) :
    cstr (takeScript (stringBuffer size path) sepPos) = path.take sepPos := by
  obtain ⟨hlt, hget⟩ := List.getElem?_eq_some_iff.mp hslash
  obtain ⟨m, hm⟩ : ∃ m, size - path.length = m + 2 := ⟨size - path.length - 2, by omega⟩
  have hlen : (path.take sepPos).length = sepPos := List.length_take_of_le hlt.le
  have hsplit : path = path.take sepPos ++ SLASH :: path.drop (sepPos + 1) := by
    conv_lhs => rw [← List.take_append_drop sepPos path]
    rw [List.drop_eq_getElem_cons hlt, hget]
  have hrest : NUL ∉ path.drop (sepPos + 1) := fun h => hplain (List.mem_of_mem_drop h)
  have hbuf : stringBuffer size path =
      path.take sepPos ++ SLASH :: (path.drop (sepPos + 1) ++ List.replicate (m + 2) NUL) := by
    rw [stringBuffer, hm]
    conv_lhs => rw [hsplit]
    rw [List.append_assoc, List.cons_append]
  have h := takeScript_eq (path.take sepPos) (path.drop (sepPos + 1)) m hrest
  rw [hlen] at h
  rw [hbuf, h, cstr_append_nul fun hmem => hplain (List.mem_of_mem_take hmem)]

theorem cleanup_name (r : UriResult) : cstr r.cleanup.filename = [] := by
  rw [UriResult.cleanup]
  cases r.filename <;> rfl

/-- What the search leaves of the name. -/
theorem scriptResource_name (fs : FileView) (config : UriConfig) (r : UriResult) {path : List Byte} {size : Nat}
    (hplain : NUL ∉ path) (hsize : path.length + 2 ≤ size) (hr : r.filename = stringBuffer size path)
    (e : SearchEnd) (filestat : Option Bool)
    (hend : searchLoop fs config (path.length + UTF8_PATH_MAX) path.length
      (stringBuffer (path.length + UTF8_PATH_MAX + 1) path) none = (e, filestat))
    (hscript : ∀ sepPos, e = .script sepPos → path[sepPos]? = some SLASH)
    (hindex : ∀ sepPos script, e = .indexScript sepPos script → NUL ∉ script ∧ sepPos ≤ path.length)
    (hfile : ∀ sepPos, e = .indexFile sepPos → sepPos < path.length) :
    cstr (scriptResource fs config true r path).filename = endName size path e := by
  have hbuf : (stringBuffer size path).length = size := length_stringBuffer (by omega)
  simp only [scriptResource, Bool.not_true, Bool.false_eq_true, if_false, hend]
  cases e with
  | nothing =>
    dsimp only
    rw [hr, cstr_stringBuffer hplain, endName]
  | script sepPos =>
    dsimp only
    rw [hr, takeScript_name hplain (hscript sepPos rfl) hsize, endName]
  | indexFile sepPos =>
    have hlt := hfile sepPos rfl
    have htake : (stringBuffer size path).take sepPos = path.take sepPos :=
      List.take_append_of_le_length hlt.le
    dsimp only
    rw [hr, cstr_set_nul (by omega) (by rw [htake]; exact fun h => hplain (List.mem_of_mem_take h)), htake, endName]
  | indexScript sepPos script =>
    obtain ⟨hscript', hle⟩ := hindex sepPos script rfl
    have hsub : cstr ((stringBuffer size path).drop sepPos) = path.drop sepPos := by
      have hdrop : (stringBuffer size path).drop sepPos = stringBuffer (size - sepPos) (path.drop sepPos) := by
        rw [stringBuffer, stringBuffer, List.drop_append_of_le_length hle, List.length_drop,
          show size - sepPos - (path.length - sepPos) = size - path.length by omega]
      rw [hdrop, cstr_stringBuffer fun h => hplain (List.mem_of_mem_drop h)]
    dsimp only
    rw [takeIndexScript, hr, hsub, hbuf, endName]
    by_cases hfits : size ≤ script.length + (path.drop sepPos).length + 2
    · simp only [if_pos hfits]
      exact cleanup_name _
    · simp only [if_neg hfits]
      rw [copyInto, List.take_zero, List.nil_append, List.append_assoc, List.singleton_append,
        cstr_append_nul hscript']

/-- A server with one document root and a fallback root below it. -/
structure RootedConfig (config : UriConfig) (root : List Byte) : Prop where
  documentRoot : config.documentRoot = some root
  urlRewritePatterns : config.urlRewritePatterns = none
  plain : NUL ∉ root
  names : ∀ name ∈ optionEntries (config.indexFiles.getD []), NUL ∉ name
  fallback : ∀ fallback ∈ config.fallbackDocumentRoot, fallback ≠ [] ∧ NUL ∉ fallback ∧ Below root fallback

/-- The roots that are tried. -/
def fileRoots (config : UriConfig) (root : List Byte) : List (List Byte) := root :: config.fallbackDocumentRoot.toList

/-- The path below the last root. -/
def lastPath (config : UriConfig) (root uri : List Byte) : List Byte :=
  config.fallbackDocumentRoot.getD root ++ uri

/-- Nothing is there for the request itself, so that a script is searched for. -/
structure SearchReached (fs : FileView) (config : UriConfig) (malloc : Bool) (request : UriRequest) (size : Nat)
    (root : List Byte) : Prop where
  fits : ∀ r ∈ fileRoots config root, (r ++ request.localUri).length + 2 ≤ size
  missing : ∀ r ∈ fileRoots config root, mgStat fs (r ++ request.localUri) = none
  gzip : request.plain = false →
    (lastPath config root request.localUri ++ ascii ".gz").length < UTF8_PATH_MAX ∧
      mgStat fs (lastPath config root request.localUri ++ ascii ".gz") = none
  malloc : malloc = true

theorem tryRoots_cases (fs : FileView) (config : UriConfig) (uri : List Byte) (size : Nat)
    (hrewrite : config.urlRewritePatterns = none) (roots : List (List Byte)) (filename : List Byte) :
    tryRoots fs config size uri roots filename = .missing ((roots.getLast?.map (· ++ uri)).getD filename) ∧
        (∀ root ∈ roots, (root ++ uri).length + 2 ≤ size ∧ mgStat fs (root ++ uri) = none) ∨
      (∃ root ∈ roots, ¬ ((root ++ uri).length + 2 ≤ size ∧ mgStat fs (root ++ uri) = none)) ∧
        (tryRoots fs config size uri roots filename = .truncated ∨
          ∃ root ∈ roots, (root ++ uri).length + 2 ≤ size ∧
            ∃ isDirectory, tryRoots fs config size uri roots filename = .found (root ++ uri) isDirectory) := by
  have hnone : rewriteUri config uri = none := by
    rw [rewriteUri, hrewrite]
    rfl
  induction roots generalizing filename with
  | nil => exact .inl ⟨rfl, by simp⟩
  | cons root roots ih =>
    by_cases hfits : (root ++ uri).length + 2 ≤ size
    swap
    · have hcut : (mgSnprintf (size - 1) (root ++ uri)).2 = true := by
        rw [mgSnprintf, if_neg (by omega)]
      refine .inr ⟨⟨root, by simp, fun h => hfits h.1⟩, .inl ?_⟩
      simp only [tryRoots, hcut, if_true]
    have hprint : mgSnprintf (size - 1) (root ++ uri) = (root ++ uri, false) := mgSnprintf_fits _ _ (by omega)
    simp only [tryRoots, hprint, hnone, Bool.false_eq_true, if_false]
    cases hstat : mgStat fs (root ++ uri) with
    | some isDirectory =>
      refine .inr ⟨⟨root, by simp, fun h => ?_⟩, .inr ⟨root, by simp, hfits, isDirectory, rfl⟩⟩
      rw [h.2] at hstat
      cases hstat
    | none =>
      dsimp only
      rcases ih (root ++ uri) with ⟨hmissing, hall⟩ | ⟨⟨r, hr, hno⟩, hend⟩
      · refine .inl ⟨?_, ?_⟩
        · rw [hmissing]
          cases roots with
          | nil => rfl
          | cons r roots =>
            rw [List.getLast?_cons_cons]
            rw [List.getLast?_eq_some_getLast (List.cons_ne_nil r roots)]
            rfl
        · intro r hr
          rcases List.mem_cons.mp hr with rfl | hr
          · exact ⟨hfits, hstat⟩
          · exact hall r hr
      · refine .inr ⟨⟨r, by simp [hr], hno⟩, hend.imp id ?_⟩
        rintro ⟨r', hr', hfits', isDirectory, hfound⟩
        exact ⟨r', by simp [hr'], hfits', isDirectory, hfound⟩

/-- A file that is there keeps its name, or gets that of an index file. -/
theorem foundFile_name (fs : FileView) (config : UriConfig) (r : UriResult) (uri : List Byte) (isDirectory : Bool)
    {path : List Byte} {size : Nat} (hplain : NUL ∉ path) (hsize : path.length + 2 ≤ size)
    (hr : r.filename = stringBuffer size path)
    (hnames : ∀ name ∈ optionEntries (config.indexFiles.getD []), NUL ∉ name)
    (hfallback : ∀ fallback ∈ config.fallbackDocumentRoot, NUL ∉ fallback) :
    cstr (foundFile fs config r path uri isDirectory).filename = path ∨
      cstr (foundFile fs config r path uri isDirectory).filename = dirName path ∨
      indexPath fs config size path = some (cstr (foundFile fs config r path uri isDirectory).filename) := by
  have hbuf : (stringBuffer size path).length = size := length_stringBuffer (by omega)
  have hcstr := cstr_stringBuffer hplain size
  have hindex := substituteIndexFile_index fs config (stringBuffer size path) size none
    (by rw [hcstr, hbuf]; omega) (by rw [hbuf]) hnames hfallback
  rw [hcstr] at hindex
  have hkept : (foundFile fs config r path uri isDirectory).filename = stringBuffer size path ∨
      (foundFile fs config r path uri isDirectory).filename =
        (substituteIndexFile fs config (stringBuffer size path) size none).path := by
    rw [foundFile, hr, hbuf]
    dsimp only
    split_ifs
    all_goals first | exact .inr rfl | exact .inl rfl
  rcases hkept with h | h
  · exact .inl (by rw [h, hcstr])
  · rw [h]
    rcases hindex with ⟨p, hp, -, hpath⟩ | ⟨-, -, hpath⟩
    · exact .inr (.inr (by rw [hp, hpath]))
    · refine .inr (.inl ?_)
      rw [hpath, cstr_append_nul fun hmem => hplain ((prefix_dirName path).mem hmem)]

theorem acceptGzip_eq (request : UriRequest) :
    (request.acceptEncoding.any fun value => (Scan.find (ascii "gzip") value).isSome) = !request.plain := by
  rw [UriRequest.plain]
  cases request.acceptEncoding with
  | none => rfl
  | some value => simp

theorem interpretUri_cases (fs : FileView) (config : UriConfig) (malloc : Bool) (request : UriRequest) (size : Nat)
    {root : List Byte} (hconfig : RootedConfig config root)
    (hhttp : request.protocolType ≠ PROTOCOL_TYPE_WEBSOCKET ∨ config.websocketRoot = none) :
    (SearchReached fs config malloc request size root ∧ ∃ r : UriResult,
      r.filename = stringBuffer size (lastPath config root request.localUri) ∧
      interpretUri fs config malloc request size =
        scriptResource fs config true r (lastPath config root request.localUri)) ∨
    ¬ SearchReached fs config malloc request size root ∧
      (cstr (interpretUri fs config malloc request size).filename = [] ∨
        cstr (interpretUri fs config malloc request size).filename =
          cstr (stringBuffer size (lastPath config root request.localUri)) ∨
        ∃ base ∈ fileRoots config root, (base ++ request.localUri).length + 2 ≤ size ∧
          ∃ (r : UriResult) (isDirectory : Bool), r.filename = stringBuffer size (base ++ request.localUri) ∧
            interpretUri fs config malloc request size =
              foundFile fs config r (base ++ request.localUri) request.localUri isDirectory) := by
  have hroots : uriRoots config (request.protocolType == PROTOCOL_TYPE_WEBSOCKET) = fileRoots config root := by
    have hplain : ((request.protocolType == PROTOCOL_TYPE_WEBSOCKET) && config.websocketRoot.isSome) = false := by
      rcases hhttp with h | h
      · rw [beq_eq_false_iff_ne.mpr h, Bool.false_and]
      · rw [h, Option.isSome_none, Bool.and_false]
    rw [uriRoots, hplain]
    simp only [Bool.false_eq_true, if_false, hconfig.documentRoot, fileRoots]
  have htry := tryRoots_cases fs config request.localUri size hconfig.urlRewritePatterns (fileRoots config root) []
  have hlast : (((fileRoots config root).getLast?.map (· ++ request.localUri)).getD []) =
      lastPath config root request.localUri := by
    rw [fileRoots, lastPath]
    cases config.fallbackDocumentRoot <;> rfl
  rw [hlast] at htry
  obtain ⟨roots, hcons⟩ : ∃ roots, fileRoots config root = root :: roots := ⟨_, rfl⟩
  rw [hcons] at hroots htry
  rcases htry with ⟨hmissing, hall⟩ | ⟨⟨base, hbase, hno⟩, htruncated | ⟨base', hbase', hfits, isDirectory, hfound⟩⟩
  · have hfits : ∀ r ∈ fileRoots config root, (r ++ request.localUri).length + 2 ≤ size :=
      fun r hr => (hall r (hcons ▸ hr)).1
    have hnone : ∀ r ∈ fileRoots config root, mgStat fs (r ++ request.localUri) = none :=
      fun r hr => (hall r (hcons ▸ hr)).2
    have hnoMemory (r : UriResult) (path : List Byte) : cstr (scriptResource fs config false r path).filename = [] :=
      cleanup_name r
    simp only [interpretUri, hroots, hmissing, acceptGzip_eq]
    cases hgzip : request.plain with
    | true =>
      simp only [Bool.not_true, Bool.false_eq_true, if_false]
      cases malloc with
      | true => exact .inl ⟨⟨hfits, hnone, fun h => by simp [hgzip] at h, rfl⟩, _, rfl, rfl⟩
      | false => exact .inr ⟨fun h => Bool.false_ne_true h.malloc, .inl (hnoMemory _ _)⟩
    | false =>
      simp only [Bool.not_false, if_true]
      by_cases hlong : (lastPath config root request.localUri ++ ascii ".gz").length < UTF8_PATH_MAX
      swap
      · have hcut : (mgSnprintf UTF8_PATH_MAX (lastPath config root request.localUri ++ ascii ".gz")).2 = true := by
          rw [mgSnprintf, if_neg hlong]
        simp only [hcut, if_true]
        exact .inr ⟨fun h => hlong (h.gzip hgzip).1, .inl (cleanup_name _)⟩
      rw [mgSnprintf_fits _ _ hlong]
      simp only [Bool.false_eq_true, if_false]
      cases hstat : mgStat fs (lastPath config root request.localUri ++ ascii ".gz") with
      | some isDirectory =>
        refine .inr ⟨fun h => ?_, .inr (.inl rfl)⟩
        rw [(h.gzip hgzip).2] at hstat
        cases hstat
      | none =>
        cases malloc with
        | true => exact .inl ⟨⟨hfits, hnone, fun _ => ⟨hlong, hstat⟩, rfl⟩, _, rfl, rfl⟩
        | false => exact .inr ⟨fun h => Bool.false_ne_true h.malloc, .inl (hnoMemory _ _)⟩
  · refine .inr ⟨fun h => hno ⟨h.fits base (hcons ▸ hbase), h.missing base (hcons ▸ hbase)⟩, .inl ?_⟩
    simp only [interpretUri, hroots, htruncated]
    exact cleanup_name _
  · refine .inr ⟨fun h => hno ⟨h.fits base (hcons ▸ hbase), h.missing base (hcons ▸ hbase)⟩,
      .inr (.inr ⟨base', hcons ▸ hbase', hfits, ?_⟩)⟩
    simp only [interpretUri, hroots, hfound]
    exact ⟨_, isDirectory, rfl, rfl⟩

/-! ### Names outside of the root -/

/-- A script or an index file is found for a directory. -/
def StopsAt (fs : FileView) (config : UriConfig) (room : Nat) (dir : List Byte) : Prop :=
  (mgStat fs dir).isSome = true ∧ extentionMatchesScript config dir = true ∨
    mgStrcasecmp config.allowIndexScriptSubRes (ascii "yes") = 0 ∧ indexPath fs config room dir ≠ none

theorem levelEnd_none (fs : FileView) (config : UriConfig) (room sepPos : Nat) (dir : List Byte) :
    levelEnd fs config room sepPos dir = none ↔ ¬ StopsAt fs config room dir := by
  rw [levelEnd, StopsAt]
  by_cases hscript : (mgStat fs dir).isSome = true ∧ extentionMatchesScript config dir = true
  · simp [hscript]
  rw [if_neg hscript]
  by_cases hallow : mgStrcasecmp config.allowIndexScriptSubRes (ascii "yes") = 0
  · rw [if_pos hallow, Option.map_eq_none_iff]
    simp only [hscript, hallow, false_or, true_and, not_not]
  · rw [if_neg hallow]
    simp only [hscript, hallow, false_or, false_and, not_false_eq_true]

theorem levelEnd_some {fs : FileView} {config : UriConfig} {room sepPos : Nat} {dir : List Byte} {e : SearchEnd}
    (h : levelEnd fs config room sepPos dir = some e) :
    e = .script sepPos ∨ ∃ p, indexPath fs config room dir = some p ∧
      (e = .indexScript sepPos p ∨ e = .indexFile sepPos) := by
  rw [levelEnd] at h
  split_ifs at h
  · exact .inl (Option.some.inj h).symm
  · obtain ⟨p, hp, rfl⟩ := Option.map_eq_some_iff.mp h
    refine .inr ⟨p, hp, ?_⟩
    split_ifs
    · exact .inl rfl
    · exact .inr rfl

theorem indexIn_plain {fs : FileView} {config : UriConfig} {room : Nat} {dir p : List Byte} (hdir : NUL ∉ dir)
    (hnames : ∀ name ∈ optionEntries (config.indexFiles.getD []), NUL ∉ name)
    (h : indexIn fs config room dir = some p) : NUL ∉ p ∧ p ≠ [] := by
  obtain ⟨name, hname, rfl⟩ := Option.map_eq_some_iff.mp h
  rw [List.mem_append, List.mem_cons, not_or, not_or]
  exact ⟨⟨hdir, by decide, hnames name (List.mem_of_find?_eq_some hname)⟩, by simp⟩

theorem indexPath_plain {fs : FileView} {config : UriConfig} {room : Nat} {dir p : List Byte} (hdir : NUL ∉ dir)
    (hnames : ∀ name ∈ optionEntries (config.indexFiles.getD []), NUL ∉ name)
    (hfallback : ∀ fallback ∈ config.fallbackDocumentRoot, NUL ∉ fallback) (hroom : 2 ≤ room)
    (h : indexPath fs config room dir = some p) : NUL ∉ p ∧ p ≠ [] := by
  have hdir' : NUL ∉ dirName dir := fun hmem => hdir ((prefix_dirName dir).mem hmem)
  rcases Option.or_eq_some_iff.mp h with hin | ⟨-, hother⟩
  · exact indexIn_plain hdir' hnames hin
  rw [fallbackIndex] at hother
  cases hroot : config.documentRoot with
  | none => simp [hroot] at hother
  | some root =>
    cases hfb : config.fallbackDocumentRoot with
    | none => simp [hroot, hfb] at hother
    | some fallback =>
      simp only [hroot, hfb] at hother
      split_ifs at hother
      obtain ⟨q, hq, rfl⟩ := Option.map_eq_some_iff.mp hother
      have hscratch := fallbackPath_noNul root fallback (dirName dir) (hfallback fallback (by rw [hfb]; rfl)) hdir'
      obtain ⟨hq', hne⟩ := indexIn_plain (fun hmem => hscratch ((prefix_dirName _).mem hmem)) hnames hq
      refine ⟨fun hmem => hq' (List.mem_of_mem_take hmem), ?_⟩
      apply List.ne_nil_of_length_pos
      have hpos := List.length_pos_of_ne_nil hne
      rw [mgStrlcpy, List.length_take]
      omega

/-- What is found at the root or behind it is below it. -/
theorem levelEnd_below {fs : FileView} {config : UriConfig} {root path : List Byte} {room size sepPos i : Nat}
    {e : SearchEnd} (hconfig : RootedConfig config root) (hbelow : Below root path)
    (hi : (dirName root).length ≤ i) (hin : i ≤ sepPos) (hroom : (dirName root).length + 1 ≤ room)
    (h : levelEnd fs config room sepPos (path.take i) = some e) (hne : endName size path e ≠ []) :
    Below root (endName size path e) := by
  rcases levelEnd_some h with rfl | ⟨p, hp, rfl | rfl⟩
  · exact below_take hbelow (by omega)
  · rw [endName] at hne ⊢
    split_ifs at hne ⊢ with hfits
    · exact absurd rfl hne
    · exact indexPath_below (fun f hf => ⟨(hconfig.fallback f hf).1, (hconfig.fallback f hf).2.2⟩) hroom
        (below_take hbelow hi) hp
  · exact below_take hbelow (by omega)

/-- The name that is chosen is none, or below the root. -/
def StaysBelow (fs : FileView) (config : UriConfig) (malloc : Bool) (request : UriRequest) (size : Nat)
    (root : List Byte) : Prop :=
  cstr (interpretUri fs config malloc request size).filename ≠ [] →
    Below root (cstr (interpretUri fs config malloc request size).filename)

theorem lastPath_root (config : UriConfig) (root uri : List Byte) :
    ∃ base ∈ fileRoots config root, lastPath config root uri = base ++ uri := by
  rw [fileRoots, lastPath]
  cases config.fallbackDocumentRoot with
  | none => exact ⟨root, by simp, rfl⟩
  | some fallback => exact ⟨fallback, by simp, rfl⟩

theorem fileRoot_plain {config : UriConfig} {root uri base : List Byte} (hconfig : RootedConfig config root)
    (hplain : NUL ∉ uri) (hbase : base ∈ fileRoots config root) : NUL ∉ base ++ uri := by
  rw [List.mem_append, not_or]
  refine ⟨?_, hplain⟩
  rcases List.mem_cons.mp hbase with rfl | hother
  · exact hconfig.plain
  · exact (hconfig.fallback base (by simpa using hother)).2.1

theorem fileRoot_below {config : UriConfig} {root uri base : List Byte} (hconfig : RootedConfig config root)
    (huri : uri.head? = some SLASH) (hbase : base ∈ fileRoots config root) : Below root (base ++ uri) := by
  have hslash : ∀ c ∈ uri.head?, c = SLASH := by
    intro c hc
    rw [huri] at hc
    exact (Option.mem_some_iff.mp hc).symm
  rcases List.mem_cons.mp hbase with rfl | hother
  · exact below_append hslash
  · exact below_trans (hconfig.fallback base (by simpa using hother)).2.2 (below_append hslash)

section
variable (fs : FileView) (config : UriConfig) (malloc : Bool) (request : UriRequest) (size : Nat) (root : List Byte)
variable (hconfig : RootedConfig config root)
variable (hhttp : request.protocolType ≠ PROTOCOL_TYPE_WEBSOCKET ∨ config.websocketRoot = none)
variable (huri : request.localUri.head? = some SLASH) (hplain : NUL ∉ request.localUri)
include hconfig hhttp hplain

/-- The name after the search. -/
theorem searched_name (h : SearchReached fs config malloc request size root) (e : SearchEnd)
    (hend : (searchLoop fs config ((lastPath config root request.localUri).length + UTF8_PATH_MAX)
      (lastPath config root request.localUri).length
      (stringBuffer ((lastPath config root request.localUri).length + UTF8_PATH_MAX + 1)
        (lastPath config root request.localUri)) none).1 = e)
    (hlevel : e = .nothing ∨ ∃ m < (lastPath config root request.localUri).length, ∃ i ≤ m,
      (lastPath config root request.localUri)[m]? = some SLASH ∧
      levelEnd fs config ((lastPath config root request.localUri).length + UTF8_PATH_MAX) m
        ((lastPath config root request.localUri).take i) = some e) :
    cstr (interpretUri fs config malloc request size).filename =
      endName size (lastPath config root request.localUri) e := by
  obtain ⟨base, hbase, hlast⟩ := lastPath_root config root request.localUri
  have hpath := fileRoot_plain hconfig hplain hbase
  have hfits := h.fits base hbase
  rcases interpretUri_cases fs config malloc request size hconfig hhttp with ⟨-, r, hr, heq⟩ | ⟨hno, -⟩
  swap
  · exact absurd h hno
  rw [heq]
  rw [← hlast] at hpath hfits
  have hfallback : ∀ fallback ∈ config.fallbackDocumentRoot, NUL ∉ fallback :=
    fun f hf => (hconfig.fallback f hf).2.1
  refine scriptResource_name fs config r hpath hfits hr e _ (Prod.ext hend rfl) ?_ ?_ ?_
  all_goals rcases hlevel with rfl | ⟨m, hm, i, him, hslash, hlevel⟩
  · intro sepPos he
    cases he
  · rintro sepPos rfl
    rcases levelEnd_some hlevel with he | ⟨p, -, he | he⟩
    · cases he
      exact hslash
    · cases he
    · cases he
  · intro sepPos script he
    cases he
  · rintro sepPos script rfl
    rcases levelEnd_some hlevel with he | ⟨p, hp, he | he⟩
    · cases he
    · cases he
      exact ⟨(indexPath_plain (fun hmem => hpath (List.mem_of_mem_take hmem)) hconfig.names hfallback
        (by rw [UTF8_PATH_MAX]; omega) hp).1, hm.le⟩
    · cases he
  · intro sepPos he
    cases he
  · rintro sepPos rfl
    rcases levelEnd_some hlevel with he | ⟨p, -, he | he⟩
    · cases he
    · cases he
    · cases he
      exact hm

include huri

/-- A name that no script was searched for is below the root. -/
theorem staysBelow_direct (h : ¬ SearchReached fs config malloc request size root) :
    StaysBelow fs config malloc request size root := by
  intro hne
  rcases interpretUri_cases fs config malloc request size hconfig hhttp with ⟨hreached, -⟩ | ⟨-, hname⟩
  · exact absurd hreached h
  have hfallback : ∀ fallback ∈ config.fallbackDocumentRoot, NUL ∉ fallback :=
    fun f hf => (hconfig.fallback f hf).2.1
  rcases hname with hnil | hzipped | ⟨base, hbase, hfits, r, isDirectory, hr, heq⟩
  · exact absurd hnil hne
  · obtain ⟨base, hbase, hlast⟩ := lastPath_root config root request.localUri
    rw [hzipped, hlast, cstr_stringBuffer (fileRoot_plain hconfig hplain hbase)]
    exact fileRoot_below hconfig huri hbase
  · have hbelow := fileRoot_below hconfig huri hbase
    rw [heq]
    rcases foundFile_name fs config r request.localUri isDirectory
      (fileRoot_plain hconfig hplain hbase) hfits hr hconfig.names hfallback with
      hself | hdir | hindex
    · rw [hself]
      exact hbelow
    · rw [hdir]
      exact below_dirName hbelow
    · have hlen := below_length hbelow
      exact indexPath_below (fun f hf => ⟨(hconfig.fallback f hf).1, (hconfig.fallback f hf).2.2⟩) (by omega)
        hbelow hindex

end

/-- The name for what is found above the root, for a directory that is looked at, leads out of the root. -/
def Outside (fs : FileView) (config : UriConfig) (size : Nat) (root path : List Byte) (m : Nat)
    (dir : List Byte) : Prop :=
  (mgStat fs dir).isSome = true ∧ extentionMatchesScript config dir = true ∨
    mgStrcasecmp config.allowIndexScriptSubRes (ascii "yes") = 0 ∧
      ∃ p, indexPath fs config (path.length + UTF8_PATH_MAX) dir = some p ∧
        if extentionMatchesScript config p = true then p.length + (path.drop m).length + 2 < size ∧ ¬ Below root p
        else m ≠ 0

/-- The last place of a path at which a script or an index file is found is above the root. -/
structure EscapesAt (fs : FileView) (config : UriConfig) (size : Nat) (root path : List Byte) (m : Nat) : Prop where
  above : m < (dirName root).length
  first : ∀ k, m < k → ∀ dir ∈ searchedDir config (path.length + UTF8_PATH_MAX) path k,
    ¬ StopsAt fs config (path.length + UTF8_PATH_MAX) dir
  outside : ∃ dir ∈ searchedDir config (path.length + UTF8_PATH_MAX) path m, Outside fs config size root path m dir

theorem outside_stopsAt {fs : FileView} {config : UriConfig} {root path dir : List Byte} {size m : Nat}
    (h : Outside fs config size root path m dir) : StopsAt fs config (path.length + UTF8_PATH_MAX) dir := by
  rcases h with hscript | ⟨hallow, p, hp, -⟩
  · exact .inl hscript
  · exact .inr ⟨hallow, by rw [hp]; exact Option.some_ne_none p⟩

theorem not_below_take {root path : List Byte} {m : Nat} (hm : m < (dirName root).length) :
    ¬ Below root (path.take m) := by
  intro h
  have hlen := below_length h
  rw [List.length_take] at hlen
  omega

theorem levelEnd_outside {fs : FileView} {config : UriConfig} {root path dir : List Byte} (size : Nat) {m : Nat}
    {e : SearchEnd} (hconfig : RootedConfig config root) (hplain : NUL ∉ dir) (hm : m < (dirName root).length)
    (hpath : m < path.length) (hdir : dir.length ≤ m)
    (h : levelEnd fs config (path.length + UTF8_PATH_MAX) m dir = some e) :
    (endName size path e ≠ [] ∧ ¬ Below root (endName size path e)) ↔ Outside fs config size root path m dir := by
  have hnil : path.take m ≠ [] ↔ m ≠ 0 := by
    rw [ne_eq, List.take_eq_nil_iff, not_or]
    exact ⟨fun h => h.1, fun h => ⟨h, List.ne_nil_of_length_pos (by omega)⟩⟩
  rw [levelEnd] at h
  rw [Outside]
  by_cases hscript : (mgStat fs dir).isSome = true ∧ extentionMatchesScript config dir = true
  · rw [if_pos hscript, Option.some_inj] at h
    rw [← h, endName, hnil]
    refine iff_of_true ⟨?_, not_below_take hm⟩ (.inl hscript)
    rintro rfl
    rw [List.length_eq_zero_iff.mp (Nat.le_zero.mp hdir), mgStat_nil] at hscript
    cases hscript.1
  rw [if_neg hscript] at h
  by_cases hallow : mgStrcasecmp config.allowIndexScriptSubRes (ascii "yes") = 0
  swap
  · rw [if_neg hallow] at h
    cases h
  rw [if_pos hallow] at h
  obtain ⟨p, hp, he⟩ := Option.map_eq_some_iff.mp h
  have hne : p ≠ [] := (indexPath_plain hplain hconfig.names (fun f hf => (hconfig.fallback f hf).2.1)
    (by rw [UTF8_PATH_MAX]; omega) hp).2
  simp only [hscript, hallow, hp, false_or, true_and, Option.some.injEq, exists_eq_left']
  by_cases hext : extentionMatchesScript config p = true
  · rw [if_pos hext] at he ⊢
    rw [← he, endName]
    split_ifs with hfits
    · simp only [ne_eq, not_true_eq_false, false_and, false_iff, not_and]
      omega
    · simp only [ne_eq, hne, not_false_eq_true, true_and]
      exact ⟨fun h => ⟨by omega, h⟩, fun h => h.2⟩
  · rw [if_neg hext] at he ⊢
    rw [← he, endName, hnil]
    exact ⟨fun h => h.1, fun h => ⟨h, not_below_take hm⟩⟩

/-- Slashes up to a place behind the root start behind the root. -/
theorem slashRun_below {root path : List Byte} {i m : Nat} (hbelow : Below root path)
    (hrun : SlashRun path i (m + 1)) (hm : (dirName root).length ≤ m) : (dirName root).length ≤ i := by
  by_contra hi
  obtain ⟨n, hn⟩ : ∃ n, n + 1 = (dirName root).length := ⟨(dirName root).length - 1, by omega⟩
  obtain ⟨rest, rfl, -⟩ := hbelow
  have hslash := hrun n (by omega) (by omega)
  rw [List.getElem?_append_left (by omega)] at hslash
  exact dirName_last root hn hslash

section
variable (fs : FileView) (config : UriConfig) (malloc : Bool) (request : UriRequest) (size : Nat) (root : List Byte)
variable (hconfig : RootedConfig config root)
variable (hhttp : request.protocolType ≠ PROTOCOL_TYPE_WEBSOCKET ∨ config.websocketRoot = none)
variable (huri : request.localUri.head? = some SLASH) (hplain : NUL ∉ request.localUri)
include hconfig hhttp huri hplain

/-- A name stays below the root unless a script is searched for and the last place of the path that has one, or
an index file, is above the root. -/
theorem staysBelow_iff :
    StaysBelow fs config malloc request size root ↔
      ¬ (SearchReached fs config malloc request size root ∧
        ∃ m, EscapesAt fs config size root (lastPath config root request.localUri) m) := by
  by_cases hreached : SearchReached fs config malloc request size root
  swap
  · exact iff_of_true (staysBelow_direct fs config malloc request size root hconfig hhttp huri hplain hreached)
      fun h => hreached h.1
  have hname := searched_name fs config malloc request size root hconfig hhttp hplain hreached
  obtain ⟨base, hbase, hlast⟩ := lastPath_root config root request.localUri
  have hpath := fileRoot_plain hconfig hplain hbase
  have hbelow := fileRoot_below hconfig huri hbase
  rw [← hlast] at hpath hbelow
  obtain ⟨path, hp⟩ : ∃ path, path = lastPath config root request.localUri := ⟨_, rfl⟩
  rw [← hp] at hname hpath hbelow ⊢
  have hbuf : (stringBuffer (path.length + UTF8_PATH_MAX + 1) path).length = path.length + UTF8_PATH_MAX + 1 :=
    length_stringBuffer (by omega)
  have hcopied : Copied config (path.length + UTF8_PATH_MAX) path
      (stringBuffer (path.length + UTF8_PATH_MAX + 1) path) path.length := by
    refine .kept (by rw [stringBuffer, List.take_left, List.take_length]) fun _ hend => ?_
    rw [List.getElem?_eq_none (le_refl _)] at hend
    cases hend
  rcases searchLoop_last fs config (path.length + UTF8_PATH_MAX) hconfig.names
    (fun f hf => (hconfig.fallback f hf).2.1) path hpath (stringBuffer (path.length + UTF8_PATH_MAX + 1) path)
    path.length none (le_refl _) hcopied (by omega) with
    ⟨hall, hnothing⟩ | ⟨m, hm, hbehind, dir, hdir, hend⟩
  · refine iff_of_true ?_ ?_
    · intro _
      rw [hname _ rfl (.inl hnothing), hnothing]
      exact hbelow
    · rintro ⟨-, m, hescape⟩
      obtain ⟨dir, hdir, hout⟩ := hescape.outside
      obtain ⟨hm, -⟩ := List.getElem?_eq_some_iff.mp (searchedDir_take hdir).1
      exact (levelEnd_none fs config _ m _).mp (hall m hm dir hdir) (outside_stopsAt hout)
  obtain ⟨hslash, i, him, hrun, rfl⟩ := searchedDir_take hdir
  have hstop : StopsAt fs config (path.length + UTF8_PATH_MAX) (path.take i) := by
    by_contra h
    rw [← levelEnd_none fs config _ m, hend] at h
    cases h
  -- nothing that is found in front of this place is reached, and nothing is found behind it
  have honly (m' : Nat) (h : EscapesAt fs config size root path m') : m' = m := by
    obtain ⟨dir', hdir', hout⟩ := h.outside
    obtain ⟨hm', -⟩ := List.getElem?_eq_some_iff.mp (searchedDir_take hdir').1
    rcases Nat.lt_trichotomy m' m with hlt | heq | hgt
    · exact absurd hstop (h.first m hlt _ hdir)
    · exact heq
    · exact absurd (outside_stopsAt hout) ((levelEnd_none fs config _ m' _).mp (hbehind m' hm' hgt dir' hdir'))
  have hname' := hname _ rfl (.inr ⟨m, hm, i, him, hslash, hend⟩)
  rw [StaysBelow, hname']
  by_cases habove : m < (dirName root).length
  · have hout := levelEnd_outside size hconfig (fun hmem => hpath (List.mem_of_mem_take hmem)) habove hm
      (by rw [List.length_take]; omega) hend
    rw [← not_iff_not, not_not, Classical.not_imp, hout]
    constructor
    · intro h
      refine ⟨hreached, m, habove, fun k hmk dir' hdir' => ?_, _, hdir, h⟩
      obtain ⟨hk, -⟩ := List.getElem?_eq_some_iff.mp (searchedDir_take hdir').1
      exact (levelEnd_none fs config _ k _).mp (hbehind k hk hmk dir' hdir')
    · rintro ⟨-, m', hescape⟩
      obtain ⟨dir', hdir', hout'⟩ := hescape.outside
      rw [honly m' hescape] at hdir' hout'
      rwa [Option.mem_unique hdir' hdir] at hout'
  · refine iff_of_true (levelEnd_below hconfig hbelow (slashRun_below hbelow hrun (by omega)) him
      (by have := below_length hbelow; rw [UTF8_PATH_MAX]; omega) hend) ?_
    rintro ⟨-, m', hescape⟩
    have h := hescape.above
    rw [honly m' hescape] at h
    exact habove h

end

/-- A server whose index scripts may have sub-resources. -/
def rootedConfig : UriConfig where
  documentRoot := some (ascii "/srv/www")
  fallbackDocumentRoot := none
  websocketRoot := none
  fallbackWebsocketRoot := none
  urlRewritePatterns := none
  indexFiles := some (ascii "index.html,index.cgi")
  scriptExtensions := [ascii "**.cgi$"]
  templateExtensions := []
  allowIndexScriptSubRes := ascii "yes"

def rootedRequest : UriRequest := ⟨ascii "GET", ascii "/a", 0, none⟩

def soleFile (name : String) : FileView := ⟨fun path => if path = ascii name then some false else none, fun _ => none⟩

theorem rootedConfig_rooted : RootedConfig rootedConfig (ascii "/srv/www") where
  documentRoot := rfl
  urlRewritePatterns := rfl
  plain := by decide
  names := by decide
  fallback := by simp [rootedConfig]

/-- An index script in the root itself is chosen. -/
theorem staysBelow_iff_root :
    StaysBelow (soleFile "/srv/www/index.cgi") rootedConfig true rootedRequest 64 (ascii "/srv/www") := by
  refine (staysBelow_iff (soleFile "/srv/www/index.cgi") rootedConfig true rootedRequest 64 (ascii "/srv/www")
    rootedConfig_rooted (.inr rfl) (by decide) (by decide)).mpr ?_
  rintro ⟨-, m, hescape⟩
  have hlast : searchedDir rootedConfig (10 + UTF8_PATH_MAX) (ascii "/srv/www/a") 8 = some (ascii "/srv/www") := by
    decide
  refine hescape.first 8 hescape.above _ hlast (.inr ⟨by decide, ?_⟩)
  have hindex : indexPath (soleFile "/srv/www/index.cgi") rootedConfig (10 + UTF8_PATH_MAX) (ascii "/srv/www") =
      some (ascii "/srv/www/index.cgi") := by decide +kernel
  exact fun h => absurd (hindex.symm.trans h) (by simp)

/-- With an index script in the parent directory of the root that script is chosen. -/
theorem staysBelow_parent : RootedConfig rootedConfig (ascii "/srv/www") ∧
    ¬ StaysBelow (soleFile "/srv/index.cgi") rootedConfig true rootedRequest 64 (ascii "/srv/www") := by
  refine ⟨rootedConfig_rooted, ?_⟩
  have hname : cstr (interpretUri (soleFile "/srv/index.cgi") rootedConfig true rootedRequest 64).filename =
      ascii "/srv/index.cgi" := by decide +kernel
  rw [StaysBelow, hname]
  intro h
  obtain ⟨rest, hrest, -⟩ := h (by decide)
  have hbefore : dirName (ascii "/srv/www") <+: ascii "/srv/index.cgi" := ⟨rest, hrest.symm⟩
  exact absurd hbefore (by decide)

end CivetWeb
