import CivetWeb.Files.InterpretUri
import Mathlib.Data.List.Infix

namespace CivetWeb

/-! ### The two strings of a script and what it is asked for -/

/-- `SCRIPT_NAME` of `prepare_cgi_environment`; a precision that is negative is none. -/
def scriptName (localUri prog : List Byte) : Option (List Byte) → Option (List Byte)
  | none =>
    if localUri.getLast? ≠ some SLASH then some localUri
    else if SLASH ∈ prog then some (localUri ++ prog.rtakeWhile (· != SLASH))
    else none
  | some pathInfo =>
    some (if pathInfo.length ≤ localUri.length then localUri.take (localUri.length - pathInfo.length)
      else localUri)

/-- The string that `path_info` points to. -/
def UriResult.pathInfoText (r : UriResult) : Option (List Byte) := r.pathInfo.map fun i => cstr (r.filename.drop i)

/-- A script that is a part of a path, in front of a slash. -/
structure ScriptAt (fs : FileView) (config : UriConfig) (path p : List Byte) : Prop where
  before : p ++ [SLASH] <+: path
  found : (mgStat fs p).isSome = true
  script : extentionMatchesScript config p = true

/-! ### A name split in its buffer -/

theorem drop_append_one (p : List Byte) (c : Byte) (s : List Byte) : (p ++ c :: s).drop (p.length + 1) = s := by
  rw [List.drop_length_add_append, List.drop_one, List.tail_cons]

/-- The tail of a name is moved by one byte to make room for the NUL behind the script. -/
theorem takeScript_eq (p rest : List Byte) (m : Nat) (hrest : NUL ∉ rest) :
    takeScript (p ++ SLASH :: (rest ++ List.replicate (m + 2) NUL)) p.length =
      p ++ NUL :: SLASH :: (rest ++ List.replicate (m + 1) NUL) := by
  have hset : (p ++ SLASH :: (rest ++ List.replicate (m + 2) NUL)).set p.length NUL =
      p ++ NUL :: (rest ++ List.replicate (m + 2) NUL) := by
    rw [List.set_append_right _ _ (le_refl _), Nat.sub_self, List.set_cons_zero]
  have hstr : cstr (rest ++ List.replicate (m + 2) NUL) = rest := by
    rw [List.replicate_succ, cstr_append_nul hrest]
  obtain ⟨c, s, hs⟩ : ∃ c s, rest ++ List.replicate (m + 2) NUL = c :: s := by
    cases rest with
    | nil => exact ⟨NUL, List.replicate (m + 1) NUL, rfl⟩
    | cons c rest => exact ⟨c, rest ++ List.replicate (m + 2) NUL, rfl⟩
  have hmove : memmove (p ++ NUL :: (rest ++ List.replicate (m + 2) NUL)) (p.length + 2) (p.length + 1)
      (rest.length + 1) = p ++ NUL :: c :: (rest ++ List.replicate (m + 1) NUL) := by
    have htake : (p ++ NUL :: c :: s).take (p.length + 2) = p ++ [NUL, c] := by
      rw [List.take_length_add_append, List.take_succ_cons, List.take_succ_cons, List.take_zero]
    have hmid : (rest ++ List.replicate (m + 2) NUL).take (rest.length + 1) = rest ++ [NUL] := by
      rw [List.take_length_add_append, List.replicate_succ, List.take_succ_cons, List.take_zero]
    have hend : (p ++ NUL :: (rest ++ List.replicate (m + 2) NUL)).drop (p.length + 2 + (rest.length + 1)) =
        List.replicate m NUL := by
      rw [show p.length + 2 + (rest.length + 1) = p.length + 1 + (rest.length + 2) by omega, ← List.drop_drop,
        drop_append_one, List.drop_length_add_append, List.drop_replicate, Nat.add_sub_cancel]
    rw [memmove, drop_append_one, hmid, hend, hs, htake, List.replicate_succ]
    simp only [List.append_assoc, List.cons_append, List.nil_append]
  have hlast : (p ++ NUL :: c :: (rest ++ List.replicate (m + 1) NUL)).set (p.length + 1) SLASH =
      p ++ NUL :: SLASH :: (rest ++ List.replicate (m + 1) NUL) := by
    rw [List.set_append_right _ _ (by omega), Nat.add_sub_cancel_left, List.set_cons_succ, List.set_cons_zero]
  simp only [takeScript]
  rw [hset, drop_append_one, hstr, hmove, hlast]

/-! ### The search for the script -/

theorem prefix_singleton (p path : List Byte) (c : Byte) :
    p ++ [c] <+: path ↔ p = path.take p.length ∧ path[p.length]? = some c := by
  constructor
  · rintro ⟨rest, rfl⟩
    rw [List.append_assoc, List.take_left, List.getElem?_append_right (le_refl _), Nat.sub_self]
    exact ⟨rfl, rfl⟩
  · rintro ⟨hp, hc⟩
    obtain ⟨hlt, hget⟩ := List.getElem?_eq_some_iff.mp hc
    refine ⟨path.drop (p.length + 1), ?_⟩
    conv_lhs => rw [hp]
    rw [List.append_assoc, List.singleton_append, ← hget, List.length_take, Nat.min_eq_left (by omega),
      List.getElem_cons_drop, List.take_append_drop]

theorem mgStat_nil (fs : FileView) : mgStat fs [] = none := rfl

/-- One place of the search without index scripts. -/
theorem searchLoop_succ (fs : FileView) (config : UriConfig) (pathLen : Nat) (path zeros : List Byte)
    (hpath : NUL ∉ path) (hallow : mgStrcasecmp config.allowIndexScriptSubRes (ascii "yes") ≠ 0) {n : Nat}
    (hn : n < path.length) (filestat : Option Bool) :
    ∃ filestat', searchLoop fs config pathLen (n + 1) (path ++ zeros) filestat =
      if path[n]? = some SLASH ∧ (mgStat fs (path.take n)).isSome = true ∧
          extentionMatchesScript config (path.take n) = true
      then (.script n, filestat') else searchLoop fs config pathLen n (path ++ zeros) filestat' := by
  have hget : (path ++ zeros)[n]? = path[n]? := List.getElem?_append_left hn
  rw [searchLoop, hget]
  by_cases hslash : path[n]? = some SLASH
  · have hcstr : cstr ((path ++ zeros).set n NUL) = path.take n := by
      have htake : (path ++ zeros).take n = path.take n := List.take_append_of_le_length (by omega)
      rw [cstr_set_nul (by rw [List.length_append]; omega), htake]
      exact htake ▸ fun h => hpath (List.mem_of_mem_take h)
    have hback : ((path ++ zeros).set n NUL).set n SLASH = path ++ zeros := by
      rw [List.set_set]
      apply List.ext_getElem?
      intro i
      rw [List.getElem?_set]
      split_ifs with hi hlt
      · rw [← hi, hget, hslash]
      · rw [List.length_append] at hlt
        omega
      · rfl
    rw [if_pos hslash]
    simp only [hcstr, hback, if_neg hallow]
    refine ⟨if path.take n = [] then filestat else mgStat fs (path.take n), ?_⟩
    by_cases hnil : path.take n = []
    · simp [hnil, mgStat_nil]
    · simp [hnil, hslash]
  · rw [if_neg hslash]
    exact ⟨filestat, by rw [if_neg fun h => hslash h.1]⟩

/-- The search without index scripts ends at the last place that has a script. -/
theorem searchLoop_script (fs : FileView) (config : UriConfig) (pathLen : Nat) (path zeros : List Byte)
    (hpath : NUL ∉ path) (hallow : mgStrcasecmp config.allowIndexScriptSubRes (ascii "yes") ≠ 0) (n : Nat)
    (hn : n ≤ path.length) (filestat : Option Bool) :
    (∃ p, ScriptAt fs config path p ∧ (∀ q, ScriptAt fs config path q → q.length < n → q.length ≤ p.length) ∧
        (searchLoop fs config pathLen n (path ++ zeros) filestat).1 = .script p.length) ∨
      (∀ q, ScriptAt fs config path q → n ≤ q.length) ∧
        (searchLoop fs config pathLen n (path ++ zeros) filestat).1 = .nothing := by
  induction n generalizing filestat with
  | zero => exact .inr ⟨fun q _ => Nat.zero_le _, rfl⟩
  | succ n ih =>
    obtain ⟨filestat', hstep⟩ := searchLoop_succ fs config pathLen path zeros hpath hallow hn filestat
    have hlen : (path.take n).length = n := List.length_take_of_le (by omega)
    rw [hstep]
    split_ifs with h
    · obtain ⟨hslash, hfound, hscript⟩ := h
      have hat : ScriptAt fs config path (path.take n) :=
        ⟨(prefix_singleton _ _ _).mpr ⟨by rw [hlen], by rw [hlen]; exact hslash⟩, hfound, hscript⟩
      exact .inl ⟨path.take n, hat, fun q _ hq => by omega, by rw [hlen]⟩
    · have hno (q : List Byte) (hq : ScriptAt fs config path q) : q.length ≠ n := by
        rintro rfl
        obtain ⟨htake, hslash⟩ := (prefix_singleton _ _ _).mp hq.before
        exact h ⟨hslash, htake ▸ hq.found, htake ▸ hq.script⟩
      rcases ih (by omega) filestat' with ⟨p, hp, hmax, hend⟩ | ⟨hall, hend⟩
      · exact .inl ⟨p, hp, fun q hq hlt => hmax q hq (by have := hno q hq; omega), hend⟩
      · exact .inr ⟨fun q hq => by have := hno q hq; have := hall q hq; omega, hend⟩

/-! ### The name and the path behind it -/

/-- A request that does not take gzip. -/
def UriRequest.plain (request : UriRequest) : Bool :=
  request.acceptEncoding.all fun value => (Scan.find (ascii "gzip") value).isNone

theorem tryRoots_missing (fs : FileView) (config : UriConfig) (root uri filename : List Byte)
    {filenameBufLen : Nat} (hrewrite : config.urlRewritePatterns = none)
    (hfits : root.length + uri.length + 2 ≤ filenameBufLen) (hmissing : mgStat fs (root ++ uri) = none) :
    tryRoots fs config filenameBufLen uri [root] filename = .missing (root ++ uri) := by
  have hprint : mgSnprintf (filenameBufLen - 1) (root ++ uri) = (root ++ uri, false) :=
    mgSnprintf_fits _ _ (by rw [List.length_append]; omega)
  have hnone : rewriteUri config uri = none := by
    rw [rewriteUri, hrewrite]
    rfl
  simp only [tryRoots, hprint, hnone, hmissing, Bool.false_eq_true, if_false]

theorem interpretUri_missing (fs : FileView) (config : UriConfig) (request : UriRequest) {root : List Byte}
    {filenameBufLen : Nat}
    (hroots : uriRoots config (request.protocolType == PROTOCOL_TYPE_WEBSOCKET) = [root])
    (hrewrite : config.urlRewritePatterns = none) (hgzip : request.plain = true)
    (hfits : root.length + request.localUri.length + 2 ≤ filenameBufLen)
    (hmissing : mgStat fs (root ++ request.localUri) = none) :
    ∃ r : UriResult, r.filename = stringBuffer filenameBufLen (root ++ request.localUri) ∧ r.pathInfo = none ∧
      interpretUri fs config true request filenameBufLen =
        scriptResource fs config true r (root ++ request.localUri) := by
  have haccept : (request.acceptEncoding.any fun value => (Scan.find (ascii "gzip") value).isSome) = false := by
    rw [UriRequest.plain] at hgzip
    cases hvalue : request.acceptEncoding with
    | none => rfl
    | some value =>
      rw [hvalue] at hgzip
      simpa using hgzip
  have htry := tryRoots_missing fs config root request.localUri [] hrewrite hfits hmissing
  simp only [interpretUri, hroots, htry, haccept, Bool.false_eq_true, if_false]
  exact ⟨_, rfl, rfl, rfl⟩

/-- What the search leaves of the name, for a script and without one. -/
theorem scriptResource_split (fs : FileView) (config : UriConfig) (r : UriResult) {path : List Byte}
    {size : Nat} (hplain : NUL ∉ path) (hallow : mgStrcasecmp config.allowIndexScriptSubRes (ascii "yes") ≠ 0)
    (hsize : path.length + 2 ≤ size) (hr : r.filename = stringBuffer size path) (hinfo : r.pathInfo = none) :
    (∃ p pathInfo, ScriptAt fs config path p ∧ (∀ q, ScriptAt fs config path q → q.length ≤ p.length) ∧
        p ++ pathInfo = path ∧ (scriptResource fs config true r path).filename.length = size ∧
        cstr (scriptResource fs config true r path).filename = p ∧
        (scriptResource fs config true r path).pathInfoText = some pathInfo) ∨
      (¬ ∃ p, ScriptAt fs config path p) ∧ cstr (scriptResource fs config true r path).filename = path ∧
        (scriptResource fs config true r path).pathInfoText = none := by
  have hshort (q : List Byte) (hq : ScriptAt fs config path q) : q.length < path.length := by
    have hlen := hq.before.length_le
    rw [List.length_append, List.length_singleton] at hlen
    exact hlen
  have hsearch := searchLoop_script fs config (path.length + UTF8_PATH_MAX) path
    (List.replicate (path.length + UTF8_PATH_MAX + 1 - path.length) NUL) hplain hallow path.length (le_refl _) none
  rcases hsearch with ⟨p, hp, hmax, hend⟩ | ⟨hall, hend⟩
  · obtain ⟨rest, hrest⟩ := hp.before
    rw [List.append_assoc, List.singleton_append] at hrest
    obtain ⟨m, hm⟩ : ∃ m, size - path.length = m + 2 := ⟨size - path.length - 2, by omega⟩
    have hplain' : NUL ∉ p ∧ NUL ∉ rest := by
      rw [← hrest, List.mem_append, List.mem_cons, not_or, not_or] at hplain
      exact ⟨hplain.1, hplain.2.2⟩
    have hname : (scriptResource fs config true r path).filename =
        p ++ NUL :: SLASH :: (rest ++ List.replicate (m + 1) NUL) := by
      have hbuf : r.filename = p ++ SLASH :: (rest ++ List.replicate (m + 2) NUL) := by
        rw [hr, stringBuffer, hm, ← hrest, List.append_assoc, List.cons_append]
      rw [← takeScript_eq p rest m hplain'.2, ← hbuf]
      simp only [scriptResource, stringBuffer, hend, Bool.not_true, Bool.false_eq_true, if_false]
    have hinfo : (scriptResource fs config true r path).pathInfo = some (p.length + 1) := by
      simp only [scriptResource, stringBuffer, hend, Bool.not_true, Bool.false_eq_true, if_false]
    have hslash : NUL ∉ SLASH :: rest := by
      rw [List.mem_cons, not_or]
      exact ⟨by decide, hplain'.2⟩
    refine .inl ⟨p, SLASH :: rest, hp, fun q hq => hmax q hq (hshort q hq), hrest, ?_, ?_, ?_⟩
    · rw [← hrest, List.length_append, List.length_cons] at hm hsize
      rw [hname]
      simp only [List.length_append, List.length_cons, List.length_replicate]
      omega
    · rw [hname, cstr_append_nul hplain'.1]
    · rw [UriResult.pathInfoText, hinfo, Option.map_some, hname, drop_append_one, List.replicate_succ,
        ← List.cons_append, cstr_append_nul hslash]
  · have hnone : ¬ ∃ q, ScriptAt fs config path q := by
      rintro ⟨q, hq⟩
      have := hshort q hq
      exact absurd (hall q hq) (by omega)
    refine .inr ⟨hnone, ?_, ?_⟩
    · simp only [scriptResource, stringBuffer, hend, Bool.not_true, Bool.false_eq_true, if_false]
      rw [hr, cstr_stringBuffer hplain]
    · simp only [scriptResource, stringBuffer, hend, Bool.not_true, Bool.false_eq_true, if_false,
        UriResult.pathInfoText, hinfo, Option.map_none]

/-- A script behind the root leaves the path that is asked of it within the URI. -/
theorem pathInfo_length {fs : FileView} {config : UriConfig} {root uri p pathInfo : List Byte}
    (hroot : ∀ p, p ++ [SLASH] <+: root → extentionMatchesScript config p = false)
    (hp : ScriptAt fs config (root ++ uri) p) (h : p ++ pathInfo = root ++ uri) :
    ∃ name, name ++ pathInfo = uri := by
  rcases Nat.lt_or_ge p.length root.length with hlt | hge
  · have hinside : p ++ [SLASH] <+: root := by
      apply List.prefix_of_prefix_length_le hp.before (List.prefix_append root uri)
      rw [List.length_append, List.length_singleton]
      exact hlt
    have hno := hroot p hinside
    exact absurd hp.script (by rw [hno]; decide)
  · obtain ⟨name, hname⟩ := List.prefix_of_prefix_length_le (List.prefix_append root uri)
      ⟨pathInfo, h⟩ hge
    rw [← hname, List.append_assoc] at h
    exact ⟨name, List.append_cancel_left h⟩

/-- The longest script in front of a slash is split off the path of a file that does not exist, both parts in
the one buffer; `SCRIPT_NAME` is the part of the URI in front of `PATH_INFO`. -/
theorem interpretUri_split (fs : FileView) (config : UriConfig) (request : UriRequest) (root : List Byte)
    (filenameBufLen : Nat) (hplain : NUL ∉ root ++ request.localUri)
    (hroots : uriRoots config (request.protocolType == PROTOCOL_TYPE_WEBSOCKET) = [root])
    (hrewrite : config.urlRewritePatterns = none)
    (hallow : mgStrcasecmp config.allowIndexScriptSubRes (ascii "yes") ≠ 0) (hgzip : request.plain = true)
    (hfits : root.length + request.localUri.length + 2 ≤ filenameBufLen)
    (hmissing : mgStat fs (root ++ request.localUri) = none)
    (hroot : ∀ p, p ++ [SLASH] <+: root → extentionMatchesScript config p = false) :
    let r := interpretUri fs config true request filenameBufLen
    ((∃ p, ScriptAt fs config (root ++ request.localUri) p) →
      ∃ p pathInfo, ScriptAt fs config (root ++ request.localUri) p ∧
        (∀ q, ScriptAt fs config (root ++ request.localUri) q → q.length ≤ p.length) ∧
        r.filename.length = filenameBufLen ∧ cstr r.filename = p ∧ r.pathInfoText = some pathInfo ∧
        p ++ pathInfo = root ++ request.localUri ∧
        ∃ name, scriptName request.localUri (cstr r.filename) r.pathInfoText = some name ∧
          name ++ pathInfo = request.localUri) ∧
    ((¬ ∃ p, ScriptAt fs config (root ++ request.localUri) p) →
      cstr r.filename = root ++ request.localUri ∧ r.pathInfoText = none) := by
  obtain ⟨r, hr, hinfo, heq⟩ :=
    interpretUri_missing fs config request hroots hrewrite hgzip hfits hmissing
  have hsize : (root ++ request.localUri).length + 2 ≤ filenameBufLen := by
    rw [List.length_append]
    exact hfits
  simp only [heq]
  rcases scriptResource_split fs config r hplain hallow hsize hr hinfo with
    ⟨p, pathInfo, hp, hmax, hsplit, hlen, hname, htext⟩ | ⟨hno, hname, htext⟩
  · obtain ⟨name, huri⟩ := pathInfo_length hroot hp hsplit
    refine ⟨fun _ => ⟨p, pathInfo, hp, hmax, hlen, hname, htext, hsplit, name, ?_, huri⟩,
      fun h => absurd ⟨p, hp⟩ h⟩
    have hle : pathInfo.length ≤ request.localUri.length := by
      rw [← huri, List.length_append]
      omega
    rw [htext, scriptName, if_pos hle, ← huri, List.length_append, Nat.add_sub_cancel, List.take_left]
  · exact ⟨fun h => absurd h hno, fun _ => ⟨hname, htext⟩⟩

/-- A server with one script. -/
def scriptFiles : FileView where
  stat path := if path = ascii "/srv/cgi/a.cgi" then some false else none
  fopen _ := none

def scriptConfig : UriConfig where
  documentRoot := some (ascii "/srv")
  fallbackDocumentRoot := none
  websocketRoot := none
  fallbackWebsocketRoot := none
  urlRewritePatterns := none
  indexFiles := some (ascii "index.html,index.cgi")
  scriptExtensions := [ascii "**.cgi$"]
  templateExtensions := [ascii "**.shtml$"]
  allowIndexScriptSubRes := ascii "no"

def scriptRequest : UriRequest where
  requestMethod := ascii "GET"
  localUri := ascii "/cgi/a.cgi/x/y"
  protocolType := 0
  acceptEncoding := some (ascii "identity")

theorem interpretUri_split_script :
    ∃ p pathInfo, ScriptAt scriptFiles scriptConfig (ascii "/srv/cgi/a.cgi/x/y") p ∧
      cstr (interpretUri scriptFiles scriptConfig true scriptRequest 64).filename = p ∧
      (interpretUri scriptFiles scriptConfig true scriptRequest 64).pathInfoText = some pathInfo ∧
      p ++ pathInfo = ascii "/srv/cgi/a.cgi/x/y" ∧
      ∃ name, scriptName (ascii "/cgi/a.cgi/x/y")
          (cstr (interpretUri scriptFiles scriptConfig true scriptRequest 64).filename)
          (interpretUri scriptFiles scriptConfig true scriptRequest 64).pathInfoText = some name ∧
        name ++ pathInfo = ascii "/cgi/a.cgi/x/y" := by
  have hat : ScriptAt scriptFiles scriptConfig (ascii "/srv" ++ scriptRequest.localUri) (ascii "/srv/cgi/a.cgi") :=
    ⟨⟨ascii "x/y", by decide⟩, by decide +kernel, by decide +kernel⟩
  have hroot : ∀ p ∈ (ascii "/srv").inits, p ++ [SLASH] <+: ascii "/srv" →
      extentionMatchesScript scriptConfig p = false := by decide +kernel
  obtain ⟨p, pathInfo, hp, -, -, hname, htext, hsplit, hscript⟩ :=
    (interpretUri_split scriptFiles scriptConfig scriptRequest (ascii "/srv") 64 (by decide) (by decide) rfl
      (by decide) (by decide) (by decide) (by decide)
      fun p hp => hroot p ((List.mem_inits _ _).mpr ((List.prefix_append p [SLASH]).trans hp)) hp).1 ⟨_, hat⟩
  exact ⟨p, pathInfo, hp, hname, htext, hsplit, hscript⟩

end CivetWeb
