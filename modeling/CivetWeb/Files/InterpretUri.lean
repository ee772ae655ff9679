import CivetWeb.Auth.CheckAuthorization
import CivetWeb.Auth.SkipQuoted
import CivetWeb.Handlers.HandleRequest
import CivetWeb.Match.Match

namespace CivetWeb

/-! ### From a URI to a file -/

/-- The options of a domain that `interpret_uri` reads; `scriptExtensions` are the patterns of
`extention_matches_script` and `templateExtensions` those of `extention_matches_template_text`. -/
structure UriConfig where
  documentRoot : Option (List Byte)
  fallbackDocumentRoot : Option (List Byte)
  websocketRoot : Option (List Byte)
  fallbackWebsocketRoot : Option (List Byte)
  urlRewritePatterns : Option (List Byte)
  indexFiles : Option (List Byte)
  scriptExtensions : List (List Byte)
  templateExtensions : List (List Byte)
  allowIndexScriptSubRes : List Byte
  deriving DecidableEq, Repr

/-- `match_prefix`: the length of what is matched. -/
def matchPrefixLen (pattern str : List Byte) : Option Nat := (Match.mgMatchAlternatives pattern str none).1

def extentionMatchesScript (config : UriConfig) (filename : List Byte) : Bool :=
  config.scriptExtensions.any fun pattern => (matchPrefixLen pattern filename).any (0 < ·)

def extentionMatchesTemplateText (config : UriConfig) (filename : List Byte) : Bool :=
  config.templateExtensions.any fun pattern => (matchPrefixLen pattern filename).any (0 < ·)

def isCivetwebWebdavMethod (s : List Byte) : Bool :=
  s == ascii "PROPFIND" || s == ascii "PROPPATCH" || s == ascii "LOCK" || s == ascii "UNLOCK" ||
    s == ascii "MOVE" || s == ascii "COPY"

/-- The entries that `next_option` goes through. -/
def optionEntries (list : List Byte) : List (List Byte) :=
  ((list.splitOn COMMA).map trimBlanks).filter (· ≠ [])

/-- A buffer of a size that holds a string. -/
def stringBuffer (size : Nat) (s : List Byte) : List Byte := s ++ List.replicate (size - s.length) NUL

/-- Bytes written into a buffer. -/
def copyInto (buf : List Byte) (pos : Nat) (bytes : List Byte) : List Byte :=
  buf.take pos ++ (bytes ++ buf.drop (pos + bytes.length))

/-- Whether an index file is found, the path in its buffer, and the file status. -/
structure IndexSearch where
  found : Bool
  path : List Byte
  filestat : Option Bool
  deriving DecidableEq, Repr

/-- The loop of `substitute_index_file_aux` over the index files, each appended behind `path[n]`. -/
def indexLoop (fs : FileView) (pathLen n : Nat) : List (List Byte) → List Byte → Option Bool → IndexSearch
  | [], path, filestat => ⟨false, path, filestat⟩
  | name :: names, path, filestat =>
    if pathLen - (n + 1) < name.length + 1 then indexLoop fs pathLen n names path filestat
    else
      let path := copyInto path (n + 1) (name ++ [NUL])
      let filestat := mgStat fs (cstr path)
      if filestat.isSome then ⟨true, path, filestat⟩
      else indexLoop fs pathLen n names path filestat

/-- The end of a path without the slashes there. -/
def pathEnd (path : List Byte) : Nat := ((cstr path).rdropWhile (· == SLASH)).length

def substituteIndexFileAux (fs : FileView) (config : UriConfig) (path : List Byte) (pathLen : Nat)
    (filestat : Option Bool) : IndexSearch :=
  let n := pathEnd path
  let r := indexLoop fs pathLen n (optionEntries (config.indexFiles.getD [])) (path.set n SLASH) filestat
  if r.found then r else { r with path := r.path.set n NUL }

/-- The directory below the fallback root for one below the root. -/
def fallbackPath (rootPrefix fallbackRootPrefix path : List Byte) : List Byte :=
  fallbackRootPrefix ++ ((if fallbackRootPrefix.getLast?.any (· ≠ SLASH) then [SLASH] else []) ++
    (path.drop rootPrefix.length).dropWhile (· == SLASH))

def substituteIndexFile (fs : FileView) (config : UriConfig) (path : List Byte) (pathLen : Nat)
    (filestat : Option Bool) : IndexSearch :=
  let r := substituteIndexFileAux fs config path pathLen filestat
  if r.found then r
  else
    match config.documentRoot, config.fallbackDocumentRoot with
    | some rootPrefix, some fallbackRootPrefix =>
      if rootPrefix.isPrefixOf (cstr r.path) then
        let subPath := ((cstr r.path).drop rootPrefix.length).dropWhile (· == SLASH)
        if fallbackRootPrefix.length + 1 + subPath.length + 1 < UTF8_PATH_MAX then
          let scratchPath := stringBuffer UTF8_PATH_MAX (fallbackPath rootPrefix fallbackRootPrefix (cstr r.path))
          let s := substituteIndexFileAux fs config scratchPath UTF8_PATH_MAX r.filestat
          if s.found then ⟨true, copyInto r.path 0 (mgStrlcpy (cstr s.path) pathLen ++ [NUL]), s.filestat⟩
          else { r with filestat := s.filestat }
        else r
      else r
    | _, _ => r

/-- How the search for a script among the directories of a path ends, with the slash behind the directory. -/
inductive SearchEnd where
  | nothing
  | script (sepPos : Nat)
  | indexScript (sepPos : Nat) (path : List Byte)
  | indexFile (sepPos : Nat)
  deriving DecidableEq, Repr

/-- The search of `interpret_uri` for a script that has sub-resources, on the copy `tmp_str` of the path. -/
def searchLoop (fs : FileView) (config : UriConfig) (pathLen : Nat) :
    Nat → List Byte → Option Bool → SearchEnd × Option Bool
  | 0, _, filestat => (.nothing, filestat)
  | sepPos + 1, tmpStr, filestat =>
    if tmpStr[sepPos]? = some SLASH then
      let tmpStr := tmpStr.set sepPos NUL
      let isScript := cstr tmpStr ≠ [] && extentionMatchesScript config (cstr tmpStr)
      let filestat := if cstr tmpStr = [] then filestat else mgStat fs (cstr tmpStr)
      let doesExist := cstr tmpStr ≠ [] && filestat.isSome
      if doesExist && isScript then (.script sepPos, filestat)
      else if mgStrcasecmp config.allowIndexScriptSubRes (ascii "yes") = 0 then
        let r := substituteIndexFile fs config tmpStr pathLen filestat
        if r.found then
          (if extentionMatchesScript config (cstr r.path) then .indexScript sepPos (cstr r.path)
            else .indexFile sepPos, r.filestat)
        else searchLoop fs config pathLen sepPos (r.path.set sepPos SLASH) r.filestat
      else searchLoop fs config pathLen sepPos (tmpStr.set sepPos SLASH) filestat
    else searchLoop fs config pathLen sepPos tmpStr filestat

/-- The rewritten path for a URI, for the first pattern that matches some of it. -/
def rewriteUri (config : UriConfig) (uri : List Byte) : Option (List Byte) :=
  (optionPairs (config.urlRewritePatterns.getD [])).findSome? fun (a, b) =>
    match matchPrefixLen a uri with
    | none => none
    | some matchLen => if 0 < matchLen then some (b ++ uri.drop matchLen) else none

/-- What the loop over the root directories comes to. -/
inductive RootTry where
  | truncated
  | found (filename : List Byte) (isDirectory : Bool)
  | missing (filename : List Byte)
  deriving DecidableEq, Repr

def tryRoots (fs : FileView) (config : UriConfig) (filenameBufLen : Nat) (uri : List Byte) :
    List (List Byte) → List Byte → RootTry
  | [], filename => .missing filename
  | root :: roots, _ =>
    let (filename, truncated) := mgSnprintf (filenameBufLen - 1) (root ++ uri)
    if truncated then .truncated
    else
      let (filename, truncated) :=
        match rewriteUri config uri with
        | none => (filename, false)
        | some text => mgSnprintf (filenameBufLen - 1) text
      if truncated then .truncated
      else
        match mgStat fs filename with
        | some isDirectory => .found filename isDirectory
        | none => tryRoots fs config filenameBufLen uri roots filename

/-- A request for a file: what `interpret_uri` reads of it. -/
structure UriRequest where
  requestMethod : List Byte
  localUri : List Byte
  protocolType : Int
  acceptEncoding : Option (List Byte)
  deriving DecidableEq, Repr

/-- What `interpret_uri` leaves: its flags, the buffer of the file name, and the pointer `path_info` into it. -/
structure UriResult where
  resource : Resource
  isWebsocketRequest : Bool
  isGzipped : Bool
  filename : List Byte
  pathInfo : Option Nat
  deriving DecidableEq, Repr

/-- The section `interpret_cleanup`. -/
def UriResult.cleanup (r : UriResult) : UriResult where
  resource := { r.resource with
    isFound := false, isScriptResource := false, isPutOrDeleteRequest := false, isDirectory := false }
  isWebsocketRequest := false
  isGzipped := false
  filename := r.filename.set 0 NUL
  pathInfo := r.pathInfo

/-- A script in front of the slash at `sepPos`: the rest of the name is moved by one byte. -/
def takeScript (filename : List Byte) (sepPos : Nat) : List Byte :=
  let filename := filename.set sepPos NUL
  let filename := memmove filename (sepPos + 2) (sepPos + 1) ((cstr (filename.drop (sepPos + 1))).length + 1)
  filename.set (sepPos + 1) SLASH

/-- An index file as script for what is behind the slash at `sepPos`, if both fit in the buffer. -/
def takeIndexScript (filename : List Byte) (sepPos : Nat) (path : List Byte) : Option (List Byte) :=
  let subresName := cstr (filename.drop sepPos)
  if filename.length ≤ path.length + subresName.length + 2 then none
  else
    let filename := memmove filename (path.length + 1) sepPos subresName.length
    let filename := filename.set (path.length + 1 + subresName.length) NUL
    some (copyInto filename 0 (path ++ [NUL]))

/-- Step 8 for a file that is there. -/
def foundFile (fs : FileView) (config : UriConfig) (r : UriResult) (filename uri : List Byte)
    (isDirectory : Bool) : UriResult :=
  let put := r.resource.isPutOrDeleteRequest
  let resource := { r.resource with
    isFound := true, isDirectory := isDirectory
    isScriptResource := extentionMatchesScript config filename && !put
    isTemplateTextFile := extentionMatchesTemplateText config filename && !put }
  if isDirectory && uri.getLast? == some SLASH && !resource.isWebdavRequest then
    let s := substituteIndexFile fs config r.filename r.filename.length none
    if s.found then
      let resource := { resource with isDirectory := s.filestat.getD false }
      if extentionMatchesScript config (cstr s.path) then
        { r with resource := { resource with isScriptResource := true }, filename := s.path }
      else if extentionMatchesTemplateText config (cstr s.path) then
        { r with resource := { resource with isTemplateTextFile := true }, filename := s.path }
      else
        { r with
          resource := { resource with
            isScriptResource := false
            isFound := (mgStat fs (cstr s.path)).isSome
            isDirectory := (mgStat fs (cstr s.path)).getD false }
          filename := s.path }
    else { r with resource := resource, filename := s.path }
  else { r with resource := resource }

/-- Step 10: scripts may have sub-resources. -/
def scriptResource (fs : FileView) (config : UriConfig) (malloc : Bool) (r : UriResult) (filename : List Byte) :
    UriResult :=
  if !malloc then r.cleanup
  else
    let pathLen := filename.length + UTF8_PATH_MAX
    let (search, filestat) := searchLoop fs config pathLen filename.length
      (stringBuffer (pathLen + 1) filename) none
    let r := { r with resource := { r.resource with isDirectory := filestat.getD false } }
    match search with
    | .nothing => r
    | .script sepPos =>
      { r with
        resource := { r.resource with isScriptResource := true, isFound := true }
        filename := takeScript r.filename sepPos
        pathInfo := some (sepPos + 1) }
    | .indexScript sepPos path =>
      match takeIndexScript r.filename sepPos path with
      | none => r.cleanup
      | some buf =>
        { r with
          resource := { r.resource with isScriptResource := true, isFound := true }
          filename := buf
          pathInfo := some (path.length + 1) }
    | .indexFile sepPos =>
      { r with
        resource := { r.resource with isScriptResource := false, isFound := false }
        filename := r.filename.set sepPos NUL
        pathInfo := none }

/-- The root directories for a request. -/
def uriRoots (config : UriConfig) (isWebsocketRequest : Bool) : List (List Byte) :=
  let (root, fallback) :=
    if isWebsocketRequest && config.websocketRoot.isSome then
      (config.websocketRoot, config.fallbackWebsocketRoot)
    else (config.documentRoot, config.fallbackDocumentRoot)
  match root with
  | none => []
  | some root => root :: fallback.toList

/-- `interpret_uri` with a buffer of `filenameBufLen` bytes for the name. -/
def interpretUri (fs : FileView) (config : UriConfig) (malloc : Bool) (request : UriRequest)
    (filenameBufLen : Nat) : UriResult :=
  let uri := request.localUri
  let isWebsocketRequest := request.protocolType == PROTOCOL_TYPE_WEBSOCKET
  let acceptGzip := request.acceptEncoding.any fun value => (Scan.find (ascii "gzip") value).isSome
  let r : UriResult :=
    { resource := ⟨false, false, isPutOrDeleteMethod request.requestMethod,
        isCivetwebWebdavMethod request.requestMethod, false, false⟩
      isWebsocketRequest := isWebsocketRequest
      isGzipped := false
      filename := stringBuffer filenameBufLen []
      pathInfo := none }
  match uriRoots config isWebsocketRequest with
  | [] => r
  | roots =>
    match tryRoots fs config filenameBufLen uri roots [] with
    | .truncated => r.cleanup
    | .found filename isDirectory =>
      foundFile fs config { r with filename := stringBuffer filenameBufLen filename } filename uri isDirectory
    | .missing filename =>
      let r := { r with filename := stringBuffer filenameBufLen filename }
      if acceptGzip then
        let (gzPath, truncated) := mgSnprintf UTF8_PATH_MAX (filename ++ ascii ".gz")
        if truncated then r.cleanup
        else
          match mgStat fs gzPath with
          | some isDirectory =>
            { r with resource := { r.resource with isFound := true, isDirectory := isDirectory }, isGzipped := true }
          | none => scriptResource fs config malloc r filename
      else scriptResource fs config malloc r filename

/-! ### Strings in buffers -/

theorem cstr_stringBuffer {s : List Byte} (hs : NUL ∉ s) (size : Nat) : cstr (stringBuffer size s) = s := by
  rw [stringBuffer]
  cases size - s.length with
  | zero => rw [List.replicate_zero, List.append_nil, cstr_of_no_nul s hs]
  | succ n => rw [List.replicate_succ, cstr_append_nul hs]

theorem length_stringBuffer {s : List Byte} {size : Nat} (h : s.length ≤ size) :
    (stringBuffer size s).length = size := by
  rw [stringBuffer, List.length_append, List.length_replicate]
  omega

/-- A buffer cut at some place holds the string up to there. -/
theorem cstr_set_nul {buf : List Byte} {n : Nat} (hn : n < buf.length) (hs : NUL ∉ buf.take n) :
    cstr (buf.set n NUL) = buf.take n := by
  rw [List.set_eq_take_append_cons_drop, if_pos hn, cstr_append_nul hs]

end CivetWeb
