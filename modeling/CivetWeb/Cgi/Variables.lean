import CivetWeb.Cgi.Environment
import CivetWeb.Files.PathInfo

namespace CivetWeb

/-! ### The variables of a CGI program -/

/-- What `prepare_cgi_environment` reads: the options of the domain, the request, and the variables of the server. -/
structure CgiRequest where
  authenticationDomain : List Byte
  documentRoot : List Byte
  fallbackDocumentRoot : Option (List Byte)
  cgiEnvironment : List Byte
  prog : List Byte
  serverPort : Int
  srcAddr : List Byte
  requestMethod : List Byte
  remotePort : Int
  requestUri : List Byte
  localUri : List Byte
  localUriRaw : List Byte
  pathInfo : Option (List Byte)
  ssl : Bool
  queryString : Option (List Byte)
  statusCode : Int
  remoteUser : Option (List Byte)
  headers : List MgHeader
  getenv : List Byte → Option (List Byte)

def CIVETWEB_VERSION : List Byte := ascii "1.17"

def toupper (c : Byte) : Byte := if 97 ≤ c && c ≤ 122 then c - 32 else c

/-- `%.*s`; a precision below zero is none. -/
def precisionText (precision : Int) (s : List Byte) : List Byte :=
  if precision < 0 then s else s.take precision.toNat

/-- `"NAME=%s"`, if there is a value. -/
def optionalVariable (name : List Byte) (value : Option (List Byte)) : List (List Byte) :=
  (value.map fun v => name ++ EQUALS :: v).toList

/-- `SCRIPT_NAME`: without the path behind the script, or with the index file of a directory. -/
def scriptNameVariable (q : CgiRequest) : List (List Byte) :=
  match q.pathInfo with
  | none =>
    if q.localUri.getLast? ≠ some SLASH then [ascii "SCRIPT_NAME=" ++ q.localUri]
    else if SLASH ∈ q.prog then [ascii "SCRIPT_NAME=" ++ q.localUri ++ q.prog.rtakeWhile (· != SLASH)]
    else []
  | some pathInfo =>
    [ascii "SCRIPT_NAME=" ++
      precisionText (toInt32 (q.localUri.length % 2 ^ 32) - toInt32 (pathInfo.length % 2 ^ 32)) q.localUri]

/-- Where the lengths are within `int`, the value is the name that the request is split into. -/
theorem scriptNameVariable_text (q : CgiRequest) (huri : q.localUri.length < 2 ^ 31)
    (hpath : ∀ pathInfo ∈ q.pathInfo, pathInfo.length < 2 ^ 31) :
    scriptNameVariable q =
      ((scriptName q.localUri q.prog q.pathInfo).map fun name => ascii "SCRIPT_NAME=" ++ name).toList := by
  rw [scriptNameVariable]
  cases hinfo : q.pathInfo with
  | none =>
    dsimp only [scriptName]
    split_ifs with hslash hprog
    · rfl
    · rw [Option.map_some, Option.toList_some, List.append_assoc]
    · rfl
  | some pathInfo =>
    have hlen := hpath pathInfo hinfo
    have hint (n : Nat) (hn : n < 2 ^ 31) : toInt32 (n % 2 ^ 32) = n := by
      rw [Nat.mod_eq_of_lt (by omega), toInt32, if_pos hn]
    dsimp only [scriptName]
    rw [hint _ huri, hint _ hlen, precisionText, Option.map_some, Option.toList_some]
    by_cases hle : pathInfo.length ≤ q.localUri.length
    · rw [if_neg (by omega), if_pos hle]
      congr 3
      omega
    · rw [if_pos (by omega), if_neg hle]

/-- A header as `HTTP_*`; none for a name that is too long. -/
def httpVariable (h : MgHeader) : List (List Byte) :=
  let (name, truncated) := mgSnprintf 128 (ascii "HTTP_" ++ h.name)
  if truncated then []
  else [name.map (fun c => toupper (if c = 45 then 95 else c)) ++ EQUALS :: h.value]

/-- A user-specified variable. -/
def userVariable (v : Vec × Option Vec) : List Byte := precisionText (toInt32 (v.1.len % 2 ^ 32)) v.1.ptr

/-- The texts that `prepare_cgi_environment` adds, in their order. -/
def cgiVariables (q : CgiRequest) : List (List Byte) :=
  [ascii "SERVER_NAME=" ++ q.authenticationDomain, ascii "SERVER_ROOT=" ++ q.documentRoot,
    ascii "DOCUMENT_ROOT=" ++ q.documentRoot] ++
  optionalVariable (ascii "FALLBACK_DOCUMENT_ROOT") q.fallbackDocumentRoot ++
  [ascii "SERVER_SOFTWARE=CivetWeb/" ++ CIVETWEB_VERSION, ascii "GATEWAY_INTERFACE=CGI/1.1",
    ascii "SERVER_PROTOCOL=HTTP/1.1", ascii "REDIRECT_STATUS=200", ascii "SERVER_PORT=" ++ intText q.serverPort,
    ascii "REMOTE_ADDR=" ++ q.srcAddr, ascii "REQUEST_METHOD=" ++ q.requestMethod,
    ascii "REMOTE_PORT=" ++ intText q.remotePort, ascii "REQUEST_URI=" ++ q.requestUri,
    ascii "LOCAL_URI=" ++ q.localUri, ascii "LOCAL_URI_RAW=" ++ q.localUriRaw] ++
  scriptNameVariable q ++
  [ascii "SCRIPT_FILENAME=" ++ q.prog, ascii "PATH_TRANSLATED=" ++ q.documentRoot ++ q.pathInfo.getD [],
    ascii "HTTPS=" ++ ascii (if q.ssl then "on" else "off")] ++
  optionalVariable (ascii "CONTENT_TYPE") (getHeader q.headers (ascii "Content-Type")) ++
  optionalVariable (ascii "QUERY_STRING") q.queryString ++
  optionalVariable (ascii "CONTENT_LENGTH") (getHeader q.headers (ascii "Content-Length")) ++
  optionalVariable (ascii "PATH") (q.getenv (ascii "PATH")) ++
  optionalVariable (ascii "PATH_INFO") q.pathInfo ++
  (if 0 < q.statusCode then [ascii "STATUS=" ++ intText q.statusCode] else []) ++
  optionalVariable (ascii "LD_LIBRARY_PATH") (q.getenv (ascii "LD_LIBRARY_PATH")) ++
  optionalVariable (ascii "PERLLIB") (q.getenv (ascii "PERLLIB")) ++
  (match q.remoteUser with
    | some user => [ascii "REMOTE_USER=" ++ user, ascii "AUTH_TYPE=Digest"]
    | none => []) ++
  (q.headers.map httpVariable).flatten ++
  (optionVecs false q.cgiEnvironment).map userVariable

/-- `prepare_cgi_environment`: its return value, and the block. `buf` and `var` are what the allocator gives for the
buffer and for the pointers. -/
def prepareCgiEnvironment (buf : Option NewBlock) (var : Option (Nat → Option CharPtr))
    (realloc : Nat → Option NewBlock) (q : CgiRequest) : Option (Int × Option CgiEnvironment) :=
  match buf, var with
  | some buf, some var =>
    match addenvAll realloc (emptyEnvironment buf var) (cgiVariables q) with
    | some env => some (0, some env.terminate)
    | none => none
  | _, _ => some (-1, none)

/-- Texts with a length that is an `int` fit. -/
theorem fitAll_short {realloc : Nat → Option NewBlock} {texts : List (List Byte)} (env : CgiEnvironment)
    (h : ∀ text ∈ texts, text.length ≤ INT_MAX) : FitAll realloc env texts := by
  induction texts generalizing env with
  | nil => trivial
  | cons text texts ih =>
    exact ⟨.inl (h text List.mem_cons_self), fun env' _ => ih env' fun t ht => h t (List.mem_cons_of_mem text ht)⟩

/-- No entry is made up, and none changes its place. -/
theorem Recorded.sublist {realloc : Nat → Option NewBlock} {texts kept : List (List Byte)} {env : CgiEnvironment}
    (h : Recorded realloc env texts kept) : kept.Sublist (texts.map cstr) := by
  induction texts generalizing env kept with
  | nil =>
    have hnil : kept = [] := h
    rw [hnil]
    exact List.nil_sublist _
  | cons text texts ih =>
    obtain ⟨env', -, ⟨more, rfl, hrest⟩ | ⟨-, hrest⟩⟩ := h
    · exact (ih hrest).cons_cons _
    · exact (ih hrest).cons _

/-- The block of a request whose variables have a length that is an `int`. -/
theorem prepareCgiEnvironment_complete (buf : NewBlock) (var : Nat → Option CharPtr)
    (realloc : Nat → Option NewBlock) (q : CgiRequest) (hshort : ∀ text ∈ cgiVariables q, text.length ≤ INT_MAX) :
    ∃ env kept, prepareCgiEnvironment (some buf) (some var) realloc q = some (0, some env) ∧ env.Complete kept ∧
      kept.Sublist ((cgiVariables q).map cstr) := by
  unfold prepareCgiEnvironment
  dsimp only
  generalize cgiVariables q = texts at hshort ⊢
  have hfits : FitAll realloc (emptyEnvironment buf var) texts := fitAll_short _ hshort
  obtain ⟨last, kept, hall, hrecorded, hholds⟩ := addenvAll_holds (holds_emptyEnvironment buf var) hfits
  refine ⟨last.terminate, kept, ?_, hholds.terminate, hrecorded.sublist⟩
  rw [hall]

end CivetWeb
