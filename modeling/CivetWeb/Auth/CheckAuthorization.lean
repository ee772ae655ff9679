import CivetWeb.Auth.PasswordFile

namespace CivetWeb

/-- The options of a domain that `check_authorization` reads. -/
structure AuthConfig where
  key : NonceKey
  protectUri : Option (List Byte)
  globalPasswordsFile : Option (List Byte)
  authenticationDomain : List Byte
  deriving DecidableEq, Repr

/-- The entries that `next_option` goes through, each with the part behind its `=`. -/
def optionPairs (list : List Byte) : List (List Byte × List Byte) :=
  (((list.splitOn COMMA).map trimBlanks).filter (· ≠ [])).map
    (fun entry => (entry.takeWhile (· != 61), (entry.dropWhile (· != 61)).tail))

def passwordsFileName : List Byte := ascii ".htpasswd"

/-- The part of a path before its last slash, the one at its start apart. -/
def pathDirectory (path : List Byte) : List Byte :=
  path.take (path.length - 1 - (path.tail.reverse.takeWhile (· != SLASH)).length)

/-- `open_auth_file`: what is read from the file that it opens. -/
def openAuthFile (fs : FileView) (globalPasswordsFile : Option (List Byte)) (path : List Byte) :
    Option (List Byte) :=
  match globalPasswordsFile with
  | some gpass => mgFopenRead fs gpass
  | none =>
    let isDirectory := mgStat fs path == some true
    let (name, truncated) := mgSnprintf UTF8_PATH_MAX
      ((if isDirectory then path else pathDirectory path) ++ SLASH :: passwordsFileName)
    if truncated then none else mgFopenRead fs name

/-- The file of the first entry of `protect_uri` that the request falls under. -/
def openProtectFile (fs : FileView) (config : AuthConfig) (conn : Conn) : Option (List Byte) :=
  match (optionPairs (config.protectUri.getD [])).find?
      (fun entry => entry.1.isPrefixOf (conn.localUri.getD [])) with
  | none => none
  | some (_, filename) =>
    let (fname, truncated) := mgSnprintf UTF8_PATH_MAX filename
    if truncated then none else mgFopenRead fs fname

/-- `check_authorization`, with the `remote_user` that it leaves. -/
def checkAuthorization (mgMd5 : List Byte → List Byte) (fs : FileView) (config : AuthConfig)
    (nonceCount : Nat) (conn : Conn) (path : List Byte) : Bool × Option (List Byte) :=
  let file :=
    match openProtectFile fs config conn with
    | some content => some content
    | none => openAuthFile fs config.globalPasswordsFile path
  match file with
  | none => (true, none)
  | some content =>
    authorize mgMd5 fs config.key nonceCount config.authenticationDomain conn content none

/-- The names of the passwords files for a request, in the order in which they are tried: the one that
its entry of `protect_uri` names, then the global one or the one in the directory of the path. A
name that does not fit into its buffer is none. -/
def passwordFiles (fs : FileView) (config : AuthConfig) (conn : Conn) (path : List Byte) :
    List (List Byte) :=
  (((optionPairs (config.protectUri.getD [])).find?
      (fun entry => entry.1.isPrefixOf (conn.localUri.getD []))).toList.map Prod.snd).filter
    (·.length < UTF8_PATH_MAX) ++
  match config.globalPasswordsFile with
  | some gpass => [gpass]
  | none =>
    [(if mgStat fs path = some true then path else pathDirectory path) ++
      SLASH :: passwordsFileName].filter (·.length < UTF8_PATH_MAX)

theorem openAuthFile_eq (fs : FileView) (config : AuthConfig) (path : List Byte) :
    openAuthFile fs config.globalPasswordsFile path =
      (match config.globalPasswordsFile with
        | some gpass => [gpass]
        | none =>
          [(if mgStat fs path = some true then path else pathDirectory path) ++
            SLASH :: passwordsFileName].filter (·.length < UTF8_PATH_MAX)).findSome?
        (mgFopenRead fs) := by
  unfold openAuthFile
  cases config.globalPasswordsFile with
  | some gpass => simp
  | none =>
    obtain ⟨name, hname⟩ : ∃ name, name =
        (if mgStat fs path = some true then path else pathDirectory path) ++
          SLASH :: passwordsFileName := ⟨_, rfl⟩
    simp only [beq_iff_eq, ← hname]
    by_cases hfit : name.length < UTF8_PATH_MAX
    · rw [mgSnprintf_fits _ _ hfit]
      simp [hfit]
    · rw [mgSnprintf, if_neg hfit]
      simp [hfit]

theorem openProtectFile_eq (fs : FileView) (config : AuthConfig) (conn : Conn) :
    openProtectFile fs config conn =
      ((((optionPairs (config.protectUri.getD [])).find?
          (fun entry => entry.1.isPrefixOf (conn.localUri.getD []))).toList.map Prod.snd).filter
        (·.length < UTF8_PATH_MAX)).findSome? (mgFopenRead fs) := by
  rw [openProtectFile]
  cases (optionPairs (config.protectUri.getD [])).find?
      (fun entry => entry.1.isPrefixOf (conn.localUri.getD [])) with
  | none => rfl
  | some entry =>
    obtain ⟨uri, filename⟩ := entry
    by_cases hfit : filename.length < UTF8_PATH_MAX
    · simp only [mgSnprintf_fits _ _ hfit]
      simp [hfit]
    · simp [mgSnprintf, hfit]

/-- The file that `check_authorization` reads is the first one that opens. -/
theorem checkAuthorization_eq (mgMd5 : List Byte → List Byte) (fs : FileView) (config : AuthConfig)
    (nonceCount : Nat) (conn : Conn) (path : List Byte) :
    checkAuthorization mgMd5 fs config nonceCount conn path =
      match (passwordFiles fs config conn path).findSome? (mgFopenRead fs) with
      | none => (true, none)
      | some content =>
        authorize mgMd5 fs config.key nonceCount config.authenticationDomain conn content none := by
  rw [checkAuthorization, passwordFiles, List.findSome?_append, ← openProtectFile_eq,
    ← openAuthFile_eq]
  cases openProtectFile fs config conn <;> rfl

theorem authorize_noHeader (mgMd5 : List Byte → List Byte) (fs : FileView) (key : NonceKey)
    (nonceCount : Nat) (domain : List Byte) (conn : Conn) (content : List Byte)
    (realm : Option (List Byte)) (h : mgGetHeader conn (ascii "Authorization") = none) :
    (authorize mgMd5 fs key nonceCount domain conn content realm).1 = false := by
  simp [authorize, parseAuthHeader, h]

/-- The request is let in only with credentials that the opened passwords file accepts. -/
def FailClosed (mgMd5 : List Byte → List Byte) (fs : FileView) (config : AuthConfig)
    (nonceCount : Nat) (conn : Conn) (path : List Byte) : Prop :=
  ((checkAuthorization mgMd5 fs config nonceCount conn path).1 = true →
    ∃ content, (passwordFiles fs config conn path).findSome? (mgFopenRead fs) = some content ∧
      (authorize mgMd5 fs config.key nonceCount config.authenticationDomain conn content none).1 =
        true) ∧
  (mgGetHeader conn (ascii "Authorization") = none →
    (checkAuthorization mgMd5 fs config nonceCount conn path).1 = false)

/-- A request is refused without valid credentials exactly where one of its passwords files can be
opened. -/
theorem checkAuthorization_failClosed (mgMd5 : List Byte → List Byte) (fs : FileView)
    (config : AuthConfig) (nonceCount : Nat) (conn : Conn) (path : List Byte) :
    FailClosed mgMd5 fs config nonceCount conn path ↔
      ∃ name ∈ passwordFiles fs config conn path, (mgFopenRead fs name).isSome = true := by
  rw [FailClosed, checkAuthorization_eq]
  cases hopened : (passwordFiles fs config conn path).findSome? (mgFopenRead fs) with
  | none =>
    have hnone : ∀ name ∈ passwordFiles fs config conn path, mgFopenRead fs name = none :=
      List.findSome?_eq_none_iff.mp hopened
    constructor
    · rintro ⟨hgranted, -⟩
      obtain ⟨content, hcontent, -⟩ := hgranted rfl
      cases hcontent
    · rintro ⟨name, hmem, hopen⟩
      rw [hnone name hmem] at hopen
      cases hopen
  | some content =>
    constructor
    · rintro -
      obtain ⟨name, hmem, hopen⟩ := List.exists_of_findSome?_eq_some hopened
      exact ⟨name, hmem, by rw [hopen]; rfl⟩
    · rintro -
      exact ⟨fun hgranted => ⟨content, rfl, hgranted⟩,
        authorize_noHeader mgMd5 fs config.key nonceCount config.authenticationDomain conn content none⟩

def missingFile : AuthConfig where
  key := ⟨1700000000#64, 0#64⟩
  protectUri := some (ascii "/a=/missing")
  globalPasswordsFile := none
  authenticationDomain := ascii "mydomain.com"

def plainRequest : Conn where
  ssl := false
  domains := []
  domCtx := 0
  lsaPort := 80
  sock := []
  buf := []
  dataLen := 0
  requestLen := 0
  contentLen := 0
  consumedContent := 0
  isChunked := 0
  mustClose := false
  handledRequests := 1
  protocolType := PROTOCOL_TYPE_HTTP1
  requestInfo := ⟨ascii "GET", ascii "/a/x", ascii "1.1", []⟩
  infoContentLength := -1
  localUri := some (ascii "/a/x")

/-- `protect_uri` names a file that is not there: a request without credentials is let in. -/
theorem checkAuthorization_missingFile :
    (∃ entry ∈ optionPairs (ascii "/a=/missing"), entry.1 <+: ascii "/a/x") ∧
      mgGetHeader plainRequest (ascii "Authorization") = none ∧
      (checkAuthorization (fun _ => []) ⟨fun _ => none, fun _ => none⟩ missingFile 0 plainRequest
        (ascii "/srv/a/x")).1 = true ∧
      ¬ FailClosed (fun _ => []) ⟨fun _ => none, fun _ => none⟩ missingFile 0 plainRequest
        (ascii "/srv/a/x") := by
  have hgranted : (checkAuthorization (fun _ => []) ⟨fun _ => none, fun _ => none⟩ missingFile 0
      plainRequest (ascii "/srv/a/x")).1 = true := by decide
  refine ⟨by decide, by decide, hgranted, ?_⟩
  rintro ⟨-, hrefused⟩
  rw [hrefused (by decide)] at hgranted
  cases hgranted

end CivetWeb
