import CivetWeb.Auth.AuthHeader

namespace CivetWeb

/-- The file system as it is read: whether a path is a directory, where `stat` finds it, and
what is read from a file that `fopen` opens. -/
structure FileView where
  stat : List Byte → Option Bool
  fopen : List Byte → Option (List Byte)

def mgPathSuspicious (path : List Byte) : Bool := path == []

/-- `mg_stat`: whether a path that is found is a directory. -/
def mgStat (fs : FileView) (path : List Byte) : Option Bool :=
  if mgPathSuspicious path then none else fs.stat path

/-- `mg_fopen` for reading. -/
def mgFopenRead (fs : FileView) (path : List Byte) : Option (List Byte) :=
  if mgPathSuspicious path then none
  else if mgStat fs path = none then none
  else fs.fopen path

/-- What `fgets` with a buffer of `size` bytes reads next. -/
def fgets (size : Nat) (content : List Byte) : List Byte :=
  let chunk := content.take (size - 1)
  chunk.takeWhile (· != LF) ++ (chunk.dropWhile (· != LF)).take 1

/-- The lines that `mg_fgets` reads to the end of a file. -/
def fileLines (size : Nat) : Nat → List Byte → List (List Byte)
  | 0, _ => []
  | n + 1, content =>
    let line := fgets size content
    if line = [] then [] else line :: fileLines size n (content.drop line.length)

/-- A line of a passwords file. -/
inductive AuthLine where
  | skip
  | incl (file : List Byte)
  | entry (user domain ha1 : List Byte)
  deriving DecidableEq, Repr

/-- How `read_auth_file` takes the line in its buffer. -/
def authLine (buf : List Byte) : AuthLine :=
  let buf := (cstr buf).rdropWhile (fun c => isspace c || iscntrl c)
  if buf = [] then .skip
  else if deref buf = COLON then
    if deref buf.tail = 35 then .skip
    else if strncmp buf.tail (ascii "include=") 8 = 0 then .incl (buf.drop 9)
    else .skip
  else
    let domain := buf.dropWhile (· != COLON)
    if domain = [] then .skip
    else
      let ha1 := domain.tail.dropWhile (· != COLON)
      if ha1 = [] then .skip
      else .entry (buf.takeWhile (· != COLON)) (domain.tail.takeWhile (· != COLON)) ha1.tail

section Md5

-- the text of the MD5 sum of a text, as `mg_md5` writes it
variable (mgMd5 : List Byte → List Byte)

def checkPasswordDigest (method ha1 : List Byte) (h : AuthHeader) : Bool :=
  match h.nonce, h.nc, h.cnonce, h.qop, h.response with
  | some nonce, some nc, some cnonce, some qop, some response =>
    if response.length ≠ 32 then false
    else
      -- without an uri the list of strings ends behind the method
      let ha2 := mgMd5 (method ++ COLON :: h.uri.getD [])
      let expectedResponse := mgMd5 (ha1 ++ COLON :: nonce ++ COLON :: nc ++ COLON :: cnonce ++
        COLON :: qop ++ COLON :: ha2)
      mgStrcasecmp response expectedResponse == 0
  | _, _, _, _, _ => false

/-- The password of a header against the hash of its user. -/
def checkPassword (method user domain ha1 : List Byte) (h : AuthHeader) : Bool :=
  if h.type = 1 then ha1 == mgMd5 (user ++ COLON :: domain ++ COLON :: h.plainPassword.getD [])
  else if h.type = 2 then checkPasswordDigest mgMd5 method ha1 h
  else false

/-- The loop of `read_auth_file`; `readIncluded` is the call for an included file. -/
def readAuthLines (readIncluded : List Byte → Bool) (method domain : List Byte) (h : AuthHeader) :
    List (List Byte) → Bool
  | [] => false
  | line :: lines =>
    match authLine line with
    | .skip => readAuthLines readIncluded method domain h lines
    | .incl file =>
      if readIncluded file then true else readAuthLines readIncluded method domain h lines
    | .entry fUser fDomain fHa1 =>
      if h.user = some fUser ∧ domain = fDomain then checkPassword mgMd5 method fUser domain fHa1 h
      else readAuthLines readIncluded method domain h lines

def INITIAL_DEPTH : Nat := 9

def readAuthFile (fs : FileView) (method domain : List Byte) (h : AuthHeader) :
    Nat → List Byte → Bool
  | 0, _ => false
  | depth + 1, content =>
    readAuthLines mgMd5
      (fun file =>
        match mgFopenRead fs file with
        | none => false
        | some content => readAuthFile fs method domain h depth content)
      method domain h (fileLines (256 + 256 + 40) content.length content)

/-- `authorize`: what it returns, and the `remote_user` that it sets. -/
def authorize (fs : FileView) (key : NonceKey) (nonceCount : Nat)
    (authenticationDomain : List Byte) (conn : Conn) (content : List Byte)
    (realm : Option (List Byte)) : Bool × Option (List Byte) :=
  let (ok, h) := parseAuthHeader key nonceCount conn MG_BUF_LEN
  if !ok then (false, none)
  else
    (readAuthFile mgMd5 fs conn.requestInfo.requestMethod (realm.getD authenticationDomain) h
      INITIAL_DEPTH content, h.user)

end Md5

/-- A line of a passwords file or, down to a depth, of a file that it includes. -/
inductive PasswordEntry (fs : FileView) (user domain ha1 : List Byte) : Nat → List Byte → Prop where
  | line (depth : Nat) (content buf : List Byte)
      (hmem : buf ∈ fileLines (256 + 256 + 40) content.length content)
      (hline : authLine buf = .entry user domain ha1) :
      PasswordEntry fs user domain ha1 (depth + 1) content
  | incl (depth : Nat) (content buf file included : List Byte)
      (hmem : buf ∈ fileLines (256 + 256 + 40) content.length content)
      (hline : authLine buf = .incl file) (hopen : mgFopenRead fs file = some included)
      (hentry : PasswordEntry fs user domain ha1 depth included) :
      PasswordEntry fs user domain ha1 (depth + 1) content

theorem readAuthLines_sound (mgMd5 : List Byte → List Byte) (readIncluded : List Byte → Bool)
    (method domain : List Byte) (h : AuthHeader) (lines : List (List Byte))
    (haccept : readAuthLines mgMd5 readIncluded method domain h lines = true) :
    (∃ buf ∈ lines, ∃ file, authLine buf = .incl file ∧ readIncluded file = true) ∨
      ∃ buf ∈ lines, ∃ user ha1, authLine buf = .entry user domain ha1 ∧ h.user = some user ∧
        checkPassword mgMd5 method user domain ha1 h = true := by
  induction lines with
  | nil => cases haccept
  | cons buf lines ih =>
    have hrest (hrec : readAuthLines mgMd5 readIncluded method domain h lines = true) :
        (∃ b ∈ buf :: lines, ∃ file, authLine b = .incl file ∧ readIncluded file = true) ∨
          ∃ b ∈ buf :: lines, ∃ user ha1, authLine b = .entry user domain ha1 ∧ h.user = some user ∧
            checkPassword mgMd5 method user domain ha1 h = true := by
      rcases ih hrec with ⟨b, hmem, hb⟩ | ⟨b, hmem, hb⟩
      · exact Or.inl ⟨b, List.mem_cons_of_mem _ hmem, hb⟩
      · exact Or.inr ⟨b, List.mem_cons_of_mem _ hmem, hb⟩
    cases hline : authLine buf with
    | skip =>
      simp only [readAuthLines, hline] at haccept
      exact hrest haccept
    | incl file =>
      simp only [readAuthLines, hline] at haccept
      split_ifs at haccept with hread
      · exact Or.inl ⟨buf, List.mem_cons_self, file, hline, hread⟩
      · exact hrest haccept
    | entry fUser fDomain fHa1 =>
      simp only [readAuthLines, hline] at haccept
      split_ifs at haccept with hmatch
      · obtain ⟨huser, rfl⟩ := hmatch
        exact Or.inr ⟨buf, List.mem_cons_self, fUser, fHa1, hline, huser, haccept⟩
      · exact hrest haccept

/-- Who is let in stands in the passwords file, or in a file that it includes, with this password. -/
theorem readAuthFile_sound (mgMd5 : List Byte → List Byte) (fs : FileView)
    (method domain : List Byte) (h : AuthHeader) (depth : Nat) (content : List Byte)
    (haccept : readAuthFile mgMd5 fs method domain h depth content = true) :
    ∃ user ha1, PasswordEntry fs user domain ha1 depth content ∧ h.user = some user ∧
      checkPassword mgMd5 method user domain ha1 h = true := by
  induction depth generalizing content with
  | zero => cases haccept
  | succ depth ih =>
    rw [readAuthFile] at haccept
    rcases readAuthLines_sound mgMd5 _ method domain h _ haccept with
      ⟨buf, hmem, file, hline, hread⟩ | ⟨buf, hmem, user, ha1, hline, huser, hcheck⟩
    · cases hopen : mgFopenRead fs file with
      | none =>
        rw [hopen] at hread
        cases hread
      | some included =>
        rw [hopen] at hread
        obtain ⟨user, ha1, hentry, huser, hcheck⟩ := ih included hread
        exact ⟨user, ha1, .incl depth content buf file included hmem hline hopen hentry, huser, hcheck⟩
    · exact ⟨user, ha1, .line depth content buf hmem hline, huser, hcheck⟩

/-- Accepted credentials have a valid header and a line in the passwords file. -/
theorem authorize_sound (mgMd5 : List Byte → List Byte) (fs : FileView) (key : NonceKey)
    (nonceCount : Nat) (authenticationDomain : List Byte) (conn : Conn) (content : List Byte)
    (realm : Option (List Byte))
    (haccept : (authorize mgMd5 fs key nonceCount authenticationDomain conn content realm).1 = true) :
    ∃ h, parseAuthHeader key nonceCount conn MG_BUF_LEN = (true, h) ∧
      ∃ user ha1, PasswordEntry fs user (realm.getD authenticationDomain) ha1 INITIAL_DEPTH content ∧
        h.user = some user ∧ checkPassword mgMd5 conn.requestInfo.requestMethod user
          (realm.getD authenticationDomain) ha1 h = true := by
  cases hparse : parseAuthHeader key nonceCount conn MG_BUF_LEN with
  | mk ok h =>
    rw [authorize, hparse] at haccept
    cases ok with
    | false => cases haccept
    | true => exact ⟨h, rfl, readAuthFile_sound mgMd5 fs _ _ h INITIAL_DEPTH content haccept⟩

end CivetWeb
