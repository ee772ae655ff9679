import CivetWeb.Auth.PasswordFile
import CivetWeb.Lib.Keyed
import CivetWeb.Lib.Segments

namespace CivetWeb

/-! ### `mg_modify_passwords_file_ha1` -/

/-- A line `user:domain:hash` of a passwords file. -/
structure AuthRecord where
  user : List Byte
  domain : List Byte
  ha1 : List Byte
  deriving DecidableEq, Repr

def AuthRecord.key (r : AuthRecord) : List Byte × List Byte := (r.user, r.domain)

/-- `"%s:%s:%s\n"` -/
def AuthRecord.text (r : AuthRecord) : List Byte :=
  r.user ++ COLON :: (r.domain ++ COLON :: (r.ha1 ++ [LF]))

/-- `sscanf(line, "%255[^:]:%255[^:]:%255s", u, d, h)`, if it finds all three. -/
def scanRecord (line : List Byte) : Option AuthRecord :=
  let s := cstr line
  let u := (s.takeWhile (· != COLON)).take 255
  let s := s.drop u.length
  if u = [] ∨ deref s ≠ COLON then none
  else
    let s := s.tail
    let d := (s.takeWhile (· != COLON)).take 255
    let s := s.drop d.length
    if d = [] ∨ deref s ≠ COLON then none
    else
      let h := ((s.tail.dropWhile isspace).takeWhile (fun c => !isspace c)).take 255
      if h = [] then none else some ⟨u, d, h⟩

/-- How the calls of the C library end: the file that `stat` finds, what succeeds, and how many bytes
`fwrite` writes at most. -/
structure PasswordIo where
  file : Option (List Byte)
  calloc : Bool
  openRead : Bool
  openWrite : Bool
  fchmod : Bool
  fwrite : Nat
  fprintf : Bool
  fclose : Bool
  deriving DecidableEq, Repr

/-- What is written for the user, if a hash is given and the user was not found before. -/
def changedLine (user domain : List Byte) (ha1 : Option (List Byte)) (found : Bool) : List Byte :=
  match ha1 with
  | some ha1 => if !found then AuthRecord.text ⟨user, domain, ha1⟩ else []
  | none => []

/-- The loop over the lines of the old file: whether the user was found, and the contents of `temp_file`.
What `sprintf` returns is never below 1. -/
def rewriteLoop (user domain : List Byte) (ha1 : Option (List Byte)) (tempBufLen : Nat) :
    List (List Byte) → Bool → List Byte → Bool × List Byte
  | [], found, temp => (found, temp)
  | line :: lines, found, temp =>
    if temp.length + 600 < tempBufLen then
      match scanRecord line with
      | none => rewriteLoop user domain ha1 tempBufLen lines found temp
      | some r =>
        if r.user = user ∧ r.domain = domain then
          rewriteLoop user domain ha1 tempBufLen lines true (temp ++ changedLine user domain ha1 found)
        else rewriteLoop user domain ha1 tempBufLen lines found (temp ++ r.text)
    else (found, temp)

/-- The part of `mg_modify_passwords_file_ha1` that writes the new file: the result, and the file. -/
def createFile (io : PasswordIo) (user domain : List Byte) (ha1 : Option (List Byte)) (found : Bool)
    (temp : List Byte) : Nat × Option (List Byte) :=
  if !io.openWrite then (0, io.file)
  else
    let result := if io.fchmod then 1 else 0
    let result := if temp ≠ [] ∧ min io.fwrite temp.length ≠ temp.length then 0 else result
    let stored := temp.take io.fwrite
    let (printed, n) : List Byte × Int :=
      match ha1, found with
      | some ha1, false =>
        let line := AuthRecord.text ⟨user, domain, ha1⟩
        if io.fprintf then (line, line.length) else ([], -1)
      | _, _ => ([], 6)
    let result := if n < 6 then 0 else result
    (if io.fclose then result else 0, some (stored ++ printed))

/-- A name that is too long or has a control character. -/
def badName (name : List Byte) : Bool := (name.take 255).any iscntrl || 255 < name.length

def mgModifyPasswordsFileHa1 (io : PasswordIo) (fname domain user ha1 : Option (List Byte)) :
    Nat × Option (List Byte) :=
  let ha1 := if ha1 = some [] then none else ha1
  match fname, domain, user with
  | some fname, some domain, some user =>
    if COLON ∈ user ∨ COLON ∈ domain then (0, io.file)
    else if badName user ∨ badName domain then (0, io.file)
    else if UTF8_PATH_MAX ≤ fname.length then (0, io.file)
    else
      match io.file with
      | none => createFile io user domain ha1 false []
      | some content =>
        if 10485760 < content.length then (0, io.file)
        else if !io.calloc || !io.openRead then (0, io.file)
        else
          let (found, temp) := rewriteLoop user domain ha1 (content.length + 1024)
            (fileLines 512 content.length content) false []
          createFile io user domain ha1 found temp
  | _, _, _ => (0, io.file)

/-! ### The records that are found -/

/-- The records of a passwords file in the order in which `read_auth_file` comes to them. -/
def authRecords (fs : FileView) : Nat → List Byte → List AuthRecord
  | 0, _ => []
  | depth + 1, content =>
    (fileLines (256 + 256 + 40) content.length content).flatMap fun line =>
      match authLine line with
      | .skip => []
      | .entry user domain ha1 => [⟨user, domain, ha1⟩]
      | .incl file =>
        match mgFopenRead fs file with
        | none => []
        | some included => authRecords fs depth included

/-- What a line adds to the records of a file. -/
def lineRecords (fs : FileView) (depth : Nat) (line : List Byte) : List AuthRecord :=
  match authLine line with
  | .skip => []
  | .entry user domain ha1 => [⟨user, domain, ha1⟩]
  | .incl file =>
    match mgFopenRead fs file with
    | none => []
    | some included => authRecords fs depth included

theorem authRecords_succ (fs : FileView) (depth : Nat) (content : List Byte) :
    authRecords fs (depth + 1) content =
      (fileLines (256 + 256 + 40) content.length content).flatMap (lineRecords fs depth) := rfl

/-- The records are those of the lines that are looked at. -/
theorem mem_authRecords (fs : FileView) (r : AuthRecord) (depth : Nat) (content : List Byte) :
    r ∈ authRecords fs depth content ↔ PasswordEntry fs r.user r.domain r.ha1 depth content := by
  induction depth generalizing content with
  | zero =>
    constructor
    · intro h
      cases h
    · intro h
      cases h
  | succ depth ih =>
    rw [authRecords_succ, List.mem_flatMap]
    constructor
    · rintro ⟨line, hmem, hr⟩
      unfold lineRecords at hr
      cases hline : authLine line with
      | skip =>
        rw [hline] at hr
        cases hr
      | entry user domain ha1 =>
        rw [hline] at hr
        obtain rfl := List.mem_singleton.mp hr
        exact .line depth content line hmem hline
      | incl file =>
        rw [hline] at hr
        dsimp only at hr
        cases hopen : mgFopenRead fs file with
        | none =>
          rw [hopen] at hr
          cases hr
        | some included =>
          rw [hopen] at hr
          exact .incl depth content line file included hmem hline hopen ((ih included).mp hr)
    · intro h
      cases h with
      | line _ _ buf hmem hline =>
        refine ⟨buf, hmem, ?_⟩
        rw [lineRecords, hline]
        exact List.mem_singleton.mpr rfl
      | incl _ _ buf file included hmem hline hopen hentry =>
        refine ⟨buf, hmem, ?_⟩
        rw [lineRecords, hline]
        dsimp only
        rw [hopen]
        exact (ih included).mpr hentry

/-- Who has the password of the first record is let in. -/
theorem readAuthFile_first (mgMd5 : List Byte → List Byte) (fs : FileView) (method domain : List Byte)
    (h : AuthHeader) {user : List Byte} (huser : h.user = some user) {r : AuthRecord}
    (hcheck : checkPassword mgMd5 method user domain r.ha1 h = true) (depth : Nat) (content : List Byte)
    (hfirst : Keyed.first AuthRecord.key (user, domain) (authRecords fs depth content) = some r) :
    readAuthFile mgMd5 fs method domain h depth content = true := by
  induction depth generalizing content with
  | zero => cases hfirst
  | succ depth ih =>
    rw [authRecords_succ] at hfirst
    rw [readAuthFile]
    generalize fileLines (256 + 256 + 40) content.length content = lines at hfirst ⊢
    induction lines with
    | nil => cases hfirst
    | cons line lines ihLines =>
      rw [List.flatMap_cons, Keyed.first_append, lineRecords] at hfirst
      rw [readAuthLines]
      cases hline : authLine line with
      | skip =>
        rw [hline] at hfirst
        exact ihLines hfirst
      | entry fUser fDomain fHa1 =>
        rw [hline] at hfirst
        dsimp only at hfirst ⊢
        by_cases hkey : (fUser, fDomain) = (user, domain)
        · obtain ⟨rfl, rfl⟩ := Prod.ext_iff.mp hkey
          have hfound : Keyed.first AuthRecord.key (fUser, fDomain) [⟨fUser, fDomain, fHa1⟩] =
              some ⟨fUser, fDomain, fHa1⟩ := List.find?_cons_of_pos (by simp [AuthRecord.key])
          rw [hfound, Option.some_or] at hfirst
          rw [if_pos ⟨huser, rfl⟩]
          rw [← Option.some.inj hfirst] at hcheck
          exact hcheck
        · have hother : ¬ (h.user = some fUser ∧ domain = fDomain) := by
            rintro ⟨h1, h2⟩
            exact hkey (Prod.ext (Option.some.inj (h1.symm.trans huser)) h2.symm)
          have hskip : Keyed.first AuthRecord.key (user, domain) [⟨fUser, fDomain, fHa1⟩] = none :=
            List.find?_cons_of_neg fun h => hkey (of_decide_eq_true h)
          rw [hskip, Option.none_or] at hfirst
          rw [if_neg hother]
          exact ihLines hfirst
      | incl file =>
        rw [hline] at hfirst
        dsimp only at hfirst ⊢
        cases hopen : mgFopenRead fs file with
        | none =>
          rw [hopen] at hfirst
          exact ihLines hfirst
        | some included =>
          rw [hopen] at hfirst
          dsimp only at hfirst ⊢
          split_ifs with hread
          · rfl
          cases hin : Keyed.first AuthRecord.key (user, domain) (authRecords fs depth included) with
          | some r' =>
            rw [hin, Option.some_or] at hfirst
            exact absurd (ih included (hin.trans hfirst)) hread
          | none =>
            rw [hin, Option.none_or] at hfirst
            exact ihLines hfirst

/-- The file system with a new content of one file. -/
def FileView.write (fs : FileView) (fname content : List Byte) : FileView where
  stat path := if path = fname then some false else fs.stat path
  fopen path := if path = fname then some content else fs.fopen path

/-- The record that is written, if one is. -/
def newRecord (user domain : List Byte) (ha1 : Option (List Byte)) : Option AuthRecord :=
  (if ha1 = some [] then none else ha1).map fun ha1 => ⟨user, domain, ha1⟩

/-- Reading the file after the change gives the new record and no other of its user and domain, and the
same first record as before for all others. -/
structure OthersKept (fs : FileView) (fname user domain : List Byte) (ha1 : Option (List Byte))
    (content content' : List Byte) : Prop where
  own : (authRecords (fs.write fname content') INITIAL_DEPTH content').filter
    (fun r => r.key = (user, domain)) = (newRecord user domain ha1).toList
  others : ∀ k, k ≠ (user, domain) →
    Keyed.first AuthRecord.key k (authRecords (fs.write fname content') INITIAL_DEPTH content') =
      Keyed.first AuthRecord.key k (authRecords fs INITIAL_DEPTH content)

/-- The records that `sscanf` reads off the lines of a file, up to a line in front of which fewer than 600
bytes of the buffer are free; `new` takes the place of the first record with the key. -/
def reachedRecords (k : List Byte × List Byte) (new : Option AuthRecord) (tempBufLen : Nat) :
    List (List Byte) → Bool → Nat → List AuthRecord
  | [], _, _ => []
  | line :: lines, found, offs =>
    if offs + 600 < tempBufLen then
      match scanRecord line with
      | none => reachedRecords k new tempBufLen lines found offs
      | some r =>
        if r.key = k then
          r :: reachedRecords k new tempBufLen lines true
            (offs + if found then 0 else (new.map fun r => r.text.length).getD 0)
        else r :: reachedRecords k new tempBufLen lines found (offs + r.text.length)
    else []

/-- The bytes that `read_auth_file` takes off the end of a line. -/
abbrev isTrailing (c : Byte) : Bool := isspace c || iscntrl c

/-- A hash without the control characters at its end. -/
def AuthRecord.stripped (r : AuthRecord) : AuthRecord := { r with ha1 := r.ha1.rdropWhile isTrailing }

/-- For every other user and domain, the first record that `read_auth_file` finds, also in included files,
is the first that `sscanf` reads off the lines of the file itself, with the same hash. -/
def FirstsScanned (fs : FileView) (user domain : List Byte) (ha1 : Option (List Byte))
    (content : List Byte) : Prop :=
  ∀ k, k ≠ (user, domain) →
    Keyed.first AuthRecord.key k ((reachedRecords (user, domain) (newRecord user domain ha1)
      (content.length + 1024) (fileLines 512 content.length content) false 0).map AuthRecord.stripped) =
      Keyed.first AuthRecord.key k (authRecords fs INITIAL_DEPTH content)

/-! ### Lines -/

theorem fgets_line {size : Nat} {body rest : List Byte} (hbody : LF ∉ body)
    (hlen : body.length + 1 ≤ size - 1) : fgets size (body ++ LF :: rest) = body ++ [LF] := by
  have hne : ∀ c ∈ body, (c != LF) = true := fun c hc => by simpa using fun h : c = LF => hbody (h ▸ hc)
  obtain ⟨k, hk⟩ : ∃ k, size - 1 = body.length + (k + 1) := ⟨size - 1 - body.length - 1, by omega⟩
  unfold fgets
  dsimp only
  rw [hk, List.take_length_add_append, List.take_succ_cons, Scan.takeWhile_stop _ _ _ _ hne (by rfl),
    Scan.dropWhile_stop _ _ _ _ hne (by rfl)]
  rfl

/-- Lines that fit in the buffer are read one by one. -/
theorem fileLines_flatten {size : Nat} (lines : List (List Byte))
    (hlines : ∀ line ∈ lines, ∃ body, line = body ++ [LF] ∧ LF ∉ body ∧ line.length ≤ size - 1) (n : Nat)
    (hn : lines.length ≤ n) : fileLines size n lines.flatten = lines := by
  induction lines generalizing n with
  | nil =>
    cases n with
    | zero => rfl
    | succ n => simp [fileLines, fgets]
  | cons line lines ih =>
    obtain ⟨body, hline, hbody, hlen⟩ := hlines line List.mem_cons_self
    obtain ⟨n, rfl⟩ : ∃ m, n = m + 1 := ⟨n - 1, by rw [List.length_cons] at hn; omega⟩
    have hfirst : fgets size (line ++ lines.flatten) = line := by
      rw [hline, List.append_assoc, List.singleton_append]
      refine fgets_line hbody ?_
      rw [hline, List.length_append] at hlen
      exact hlen
    have hne : line ≠ [] := by
      rw [hline]
      exact List.append_ne_nil_of_right_ne_nil _ (List.cons_ne_nil _ _)
    rw [List.flatten_cons, fileLines, hfirst, if_neg hne, List.drop_left,
      ih (fun l hl => hlines l (List.mem_cons_of_mem _ hl)) n (Nat.le_of_succ_le_succ hn)]

theorem fgets_length (size : Nat) (content : List Byte) : (fgets size content).length ≤ size - 1 := by
  unfold fgets
  dsimp only
  have h := congrArg List.length
    (List.takeWhile_append_dropWhile (p := (· != LF)) (l := content.take (size - 1)))
  rw [List.length_append] at h
  rw [List.length_append, List.length_take]
  have := List.length_take_le (size - 1) content
  omega

/-- A line feed is only at the end of a line. -/
theorem fgets_feed (size : Nat) (content : List Byte) :
    ∃ body feed, fgets size content = body ++ feed ∧ LF ∉ body ∧ feed.length ≤ 1 := by
  refine ⟨_, _, rfl, ?_, ?_⟩
  · intro h
    simpa using List.mem_takeWhile_imp h
  · exact List.length_take_le _ _

theorem mem_fileLines {size n : Nat} {content line : List Byte} (h : line ∈ fileLines size n content) :
    ∃ rest, line = fgets size rest := by
  induction n generalizing content with
  | zero => cases h
  | succ n ih =>
    rw [fileLines] at h
    split_ifs at h with hend
    · cases h
    · rcases List.mem_cons.mp h with h | h
      · exact ⟨content, h⟩
      · exact ih h

/-! ### Records that are read back -/

/-- A record whose line `read_auth_file` reads as a whole. -/
structure AuthRecord.Proper (r : AuthRecord) : Prop where
  named : r.user ≠ []
  user : ∀ c ∈ r.user, c ≠ COLON ∧ c ≠ LF ∧ c ≠ NUL
  domain : ∀ c ∈ r.domain, c ≠ COLON ∧ c ≠ LF ∧ c ≠ NUL
  ha1 : ∀ c ∈ r.ha1, c ≠ LF ∧ c ≠ NUL
  length : r.text.length ≤ 256 + 256 + 40 - 1

/-- A line with two names and something behind them is a record. -/
theorem authLine_fields {buf u d rest : List Byte} (hbuf : cstr buf = u ++ COLON :: (d ++ COLON :: rest))
    (hnamed : u ≠ []) (hu : ∀ c ∈ u, c ≠ COLON) (hd : ∀ c ∈ d, c ≠ COLON) :
    authLine buf = .entry u d (rest.rdropWhile isTrailing) := by
  obtain ⟨ha1, hha1⟩ : ∃ ha1, ha1 = rest.rdropWhile isTrailing := ⟨_, rfl⟩
  have hstrip : (cstr buf).rdropWhile isTrailing =
      u ++ COLON :: (d ++ COLON :: ha1) := by
    rw [hbuf, Segments.rdropWhile_append_neg _ _ (by decide), Segments.rdropWhile_append_neg _ _ (by decide), hha1]
  have huser : ∀ c ∈ u, (c != COLON) = true := fun c hc => by simpa using hu c hc
  have hdomain : ∀ c ∈ d, (c != COLON) = true := fun c hc => by simpa using hd c hc
  have hfirst : deref (u ++ COLON :: (d ++ COLON :: ha1)) ≠ COLON := by
    obtain ⟨c, u, rfl⟩ := List.exists_cons_of_ne_nil hnamed
    exact hu c List.mem_cons_self
  unfold authLine
  rw [hstrip]
  dsimp only
  rw [if_neg (List.append_ne_nil_of_right_ne_nil _ (List.cons_ne_nil _ _)), if_neg hfirst,
    Scan.dropWhile_stop _ _ _ _ huser (by rfl), Scan.takeWhile_stop _ _ _ _ huser (by rfl),
    if_neg (List.cons_ne_nil _ _), List.tail_cons, Scan.dropWhile_stop _ _ _ _ hdomain (by rfl),
    Scan.takeWhile_stop _ _ _ _ hdomain (by rfl), if_neg (List.cons_ne_nil _ _), List.tail_cons, hha1]

theorem authLine_text {r : AuthRecord} (h : r.Proper) :
    authLine r.text = .entry r.user r.domain r.stripped.ha1 := by
  have hcstr : cstr r.text = r.user ++ COLON :: (r.domain ++ COLON :: (r.ha1 ++ [LF])) := by
    apply cstr_of_no_nul
    simp only [AuthRecord.text, List.mem_append, List.mem_cons, List.not_mem_nil, or_false, not_or]
    exact ⟨fun hm => (h.user _ hm).2.2 rfl, by decide, fun hm => (h.domain _ hm).2.2 rfl, by decide,
      fun hm => (h.ha1 _ hm).2 rfl, by decide⟩
  rw [authLine_fields hcstr h.named (fun c hc => (h.user c hc).1) (fun c hc => (h.domain c hc).1),
    List.rdropWhile_concat_pos _ _ _ (by decide), AuthRecord.stripped]

/-- A field of the format and what is behind it. -/
theorem scanField_eq (p : Byte → Bool) (width : Nat) (s : List Byte) :
    (s.takeWhile p).take width ++ s.drop ((s.takeWhile p).take width).length = s ∧
      ∀ c ∈ (s.takeWhile p).take width, p c = true :=
  ⟨List.prefix_iff_eq_append.mp ((List.take_prefix _ _).trans (List.takeWhile_prefix _)),
    fun _ hc => List.mem_takeWhile_imp (List.mem_of_mem_take hc)⟩

/-- What `sscanf` finds in a line. -/
theorem scanRecord_spec {line : List Byte} {r : AuthRecord} (h : scanRecord line = some r) :
    r.user ≠ [] ∧ r.domain ≠ [] ∧ r.ha1 ≠ [] ∧ (∀ c ∈ r.user, c ≠ COLON) ∧ (∀ c ∈ r.domain, c ≠ COLON) ∧
      (∀ c ∈ r.ha1, isspace c = false) ∧ ∃ blanks more, (∀ c ∈ blanks, isspace c = true) ∧
        cstr line = r.user ++ COLON :: (r.domain ++ COLON :: (blanks ++ (r.ha1 ++ more))) := by
  unfold scanRecord at h
  dsimp only at h
  obtain ⟨hu, huser⟩ := scanField_eq (· != COLON) 255 (cstr line)
  generalize ((cstr line).takeWhile (· != COLON)).take 255 = u at h hu huser
  generalize (cstr line).drop u.length = s at h hu
  split_ifs at h with hu0 hd0 hh0
  obtain ⟨hd, hdomain⟩ := scanField_eq (· != COLON) 255 s.tail
  generalize (s.tail.takeWhile (· != COLON)).take 255 = d at h hd hdomain hd0 hh0
  generalize s.tail.drop d.length = t at h hd hd0 hh0
  obtain ⟨hh, hha1⟩ := scanField_eq (fun c => !isspace c) 255 (t.tail.dropWhile isspace)
  generalize ((t.tail.dropWhile isspace).takeWhile (fun c => !isspace c)).take 255 = a at h hh hha1 hh0
  obtain rfl := Option.some.inj h
  rw [not_or, not_not] at hu0 hd0
  refine ⟨hu0.1, hd0.1, hh0, fun c hc => by simpa using huser c hc, fun c hc => by simpa using hdomain c hc,
    fun c hc => by simpa using hha1 c hc, t.tail.takeWhile isspace,
    (t.tail.dropWhile isspace).drop a.length, fun c hc => List.mem_takeWhile_imp hc, ?_⟩
  dsimp only
  rw [hh, List.takeWhile_append_dropWhile, ← deref_eq_cons hd0.2 (by decide), hd,
    ← deref_eq_cons hu0.2 (by decide), hu]

/-- What is in front of a colon in a line has no line feed. -/
theorem fgets_noFeed {size : Nat} {content s t : List Byte}
    (h : s ++ COLON :: t <+: fgets size content) : LF ∉ s := by
  obtain ⟨body, feed, hline, hbody, hfeed⟩ := fgets_feed size content
  rw [hline] at h
  have hlen := h.length_le
  simp only [List.length_append, List.length_cons] at hlen
  have hs : s <+: body :=
    List.prefix_of_prefix_length_le ((List.prefix_append _ _).trans h) (List.prefix_append _ _) (by omega)
  exact fun hm => hbody (hs.subset hm)

/-- What `sscanf` finds in a line of 511 bytes is read back from the new file. -/
theorem scanRecord_proper {line : List Byte} {r : AuthRecord} {n : Nat} {content : List Byte}
    (hmem : line ∈ fileLines 512 n content) (h : scanRecord line = some r) :
    r.Proper ∧ r.text.length ≤ line.length + 1 := by
  obtain ⟨hnamed, -, -, huser, hdomain, hha1, blanks, more, -, heq⟩ := scanRecord_spec h
  obtain ⟨rest, rfl⟩ := mem_fileLines hmem
  have hnul {c : Byte} (hc : c ∈ cstr (fgets 512 rest)) : c ≠ NUL :=
    fun hn => cstr_noNul (fgets 512 rest) (hn ▸ hc)
  have hprefix := prefix_cstr (fgets 512 rest)
  have hlength := fgets_length 512 rest
  rw [heq] at hprefix
  have hlen := hprefix.length_le
  simp only [List.length_append, List.length_cons] at hlen
  have hfeed : LF ∉ r.user ++ COLON :: r.domain := by
    rw [← List.cons_append, ← List.append_assoc] at hprefix
    exact fgets_noFeed hprefix
  rw [List.mem_append, not_or, List.mem_cons, not_or] at hfeed
  have htext : r.text.length ≤ (fgets 512 rest).length + 1 := by
    simp only [AuthRecord.text, List.length_append, List.length_cons, List.length_nil]
    omega
  refine ⟨⟨hnamed, fun c hc => ⟨huser c hc, fun hl => hfeed.1 (hl ▸ hc), hnul ?_⟩,
    fun c hc => ⟨hdomain c hc, fun hl => hfeed.2.2 (hl ▸ hc), hnul ?_⟩,
    fun c hc => ⟨?_, hnul ?_⟩, by omega⟩, htext⟩
  · simp [heq, hc]
  · simp [heq, hc]
  · rintro rfl
    exact absurd (hha1 _ hc) (by decide)
  · simp [heq, hc]

/-- A file of proper records is read back, but for control characters at the end of a hash. -/
theorem authRecords_texts (fs : FileView) (depth : Nat) (rs : List AuthRecord) (hrs : ∀ r ∈ rs, r.Proper) :
    authRecords fs (depth + 1) (rs.flatMap AuthRecord.text) = rs.map AuthRecord.stripped := by
  have hbody (r : AuthRecord) (hr : r.Proper) :
      ∃ body, r.text = body ++ [LF] ∧ LF ∉ body ∧ r.text.length ≤ 256 + 256 + 40 - 1 := by
    refine ⟨r.user ++ COLON :: (r.domain ++ COLON :: r.ha1), by simp [AuthRecord.text], ?_, hr.length⟩
    simp only [List.mem_append, List.mem_cons, not_or]
    exact ⟨fun h => (hr.user _ h).2.1 rfl, by decide, fun h => (hr.domain _ h).2.1 rfl, by decide,
      fun h => (hr.ha1 _ h).1 rfl⟩
  have hcount : (rs.map AuthRecord.text).length ≤ (rs.flatMap AuthRecord.text).length := by
    clear hrs
    induction rs with
    | nil => exact Nat.le_refl 0
    | cons r rs ih =>
      have hpos : 1 ≤ r.text.length := by
        simp only [AuthRecord.text, List.length_append, List.length_cons]
        omega
      rw [List.map_cons, List.length_cons, List.flatMap_cons, List.length_append]
      omega
  have hlines : fileLines (256 + 256 + 40) (rs.flatMap AuthRecord.text).length (rs.flatMap AuthRecord.text) =
      rs.map AuthRecord.text := by
    rw [List.flatMap_def] at hcount ⊢
    refine fileLines_flatten (rs.map AuthRecord.text) ?_ _ hcount
    intro line hline
    obtain ⟨r, hr, rfl⟩ := List.mem_map.mp hline
    exact hbody r (hrs r hr)
  rw [authRecords, hlines, List.flatMap_map, List.map_eq_flatMap]
  refine List.flatMap_congr fun r hr => ?_
  rw [authLine_text (hrs r hr)]
  rfl

/-! ### The new file -/

/-- What is added to the file for the changed record. -/
def newText (user domain : List Byte) (ha1 : Option (List Byte)) : List Byte :=
  (newRecord user domain ha1).toList.flatMap AuthRecord.text

/-- The text of the new file, from what the loop leaves. -/
def fileText (user domain : List Byte) (ha1 : Option (List Byte)) (left : Bool × List Byte) : List Byte :=
  left.2 ++ if left.1 then [] else newText user domain ha1

theorem newRecord_key (user domain : List Byte) (ha1 : Option (List Byte)) :
    ∀ r ∈ newRecord user domain ha1, r.key = (user, domain) := by
  intro r hr
  obtain ⟨ha1, -, rfl⟩ := Option.map_eq_some_iff.mp hr
  rfl

theorem newText_some (user domain : List Byte) {ha1 : List Byte} (hha1 : some ha1 ≠ some []) :
    newText user domain (some ha1) = AuthRecord.text ⟨user, domain, ha1⟩ := by
  rw [newText, newRecord, if_neg hha1]
  exact List.append_nil _

theorem changedLine_eq (user domain : List Byte) {ha1 : Option (List Byte)} (hha1 : ha1 ≠ some [])
    (found : Bool) : changedLine user domain ha1 found = if found then [] else newText user domain ha1 := by
  cases ha1 with
  | none => cases found <;> rfl
  | some ha1 =>
    rw [newText_some user domain hha1]
    cases found <;> rfl

theorem newText_length (user domain : List Byte) (ha1 : Option (List Byte)) :
    (newText user domain ha1).length =
      ((newRecord user domain ha1).map fun r => r.text.length).getD 0 := by
  rw [newText]
  cases newRecord user domain ha1 with
  | none => rfl
  | some r => simp

/-- The loop over the lines rewrites the records that it reaches. -/
theorem rewriteLoop_eq (user domain : List Byte) {ha1 : Option (List Byte)} (hha1 : ha1 ≠ some [])
    (tempBufLen : Nat) (lines : List (List Byte)) (found : Bool) (temp : List Byte) :
    fileText user domain ha1 (rewriteLoop user domain ha1 tempBufLen lines found temp) =
      temp ++ (Keyed.rewrite AuthRecord.key (user, domain) (newRecord user domain ha1) found
        (reachedRecords (user, domain) (newRecord user domain ha1) tempBufLen lines found
          temp.length)).flatMap AuthRecord.text := by
  have hadd (found : Bool) : (if found then [] else newText user domain ha1) =
      (if found then [] else (newRecord user domain ha1).toList).flatMap AuthRecord.text := by
    cases found <;> rfl
  have hend (found : Bool) (temp : List Byte) : fileText user domain ha1 (found, temp) =
      temp ++ (if found then [] else (newRecord user domain ha1).toList).flatMap AuthRecord.text := by
    rw [fileText, hadd]
  induction lines generalizing found temp with
  | nil => exact hend found temp
  | cons line lines ih =>
    rw [reachedRecords]
    by_cases hroom : temp.length + 600 < tempBufLen
    swap
    · rw [rewriteLoop, if_neg hroom, if_neg hroom]
      exact hend found temp
    rw [if_pos hroom]
    cases hscan : scanRecord line with
    | none =>
      rw [rewriteLoop, if_pos hroom, hscan]
      exact ih found temp
    | some r =>
      dsimp only
      by_cases hown : r.user = user ∧ r.domain = domain
      · have hkey : r.key = (user, domain) := Prod.ext hown.1 hown.2
        have hoffs : (temp ++ if found then [] else newText user domain ha1).length = temp.length +
            if found then 0 else ((newRecord user domain ha1).map fun r => r.text.length).getD 0 := by
          rw [List.length_append, ← newText_length]
          cases found <;> rfl
        rw [rewriteLoop, if_pos hroom, hscan]
        dsimp only
        rw [if_pos hown, ih true, changedLine_eq user domain hha1, if_pos hkey, Keyed.rewrite, if_pos hkey,
          List.flatMap_append, hoffs, hadd, List.append_assoc]
      · have hkey : r.key ≠ (user, domain) := fun h => hown ⟨congrArg Prod.fst h, congrArg Prod.snd h⟩
        rw [rewriteLoop, if_pos hroom, hscan]
        dsimp only
        rw [if_neg hown, if_neg hkey, Keyed.rewrite, if_neg hkey, List.flatMap_cons, ← List.append_assoc,
          ih found, List.length_append]

/-- A change that reports success has written all of the new file. -/
theorem createFile_done {io : PasswordIo} {user domain : List Byte} {ha1 : Option (List Byte)} {found : Bool}
    {temp content' : List Byte} (hha1 : ha1 ≠ some [])
    (h : createFile io user domain ha1 found temp = (1, some content')) :
    content' = fileText user domain ha1 (found, temp) := by
  unfold createFile at h
  generalize hprint : (match ha1, found with
    | some ha1, false =>
      let line := AuthRecord.text ⟨user, domain, ha1⟩
      if io.fprintf then (line, (line.length : Int)) else ([], -1)
    | _, _ => ([], 6)) = print at h
  obtain ⟨printed, n⟩ := print
  by_cases hopen : (!io.openWrite) = true
  · rw [if_pos hopen] at h
    cases h
  rw [if_neg hopen] at h
  dsimp only at h
  obtain ⟨hresult, hfile⟩ := Prod.ext_iff.mp h
  dsimp only at hresult hfile
  obtain rfl := Option.some.inj hfile
  obtain ⟨hn, hstored⟩ : ¬ n < 6 ∧ ¬ (temp ≠ [] ∧ min io.fwrite temp.length ≠ temp.length) := by
    constructor
    · intro hn
      rw [if_pos hn, ite_self] at hresult
      cases hresult
    · intro hstored
      rw [if_pos hstored, ite_self, ite_self] at hresult
      cases hresult
  have htake : temp.take io.fwrite = temp := by
    refine List.take_of_length_le ?_
    by_contra hshort
    refine hstored ⟨?_, by omega⟩
    rintro rfl
    exact hshort (Nat.zero_le _)
  rw [htake, fileText]
  cases found with
  | true =>
    obtain ⟨rfl, -⟩ := Prod.ext_iff.mp (hprint.symm.trans (by cases ha1 <;> rfl : _ = (([] : List Byte), (6 : Int))))
    rfl
  | false =>
    cases ha1 with
    | none =>
      obtain ⟨rfl, -⟩ := Prod.ext_iff.mp hprint.symm
      rfl
    | some ha1 =>
      dsimp only at hprint
      split_ifs at hprint
      · obtain ⟨rfl, -⟩ := Prod.ext_iff.mp hprint.symm
        rw [newText_some user domain hha1]
        rfl
      · obtain ⟨-, rfl⟩ := Prod.ext_iff.mp hprint.symm
        exact absurd (by decide) hn

theorem badName_false {name : List Byte} (h : badName name = false) :
    name.length ≤ 255 ∧ ∀ c ∈ name, iscntrl c = false := by
  rw [badName, Bool.or_eq_false_iff, decide_eq_false_iff_not, Nat.not_lt, List.any_eq_false] at h
  refine ⟨h.2, fun c hc => ?_⟩
  rw [List.take_of_length_le h.2] at h
  exact Bool.eq_false_iff.mpr (h.1 c hc)

/-- A hash that fits in the buffer of `read_auth_file` behind two long names, without blanks and control
characters, as the digits of an MD5 sum do. -/
def ValidHash (ha1 : List Byte) : Prop :=
  ha1.length ≤ 38 ∧ ∀ c ∈ ha1, isspace c = false ∧ iscntrl c = false

/-- What a change that reports success does to a file. -/
theorem mgModifyPasswordsFileHa1_done {io : PasswordIo} {fname content content' user domain : List Byte}
    {ha1 : Option (List Byte)} (hfile : io.file = some content)
    (hdone : mgModifyPasswordsFileHa1 io (some fname) (some domain) (some user) ha1 = (1, some content')) :
    (COLON ∉ user ∧ badName user = false) ∧ (COLON ∉ domain ∧ badName domain = false) ∧
      content' = (Keyed.rewrite AuthRecord.key (user, domain) (newRecord user domain ha1) false
        (reachedRecords (user, domain) (newRecord user domain ha1) (content.length + 1024)
          (fileLines 512 content.length content) false 0)).flatMap AuthRecord.text := by
  unfold mgModifyPasswordsFileHa1 at hdone
  dsimp only at hdone
  rw [hfile] at hdone
  obtain ⟨new, hnew⟩ : ∃ new, new = if ha1 = some [] then none else ha1 := ⟨_, rfl⟩
  have hne : new ≠ some [] := by
    rw [hnew]
    split_ifs with h
    · exact (Option.some_ne_none _).symm
    · exact h
  have hrecord : newRecord user domain new = newRecord user domain ha1 := by
    rw [newRecord, if_neg hne, hnew, newRecord]
  rw [← hnew] at hdone
  have hfail {p : Prop} [Decidable p] {x : Nat × Option (List Byte)}
      (h : (if p then (0, some content) else x) = (1, some content')) : ¬ p ∧ x = (1, some content') := by
    by_cases hp : p
    · rw [if_pos hp] at h
      cases h
    · exact ⟨hp, (if_neg hp).symm.trans h⟩
  obtain ⟨hcolon, hdone⟩ := hfail hdone
  obtain ⟨hbad, hdone⟩ := hfail hdone
  obtain ⟨-, hdone⟩ := hfail hdone
  obtain ⟨-, hdone⟩ := hfail hdone
  obtain ⟨-, hdone⟩ := hfail hdone
  rw [not_or] at hcolon hbad
  refine ⟨⟨hcolon.1, Bool.eq_false_iff.mpr hbad.1⟩, ⟨hcolon.2, Bool.eq_false_iff.mpr hbad.2⟩, ?_⟩
  rw [createFile_done hne hdone, rewriteLoop_eq user domain hne, hrecord]
  rfl

theorem newRecord_proper {user domain : List Byte} {ha1 : Option (List Byte)} (hnamed : user ≠ [])
    (huser : COLON ∉ user ∧ badName user = false) (hdomain : COLON ∉ domain ∧ badName domain = false)
    (hvalid : ∀ h ∈ ha1, ValidHash h) : ∀ r ∈ newRecord user domain ha1, r.Proper ∧ r.stripped = r := by
  have hname {name : List Byte} (h : COLON ∉ name ∧ badName name = false) :
      name.length ≤ 255 ∧ ∀ c ∈ name, c ≠ COLON ∧ c ≠ LF ∧ c ≠ NUL := by
    obtain ⟨hlen, hcntrl⟩ := badName_false h.2
    refine ⟨hlen, fun c hc => ⟨fun hn => h.1 (hn ▸ hc), ?_, ?_⟩⟩
    · rintro rfl
      exact absurd (hcntrl _ hc) (by decide)
    · rintro rfl
      exact absurd (hcntrl _ hc) (by decide)
  intro r hr
  obtain ⟨hash, hhash, rfl⟩ := Option.map_eq_some_iff.mp hr
  have hmem : hash ∈ ha1 := by
    split_ifs at hhash
    exact hhash
  obtain ⟨hlen, hchars⟩ := hvalid hash hmem
  obtain ⟨hulen, hu⟩ := hname huser
  obtain ⟨hdlen, hd⟩ := hname hdomain
  refine ⟨⟨hnamed, hu, hd, ?_, ?_⟩, ?_⟩
  · intro c hc
    constructor
    · rintro rfl
      exact absurd (hchars _ hc).2 (by decide)
    · rintro rfl
      exact absurd (hchars _ hc).2 (by decide)
  · simp only [AuthRecord.text, List.length_append, List.length_cons, List.length_nil]
    omega
  · have hstrip : hash.rdropWhile isTrailing = hash := by
      rw [List.rdropWhile_eq_self_iff]
      intro hne
      obtain ⟨hspace, hcntrl⟩ := hchars _ (List.getLast_mem hne)
      simp [hspace, hcntrl]
    rw [AuthRecord.stripped, hstrip]

theorem reachedRecords_proper (k : List Byte × List Byte) (new : Option AuthRecord) (tempBufLen : Nat)
    {n : Nat} {content : List Byte} (lines : List (List Byte))
    (hlines : ∀ line ∈ lines, line ∈ fileLines 512 n content) (found : Bool) (offs : Nat) :
    ∀ r ∈ reachedRecords k new tempBufLen lines found offs, r.Proper := by
  induction lines generalizing found offs with
  | nil => exact List.forall_mem_nil _
  | cons line lines ih =>
    have hrest := ih fun l hl => hlines l (List.mem_cons_of_mem _ hl)
    rw [reachedRecords]
    by_cases hroom : offs + 600 < tempBufLen
    · rw [if_pos hroom]
      cases hscan : scanRecord line with
      | none => exact hrest found offs
      | some r =>
        have hr := (scanRecord_proper (hlines line List.mem_cons_self) hscan).1
        dsimp only
        by_cases hkey : r.key = k
        · rw [if_pos hkey]
          exact List.forall_mem_cons.mpr ⟨hr, hrest _ _⟩
        · rw [if_neg hkey]
          exact List.forall_mem_cons.mpr ⟨hr, hrest _ _⟩
    · rw [if_neg hroom]
      exact List.forall_mem_nil _

/-- A changed passwords file gives the new record alone for its user, and it keeps the first record of
everybody else exactly if `sscanf` reads that off the lines of the old file. -/
theorem othersKept_iff (fs : FileView) (io : PasswordIo) (fname content content' user domain : List Byte)
    (ha1 : Option (List Byte)) (hfile : io.file = some content) (hnamed : user ≠ [])
    (hvalid : ∀ h ∈ ha1, ValidHash h)
    (hdone : mgModifyPasswordsFileHa1 io (some fname) (some domain) (some user) ha1 = (1, some content')) :
    OthersKept fs fname user domain ha1 content content' ↔ FirstsScanned fs user domain ha1 content := by
  obtain ⟨huser, hdomain, hcontent⟩ := mgModifyPasswordsFileHa1_done hfile hdone
  have hnew := newRecord_proper hnamed huser hdomain hvalid
  obtain ⟨reached, hreached⟩ : ∃ reached, reached = reachedRecords (user, domain) (newRecord user domain ha1)
    (content.length + 1024) (fileLines 512 content.length content) false 0 := ⟨_, rfl⟩
  rw [← hreached] at hcontent
  have hproper : ∀ r ∈ Keyed.rewrite AuthRecord.key (user, domain) (newRecord user domain ha1) false reached,
      r.Proper := by
    intro r hr
    rcases Keyed.mem_rewrite hr with hr | hr
    · exact (hnew r hr).1
    · exact reachedRecords_proper _ _ _ _ (fun _ h => h) _ _ r (hreached ▸ hr)
  have hread : authRecords (fs.write fname content') INITIAL_DEPTH content' =
      (Keyed.rewrite AuthRecord.key (user, domain) (newRecord user domain ha1) false reached).map
        AuthRecord.stripped := by
    rw [hcontent]
    exact authRecords_texts _ _ _ hproper
  have hkey (r : AuthRecord) : r.stripped.key = r.key := rfl
  have hothers : ∀ k, k ≠ (user, domain) →
      Keyed.first AuthRecord.key k (authRecords (fs.write fname content') INITIAL_DEPTH content') =
        Keyed.first AuthRecord.key k (reached.map AuthRecord.stripped) := by
    intro k hk
    rw [hread, Keyed.first_map hkey, Keyed.first_rewrite (newRecord_key user domain ha1) hk, Keyed.first_map hkey]
  constructor
  · intro h k hk
    rw [← hreached, ← hothers k hk]
    exact h.others k hk
  · intro h
    refine ⟨?_, fun k hk => ?_⟩
    · have hown := Keyed.filter_rewrite (newRecord_key user domain ha1) false reached
      rw [if_neg Bool.false_ne_true] at hown
      rw [hread, List.filter_map]
      refine Eq.trans (congrArg _ hown) ?_
      cases hrecord : newRecord user domain ha1 with
      | none => rfl
      | some r => exact congrArg (fun r => [r]) (hnew r hrecord).2
    · rw [hothers k hk, hreached]
      exact h k hk

/-- A passwords file with an included one, from which the include line is lost. -/
def includingFile : PasswordIo where
  file := some (ascii ":include=/more\nalice:d:aa\n")
  calloc := true
  openRead := true
  openWrite := true
  fchmod := true
  fwrite := 100
  fprintf := true
  fclose := true

def includedFiles : FileView where
  stat path := if path = ascii "/more" then some false else none
  fopen path := if path = ascii "/more" then some (ascii "bob:d:bb\n") else none

theorem othersKept_include :
    mgModifyPasswordsFileHa1 includingFile (some (ascii "/users")) (some (ascii "d")) (some (ascii "alice"))
        (some (ascii "cc")) = (1, some (ascii "alice:d:cc\n")) ∧
      ¬ OthersKept includedFiles (ascii "/users") (ascii "alice") (ascii "d") (some (ascii "cc"))
        (ascii ":include=/more\nalice:d:aa\n") (ascii "alice:d:cc\n") := by
  refine ⟨by decide +kernel, fun h => ?_⟩
  have hbob := h.others (ascii "bob", ascii "d") (by decide)
  revert hbob
  decide +kernel

theorem othersKept_iff_two : OthersKept includedFiles (ascii "/users") (ascii "alice") (ascii "d")
    (some (ascii "cc")) (ascii "alice:d:aa\nbob:d:bb\n") (ascii "alice:d:cc\nbob:d:bb\n") := by
  refine (othersKept_iff includedFiles { includingFile with file := some (ascii "alice:d:aa\nbob:d:bb\n") }
    (ascii "/users") (ascii "alice:d:aa\nbob:d:bb\n") (ascii "alice:d:cc\nbob:d:bb\n") (ascii "alice")
    (ascii "d") (some (ascii "cc")) rfl (by decide) ?_ (by decide +kernel)).mpr ?_
  · rintro h ⟨⟩
    exact ⟨by decide, by decide⟩
  · exact fun k _ => congrArg (Keyed.first AuthRecord.key k) (by decide +kernel)

end CivetWeb
