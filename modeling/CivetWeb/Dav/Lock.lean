import CivetWeb.Dav.RequestLink

namespace CivetWeb

/-- An element of `webdav_lock`; a free one has an empty path. -/
structure TwebdavLock where
  locktime : Nat
  token : List Byte
  path : List Byte
  user : List Byte
  deriving DecidableEq, Repr

def NUM_WEBDAV_LOCKS : Nat := 10
def LOCK_DURATION_S : Nat := 60
def lockDurationNs : Nat := LOCK_DURATION_S * 1000000000

def freeLock : TwebdavLock := ⟨0, [], [], []⟩

/-- The part of a connection that `LOCK` and `UNLOCK` look at. -/
structure LockRequest where
  link : LinkInfo
  remoteUser : Option (List Byte)
  deriving DecidableEq, Repr

def LockRequest.linkBuf (req : LockRequest) : List Byte :=
  mgGetRequestLink req.link (UTF8_PATH_MAX * 2)

/-- How `LOCK` and `UNLOCK` are answered. -/
inductive DavAnswer where
  | nothing
  | httpError (status : Nat) (message : List Byte)
  | activeLock (lock : TwebdavLock)
  | noContent
  deriving DecidableEq, Repr

def DavAnswer.status : DavAnswer → Option Nat
  | .nothing => none
  | .httpError status _ => some status
  | .activeLock _ => some 200
  | .noContent => some 204

/-- How the search for an existing lock ends. -/
inductive LockSearch where
  | absent
  | own (i : Nat)
  | locked
  deriving DecidableEq, Repr

def LockSearch.next : LockSearch → LockSearch
  | .own i => .own (i + 1)
  | search => search

/-- The first loop of `dav_lock_file`: it renews the first entry of the user, and frees the expired entries of
other users in front of it. -/
def findLock (linkBuf user : List Byte) (newLocktime : Nat) :
    List TwebdavLock → LockSearch × List TwebdavLock
  | [] => (.absent, [])
  | l :: ls =>
    if l.path = linkBuf then
      if user = l.user then (.own 0, { l with locktime := newLocktime } :: ls)
      else if (l.locktime + lockDurationNs) % 2 ^ 64 < newLocktime then
        let (search, ls) := findLock linkBuf user newLocktime ls
        (search.next, { l with path := [] } :: ls)
      else (.locked, l :: ls)
    else
      let (search, ls) := findLock linkBuf user newLocktime ls
      (search.next, l :: ls)

/-- The second loop: the first free slot gets a new lock, with a token of its own. -/
def createLock (md5 : List Byte → List Byte) (linkBuf user : List Byte) (locktime : Nat)
    (locks : List TwebdavLock) : Option (Nat × List TwebdavLock) :=
  (locks.findIdx? (fun l => l.path == [])).map fun i =>
    (i, locks.set i
      { locktime := locktime
        token := md5 (linkBuf ++ [1] ++ decText locktime ++ [1] ++ user)
        path := mgStrlcpy linkBuf (UTF8_PATH_MAX * 2)
        user := mgStrlcpy user (UTF8_PATH_MAX * 2) })

def oldestLoop : Nat → Nat → Nat → List TwebdavLock → Nat
  | _, lockIndex, _, [] => lockIndex
  | i, lockIndex, oldest, l :: ls =>
    if l.locktime < oldest then oldestLoop (i + 1) i l.locktime ls
    else oldestLoop (i + 1) lockIndex oldest ls

/-- The third loop: the first of the oldest entries. -/
def oldestLock : List TwebdavLock → Nat
  | [] => 0
  | l :: ls => oldestLoop 1 0 l.locktime ls

/-- `dav_lock_file`, with the two times it reads from the clock. Its outer loop ends after one turn: an index
is set at the end of the turn, at the latest to that of the oldest entry. -/
def davLockFile (md5 : List Byte → List Byte) (req : LockRequest) (newLocktime createTime : Nat)
    (davLock : List TwebdavLock) : DavAnswer × List TwebdavLock :=
  match req.remoteUser with
  | none => (.nothing, davLock)
  | some user =>
    match findLock req.linkBuf user newLocktime davLock with
    | (.locked, davLock) => (.httpError 423 (ascii "Already locked"), davLock)
    | (search, davLock) =>
      -- the loop for a new lock also runs where one was found
      match createLock md5 req.linkBuf user createTime davLock, search with
      | some (i, davLock), _ => (.activeLock (davLock.getD i freeLock), davLock)
      | none, .own i => (.activeLock (davLock.getD i freeLock), davLock)
      | none, _ =>
        let i := oldestLock davLock
        let davLock := davLock.modify i fun l => { l with path := [] }
        (.activeLock (davLock.getD i freeLock), davLock)

/-- `dav_unlock_file`. -/
def davUnlockFile (req : LockRequest) (davLock : List TwebdavLock) : DavAnswer × List TwebdavLock :=
  match req.remoteUser with
  | none => (.nothing, davLock)
  | some _ =>
    if davLock.any (fun l => l.path == req.linkBuf) then (.noContent, davLock)
    else (.httpError 423 (ascii "Lock not found"), davLock)

inductive LockCall where
  | lock (req : LockRequest) (newLocktime createTime : Nat)
  | unlock (req : LockRequest)
  deriving DecidableEq, Repr

def lockCall (md5 : List Byte → List Byte) (davLock : List TwebdavLock) : LockCall → List TwebdavLock
  | .lock req newLocktime createTime => (davLockFile md5 req newLocktime createTime davLock).2
  | .unlock req => (davUnlockFile req davLock).2

/-- The table of a server behind the requests of its clients. -/
def lockTable (md5 : List Byte → List Byte) (calls : List LockCall) : List TwebdavLock :=
  calls.foldl (lockCall md5) (List.replicate NUM_WEBDAV_LOCKS freeLock)

/-- What an `UNLOCK` is for: the lock of its user goes, and nothing else. -/
structure ReleasesLock (md5 : List Byte → List Byte) (req : LockRequest)
    (davLock davLock' : List TwebdavLock) (answer : DavAnswer) : Prop where
  owner : answer.status = some 204 →
    ∃ l ∈ davLock, l.path = req.linkBuf ∧ some l.user = req.remoteUser
  released : answer.status = some 204 → ∀ l ∈ davLock', l.path ≠ req.linkBuf
  next : answer.status = some 204 → ∀ req' newLocktime createTime, req'.linkBuf = req.linkBuf →
    req'.remoteUser ≠ none → req'.remoteUser ≠ req.remoteUser →
    (davLockFile md5 req' newLocktime createTime davLock').1.status = some 200
  refused : answer.status ≠ some 204 → davLock' = davLock
  others : ∀ (i : Nat) (l : TwebdavLock), davLock[i]? = some l → l.path ≠ req.linkBuf →
    davLock'[i]? = some l

/-- An `UNLOCK` changes nothing in the table. -/
theorem davUnlockFile_table (req : LockRequest) (davLock : List TwebdavLock) :
    (davUnlockFile req davLock).2 = davLock := by
  unfold davUnlockFile
  cases req.remoteUser with
  | none => rfl
  | some user =>
    dsimp only
    split_ifs <;> rfl

theorem davUnlockFile_status (req : LockRequest) (davLock : List TwebdavLock) :
    (davUnlockFile req davLock).1.status = some 204 ↔
      req.remoteUser ≠ none ∧ ∃ l ∈ davLock, l.path = req.linkBuf := by
  unfold davUnlockFile
  cases req.remoteUser with
  | none => simp [DavAnswer.status]
  | some user =>
    dsimp only
    split_ifs with h
    · simpa [DavAnswer.status] using h
    · simpa [DavAnswer.status] using h

/-- `UNLOCK` does what it is for exactly where there is nothing to unlock. -/
theorem davUnlockFile_releases (md5 : List Byte → List Byte) (calls : List LockCall)
    (req : LockRequest) :
    ReleasesLock md5 req (lockTable md5 calls) (davUnlockFile req (lockTable md5 calls)).2
        (davUnlockFile req (lockTable md5 calls)).1 ↔
      req.remoteUser = none ∨ ∀ l ∈ lockTable md5 calls, l.path ≠ req.linkBuf := by
  have hsame := davUnlockFile_table req (lockTable md5 calls)
  have hstatus := davUnlockFile_status req (lockTable md5 calls)
  constructor
  · intro h
    by_contra hcon
    obtain ⟨huser, hheld⟩ := not_or.mp hcon
    push Not at hheld
    -- the entry that is answered for is still there
    obtain ⟨l, hl, hpath⟩ := hheld
    have hok := hstatus.mpr ⟨huser, l, hl, hpath⟩
    exact h.released hok l (hsame.symm ▸ hl) hpath
  · intro h
    have hrefused : (davUnlockFile req (lockTable md5 calls)).1.status ≠ some 204 := by
      intro hok
      obtain ⟨huser, l, hl, hpath⟩ := hstatus.mp hok
      rcases h with hnone | hall
      · exact huser hnone
      · exact hall l hl hpath
    constructor
    · exact fun hok => absurd hok hrefused
    · exact fun hok => absurd hok hrefused
    · exact fun hok => absurd hok hrefused
    · exact fun _ => hsame
    · intro i l hl _
      rw [hsame]
      exact hl

/-- A request for `/a`. -/
def lockRequestOf (user : String) : LockRequest :=
  ⟨⟨false, false, 80, ascii "/a", false, none, ascii "::1"⟩, some (ascii user)⟩

def aliceTable : List TwebdavLock := lockTable (fun _ => []) [.lock (lockRequestOf "alice") 1 2]

/-- The lock of another user is not released, and the answer is 204 all the same. -/
theorem davUnlockFile_keeps_lock :
    (davUnlockFile (lockRequestOf "bob") aliceTable).1.status = some 204 ∧
      (∃ l ∈ (davUnlockFile (lockRequestOf "bob") aliceTable).2,
        l.path = (lockRequestOf "bob").linkBuf ∧ l.user = ascii "alice") ∧
      ¬ ReleasesLock (fun _ => []) (lockRequestOf "bob") aliceTable
        (davUnlockFile (lockRequestOf "bob") aliceTable).2
        (davUnlockFile (lockRequestOf "bob") aliceTable).1 := by
  have hok : (davUnlockFile (lockRequestOf "bob") aliceTable).1.status = some 204 := by
    decide +kernel
  have hheld : ∃ l ∈ (davUnlockFile (lockRequestOf "bob") aliceTable).2,
      l.path = (lockRequestOf "bob").linkBuf ∧ l.user = ascii "alice" := by
    decide +kernel
  refine ⟨hok, hheld, ?_⟩
  intro h
  obtain ⟨l, hl, hpath, -⟩ := hheld
  exact h.released hok l hl hpath

end CivetWeb
