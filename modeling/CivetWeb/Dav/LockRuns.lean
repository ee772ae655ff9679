import CivetWeb.Dav.LockOutcome
import CivetWeb.Lib.System

namespace CivetWeb

/-! ### Sequences of `LOCK` requests -/

/-- A `LOCK` request with the two times that are read from the clock. -/
structure LockEvent where
  req : LockRequest
  newLocktime : Nat
  createTime : Nat
  deriving DecidableEq, Repr

/-- An answer of 200: for which path and user, at which time it was asked for, and the time in the entry.
`evicted` tells that the entry was thrown out of the full table since. -/
structure Grant where
  path : List Byte
  user : List Byte
  asked : Nat
  locktime : Nat
  evicted : Bool
  deriving DecidableEq, Repr

/-- The last request of a user, with the table that it met and the answer. -/
structure LockStep where
  before : List TwebdavLock
  link : List Byte
  user : List Byte
  newLocktime : Nat
  answer : DavAnswer
  deriving DecidableEq, Repr

structure LockRun where
  table : List TwebdavLock
  clock : Nat
  grants : List Grant
  last : Option LockStep
  deriving DecidableEq, Repr

/-- The entry that the third loop of `dav_lock_file` throws out. -/
def evictedLock (linkBuf user : List Byte) (newLocktime : Nat) (davLock : List TwebdavLock) : Option TwebdavLock :=
  match findLock linkBuf user newLocktime davLock with
  | (.absent, davLock) =>
    if davLock.any (fun l => l.path == []) then none else some (davLock.getD (oldestLock davLock) freeLock)
  | _ => none

def Grant.mark (evicted : Option TwebdavLock) (g : Grant) : Grant :=
  { g with evicted := g.evicted || evicted.any fun l : TwebdavLock => l.path == g.path && l.user == g.user }

/-- The answers of 200 among the answers. -/
def grantsOf (link user : List Byte) (newLocktime : Nat) : DavAnswer → List Grant
  | .activeLock l => [⟨link, user, newLocktime, l.locktime, false⟩]
  | _ => []

/-- The state behind an answer with its table. -/
def LockRun.next (r : LockRun) (link user : List Byte) (newLocktime createTime : Nat) (answer : DavAnswer)
    (table : List TwebdavLock) (evicted : Option TwebdavLock) : LockRun where
  table := table
  clock := createTime
  grants := r.grants.map (Grant.mark evicted) ++ grantsOf link user newLocktime answer
  last := some ⟨r.table, link, user, newLocktime, answer⟩

/-- The clock does not go back and is not within a lock's duration of its end; the user's name fits the table. -/
def lockStep (md5 : List Byte → List Byte) (r : LockRun) (e : LockEvent) : Option LockRun :=
  match e.req.remoteUser with
  | none => some r
  | some user =>
    if r.clock ≤ e.newLocktime ∧ e.newLocktime ≤ e.createTime ∧ e.createTime + lockDurationNs < 2 ^ 64 ∧
        user.length < UTF8_PATH_MAX * 2 then
      let (answer, table) := davLockFile md5 e.req e.newLocktime e.createTime r.table
      some (r.next e.req.linkBuf user e.newLocktime e.createTime answer table
        (evictedLock e.req.linkBuf user e.newLocktime r.table))
    else none

def freshLocks : LockRun := ⟨List.replicate NUM_WEBDAV_LOCKS freeLock, 0, [], none⟩

/-- Locks are exclusive and stable. -/
structure LocksSound (r : LockRun) : Prop where
  unique : OnePerPath r.table
  exclusive : r.grants.Pairwise fun g h => g.path = h.path → g.user ≠ h.user →
    g.evicted = true ∨ g.locktime + lockDurationNs < h.asked
  held : ∀ s ∈ r.last, ∀ lock, s.answer = .activeLock lock →
    ∃ l ∈ r.table, l.path = s.link ∧ l.user = s.user ∧ l.token = lock.token
  repeated : ∀ s ∈ r.last, ∀ before l after, s.before = before ++ l :: after → l.path = s.link → l.user = s.user →
    s.answer = .activeLock { l with locktime := s.newLocktime } ∧
      r.table = before ++ { l with locktime := s.newLocktime } :: after

/-- A user with an entry of its own asks while the table is full, and one for a path without an entry while it
is not. -/
def LockFits (locks : List TwebdavLock) (link user : List Byte) : Prop :=
  ((∃ l ∈ locks, l.path = link ∧ l.user = user) → ∀ l ∈ locks, l.path ≠ []) ∧
    ((∀ l ∈ locks, l.path ≠ link) → ∃ l ∈ locks, l.path = [])

/-! ### What a request keeps -/

theorem linkBuf_fits (req : LockRequest) : mgStrlcpy req.linkBuf (UTF8_PATH_MAX * 2) = req.linkBuf := by
  rw [mgStrlcpy, List.take_of_length_le]
  rw [LockRequest.linkBuf, mgGetRequestLink, mgSnprintf]
  split_ifs with h
  · exact Nat.le_pred_of_lt h
  · rw [List.length_take]
    omega

theorem user_fits {user : List Byte} (h : user.length < UTF8_PATH_MAX * 2) :
    mgStrlcpy user (UTF8_PATH_MAX * 2) = user := by
  rw [mgStrlcpy, List.take_of_length_le (by omega)]

/-- Sound locks, with the times of the table and what became of every answer of 200. -/
structure LockInv (r : LockRun) : Prop where
  sound : LocksSound r
  times : ∀ l ∈ r.table, l.locktime ≤ r.clock
  early : r.clock + lockDurationNs < 2 ^ 64
  granted : ∀ g ∈ r.grants, g.path ≠ [] ∧ (g.locktime + lockDurationNs < r.clock ∨
    ∃ l ∈ r.table, l.path = g.path ∧ l.user = g.user ∧ g.locktime ≤ l.locktime)

theorem lockInv_fresh : LockInv freshLocks where
  sound := by
    refine ⟨?_, ?_, ?_, ?_⟩
    · rw [OnePerPath, freshLocks, List.pairwise_replicate]
      exact .inr fun h => absurd rfl h
    · exact List.Pairwise.nil
    · intro s hs
      cases hs
    · intro s hs
      cases hs
  times := by
    intro l hl
    rw [freshLocks] at hl
    rw [List.eq_of_mem_replicate hl]
    exact le_refl 0
  early := by decide
  granted := by
    intro g hg
    cases hg

/-- A user's request goes by one of the ways of `dav_lock_file`. -/
theorem lockStep_cases {md5 : List Byte → List Byte} {r t : LockRun} {e : LockEvent} (hone : OnePerPath r.table)
    (h : lockStep md5 r e = some t) :
    e.req.remoteUser = none ∧ t = r ∨
      ∃ user, e.req.remoteUser = some user ∧ r.clock ≤ e.newLocktime ∧ e.newLocktime ≤ e.createTime ∧
        e.createTime + lockDurationNs < 2 ^ 64 ∧ user.length < UTF8_PATH_MAX * 2 ∧
        ∃ answer table evicted, LockOutcome md5 e.req.linkBuf user e.newLocktime e.createTime r.table answer table ∧
          t = r.next e.req.linkBuf user e.newLocktime e.createTime answer table evicted := by
  rw [lockStep] at h
  cases huser : e.req.remoteUser with
  | none =>
    rw [huser] at h
    exact .inl ⟨rfl, (Option.some.inj h).symm⟩
  | some user =>
    rw [huser] at h
    dsimp only at h
    split_ifs at h with hguard
    obtain ⟨h1, h2, h3, h4⟩ := hguard
    exact .inr ⟨user, rfl, h1, h2, h3, h4, _, _, _,
      davLockFile_outcome md5 e.req user e.newLocktime e.createTime r.table huser hone, (Option.some.inj h).symm⟩

section
variable {r : LockRun} {link user : List Byte} {newLocktime createTime : Nat} {answer : DavAnswer}
variable {table : List TwebdavLock} {evicted : Option TwebdavLock}
variable (hinv : LockInv r) (hcreate : newLocktime ≤ createTime)
variable (hearly : createTime + lockDurationNs < 2 ^ 64) (hlink : link ≠ [])
include hinv hearly hlink

theorem lockInv_next (hunique : OnePerPath table) (htimes : ∀ l ∈ table, l.locktime ≤ createTime)
    (hgranted : ∀ g ∈ r.grants, g.locktime + lockDurationNs < createTime ∨
      ∃ l ∈ table, l.path = g.path ∧ l.user = g.user ∧ g.locktime ≤ l.locktime)
    (hanswer : ∀ lock, answer = .activeLock lock →
      (∃ l ∈ table, l.path = link ∧ l.user = user ∧ l.token = lock.token ∧ lock.locktime = l.locktime) ∧
        ∀ g ∈ r.grants, g.path = link → g.user ≠ user → g.locktime + lockDurationNs < newLocktime)
    (hrepeated : ∀ before l after, r.table = before ++ l :: after → l.path = link → l.user = user →
      answer = .activeLock { l with locktime := newLocktime } ∧
        table = before ++ { l with locktime := newLocktime } :: after) :
    LockInv (r.next link user newLocktime createTime answer table evicted) := by
  have hmark : (r.grants.map (Grant.mark evicted)).Pairwise fun g h => g.path = h.path → g.user ≠ h.user →
      g.evicted = true ∨ g.locktime + lockDurationNs < h.asked := by
    rw [List.pairwise_map]
    refine hinv.sound.exclusive.imp ?_
    intro g h hgh hpath huser
    exact (hgh hpath huser).imp (fun hg => by rw [Grant.mark, hg, Bool.true_or]) id
  refine ⟨⟨hunique, ?_, ?_, ?_⟩, htimes, hearly, ?_⟩
  · rw [LockRun.next, List.pairwise_append]
    cases answer with
    | activeLock lock =>
      refine ⟨hmark, List.pairwise_singleton _ _, ?_⟩
      intro g hg h hh hpath huser
      rw [grantsOf, List.mem_singleton] at hh
      obtain ⟨g', hg', rfl⟩ := List.mem_map.mp hg
      rw [hh] at hpath huser ⊢
      exact .inr ((hanswer lock rfl).2 g' hg' hpath huser)
    | nothing => exact ⟨hmark, List.Pairwise.nil, by simp [grantsOf]⟩
    | httpError status message => exact ⟨hmark, List.Pairwise.nil, by simp [grantsOf]⟩
    | noContent => exact ⟨hmark, List.Pairwise.nil, by simp [grantsOf]⟩
  · intro s hs lock hlock
    cases hs
    obtain ⟨l, hl, hpath, huser, htoken, -⟩ := (hanswer lock hlock).1
    exact ⟨l, hl, hpath, huser, htoken⟩
  · intro s hs before l after hbefore hpath huser
    cases hs
    exact hrepeated before l after hbefore hpath huser
  · intro g hg
    rw [LockRun.next] at hg
    rcases List.mem_append.mp hg with hg | hg
    · obtain ⟨g', hg', rfl⟩ := List.mem_map.mp hg
      exact ⟨(hinv.granted g' hg').1, hgranted g' hg'⟩
    · cases answer with
      | activeLock lock =>
        rw [grantsOf, List.mem_singleton] at hg
        obtain ⟨l, hl, hpath, huser, -, htime⟩ := (hanswer lock rfl).1
        rw [hg]
        exact ⟨hlink, .inr ⟨l, hl, hpath, huser, htime.le⟩⟩
      | nothing => cases hg
      | httpError status message => cases hg
      | noContent => cases hg

include hcreate

/-- A new lock in a slot that is free, in a table without an entry for the path. -/
theorem lockInv_placed {md5 : List Byte → List Byte} {before after : List TwebdavLock} {free : TwebdavLock}
    (hlinkFits : mgStrlcpy link (UTF8_PATH_MAX * 2) = link) (huserFits : mgStrlcpy user (UTF8_PATH_MAX * 2) = user)
    (hone : OnePerPath (before ++ free :: after)) (hno : ∀ m ∈ before ++ free :: after, m.path ≠ link)
    (hnil : free.path = []) (htimes : ∀ m ∈ before ++ free :: after, m.locktime ≤ createTime)
    (hgranted : ∀ g ∈ r.grants, g.locktime + lockDurationNs < newLocktime ∨
      ∃ l ∈ before ++ free :: after, l.path = g.path ∧ l.user = g.user ∧ g.locktime ≤ l.locktime)
    (hother : ∀ l ∈ r.table, l.path = link → l.user ≠ user) :
    LockInv (r.next link user newLocktime createTime (.activeLock (newLock md5 link user createTime))
      (before ++ newLock md5 link user createTime :: after) evicted) := by
  have hkept {m : TwebdavLock} (hm : m ∈ before ++ after) : m ∈ before ++ free :: after := by
    rw [List.mem_append] at hm
    rw [List.mem_append, List.mem_cons]
    exact hm.imp id .inr
  have hnew : newLock md5 link user createTime ∈ before ++ newLock md5 link user createTime :: after := by simp
  apply lockInv_next hinv hearly hlink
  · refine onePerPath_insert.mpr ⟨(onePerPath_insert.mp hone).1, ?_⟩
    intro m hm _
    rw [newLock, hlinkFits]
    exact hno m (hkept hm)
  · intro m hm
    rw [List.mem_append, List.mem_cons] at hm
    rcases hm with hm | rfl | hm
    · exact htimes m (by simp [hm])
    · exact le_refl createTime
    · exact htimes m (by simp [hm])
  · intro g hg
    rcases hgranted g hg with hover | ⟨l, hl, hpath, huser, htime⟩
    · exact .inl (by omega)
    · refine .inr ⟨l, ?_, hpath, huser, htime⟩
      rw [List.mem_append, List.mem_cons] at hl ⊢
      rcases hl with hl | rfl | hl
      · exact .inl hl
      · exact absurd (hpath.symm.trans hnil) (hinv.granted g hg).1
      · exact .inr (.inr hl)
  · intro lock hlock
    cases hlock
    refine ⟨⟨_, hnew, ?_, ?_, rfl, rfl⟩, ?_⟩
    · rw [newLock, hlinkFits]
    · rw [newLock, huserFits]
    · intro g hg hpath _
      rcases hgranted g hg with hover | ⟨l, hl, hl', -⟩
      · exact hover
      · exact absurd (hl'.trans hpath) (hno l hl)
  · intro before l after hbefore hpath huser
    exact absurd huser (hother l (by rw [hbefore]; simp) hpath)

end

/-- A request that fits the table keeps the invariant. -/
theorem lockInv_step {md5 : List Byte → List Byte} {r t : LockRun} {e : LockEvent} (hinv : LockInv r)
    (hstep : lockStep md5 r e = some t)
    (hfits : ∀ user, e.req.remoteUser = some user → LockFits r.table e.req.linkBuf user) : LockInv t := by
  have hone := hinv.sound.unique
  rcases lockStep_cases hone hstep with ⟨-, rfl⟩ | ⟨user, huser, hclock, hcreate, hearly, hname, answer, table, evicted,
    hout, rfl⟩
  · exact hinv
  have hlink := linkBuf_ne_nil e.req
  have hlinkFits := linkBuf_fits e.req
  have huserFits := user_fits hname
  obtain ⟨howns, hfree⟩ := hfits user huser
  cases hout with
  | renewed before l after hlocks hpath hself hfull =>
    rw [hlocks] at hone
    obtain ⟨hrest, hothers⟩ := onePerPath_insert.mp hone
    apply lockInv_next hinv hearly hlink
    · exact onePerPath_insert.mpr ⟨hrest, hothers⟩
    · intro m hm
      rw [List.mem_append, List.mem_cons] at hm
      have hold (hm : m ∈ r.table) : m.locktime ≤ e.createTime := by
        have h := hinv.times m hm
        omega
      rcases hm with hm | rfl | hm
      · exact hold (by rw [hlocks]; simp [hm])
      · exact hcreate
      · exact hold (by rw [hlocks]; simp [hm])
    · intro g hg
      rcases (hinv.granted g hg).2 with hover | ⟨m, hm, hmpath, hmuser, htime⟩
      · exact .inl (by omega)
      · right
        have h := hinv.times m hm
        rw [hlocks, List.mem_append, List.mem_cons] at hm
        rcases hm with hm | rfl | hm
        · exact ⟨m, by simp [hm], hmpath, hmuser, htime⟩
        · exact ⟨{ m with locktime := e.newLocktime }, by simp, hmpath, hmuser, by dsimp only; omega⟩
        · exact ⟨m, by simp [hm], hmpath, hmuser, htime⟩
    · intro lock hlock
      cases hlock
      refine ⟨⟨{ l with locktime := e.newLocktime }, by simp, hpath, hself, rfl, rfl⟩, ?_⟩
      intro g hg hgpath hguser
      rcases (hinv.granted g hg).2 with hover | ⟨m, hm, hmpath, hmuser, -⟩
      · omega
      · -- the entry of the path is the user's own
        have heq : l = m := hinv.sound.unique.mem_eq (by rw [hlocks]; simp) hm
          (by rw [hpath, hmpath, hgpath]) (by rw [hpath]; exact hlink)
        rw [heq] at hself
        exact absurd (hmuser.symm.trans hself) hguser
    · intro before' l' after' hbefore' hpath' _
      obtain ⟨rfl, rfl, rfl⟩ := hone.split_eq (hlocks.symm.trans hbefore') (hpath.trans hpath'.symm)
        (by rw [hpath]; exact hlink)
      exact ⟨rfl, rfl⟩
  | doubled l m free before after answer hl hpath hself hfreeMem hnil =>
    exact absurd hnil (howns ⟨l, hl, hpath, hself⟩ free hfreeMem)
  | locked l hl hpath hother =>
    apply lockInv_next hinv hearly hlink hone
    · intro m hm
      have h := hinv.times m hm
      omega
    · intro g hg
      exact (hinv.granted g hg).2.imp (fun h => by omega) id
    · intro lock hlock
      cases hlock
    · intro before l' after hbefore hpath' huser'
      have heq : l = l' := hone.mem_eq hl (by rw [hbefore]; simp) (hpath.trans hpath'.symm)
        (by rw [hpath]; exact hlink)
      rw [heq] at hother
      exact absurd huser' hother
  | expired before l after before' free after' hlocks hpath hother htime hmid hnil =>
    have hlmem : l ∈ r.table := by
      rw [hlocks]
      simp
    have hltime := hinv.times l hlmem
    have hnowrap : l.locktime + lockDurationNs < e.newLocktime := by
      have hearly' := hinv.early
      rwa [Nat.mod_eq_of_lt (by omega)] at htime
    rw [hlocks] at hone
    obtain ⟨hrest, hothers⟩ := onePerPath_insert.mp hone
    have hfreed : ∀ m ∈ before' ++ free :: after', m = { l with path := [] } ∨ m ∈ before ++ after := by
      intro m hm
      rw [← hmid, List.mem_append, List.mem_cons] at hm
      rw [List.mem_append]
      rcases hm with hm | hm | hm
      · exact .inr (.inl hm)
      · exact .inl hm
      · exact .inr (.inr hm)
    have holdTable : ∀ m ∈ before ++ after, m ∈ r.table := by
      intro m hm
      rw [List.mem_append] at hm
      rw [hlocks, List.mem_append, List.mem_cons]
      exact hm.imp id .inr
    apply lockInv_placed hinv hcreate hearly hlink hlinkFits huserFits _ _ hnil
    · intro m hm
      rcases hfreed m hm with rfl | hm
      · dsimp only
        omega
      · have h := hinv.times m (holdTable m hm)
        omega
    · intro g hg
      rcases (hinv.granted g hg).2 with hover | ⟨m, hm, hmpath, hmuser, hmtime⟩
      · exact .inl (by omega)
      · rw [hlocks, List.mem_append, List.mem_cons] at hm
        rw [← hmid]
        rcases hm with hm | rfl | hm
        · exact .inr ⟨m, by simp [hm], hmpath, hmuser, hmtime⟩
        · exact .inl (by omega)
        · exact .inr ⟨m, by simp [hm], hmpath, hmuser, hmtime⟩
    · intro m hm hmpath
      have heq : l = m := hinv.sound.unique.mem_eq hlmem hm (hpath.trans hmpath.symm) (by rw [hpath]; exact hlink)
      rw [← heq]
      exact hother
    · rw [← hmid]
      exact onePerPath_insert.mpr ⟨hrest, fun m _ h => absurd rfl h⟩
    · intro m hm
      rcases hfreed m hm with rfl | hm
      · exact hlink.symm
      · rw [← hpath]
        exact hothers m hm (by rw [hpath]; exact hlink)
  | created before free after hlocks hno hnil =>
    rw [hlocks] at hone hno
    apply lockInv_placed hinv hcreate hearly hlink hlinkFits huserFits hone hno hnil
    · intro m hm
      have h := hinv.times m (by rw [hlocks]; exact hm)
      omega
    · intro g hg
      rw [← hlocks]
      exact (hinv.granted g hg).2.imp (fun h => by omega) id
    · intro l hl hpath
      rw [hlocks] at hl
      exact absurd hpath (hno l hl)
  | evicted lock i hno hfull =>
    obtain ⟨l, hl, hnil⟩ := hfree hno
    exact absurd hnil (hfull l hl)

/-- A request behind which the locks are sound fits the table. -/
theorem lockFits_of_sound {md5 : List Byte → List Byte} {r t : LockRun} {e : LockEvent} (hinv : LockInv r)
    (hstep : lockStep md5 r e = some t) (ht : LocksSound t) (user : List Byte) (huser : e.req.remoteUser = some user) :
    LockFits r.table e.req.linkBuf user := by
  have hone := hinv.sound.unique
  have hlink := linkBuf_ne_nil e.req
  rcases lockStep_cases hone hstep with ⟨hnone, -⟩ | ⟨user', huser', -, -, -, -, answer, table, evicted, hout, rfl⟩
  · rw [huser] at hnone
    cases hnone
  obtain rfl : user = user' := Option.some.inj (huser.symm.trans huser')
  -- an entry of the path that is not the user's own is the only one
  have hforeign (l : TwebdavLock) (hl : l ∈ r.table) (hpath : l.path = e.req.linkBuf) (hother : l.user ≠ user) :
      LockFits r.table e.req.linkBuf user := by
    refine ⟨?_, fun hno => absurd hpath (hno l hl)⟩
    rintro ⟨m, hm, hmpath, hmuser⟩
    have heq : l = m := hone.mem_eq hl hm (hpath.trans hmpath.symm) (by rw [hpath]; exact hlink)
    rw [heq] at hother
    exact absurd hmuser hother
  cases hout with
  | renewed before l after hlocks hpath hself hfull =>
    exact ⟨fun _ => hfull, fun hno => absurd hpath (hno l (by rw [hlocks]; simp))⟩
  | doubled l m free before after answer hl hpath hself hfreeMem hnil hm hagain =>
    have hnew := (onePerPath_insert.mp ht.unique).2 m hm
    rw [newLock, linkBuf_fits] at hnew
    exact absurd hagain (hnew hlink)
  | locked l hl hpath hother => exact hforeign l hl hpath hother
  | expired before l after before' free after' hlocks hpath hother _ _ _ =>
    exact hforeign l (by rw [hlocks]; simp) hpath hother
  | created before free after hlocks hno hnil =>
    refine ⟨?_, fun _ => ⟨free, by rw [hlocks]; simp, hnil⟩⟩
    rintro ⟨l, hl, hpath, -⟩
    exact absurd hpath (hno l hl)
  | evicted lock i hno hfull =>
    -- the answer is 200, and the table has no entry for it
    obtain ⟨l, hl, hpath, -⟩ := ht.held _ rfl lock rfl
    obtain ⟨k, hk⟩ := List.mem_iff_getElem?.mp hl
    rw [LockRun.next] at hk
    dsimp only at hk hpath
    rw [List.getElem?_modify, Option.map_eq_map, Option.map_eq_some_iff] at hk
    obtain ⟨m, hm, rfl⟩ := hk
    split_ifs at hpath
    · exact absurd hpath.symm hlink
    · exact absurd hpath (hno m (List.mem_of_getElem? hm))

/-- Locks are exclusive and stable in every state of a run exactly where each request fits the table: one that
renews an entry meets a full table, one for a path without an entry meets a free slot. -/
theorem locksSound_iff (md5 : List Byte → List Byte) (requests : List LockEvent) :
    System.Always (lockStep md5) LocksSound freshLocks requests ↔
      System.Along (lockStep md5) (fun r e => ∀ user, e.req.remoteUser = some user →
        LockFits r.table e.req.linkBuf user) freshLocks requests := by
  apply System.always_iff_along_kept (lockStep md5) LockInv LocksSound
  · exact fun r h => h.sound
  · exact fun r e t hinv hstep hfits => lockInv_step hinv hstep hfits
  · exact fun r e t hinv hstep ht => lockFits_of_sound hinv hstep ht
  · exact lockInv_fresh

/-- A user who renews its lock gets a second entry for the same path. -/
theorem locksSound_twice : ¬ System.Always (lockStep fun _ => []) LocksSound freshLocks
    [⟨lockRequestOf "alice", 1, 2⟩, ⟨lockRequestOf "alice", 3, 4⟩] := by
  intro h
  have htable : (System.run (lockStep fun _ => []) freshLocks
      [⟨lockRequestOf "alice", 1, 2⟩, ⟨lockRequestOf "alice", 3, 4⟩]).any (fun r => !decide (OnePerPath r.table)) =
      true := by decide +kernel
  obtain ⟨r, hrun, hdouble⟩ := (Option.any_eq_true _ _).mp htable
  have hone := (h.run _ LocksSound freshLocks r _ hrun).unique
  rw [decide_eq_true hone] at hdouble
  cases hdouble

end CivetWeb
