import CivetWeb.Dav.Lock

namespace CivetWeb

/-! ### The table and the loops over it -/

/-- No two entries of the table have the same path. -/
def OnePerPath (locks : List TwebdavLock) : Prop := locks.Pairwise fun l m => l.path ≠ [] → l.path ≠ m.path

instance (locks : List TwebdavLock) : Decidable (OnePerPath locks) :=
  inferInstanceAs (Decidable (List.Pairwise _ locks))

/-- What the second loop of `dav_lock_file` writes into a free slot. -/
def newLock (md5 : List Byte → List Byte) (linkBuf user : List Byte) (locktime : Nat) : TwebdavLock where
  locktime := locktime
  token := md5 (linkBuf ++ [1] ++ decText locktime ++ [1] ++ user)
  path := mgStrlcpy linkBuf (UTF8_PATH_MAX * 2)
  user := mgStrlcpy user (UTF8_PATH_MAX * 2)

theorem linkBuf_ne_nil (req : LockRequest) : req.linkBuf ≠ [] := by
  have htext : linkText req.link ≠ [] := by
    rw [linkText]
    simp [ascii]
  have hpos := List.length_pos_of_ne_nil htext
  rw [LockRequest.linkBuf, mgGetRequestLink, mgSnprintf]
  split_ifs
  · exact htext
  · apply List.ne_nil_of_length_pos
    rw [List.length_take, UTF8_PATH_MAX]
    omega

theorem onePerPath_insert {before after : List TwebdavLock} {l : TwebdavLock} :
    OnePerPath (before ++ l :: after) ↔
      OnePerPath (before ++ after) ∧ ∀ m ∈ before ++ after, l.path ≠ [] → m.path ≠ l.path := by
  simp only [OnePerPath, List.pairwise_append, List.pairwise_cons, List.mem_cons, List.mem_append]
  grind

/-- An entry for another path is passed over. -/
theorem findLock_other (linkBuf user : List Byte) (newLocktime : Nat) {l : TwebdavLock} (hl : l.path ≠ linkBuf)
    (ls : List TwebdavLock) : findLock linkBuf user newLocktime (l :: ls) =
      ((findLock linkBuf user newLocktime ls).1.next, l :: (findLock linkBuf user newLocktime ls).2) :=
  if_neg hl

theorem findLock_absent (linkBuf user : List Byte) (newLocktime : Nat) (locks : List TwebdavLock)
    (h : ∀ l ∈ locks, l.path ≠ linkBuf) : findLock linkBuf user newLocktime locks = (.absent, locks) := by
  induction locks with
  | nil => rfl
  | cons l ls ih =>
    have hl : l.path ≠ linkBuf := h l (by simp)
    rw [findLock_other linkBuf user newLocktime hl, ih fun m hm => h m (by simp [hm])]
    rfl

theorem findLock_entry (linkBuf user : List Byte) (newLocktime : Nat) (before : List TwebdavLock) (l : TwebdavLock)
    (after : List TwebdavLock) (hpath : l.path = linkBuf) (hbefore : ∀ m ∈ before, m.path ≠ linkBuf)
    (hafter : ∀ m ∈ after, m.path ≠ linkBuf) :
    findLock linkBuf user newLocktime (before ++ l :: after) =
      if user = l.user then (.own before.length, before ++ { l with locktime := newLocktime } :: after)
      else if (l.locktime + lockDurationNs) % 2 ^ 64 < newLocktime then
        (.absent, before ++ { l with path := [] } :: after)
      else (.locked, before ++ l :: after) := by
  induction before with
  | nil =>
    rw [List.nil_append, findLock, if_pos hpath, findLock_absent _ _ _ _ hafter]
    rfl
  | cons m ms ih =>
    have hm : m.path ≠ linkBuf := hbefore m (by simp)
    rw [List.cons_append, findLock_other linkBuf user newLocktime hm, ih fun k hk => hbefore k (by simp [hk])]
    split_ifs <;> rfl

theorem createLock_none (md5 : List Byte → List Byte) (linkBuf user : List Byte) (locktime : Nat)
    (locks : List TwebdavLock) (h : ∀ l ∈ locks, l.path ≠ []) : createLock md5 linkBuf user locktime locks = none := by
  rw [createLock, Option.map_eq_none_iff, List.findIdx?_eq_none_iff]
  intro l hl
  simpa using h l hl

/-- The first free slot gets the lock. -/
theorem createLock_some (md5 : List Byte → List Byte) (linkBuf user : List Byte) (locktime : Nat)
    (locks : List TwebdavLock) (h : ∃ l ∈ locks, l.path = []) :
    ∃ before l after, locks = before ++ l :: after ∧ l.path = [] ∧
      createLock md5 linkBuf user locktime locks =
        some (before.length, before ++ newLock md5 linkBuf user locktime :: after) := by
  induction locks with
  | nil =>
    obtain ⟨l, hl, -⟩ := h
    cases hl
  | cons l ls ih =>
    by_cases hl : l.path = []
    · refine ⟨[], l, ls, rfl, hl, ?_⟩
      rw [createLock, List.findIdx?_cons, if_pos (by simpa using hl)]
      rfl
    · obtain ⟨before, m, after, hls, hm, hcreate⟩ := ih (by simpa [hl] using h)
      refine ⟨l :: before, m, after, by rw [hls, List.cons_append], hm, ?_⟩
      rw [createLock, Option.map_eq_some_iff] at hcreate ⊢
      obtain ⟨i, hi, hset⟩ := hcreate
      rw [Prod.mk.injEq] at hset
      refine ⟨i + 1, ?_, ?_⟩
      · rw [List.findIdx?_cons, if_neg (by simpa using hl), hi]
        rfl
      · rw [Prod.mk.injEq, List.set_cons_succ, List.length_cons, List.cons_append]
        exact ⟨congrArg (· + 1) hset.1, congrArg (l :: ·) hset.2⟩

/-- The entry of a path stands alone. -/
theorem OnePerPath.split {locks : List TwebdavLock} {link : List Byte} (hone : OnePerPath locks) (hlink : link ≠ [])
    (h : ∃ l ∈ locks, l.path = link) :
    ∃ before l after, locks = before ++ l :: after ∧ l.path = link ∧ ∀ m ∈ before ++ after, m.path ≠ link := by
  obtain ⟨l, hl, hpath⟩ := h
  obtain ⟨before, after, rfl⟩ := List.append_of_mem hl
  refine ⟨before, l, after, rfl, hpath, ?_⟩
  intro m hm
  rw [← hpath]
  exact (onePerPath_insert.mp hone).2 m hm (by rw [hpath]; exact hlink)

theorem OnePerPath.mem_eq {locks : List TwebdavLock} {l m : TwebdavLock} (hone : OnePerPath locks)
    (hl : l ∈ locks) (hm : m ∈ locks) (hpath : l.path = m.path) (hne : l.path ≠ []) : l = m := by
  obtain ⟨before, after, rfl⟩ := List.append_of_mem hl
  by_contra hlm
  have hother : m ∈ before ++ after := by
    rw [List.mem_append, List.mem_cons] at hm
    rw [List.mem_append]
    rcases hm with hm | hm | hm
    · exact .inl hm
    · exact absurd hm.symm hlm
    · exact .inr hm
  exact (onePerPath_insert.mp hone).2 m hother hne hpath.symm

theorem OnePerPath.split_eq {before before' after after' : List TwebdavLock} {l l' : TwebdavLock}
    (hone : OnePerPath (before ++ l :: after)) (heq : before ++ l :: after = before' ++ l' :: after')
    (hpath : l.path = l'.path) (hne : l.path ≠ []) : before = before' ∧ l = l' ∧ after = after' := by
  have hno := (onePerPath_insert.mp hone).2
  rcases List.append_eq_append_iff.mp heq with ⟨mid, hbefore, hafter⟩ | ⟨mid, hbefore, hafter⟩
  · cases mid with
    | nil =>
      rw [List.nil_append, List.cons.injEq] at hafter
      exact ⟨by rw [hbefore, List.append_nil], hafter.1, hafter.2⟩
    | cons m mid =>
      rw [List.cons_append, List.cons.injEq] at hafter
      exact absurd hpath.symm (hno l' (by simp [hafter.2]) hne)
  · cases mid with
    | nil =>
      rw [List.nil_append, List.cons.injEq] at hafter
      exact ⟨by rw [hbefore, List.append_nil], hafter.1.symm, hafter.2.symm⟩
    | cons m mid =>
      rw [List.cons_append, List.cons.injEq] at hafter
      exact absurd hpath.symm (hno l' (by simp [hbefore, hafter.1]) hne)

/-- The ways in which `dav_lock_file` answers a user. -/
inductive LockOutcome (md5 : List Byte → List Byte) (link user : List Byte) (newLocktime createTime : Nat)
    (locks : List TwebdavLock) : DavAnswer → List TwebdavLock → Prop where
  | renewed (before : List TwebdavLock) (l : TwebdavLock) (after : List TwebdavLock)
      (hlocks : locks = before ++ l :: after) (hpath : l.path = link) (huser : l.user = user)
      (hfull : ∀ m ∈ locks, m.path ≠ []) :
      LockOutcome md5 link user newLocktime createTime locks (.activeLock { l with locktime := newLocktime })
        (before ++ { l with locktime := newLocktime } :: after)
  | doubled (l m free : TwebdavLock) (before after : List TwebdavLock) (answer : DavAnswer) (hl : l ∈ locks)
      (hpath : l.path = link) (huser : l.user = user) (hfree : free ∈ locks) (hnil : free.path = [])
      (hm : m ∈ before ++ after) (hagain : m.path = link) :
      LockOutcome md5 link user newLocktime createTime locks answer
        (before ++ newLock md5 link user createTime :: after)
  | locked (l : TwebdavLock) (hl : l ∈ locks) (hpath : l.path = link) (huser : l.user ≠ user) :
      LockOutcome md5 link user newLocktime createTime locks (.httpError 423 (ascii "Already locked")) locks
  | expired (before : List TwebdavLock) (l : TwebdavLock) (after before' : List TwebdavLock) (free : TwebdavLock)
      (after' : List TwebdavLock) (hlocks : locks = before ++ l :: after) (hpath : l.path = link)
      (huser : l.user ≠ user) (htime : (l.locktime + lockDurationNs) % 2 ^ 64 < newLocktime)
      (hfree : before ++ { l with path := [] } :: after = before' ++ free :: after') (hnil : free.path = []) :
      LockOutcome md5 link user newLocktime createTime locks (.activeLock (newLock md5 link user createTime))
        (before' ++ newLock md5 link user createTime :: after')
  | created (before : List TwebdavLock) (free : TwebdavLock) (after : List TwebdavLock)
      (hlocks : locks = before ++ free :: after) (hno : ∀ l ∈ locks, l.path ≠ link) (hnil : free.path = []) :
      LockOutcome md5 link user newLocktime createTime locks (.activeLock (newLock md5 link user createTime))
        (before ++ newLock md5 link user createTime :: after)
  | evicted (lock : TwebdavLock) (i : Nat) (hno : ∀ l ∈ locks, l.path ≠ link) (hfull : ∀ l ∈ locks, l.path ≠ []) :
      LockOutcome md5 link user newLocktime createTime locks (.activeLock lock)
        (locks.modify i fun l => { l with path := [] })

theorem getD_split (before : List TwebdavLock) (l : TwebdavLock) (after : List TwebdavLock) :
    (before ++ l :: after).getD before.length freeLock = l := by
  rw [List.getD_eq_getElem?_getD, List.getElem?_append_right (le_refl _), Nat.sub_self]
  rfl

theorem davLockFile_outcome (md5 : List Byte → List Byte) (req : LockRequest) (user : List Byte)
    (newLocktime createTime : Nat) (locks : List TwebdavLock) (huser : req.remoteUser = some user)
    (hone : OnePerPath locks) :
    LockOutcome md5 req.linkBuf user newLocktime createTime locks
      (davLockFile md5 req newLocktime createTime locks).1 (davLockFile md5 req newLocktime createTime locks).2 := by
  obtain ⟨link, hlink⟩ : ∃ link, link = req.linkBuf := ⟨_, rfl⟩
  have hne : link ≠ [] := hlink ▸ linkBuf_ne_nil req
  rw [davLockFile, huser, ← hlink]
  dsimp only
  by_cases hentry : ∃ l ∈ locks, l.path = link
  swap
  · have hno : ∀ l ∈ locks, l.path ≠ link := fun l hl hp => hentry ⟨l, hl, hp⟩
    rw [findLock_absent link user newLocktime locks hno]
    dsimp only
    by_cases hfree : ∃ l ∈ locks, l.path = []
    · obtain ⟨before, l, after, hlocks, hnil, hcreate⟩ := createLock_some md5 link user createTime locks hfree
      rw [hcreate]
      dsimp only
      rw [getD_split]
      exact .created before l after hlocks hno hnil
    · have hfull : ∀ l ∈ locks, l.path ≠ [] := fun l hl hp => hfree ⟨l, hl, hp⟩
      rw [createLock_none md5 link user createTime locks hfull]
      exact .evicted _ _ hno hfull
  obtain ⟨before, l, after, rfl, hpath, hothers⟩ := hone.split hne hentry
  have hmem : l ∈ before ++ l :: after := by simp
  rw [findLock_entry link user newLocktime before l after hpath (fun m hm => hothers m (by simp [hm]))
    (fun m hm => hothers m (by simp [hm]))]
  by_cases hown : user = l.user
  · rw [if_pos hown]
    dsimp only
    by_cases hfree : ∃ m ∈ before ++ { l with locktime := newLocktime } :: after, m.path = []
    · -- the loop for a new lock runs although the user's own was found
      obtain ⟨before', free, after', hlocks, hnil, hcreate⟩ := createLock_some md5 link user createTime _ hfree
      have hrenewed : { l with locktime := newLocktime } ∈ before' ++ after' := by
        have h : { l with locktime := newLocktime } ∈ before' ++ free :: after' := by
          rw [← hlocks]
          simp
        rw [List.mem_append, List.mem_cons] at h
        rw [List.mem_append]
        rcases h with h | h | h
        · exact .inl h
        · rw [← h] at hnil
          exact absurd (hpath.symm.trans hnil) hne
        · exact .inr h
      have hfree' : free ∈ before ++ l :: after := by
        have h : free ∈ before ++ { l with locktime := newLocktime } :: after := by
          rw [hlocks]
          simp
        rw [List.mem_append, List.mem_cons] at h ⊢
        rcases h with h | h | h
        · exact .inl h
        · rw [h] at hnil
          exact absurd (hpath.symm.trans hnil) hne
        · exact .inr (.inr h)
      rw [hcreate]
      exact .doubled l { l with locktime := newLocktime } free before' after' _ hmem hpath hown.symm hfree' hnil
        hrenewed hpath
    · have hfull : ∀ m ∈ before ++ { l with locktime := newLocktime } :: after, m.path ≠ [] :=
        fun m hm hp => hfree ⟨m, hm, hp⟩
      rw [createLock_none md5 link user createTime _ hfull]
      dsimp only
      rw [getD_split]
      refine .renewed before l after rfl hpath hown.symm ?_
      intro m hm
      rw [List.mem_append, List.mem_cons] at hm
      rcases hm with hm | rfl | hm
      · exact hfull m (by simp [hm])
      · rw [hpath]
        exact hne
      · exact hfull m (by simp [hm])
  rw [if_neg hown]
  by_cases htime : (l.locktime + lockDurationNs) % 2 ^ 64 < newLocktime
  · rw [if_pos htime]
    dsimp only
    obtain ⟨before', free, after', hlocks, hnil, hcreate⟩ := createLock_some md5 link user createTime
      (before ++ { l with path := [] } :: after) ⟨{ l with path := [] }, by simp, rfl⟩
    rw [hcreate]
    dsimp only
    rw [getD_split]
    exact .expired before l after before' free after' rfl hpath (Ne.symm hown) htime hlocks hnil
  · rw [if_neg htime]
    exact .locked l hmem hpath (Ne.symm hown)

end CivetWeb
