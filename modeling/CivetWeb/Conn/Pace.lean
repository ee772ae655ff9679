import CivetWeb.Conn.ByteCount

namespace CivetWeb

/-! ### A throttled connection and its clock -/

/-- A connection under a clock: `ticks` are the seconds that pass in front of each look at the clock and each
call of `push_all`, `log` has what was passed to `push_all` and when, `pieces` the data of each `mg_write`
with what was sent of it. `stray` is the last second in which a slice was passed that is not in the bytes of
that second: it was cut off, or the clock had gone on since it was read. -/
structure Paced where
  out : Output
  now : Nat
  ticks : List Nat
  log : List (Nat × Nat)
  pieces : List (List Byte × List Byte)
  stray : Option Nat
  deriving DecidableEq, Repr

def Paced.tick (p : Paced) : Paced :=
  match p.ticks with
  | [] => p
  | k :: ks => { p with now := p.now + k, ticks := ks }

/-- `sleep(1)` -/
def Paced.sleep (p : Paced) : Paced := { p with now := p.now + 1 }

/-- `push_all` with the clock that it is called under. -/
def pacedPush (p : Paced) (buf : List Byte) (allowed : Int) : Int × Paced :=
  let p := p.tick
  let (n, out) := pushAll p.out buf allowed
  (n, { p with
    out := out
    log := p.log ++ [(p.now, allowed.toNat)]
    stray := if 0 < allowed ∧ (n ≠ allowed ∨ p.now ≠ p.out.lastThrottleTime) then some p.now else p.stray })

/-- The loop of `mg_write`, see `throttleLoop`. -/
def pacedLoop : Nat → Paced → List Byte → Nat → Nat × Paced
  | 0, p, _, total => (total, p)
  | n + 1, p, buf, total =>
    if buf = [] ∨ p.out.stopFlag then (total, p)
    else
      let allowed := allowedOf buf.length p.out.throttle
      let (k, p) := pacedPush p buf allowed
      if k ≠ allowed then (total, p)
      else
        let p := p.sleep.tick
        pacedLoop n { p with out := { p.out with lastThrottleBytes := allowed, lastThrottleTime := p.now } }
          (buf.drop allowed.toNat) (total + allowed.toNat)

/-- The connection at the start of a throttled write. -/
def Paced.newSecond (p : Paced) : Paced :=
  if p.now ≠ p.out.lastThrottleTime then
    { p with out := { p.out with lastThrottleTime := p.now, lastThrottleBytes := 0 } }
  else p

/-- `mg_write` on a throttled connection, see `throttledWrite`. -/
def pacedWrite (p : Paced) (buf : List Byte) : Int × Paced :=
  if INT_MAX < buf.length then (-1, p)
  else
    let p := p.tick.newSecond
    let allowed := allowedOf buf.length (p.out.throttle - p.out.lastThrottleBytes)
    let (total, p) := pacedPush p buf allowed
    if total = allowed then
      let (total, p) := pacedLoop buf.length
        { p with out := { p.out with lastThrottleBytes := p.out.lastThrottleBytes + total } }
        (buf.drop allowed.toNat) allowed.toNat
      ((total : Int), p)
    else (total, p)

/-- The bytes passed to `push_all` while the clock shows `t`. -/
def passedAt (log : List (Nat × Nat)) (t : Nat) : Nat :=
  ((log.filter fun e => e.1 = t).map Prod.snd).sum

def pacedStep (p : Paced) (buf : List Byte) : Option Paced :=
  let p' := (pacedWrite p buf).2
  some { p' with pieces := p'.pieces ++ [(buf, p'.out.sent.drop p.out.sent.length)] }

/-- Every write has sent its data up to some place. -/
def PrefixesSent (p : Paced) : Prop := ∀ piece ∈ p.pieces, piece.2 <+: piece.1

/-- No second has more bytes than the throttle, and every write has sent its data up to some place. -/
def RateBounded (throttle : Nat) (p : Paced) : Prop := (∀ t, passedAt p.log t ≤ throttle) ∧ PrefixesSent p

/-- `last_throttle_bytes` as far as it is about the second that the clock shows. -/
def Paced.used (p : Paced) : Int := if p.now = p.out.lastThrottleTime then p.out.lastThrottleBytes else 0

/-- What is left of the second that a write begins in. -/
def budget (p : Paced) : Nat := (p.out.throttle - p.tick.used).toNat

/-- The first slice of a write, if there is one, is passed behind the seconds with stray slices; and where data is left
behind it, it was taken whole and the server does not stop, the clock goes on to another second before the next
slice. -/
def SlicesApart (p : Paced) (buf : List Byte) : Prop :=
  buf.length ≤ INT_MAX →
    let first := min buf.length (budget p)
    let pushed := pushLoop p.out.sends first
    (0 < first → ∀ t ∈ p.stray, t < p.tick.now) ∧
      (pushed.nwritten = first → first < buf.length → stopSet pushed.sends = false →
        p.tick.tick.now < p.tick.tick.tick.now)

/-! ### What the steps keep -/

@[simp] theorem tick_out (p : Paced) : p.tick.out = p.out := by
  unfold Paced.tick
  split <;> rfl

@[simp] theorem tick_log (p : Paced) : p.tick.log = p.log := by
  unfold Paced.tick
  split <;> rfl

@[simp] theorem tick_pieces (p : Paced) : p.tick.pieces = p.pieces := by
  unfold Paced.tick
  split <;> rfl

@[simp] theorem tick_stray (p : Paced) : p.tick.stray = p.stray := by
  unfold Paced.tick
  split <;> rfl

theorem tick_now (p : Paced) : p.now ≤ p.tick.now := by
  unfold Paced.tick
  split
  · exact Nat.le_refl _
  · exact Nat.le_add_right _ _

/-- The log has no time behind the clock, and the budget of the throttle is not overdrawn. -/
structure PaceInv (throttle : Nat) (p : Paced) : Prop where
  limit : p.out.throttle = throttle
  nonneg : 0 ≤ p.out.lastThrottleBytes
  le : p.out.lastThrottleBytes ≤ throttle
  past : ∀ e ∈ p.log, e.1 ≤ p.now

/-- What a part of a write does to the connection: it adds to the log, and sends a part of the data. -/
structure Writes (p p' : Paced) (buf : List Byte) : Prop where
  log : p.log <+: p'.log
  pieces : p'.pieces = p.pieces
  sent : ∃ k, p'.out.sent = p.out.sent ++ buf.take k

theorem PaceInv.tick {throttle : Nat} {p : Paced} (h : PaceInv throttle p) : PaceInv throttle p.tick := by
  refine ⟨by rw [tick_out, h.limit], by rw [tick_out]; exact h.nonneg, by rw [tick_out]; exact h.le, ?_⟩
  rw [tick_log]
  exact fun e he => (h.past e he).trans (tick_now p)

theorem PaceInv.newSecond {throttle : Nat} {p : Paced} (h : PaceInv throttle p) :
    PaceInv throttle p.newSecond := by
  unfold Paced.newSecond
  split_ifs
  · exact ⟨h.limit, Int.le_refl 0, Int.natCast_nonneg _, h.past⟩
  · exact h

theorem newSecond_log (p : Paced) : p.newSecond.log = p.log ∧ p.newSecond.pieces = p.pieces ∧
    p.newSecond.out.sent = p.out.sent ∧ p.newSecond.out.sends = p.out.sends ∧
    p.newSecond.out.throttle = p.out.throttle ∧ p.newSecond.now = p.now := by
  unfold Paced.newSecond
  split_ifs <;> exact ⟨rfl, rfl, rfl, rfl, rfl, rfl⟩

theorem pacedPush_keeps {throttle : Nat} {p : Paced} (h : PaceInv throttle p) (buf : List Byte)
    (allowed : Int) :
    PaceInv throttle (pacedPush p buf allowed).2 ∧ Writes p (pacedPush p buf allowed).2 buf ∧
      (pacedPush p buf allowed).2.log = p.log ++ [(p.tick.now, allowed.toNat)] ∧
      (pacedPush p buf allowed).2.now = p.tick.now := by
  unfold pacedPush pushAll
  dsimp only
  refine ⟨⟨?_, ?_, ?_, ?_⟩, ⟨?_, tick_pieces p, (pushLoop p.tick.out.sends allowed.toNat).nwritten +
    (pushLoop p.tick.out.sends allowed.toNat).unreported, ?_⟩, ?_, rfl⟩
  · rw [tick_out, h.limit]
  · rw [tick_out]
    exact h.nonneg
  · rw [tick_out]
    exact h.le
  · rw [tick_log]
    intro e he
    rcases List.mem_append.mp he with he | he
    · exact (h.past e he).trans (tick_now p)
    · rw [List.mem_singleton.mp he]
  · rw [tick_log]
    exact List.prefix_append _ _
  · rw [tick_out]
  · rw [tick_log]

theorem allowedOf_nonneg (left : Nat) {most : Int} (h : 0 ≤ most) :
    allowedOf left most = (min left most.toNat : Nat) := by
  unfold allowedOf
  split_ifs <;> omega

theorem Writes.trans {p p' p'' : Paced} {buf : List Byte} {n : Nat} (h : Writes p p' buf)
    (hn : p'.out.sent = p.out.sent ++ buf.take n) (h' : Writes p' p'' (buf.drop n)) : Writes p p'' buf := by
  obtain ⟨k, hk⟩ := h'.sent
  refine ⟨h.log.trans h'.log, h'.pieces.trans h.pieces, n + k, ?_⟩
  rw [hk, hn, List.append_assoc, ← List.take_add]

theorem pacedPush_eq (p : Paced) (buf : List Byte) (allowed : Int) :
    (pacedPush p buf allowed).1 = (pushAll p.out buf allowed).1 ∧
      (pacedPush p buf allowed).2.out = (pushAll p.out buf allowed).2 := by
  rw [← tick_out p]
  exact ⟨rfl, rfl⟩

/-- A push that is taken whole has sent the slice. -/
theorem pacedPush_whole {p : Paced} {buf : List Byte} {allowed : Int}
    (h : (pacedPush p buf allowed).1 = allowed) :
    (pacedPush p buf allowed).2.out.sent = p.out.sent ++ buf.take allowed.toNat := by
  obtain ⟨hret, hout⟩ := pacedPush_eq p buf allowed
  rw [hout]
  exact (pushAll_sent p.out buf allowed (hret ▸ h)).1

theorem passedAt_append (log log' : List (Nat × Nat)) (t : Nat) :
    passedAt (log ++ log') t = passedAt log t + passedAt log' t := by
  simp [passedAt]

theorem passedAt_single (c n t : Nat) : passedAt [(c, n)] t = if c = t then n else 0 := by
  unfold passedAt
  split_ifs with h <;> simp [h]

/-- Nothing has been passed in a second that comes behind all of the log. -/
theorem passedAt_new {log : List (Nat × Nat)} {t : Nat} (h : ∀ e ∈ log, e.1 < t) : passedAt log t = 0 := by
  have hnone : (log.filter fun e => e.1 = t) = [] := by
    rw [List.filter_eq_nil_iff]
    intro e he
    have := h e he
    simpa using this.ne
  rw [passedAt, hnone]
  rfl

/-- A slice that fits is added to a log that is in bounds. -/
theorem bounded_add {throttle c n : Nat} {log : List (Nat × Nat)} (h : ∀ t, passedAt log t ≤ throttle)
    (hfit : passedAt log c + n ≤ throttle) (t : Nat) : passedAt (log ++ [(c, n)]) t ≤ throttle := by
  rw [passedAt_append, passedAt_single]
  split_ifs with hc
  · rwa [← hc]
  · exact h t

theorem PaceInv.sleep {throttle : Nat} {p : Paced} (h : PaceInv throttle p) :
    PaceInv throttle p.sleep ∧ ∀ e ∈ p.sleep.log, e.1 < p.sleep.now := by
  have hpast : ∀ e ∈ p.log, e.1 < p.now + 1 := fun e he => Nat.lt_succ_of_le (h.past e he)
  exact ⟨⟨h.limit, h.nonneg, h.le, fun e he => (hpast e he).le⟩, hpast⟩

/-- The connection behind a slice of the loop that was taken whole. -/
def afterSlice (p : Paced) (buf : List Byte) (slice : Nat) : Paced :=
  let p := (pacedPush p buf slice).2.sleep.tick
  { p with out := { p.out with lastThrottleBytes := slice, lastThrottleTime := p.now } }

theorem afterSlice_keeps {throttle : Nat} {p : Paced} (h : PaceInv throttle p) (buf : List Byte)
    {slice : Nat} (hslice : slice ≤ throttle) : PaceInv throttle (afterSlice p buf slice) ∧
      (∀ e ∈ (afterSlice p buf slice).log, e.1 < (afterSlice p buf slice).now) ∧
      (afterSlice p buf slice).log = p.log ++ [(p.tick.now, slice)] ∧
      (afterSlice p buf slice).pieces = p.pieces ∧
      (afterSlice p buf slice).out.sent = (pacedPush p buf slice).2.out.sent := by
  obtain ⟨hinv, hwrites, hlog, -⟩ := pacedPush_keeps h buf slice
  obtain ⟨hinv', hpast⟩ := hinv.sleep
  have htick := hinv'.tick
  refine ⟨⟨htick.limit, Int.natCast_nonneg _, Int.ofNat_le.mpr hslice, htick.past⟩, ?_, ?_, ?_, ?_⟩
  · intro e he
    have he' : e ∈ (pacedPush p buf slice).2.sleep.log := by
      rw [← tick_log]
      exact he
    exact (hpast e he').trans_le (tick_now _)
  · exact (tick_log _).trans hlog
  · exact (tick_pieces _).trans hwrites.pieces
  · have hout := congrArg Output.sent (tick_out (pacedPush p buf slice).2.sleep)
    exact hout

theorem pacedLoop_succ (n : Nat) {throttle : Nat} {p : Paced} (h : PaceInv throttle p) (buf : List Byte)
    (total : Nat) :
    pacedLoop (n + 1) p buf total =
      if buf = [] ∨ p.out.stopFlag = true then (total, p)
      else
        let slice := min buf.length throttle
        if (pacedPush p buf slice).1 ≠ slice then (total, (pacedPush p buf slice).2)
        else pacedLoop n (afterSlice p buf slice) (buf.drop slice) (total + slice) := by
  have hallowed : allowedOf buf.length p.out.throttle = (min buf.length throttle : Nat) := by
    rw [h.limit]
    exact allowedOf_nonneg _ (Int.natCast_nonneg _)
  rw [pacedLoop, hallowed]
  rfl

theorem pacedLoop_keeps (turns : Nat) {throttle : Nat} {p : Paced} (h : PaceInv throttle p)
    (buf : List Byte) (total : Nat) : PaceInv throttle (pacedLoop turns p buf total).2 ∧
      Writes p (pacedLoop turns p buf total).2 buf := by
  have hnone (p : Paced) (buf : List Byte) : Writes p p buf :=
    ⟨List.prefix_refl _, rfl, 0, by rw [List.take_zero, List.append_nil]⟩
  induction turns generalizing p buf total with
  | zero => exact ⟨h, hnone p buf⟩
  | succ turns ih =>
    rw [pacedLoop_succ turns h]
    dsimp only
    split_ifs with hdone hcut
    · exact ⟨h, hnone p buf⟩
    · obtain ⟨hinv, hwrites, -⟩ := pacedPush_keeps h buf (min buf.length throttle : Nat)
      exact ⟨hinv, hwrites⟩
    · obtain ⟨hinv, -, hlog, hpieces, hsent⟩ := afterSlice_keeps h buf (Nat.min_le_right buf.length throttle)
      have hwhole := pacedPush_whole (not_not.mp hcut)
      rw [← hsent, Int.toNat_natCast] at hwhole
      obtain ⟨hinv', hwrites'⟩ := ih hinv (buf.drop (min buf.length throttle))
        (total + min buf.length throttle)
      refine ⟨hinv', Writes.trans ⟨?_, hpieces, _, hwhole⟩ hwhole hwrites'⟩
      rw [hlog]
      exact List.prefix_append _ _

theorem tick_now_congr {p q : Paced} (hticks : p.ticks = q.ticks) (hnow : p.now = q.now) :
    p.tick.now = q.tick.now := by
  unfold Paced.tick
  rw [hticks]
  split
  · exact hnow
  · exact congrArg (· + _) hnow

theorem newSecond_bytes (p : Paced) : p.newSecond.out.lastThrottleBytes = p.used ∧
    p.newSecond.out.lastThrottleTime = p.now ∧ p.newSecond.stray = p.stray ∧ p.newSecond.ticks = p.ticks := by
  unfold Paced.newSecond Paced.used
  by_cases hnow : p.now = p.out.lastThrottleTime
  · rw [if_neg (not_not.mpr hnow), if_pos hnow]
    exact ⟨rfl, hnow.symm, rfl, rfl⟩
  · rw [if_pos hnow, if_neg hnow]
    exact ⟨rfl, rfl, rfl, rfl⟩

/-- What a first slice may have is what is left of the second. -/
theorem budget_eq (p : Paced) :
    p.tick.newSecond.out.throttle - p.tick.newSecond.out.lastThrottleBytes = p.out.throttle - p.tick.used := by
  obtain ⟨-, -, -, -, hthrottle, -⟩ := newSecond_log p.tick
  rw [hthrottle, (newSecond_bytes p.tick).1, tick_out]

theorem tick_ticks_congr {p q : Paced} (hticks : p.ticks = q.ticks) : p.tick.ticks = q.tick.ticks := by
  unfold Paced.tick
  rw [hticks]
  split
  · assumption
  · rfl

/-- The connection behind a first slice that was taken whole. -/
def afterFirst (p : Paced) (buf : List Byte) (first : Nat) : Paced :=
  let q := (pacedPush p buf first).2
  { q with out := { q.out with lastThrottleBytes := q.out.lastThrottleBytes + first } }

theorem pacedWrite_eq {throttle : Nat} {p : Paced} (h : PaceInv throttle p) (buf : List Byte) :
    pacedWrite p buf =
      if INT_MAX < buf.length then (-1, p)
      else
        let first := min buf.length (budget p)
        if (pacedPush p.tick.newSecond buf first).1 = first then
          let (total, q) := pacedLoop buf.length (afterFirst p.tick.newSecond buf first) (buf.drop first) first
          ((total : Int), q)
        else pacedPush p.tick.newSecond buf first := by
  have hinv := h.tick.newSecond
  have hnonneg : 0 ≤ p.tick.newSecond.out.throttle - p.tick.newSecond.out.lastThrottleBytes := by
    rw [hinv.limit]
    have := hinv.le
    omega
  rw [pacedWrite]
  dsimp only
  rw [allowedOf_nonneg _ hnonneg, budget_eq, ← budget]
  by_cases hmax : INT_MAX < buf.length
  · rw [if_pos hmax, if_pos hmax]
  rw [if_neg hmax, if_neg hmax]
  by_cases hall : (pacedPush p.tick.newSecond buf (min buf.length (budget p) : Nat)).1 =
      (min buf.length (budget p) : Nat)
  · rw [if_pos hall, if_pos hall, hall, Int.toNat_natCast]
    rfl
  · rw [if_neg hall, if_neg hall]

theorem afterFirst_keeps {throttle : Nat} {p : Paced} (h : PaceInv throttle p) (buf : List Byte)
    {first : Nat} (hfirst : p.out.lastThrottleBytes + first ≤ throttle) :
    PaceInv throttle (afterFirst p buf first) := by
  obtain ⟨hinv, -, -, -⟩ := pacedPush_keeps h buf first
  have hbytes : (pacedPush p buf first).2.out.lastThrottleBytes = p.out.lastThrottleBytes := by
    unfold pacedPush pushAll
    dsimp only
    rw [tick_out]
  have hnonneg := h.nonneg
  refine ⟨hinv.limit, ?_, ?_, hinv.past⟩
  · unfold afterFirst
    dsimp only
    omega
  · unfold afterFirst
    dsimp only
    omega

theorem budget_le {throttle : Nat} {p : Paced} (h : PaceInv throttle p) (len : Nat) :
    p.tick.newSecond.out.lastThrottleBytes + (min len (budget p) : Nat) ≤ throttle := by
  have hinv := h.tick.newSecond
  have hle := hinv.le
  have hbudget : (budget p : Int) = throttle - p.tick.newSecond.out.lastThrottleBytes := by
    rw [budget, ← budget_eq, hinv.limit]
    omega
  omega

theorem pacedWrite_keeps {throttle : Nat} {p : Paced} (h : PaceInv throttle p) (buf : List Byte) :
    PaceInv throttle (pacedWrite p buf).2 ∧ Writes p (pacedWrite p buf).2 buf := by
  obtain ⟨hlog, hpieces, hsent, -, -, -⟩ := newSecond_log p.tick
  rw [tick_log] at hlog
  rw [tick_pieces] at hpieces
  rw [tick_out] at hsent
  have hinv := h.tick.newSecond
  have hstart {q : Paced} (hq : Writes p.tick.newSecond q buf) : Writes p q buf := by
    obtain ⟨k, hk⟩ := hq.sent
    exact ⟨hlog ▸ hq.log, hq.pieces.trans hpieces, k, by rw [hk, hsent]⟩
  rw [pacedWrite_eq h]
  dsimp only
  split_ifs with hmax hall
  · exact ⟨h, List.prefix_refl _, rfl, 0, by rw [List.take_zero, List.append_nil]⟩
  · have hfirst := afterFirst_keeps hinv buf (budget_le h buf.length)
    obtain ⟨-, hwrites, -, -⟩ := pacedPush_keeps hinv buf (min buf.length (budget p) : Nat)
    obtain ⟨hinv', hwrites'⟩ := pacedLoop_keeps buf.length hfirst
      (buf.drop (min buf.length (budget p))) (min buf.length (budget p))
    have hwhole := pacedPush_whole hall
    rw [Int.toNat_natCast] at hwhole
    have hmid : Writes p.tick.newSecond (afterFirst p.tick.newSecond buf (min buf.length (budget p))) buf :=
      ⟨hwrites.log, hwrites.pieces, _, hwhole⟩
    exact ⟨hinv', hstart (Writes.trans hmid hwhole hwrites')⟩
  · obtain ⟨hinv', hwrites, -, -⟩ := pacedPush_keeps hinv buf (min buf.length (budget p) : Nat)
    exact ⟨hinv', hstart hwrites⟩

/-! ### The bytes of a second -/

/-- What was passed in the second that the clock shows is in the bytes of that second, where no stray slice was. -/
def Booked (p : Paced) : Prop := (∀ t ∈ p.stray, t < p.now) → (passedAt p.log p.now : Int) ≤ p.used

theorem used_nonneg {throttle : Nat} {p : Paced} (h : PaceInv throttle p) : 0 ≤ p.used := by
  unfold Paced.used
  split_ifs
  · exact h.nonneg
  · exact le_rfl

theorem booked_new {throttle : Nat} {p : Paced} (h : PaceInv throttle p) (hnew : ∀ e ∈ p.log, e.1 < p.now) :
    Booked p := by
  intro _
  rw [passedAt_new hnew]
  exact used_nonneg h

theorem Booked.tick {throttle : Nat} {p : Paced} (h : PaceInv throttle p) (hbooked : Booked p) : Booked p.tick := by
  rcases (tick_now p).eq_or_lt with hnow | hlater
  · intro hstray
    have hused : p.tick.used = p.used := by
      unfold Paced.used
      rw [tick_out, ← hnow]
    rw [tick_stray, ← hnow] at hstray
    rw [hused, tick_log, ← hnow]
    exact hbooked hstray
  · refine booked_new h.tick fun e he => ?_
    rw [tick_log] at he
    exact (h.past e he).trans_lt hlater

/-- A slice that is cut off is stray. -/
theorem pacedPush_cut {p : Paced} {buf : List Byte} {slice : Nat} (h : (pacedPush p buf slice).1 ≠ slice) :
    Booked (pacedPush p buf slice).2 := by
  have hpos : 0 < slice := by
    by_contra hzero
    obtain rfl := Nat.eq_zero_of_not_pos hzero
    rw [(pacedPush_eq p buf _).1, Int.natCast_zero, pushAll_nothing _ _ le_rfl] at h
    exact h rfl
  have hstray : (pacedPush p buf slice).2.stray = some (pacedPush p buf slice).2.now :=
    if_pos ⟨Int.natCast_pos.mpr hpos, .inl h⟩
  intro hlater
  exact absurd (hlater _ (Option.mem_def.mpr hstray)) (Nat.lt_irrefl _)

theorem newSecond_push (p : Paced) (buf : List Byte) (slice : Nat) :
    (pacedPush p.tick.newSecond buf slice).2.log = p.log ++ [(p.tick.tick.now, slice)] ∧
      (pacedPush p.tick.newSecond buf slice).2.now = p.tick.tick.now ∧
      (pacedPush p.tick.newSecond buf slice).2.ticks = p.tick.tick.ticks := by
  obtain ⟨hlog, -, -, -, -, hnow⟩ := newSecond_log p.tick
  obtain ⟨-, -, -, hticks⟩ := newSecond_bytes p.tick
  have htick : p.tick.newSecond.tick.now = p.tick.tick.now := tick_now_congr hticks hnow
  refine ⟨?_, htick, ?_⟩
  · unfold pacedPush
    dsimp only
    rw [tick_log, hlog, tick_log, htick, Int.toNat_natCast]
  · exact tick_ticks_congr hticks

/-- The first slice of a write fits where it is passed behind the stray slices. -/
theorem first_fits {throttle : Nat} {p : Paced} (h : PaceInv throttle p) (hbooked : Booked p)
    (hbound : ∀ t, passedAt p.log t ≤ throttle) (len : Nat)
    (hstray : 0 < min len (budget p) → ∀ t ∈ p.stray, t < p.tick.now) :
    passedAt p.log p.tick.tick.now + min len (budget p) ≤ throttle := by
  have hbudget := budget_le h len
  rw [(newSecond_bytes p.tick).1] at hbudget
  have hused := used_nonneg h.tick
  by_cases hpos : 0 < min len (budget p)
  · rcases (tick_now p.tick).eq_or_lt with hnow | hlater
    · have hpassed := hbooked.tick h (by rw [tick_stray]; exact hstray hpos)
      rw [tick_log, hnow] at hpassed
      omega
    · rw [passedAt_new fun e he => ((h.past e he).trans (tick_now p)).trans_lt hlater]
      omega
  · have := hbound p.tick.tick.now
    omega

/-- A first slice that is taken whole is booked, or it is stray. -/
theorem afterFirst_booked {throttle : Nat} {p : Paced} (h : PaceInv throttle p) (hbooked : Booked p)
    (buf : List Byte) {first : Nat} (hfirst : first ≤ budget p)
    (hwhole : (pacedPush p.tick.newSecond buf first).1 = first) :
    Booked (afterFirst p.tick.newSecond buf first) := by
  obtain ⟨hlog, hnow, -⟩ := newSecond_push p buf first
  obtain ⟨hbytes, htime, hstray, -⟩ := newSecond_bytes p.tick
  have hbudget := budget_le h first
  rw [min_eq_left hfirst] at hbudget
  have hinv := afterFirst_keeps h.tick.newSecond buf hbudget
  have hout : (afterFirst p.tick.newSecond buf first).out.lastThrottleTime = p.tick.now ∧
      (afterFirst p.tick.newSecond buf first).out.lastThrottleBytes = p.tick.used + first := by
    unfold afterFirst
    dsimp only
    rw [(pacedPush_eq _ buf _).2]
    exact ⟨htime, congrArg (· + (first : Int)) hbytes⟩
  have hlog' : (afterFirst p.tick.newSecond buf first).log = p.log ++ [(p.tick.tick.now, first)] := hlog
  have hnow' : (afterFirst p.tick.newSecond buf first).now = p.tick.tick.now := hnow
  have hstray' : (afterFirst p.tick.newSecond buf first).stray =
      if 0 < first ∧ p.tick.tick.now ≠ p.tick.now then some p.tick.tick.now else p.stray := by
    unfold afterFirst pacedPush at hnow' ⊢
    dsimp only at hnow' ⊢
    unfold pacedPush at hwhole
    dsimp only at hwhole
    rw [hwhole, hnow', tick_out, htime, tick_stray, hstray, tick_stray]
    simp only [ne_eq, not_true_eq_false, false_or, Int.natCast_pos]
  intro hlater
  rw [hlog', hnow', passedAt_append, passedAt_single, if_pos rfl]
  rw [hnow', hstray'] at hlater
  rcases (tick_now p.tick).eq_or_lt with hsame | hgone
  · rw [if_neg fun hne => hne.2 hsame.symm, ← hsame] at hlater
    have hpassed := hbooked.tick h (by rwa [tick_stray])
    rw [tick_log, hsame] at hpassed
    rw [Paced.used, hnow', hout.1, if_pos hsame.symm, hout.2]
    omega
  · rw [passedAt_new fun e he => ((h.past e he).trans (tick_now p)).trans_lt hgone]
    have hused := used_nonneg hinv
    by_cases hpos : 0 < first
    · rw [if_pos ⟨hpos, hgone.ne'⟩] at hlater
      exact absurd (hlater _ rfl) (Nat.lt_irrefl _)
    · omega

/-- Slices that begin in a new second, and are followed by a sleep each, stay in bounds. -/
theorem pacedLoop_apart (turns : Nat) {throttle : Nat} {p : Paced} (h : PaceInv throttle p) (hbooked : Booked p)
    (hbound : ∀ t, passedAt p.log t ≤ throttle) (buf : List Byte) (total : Nat)
    (hnew : buf ≠ [] → p.out.stopFlag = false → ∀ e ∈ p.log, e.1 < p.tick.now) :
    (∀ t, passedAt (pacedLoop turns p buf total).2.log t ≤ throttle) ∧ Booked (pacedLoop turns p buf total).2 := by
  induction turns generalizing p buf total with
  | zero => exact ⟨hbound, hbooked⟩
  | succ turns ih =>
    rw [pacedLoop_succ turns h]
    dsimp only
    by_cases hdone : buf = [] ∨ p.out.stopFlag = true
    · rw [if_pos hdone]
      exact ⟨hbound, hbooked⟩
    rw [if_neg hdone]
    obtain ⟨hsome, hgo⟩ := not_or.mp hdone
    have hfit : passedAt p.log p.tick.now + min buf.length throttle ≤ throttle := by
      rw [passedAt_new (hnew hsome (Bool.eq_false_iff.mpr hgo)), Nat.zero_add]
      exact Nat.min_le_right _ _
    have hadd := bounded_add hbound hfit
    by_cases hcut : (pacedPush p buf (min buf.length throttle : Nat)).1 ≠ (min buf.length throttle : Nat)
    · rw [if_pos hcut]
      refine ⟨?_, pacedPush_cut hcut⟩
      rw [(pacedPush_keeps h buf (min buf.length throttle : Nat)).2.2.1]
      exact hadd
    · rw [if_neg hcut]
      obtain ⟨hinv, hnew', hlog, -⟩ := afterSlice_keeps h buf (Nat.min_le_right buf.length throttle)
      refine ih hinv (booked_new hinv hnew') (by rw [hlog]; exact hadd) _ _ ?_
      exact fun _ _ e he => (hnew' e he).trans_le (tick_now _)

/-- A write whose slices are apart keeps the rate. -/
theorem pacedWrite_apart {throttle : Nat} {p : Paced} (h : PaceInv throttle p) (hbooked : Booked p)
    (hbound : ∀ t, passedAt p.log t ≤ throttle) (buf : List Byte) (hapart : SlicesApart p buf) :
    (∀ t, passedAt (pacedWrite p buf).2.log t ≤ throttle) ∧ Booked (pacedWrite p buf).2 := by
  have hinv := h.tick.newSecond
  rw [pacedWrite_eq h]
  dsimp only
  by_cases hmax : INT_MAX < buf.length
  · rw [if_pos hmax]
    exact ⟨hbound, hbooked⟩
  rw [if_neg hmax]
  obtain ⟨hstray, hnext⟩ := hapart (Nat.not_lt.mp hmax)
  have hadd := bounded_add hbound (first_fits h hbooked hbound buf.length hstray)
  have hbudget := budget_le h buf.length
  have hfirst : min buf.length (budget p) ≤ budget p := Nat.min_le_right _ _
  have hlen : min buf.length (budget p) ≤ buf.length := Nat.min_le_left _ _
  generalize min buf.length (budget p) = first at hnext hadd hbudget hfirst hlen ⊢
  obtain ⟨hlog, hnow, hticks⟩ := newSecond_push p buf first
  by_cases hcut : (pacedPush p.tick.newSecond buf first).1 = first
  swap
  · rw [if_neg hcut, hlog]
    exact ⟨hadd, pacedPush_cut hcut⟩
  rw [if_pos hcut]
  have hlog2 : (afterFirst p.tick.newSecond buf first).log = p.log ++ [(p.tick.tick.now, first)] := hlog
  refine pacedLoop_apart buf.length (afterFirst_keeps hinv buf hbudget)
    (afterFirst_booked h hbooked buf hfirst hcut) (by rw [hlog2]; exact hadd) _ _ ?_
  intro hleft hgo e he
  obtain ⟨-, -, -, hsends, -, hall, -⟩ := pushAll_count p.tick.newSecond.out buf (Int.ofNat_le.mpr hlen)
  obtain ⟨hret, hout⟩ := pacedPush_eq p.tick.newSecond buf (first : Int)
  obtain ⟨-, -, -, hsame, -, -⟩ := newSecond_log p.tick
  rw [hsame, tick_out, Int.toNat_natCast] at hsends hall
  have hwhole : (pushLoop p.out.sends first).nwritten = first := Int.ofNat_inj.mp (hall.mp (hret ▸ hcut))
  have hstop : stopSet (pushLoop p.out.sends first).sends = false := by
    rw [← hsends, ← hout]
    exact hgo
  have hlater := hnext hwhole (Nat.not_le.mp fun hle => hleft (List.drop_eq_nil_iff.mpr hle)) hstop
  have htick : (afterFirst p.tick.newSecond buf first).tick.now = p.tick.tick.tick.now :=
    tick_now_congr hticks hnow
  rw [htick]
  refine lt_of_le_of_lt ?_ hlater
  rw [hlog2] at he
  rcases List.mem_append.mp he with he | he
  · exact (h.past e he).trans ((tick_now p).trans (tick_now p.tick))
  · rw [List.mem_singleton.mp he]

/-! ### `mg_write` under the clock -/

theorem pacedLoop_throttleLoop (turns : Nat) (p : Paced) (buf : List Byte) (total : Nat) :
    ∃ readings, ∀ more, throttleLoop turns { p.out with clock := readings ++ more } buf total =
      ((pacedLoop turns p buf total).1, { (pacedLoop turns p buf total).2.out with clock := more }) := by
  induction turns generalizing p buf total with
  | zero => exact ⟨[], fun more => rfl⟩
  | succ turns ih =>
    obtain ⟨allowed, hallowed⟩ : ∃ allowed, allowed = allowedOf buf.length p.out.throttle := ⟨_, rfl⟩
    obtain ⟨hret, hout⟩ := pacedPush_eq p buf allowed
    have hstop (clock : List Nat) : Output.stopFlag { p.out with clock := clock } = p.out.stopFlag := rfl
    have hpush (clock : List Nat) : pushAll { p.out with clock := clock } buf allowed =
        ((pacedPush p buf allowed).1, { (pacedPush p buf allowed).2.out with clock := clock }) := by
      rw [hret, hout]
      rfl
    simp only [throttleLoop, pacedLoop, hstop, ← hallowed, hpush]
    by_cases hdone : buf = [] ∨ p.out.stopFlag = true
    · simp only [if_pos hdone]
      exact ⟨[], fun more => rfl⟩
    simp only [if_neg hdone]
    by_cases hcut : (pacedPush p buf allowed).1 ≠ allowed
    · simp only [if_pos hcut]
      exact ⟨[], fun more => rfl⟩
    simp only [if_neg hcut]
    obtain ⟨q, hq⟩ : ∃ q, q = (pacedPush p buf allowed).2.sleep.tick := ⟨_, rfl⟩
    have hqout : q.out = (pacedPush p buf allowed).2.out := by
      rw [hq, tick_out]
      rfl
    obtain ⟨readings, hloop⟩ := ih
      { q with out := { q.out with lastThrottleBytes := allowed, lastThrottleTime := q.now } }
      (buf.drop allowed.toNat) (total + allowed.toNat)
    refine ⟨q.now :: readings, fun more => ?_⟩
    rw [← hq, ← hloop more, hqout]
    rfl

/-- On a throttled connection `mg_write` does what is done under the clock, if `time` reads that clock. -/
theorem pacedWrite_mgWrite (p : Paced) (buf : List Byte) (hthrottle : 0 < p.out.throttle) :
    ∃ clock, (mgWrite { p.out with clock := clock } buf).1 = (pacedWrite p buf).1 ∧
      ∃ n, (mgWrite { p.out with clock := clock } buf).2 =
        { (pacedWrite p buf).2.out with clock := [], numBytesSent := n } := by
  obtain ⟨q, hq⟩ : ∃ q, q = p.tick.newSecond := ⟨_, rfl⟩
  obtain ⟨allowed, hallowed⟩ : ∃ allowed, allowed =
    allowedOf buf.length (q.out.throttle - q.out.lastThrottleBytes) := ⟨_, rfl⟩
  obtain ⟨hret, hout⟩ := pacedPush_eq q buf allowed
  have hpush (clock : List Nat) : pushAll { q.out with clock := clock } buf allowed =
      ((pacedPush q buf allowed).1, { (pacedPush q buf allowed).2.out with clock := clock }) := by
    rw [hret, hout]
    rfl
  have hstart (clock : List Nat) : (if p.tick.now ≠ p.out.lastThrottleTime then
      { p.out with clock := clock, lastThrottleTime := p.tick.now, lastThrottleBytes := 0 }
      else { p.out with clock := clock }) = { q.out with clock := clock } := by
    rw [hq, Paced.newSecond, tick_out]
    split_ifs
    · rfl
    · rw [tick_out]
  have hfrom (c : List Nat) (o : Output) (ho : o = { q.out with clock := c }) :
      throttledWrite { p.out with clock := p.tick.now :: c } buf =
        let allowed := allowedOf buf.length (o.throttle - o.lastThrottleBytes)
        let pushed := pushAll o buf allowed
        if pushed.1 = allowed then
          let looped := throttleLoop buf.length
            { pushed.2 with lastThrottleBytes := pushed.2.lastThrottleBytes + pushed.1 }
            (buf.drop allowed.toNat) allowed.toNat
          ((looped.1 : Int), looped.2)
        else pushed := by
    rw [ho, ← hstart]
    rfl
  have hthrottled (c : List Nat) : throttledWrite { p.out with clock := p.tick.now :: c } buf =
      if (pacedPush q buf allowed).1 = allowed then
        let looped := throttleLoop buf.length
          { (pacedPush q buf allowed).2.out with
            clock := c
            lastThrottleBytes := (pacedPush q buf allowed).2.out.lastThrottleBytes +
              (pacedPush q buf allowed).1 }
          (buf.drop allowed.toNat) allowed.toNat
        ((looped.1 : Int), looped.2)
      else ((pacedPush q buf allowed).1, { (pacedPush q buf allowed).2.out with clock := c }) := by
    rw [hfrom c _ rfl]
    dsimp only
    rw [← hallowed, hpush]
  by_cases hmax : INT_MAX < buf.length
  · refine ⟨[], ?_⟩
    rw [mgWrite, if_pos hmax, pacedWrite, if_pos hmax]
    exact ⟨rfl, p.out.numBytesSent, rfl⟩
  have hpaced : ∃ clock, throttledWrite { p.out with clock := clock } buf =
      ((pacedWrite p buf).1, { (pacedWrite p buf).2.out with clock := [] }) := by
    rw [pacedWrite, if_neg hmax, ← hq]
    dsimp only
    rw [← hallowed]
    by_cases hall : (pacedPush q buf allowed).1 = allowed
    · rw [if_pos hall]
      obtain ⟨readings, hloop⟩ := pacedLoop_throttleLoop buf.length
        { (pacedPush q buf allowed).2 with out := { (pacedPush q buf allowed).2.out with
          lastThrottleBytes := (pacedPush q buf allowed).2.out.lastThrottleBytes +
            (pacedPush q buf allowed).1 } } (buf.drop allowed.toNat) allowed.toNat
      refine ⟨p.tick.now :: readings, ?_⟩
      have hdone := hloop []
      rw [List.append_nil] at hdone
      rw [hthrottled, if_pos hall]
      dsimp only at hdone ⊢
      rw [hdone]
    · rw [if_neg hall]
      exact ⟨[p.tick.now], by rw [hthrottled, if_neg hall]⟩
  obtain ⟨clock, hclock⟩ := hpaced
  refine ⟨clock, ?_⟩
  rw [mgWrite, if_neg hmax]
  dsimp only
  rw [if_pos hthrottle, hclock]
  refine ⟨rfl, ?_⟩
  dsimp only
  split_ifs
  · exact ⟨_, rfl⟩
  · exact ⟨_, rfl⟩

/-! ### Sequences of writes -/

/-- On a connection with a throttle every write sends its data up to some place; and no second has more bytes than the
throttle in a run of writes whose slices are apart. -/
theorem rateBounded_of_apart (out : Output) (throttle now : Nat) (ticks : List Nat) (writes : List (List Byte))
    (hthrottle : out.throttle = throttle)
    (hbytes : 0 ≤ out.lastThrottleBytes ∧ out.lastThrottleBytes ≤ throttle) :
    System.Always pacedStep PrefixesSent ⟨out, now, ticks, [], [], none⟩ writes ∧
      (System.Along pacedStep SlicesApart ⟨out, now, ticks, [], [], none⟩ writes →
        System.Always pacedStep (RateBounded throttle) ⟨out, now, ticks, [], [], none⟩ writes) := by
  have hstart : PaceInv throttle ⟨out, now, ticks, [], [], none⟩ :=
    ⟨hthrottle, hbytes.1, hbytes.2, List.forall_mem_nil _⟩
  have hkeep : ∀ (p : Paced) (buf : List Byte) (q : Paced), PaceInv throttle p ∧ PrefixesSent p →
      pacedStep p buf = some q → PaceInv throttle q ∧ PrefixesSent q := by
    rintro p buf q ⟨hp, hsent⟩ hstep
    obtain ⟨hinv, hwrites⟩ := pacedWrite_keeps hp buf
    obtain rfl := Option.some.inj hstep
    refine ⟨⟨hinv.limit, hinv.nonneg, hinv.le, hinv.past⟩, fun piece hpiece => ?_⟩
    rcases List.mem_append.mp hpiece with hpiece | hpiece
    · exact hsent piece (hwrites.pieces ▸ hpiece)
    · obtain ⟨k, hk⟩ := hwrites.sent
      rw [List.mem_singleton.mp hpiece, hk, List.drop_left]
      exact List.take_prefix k buf
  constructor
  · exact (System.always_of_kept pacedStep _ hkeep _ writes ⟨hstart, List.forall_mem_nil _⟩).imp pacedStep _ _
      (fun _ h => h.2) _ _
  · intro hapart
    have halways := System.always_of_invariant pacedStep
      (fun p => (PaceInv throttle p ∧ PrefixesSent p) ∧ (∀ t, passedAt p.log t ≤ throttle) ∧ Booked p) SlicesApart
      (fun p buf q h hl hstep => ⟨hkeep p buf q h.1 hstep, by
        have hwrite := pacedWrite_apart h.1.1 h.2.2 h.2.1 buf hl
        obtain rfl := Option.some.inj hstep
        exact hwrite⟩)
      ⟨out, now, ticks, [], [], none⟩ writes
      ⟨⟨hstart, List.forall_mem_nil _⟩, fun _ => Nat.zero_le _, booked_new hstart (List.forall_mem_nil _)⟩ hapart
    exact halways.imp pacedStep _ _ (fun _ h => ⟨h.2.1, h.1.2⟩) _ _

theorem rateBounded_of_apart_small : System.Always pacedStep (RateBounded 10)
    ⟨⟨[.accept 4, .accept 4], [], 10, 0, 0, 0, []⟩, 100, [], [], [], none⟩ [ascii "abcd", ascii "efgh"] := by
  refine (rateBounded_of_apart ⟨[.accept 4, .accept 4], [], 10, 0, 0, 0, []⟩ 10 100 [] _ rfl (by decide)).2 ?_
  intro p hp
  refine ⟨fun _ => by decide, ?_⟩
  rw [← Option.some.inj hp]
  exact fun q hq => ⟨fun _ => by decide, trivial⟩

/-- Twenty bytes in the second of the first slice, with a throttle of ten. -/
theorem rateBounded_long_write : ¬ System.Always pacedStep (RateBounded 10)
    ⟨⟨[.accept 10, .accept 10], [], 10, 0, 0, 0, []⟩, 100, [], [], [], none⟩
    [ascii "abcdefghijklmnopqrst"] := by
  intro h
  have hbounded := (h.2 _ rfl).1 100
  revert hbounded
  decide

end CivetWeb
