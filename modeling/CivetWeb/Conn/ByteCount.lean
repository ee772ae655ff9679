import CivetWeb.Conn.Throttle
import CivetWeb.Lib.System
import CivetWeb.Static.SendFile

namespace CivetWeb

/-! ### One write -/

/-- One of the sends of `len` bytes takes some and has the stop flag set behind it. -/
def TakenAtStop : List SendEvent → Nat → Prop
  | _, 0 => False
  | .acceptStop n :: _, _ + 1 => 0 < n
  | .accept n :: s, len + 1 => TakenAtStop s (len + 1 - n)
  | .wait :: s, len + 1 => TakenAtStop s (len + 1)
  | _, _ + 1 => False

/-- The slices behind the first one of a throttled write are taken whole, as far as they are taken, and none at the
stop. -/
def SlicesWhole (throttle : Nat) : Nat → List SendEvent → Nat → Prop
  | 0, _, _ => True
  | turns + 1, sends, left =>
    let slice := min left throttle
    let pushed := pushLoop sends slice
    ¬ TakenAtStop sends slice ∧
      (pushed.nwritten = 0 ∨ (pushed.nwritten = slice ∧ SlicesWhole throttle turns pushed.sends (left - slice)))

/-- The first slice of a throttled write: what is left of this second. -/
def firstSlice (out : Output) (len : Nat) : Int :=
  allowedOf len (out.throttle - if out.time.1 ≠ out.lastThrottleTime then 0 else out.lastThrottleBytes)

/-- The network takes nothing at the stop, and of a throttled write no part only of a slice behind the first one. -/
def WriteWhole (out : Output) (len : Nat) : Prop :=
  len ≤ INT_MAX →
    if 0 < out.throttle then
      let pushed := pushLoop out.sends (firstSlice out len).toNat
      ¬ TakenAtStop out.sends (firstSlice out len).toNat ∧
        ((pushed.nwritten : Int) = firstSlice out len →
          SlicesWhole out.throttle.toNat len pushed.sends (len - pushed.nwritten))
    else ¬ TakenAtStop out.sends len

/-- What a write does: `lost` of the bytes that it puts on the wire are not in what it returns. -/
structure WriteCount (out out' : Output) (ret : Int) (lost : Nat) : Prop where
  sent : (out'.sent.length : Int) = out.sent.length + max ret 0 + lost
  counted : out'.numBytesSent = out.numBytesSent + max ret 0
  ge : -1 ≤ ret

theorem not_takenAtStop_stop {s : List SendEvent} (h : stopSet s = true) (len : Nat) : ¬ TakenAtStop s len := by
  obtain ⟨s, rfl⟩ := List.head?_eq_some_iff.mp (beq_iff_eq.mp h)
  cases len <;> exact id

theorem pushLoop_unreported (sends : List SendEvent) (len : Nat) :
    (pushLoop sends len).unreported = 0 ↔ ¬ TakenAtStop sends len := by
  induction sends generalizing len with
  | nil => cases len <;> exact iff_of_true rfl id
  | cons e s ih =>
    cases len with
    | zero => cases e <;> exact iff_of_true rfl id
    | succ len =>
      cases e with
      | accept n =>
        rw [pushLoop, TakenAtStop]
        split_ifs with hzero hstop hall
        · rw [hzero]
          exact iff_of_true rfl (not_takenAtStop_stop hstop _)
        · rw [hzero]
          exact ih (len + 1)
        · rw [show len + 1 - n = 0 by omega, ← ih]
          rw [pushLoop_zero]
        · exact ih (len + 1 - n)
      | acceptStop n =>
        rw [pushLoop, TakenAtStop]
        dsimp only
        omega
      | wait =>
        rw [pushLoop, TakenAtStop]
        split_ifs with hstop
        · exact iff_of_true rfl (not_takenAtStop_stop hstop _)
        · exact ih (len + 1)
      | timeout => exact iff_of_true rfl id
      | error => exact iff_of_true rfl id
      | stop => exact iff_of_true rfl id

theorem pushLoop_stop {sends : List SendEvent} (h : stopSet sends = true) (len : Nat) :
    (pushLoop sends len).nwritten = 0 := by
  obtain ⟨s, rfl⟩ := List.head?_eq_some_iff.mp (beq_iff_eq.mp h)
  cases len <;> rfl

theorem length_pushed (out : Output) (buf : List Byte) {len : Nat} (hlen : len ≤ buf.length) :
    (out.sent ++ buf.take ((pushLoop out.sends len).nwritten + (pushLoop out.sends len).unreported)).length =
      out.sent.length + (pushLoop out.sends len).nwritten + (pushLoop out.sends len).unreported := by
  have hle := pushLoop_le out.sends len
  rw [List.length_append, List.length_take]
  omega

theorem time_numBytesSent (out : Output) : out.time.2.numBytesSent = out.numBytesSent := by
  rw [Output.time]
  split <;> rfl

theorem pushAll_count (out : Output) (buf : List Byte) {len : Int} (hlen : len ≤ buf.length) :
    ((pushAll out buf len).2.sent.length : Int) =
        out.sent.length + max (pushAll out buf len).1 0 + (pushLoop out.sends len.toNat).unreported ∧
      (pushAll out buf len).2.numBytesSent = out.numBytesSent ∧ -1 ≤ (pushAll out buf len).1 ∧
      (pushAll out buf len).2.sends = (pushLoop out.sends len.toNat).sends ∧
      (pushAll out buf len).2.throttle = out.throttle ∧
      ((pushAll out buf len).1 = len ↔ ((pushLoop out.sends len.toNat).nwritten : Int) = len) ∧
      max (pushAll out buf len).1 0 = (pushLoop out.sends len.toNat).nwritten := by
  have hpushed := length_pushed out buf (Int.toNat_le.mpr hlen)
  have hzero : len.toNat = 0 → (pushLoop out.sends len.toNat).failed = false := by
    intro hz
    rw [hz, pushLoop_zero]
  rw [pushAll]
  dsimp only
  rw [hpushed]
  split_ifs with hfailed
  · rw [Bool.and_eq_true, beq_iff_eq] at hfailed
    refine ⟨by omega, rfl, by omega, rfl, rfl, ?_, by omega⟩
    constructor
    · intro h
      exact absurd (hfailed.1.symm.trans (hzero (by omega))) (by decide)
    · intro h
      exact absurd (hfailed.1.symm.trans (hzero (by omega))) (by decide)
  · exact ⟨by omega, rfl, by omega, rfl, rfl, Iff.rfl, by omega⟩

/-- The loop over the slices: it loses what the network takes of a slice that it does not take whole. -/
theorem throttleLoop_count (turns : Nat) (out : Output) (buf : List Byte) (total : Nat)
    (hthrottle : 0 < out.throttle) : ∃ lost : Nat,
      (throttleLoop turns out buf total).2.sent.length + total =
        out.sent.length + (throttleLoop turns out buf total).1 + lost ∧
      (throttleLoop turns out buf total).2.numBytesSent = out.numBytesSent ∧
      (lost = 0 ↔ SlicesWhole out.throttle.toNat turns out.sends buf.length) := by
  induction turns generalizing out buf total with
  | zero => exact ⟨0, rfl, rfl, by simp [SlicesWhole]⟩
  | succ turns ih =>
    obtain ⟨slice, hslice⟩ : ∃ slice, slice = min buf.length out.throttle.toNat := ⟨_, rfl⟩
    have hallowed : allowedOf buf.length out.throttle = slice := by
      rw [allowedOf, hslice]
      split_ifs <;> omega
    have hle := pushLoop_le out.sends slice
    have hunreported := pushLoop_unreported out.sends slice
    rw [throttleLoop, SlicesWhole, hallowed, ← hslice]
    dsimp only
    by_cases hdone : buf = [] ∨ out.stopFlag = true
    · have hzero : (pushLoop out.sends slice).nwritten = 0 ∧ ¬ TakenAtStop out.sends slice := by
        rcases hdone with hnil | hstop
        · rw [hnil, List.length_nil, Nat.zero_min] at hslice
          exact ⟨by omega, hunreported.mp (by omega)⟩
        · exact ⟨pushLoop_stop hstop slice, not_takenAtStop_stop hstop slice⟩
      rw [if_pos hdone]
      exact ⟨0, rfl, rfl, iff_of_true rfl ⟨hzero.2, .inl hzero.1⟩⟩
    rw [if_neg hdone]
    have hpos := List.length_pos_of_ne_nil fun hnil => hdone (.inl hnil)
    obtain ⟨hsent, hcount, hge, hsends, hthrottle', hall, hmax⟩ := pushAll_count out buf
      (show (slice : Int) ≤ buf.length by omega)
    rw [Int.toNat_natCast] at hsent hsends hall hmax
    by_cases hwhole : (pushAll out buf slice).1 = slice
    · have hn : (pushLoop out.sends slice).nwritten = slice := by omega
      have hquiet : ¬ TakenAtStop out.sends slice := hunreported.mp (by omega)
      rw [if_neg (not_not.mpr hwhole), Int.toNat_natCast]
      obtain ⟨next, hnext⟩ : ∃ next : Output, next = { (pushAll out buf slice).2.time.2 with
          lastThrottleBytes := (slice : Int)
          lastThrottleTime := (pushAll out buf slice).2.time.1 } := ⟨_, rfl⟩
      have hfields : next.sent = (pushAll out buf slice).2.sent ∧ next.sends = (pushLoop out.sends slice).sends ∧
          next.throttle = out.throttle ∧ next.numBytesSent = out.numBytesSent := by
        rw [hnext]
        exact ⟨time_sent _, (time_sends _).trans hsends, (time_throttle _).trans hthrottle',
          (time_numBytesSent _).trans hcount⟩
      obtain ⟨lost, hloop, hcount', hiff⟩ := ih next (buf.drop slice) (total + slice)
        (by rw [hfields.2.2.1]; exact hthrottle)
      rw [hfields.1] at hloop
      rw [hfields.2.2.2] at hcount'
      rw [hfields.2.1, hfields.2.2.1, List.length_drop] at hiff
      rw [← hnext]
      refine ⟨lost, by omega, hcount', hiff.trans ?_⟩
      constructor
      · exact fun h => ⟨hquiet, .inr ⟨hn, h⟩⟩
      · rintro ⟨-, h | ⟨-, h⟩⟩
        · omega
        · exact h
    · rw [if_pos hwhole]
      refine ⟨(pushLoop out.sends slice).nwritten + (pushLoop out.sends slice).unreported, ?_, hcount, ?_⟩
      · dsimp only
        omega
      · rw [Nat.add_eq_zero_iff, hunreported]
        constructor
        · exact fun h => ⟨h.2, .inl h.1⟩
        · rintro ⟨hquiet, h | ⟨h, -⟩⟩
          · exact ⟨h, hquiet⟩
          · exact absurd (hall.mpr (congrArg Nat.cast h)) hwhole

theorem throttledWrite_count (out : Output) (buf : List Byte) (hthrottle : 0 < out.throttle) :
    ∃ lost : Nat, ((throttledWrite out buf).2.sent.length : Int) =
        out.sent.length + max (throttledWrite out buf).1 0 + lost ∧
      (throttledWrite out buf).2.numBytesSent = out.numBytesSent ∧ -1 ≤ (throttledWrite out buf).1 ∧
      (lost = 0 ↔ let pushed := pushLoop out.sends (firstSlice out buf.length).toNat
        ¬ TakenAtStop out.sends (firstSlice out buf.length).toNat ∧
          ((pushed.nwritten : Int) = firstSlice out buf.length →
            SlicesWhole out.throttle.toNat buf.length pushed.sends (buf.length - pushed.nwritten))) := by
  obtain ⟨o, ho⟩ : ∃ o, o = if out.time.1 ≠ out.time.2.lastThrottleTime then
      { out.time.2 with lastThrottleTime := out.time.1, lastThrottleBytes := 0 } else out.time.2 :=
    ⟨_, rfl⟩
  have hclock := time_lastThrottle out
  have hkeep : o.sent = out.sent ∧ o.sends = out.sends ∧ o.throttle = out.throttle ∧
      o.numBytesSent = out.numBytesSent ∧
      allowedOf buf.length (o.throttle - o.lastThrottleBytes) = firstSlice out buf.length := by
    rw [ho, firstSlice, hclock.1]
    split_ifs
    · exact ⟨time_sent out, time_sends out, time_throttle out, time_numBytesSent out, by
        dsimp only; rw [time_throttle]⟩
    · exact ⟨time_sent out, time_sends out, time_throttle out, time_numBytesSent out, by
        rw [time_throttle, hclock.2]⟩
  obtain ⟨hsent0, hsends0, hthrottle0, hcount0, hfirst⟩ := hkeep
  have hslice : firstSlice out buf.length ≤ buf.length := allowedOf_le _ _
  obtain ⟨hsent, hcount, hge, hsends, hthrottle1, hall, hmax⟩ := pushAll_count o buf hslice
  have hle := pushLoop_le out.sends (firstSlice out buf.length).toNat
  have hunreported := pushLoop_unreported out.sends (firstSlice out buf.length).toNat
  rw [throttledWrite]
  simp only [← ho, hfirst]
  rw [hsends0] at hsent hsends hall hmax
  rw [hsent0] at hsent
  by_cases hwhole : (pushAll o buf (firstSlice out buf.length)).1 = firstSlice out buf.length
  · have hn := hall.mp hwhole
    have hquiet := hunreported.mp (by omega)
    rw [if_pos hwhole]
    obtain ⟨lost, hloop, hcount', hiff⟩ := throttleLoop_count buf.length
      { (pushAll o buf (firstSlice out buf.length)).2 with
        lastThrottleBytes := (pushAll o buf (firstSlice out buf.length)).2.lastThrottleBytes +
          (pushAll o buf (firstSlice out buf.length)).1 }
      (buf.drop (firstSlice out buf.length).toNat) (firstSlice out buf.length).toNat
      (by dsimp only; rw [hthrottle1, hthrottle0]; exact hthrottle)
    dsimp only at hloop hcount' hiff ⊢
    rw [hthrottle1, hsends, hthrottle0, List.length_drop] at hiff
    have hleft : buf.length - (firstSlice out buf.length).toNat =
        buf.length - (pushLoop out.sends (firstSlice out buf.length).toNat).nwritten := by omega
    rw [hleft] at hiff
    refine ⟨lost, by omega, ?_, by omega, ?_⟩
    · rw [hcount', hcount, hcount0]
    · exact hiff.trans ⟨fun h => ⟨hquiet, fun _ => h⟩, fun h => h.2 hn⟩
  · have hn := mt hall.mpr hwhole
    rw [if_neg hwhole]
    refine ⟨(pushLoop out.sends (firstSlice out buf.length).toNat).unreported, hsent, ?_, hge, ?_⟩
    · rw [hcount, hcount0]
    · exact hunreported.trans ⟨fun h => ⟨h, fun h' => absurd h' hn⟩, fun h => h.1⟩

/-- A write counts what it puts on the wire exactly if nothing of it is taken at the stop and no slice behind the first
one is cut off. -/
theorem mgWrite_count (out : Output) (buf : List Byte) : ∃ lost,
    WriteCount out (mgWrite out buf).2 (mgWrite out buf).1 lost ∧
      (lost = 0 ↔ WriteWhole out buf.length) := by
  have hcounted (o : Output) (total : Int) (n0 : Int) (h : o.numBytesSent = n0) :
      (if 0 < total then { o with numBytesSent := o.numBytesSent + total } else o).numBytesSent =
          n0 + max total 0 ∧
        (if 0 < total then { o with numBytesSent := o.numBytesSent + total } else o).sent = o.sent := by
    split_ifs
    · exact ⟨by dsimp only; omega, rfl⟩
    · exact ⟨by omega, rfl⟩
  rw [mgWrite]
  by_cases hmax : INT_MAX < buf.length
  · rw [if_pos hmax]
    exact ⟨0, ⟨by simp, by simp, by simp⟩, ⟨fun _ h => absurd h (Nat.not_le.mpr hmax), fun _ => rfl⟩⟩
  rw [if_neg hmax, WriteWhole]
  simp only [Nat.not_lt.mp hmax, forall_const]
  by_cases ht : 0 < out.throttle
  · rw [if_pos ht, if_pos ht]
    obtain ⟨lost, hsent, hcount, hge, hiff⟩ := throttledWrite_count out buf ht
    obtain ⟨hcount', hsent'⟩ := hcounted (throttledWrite out buf).2 (throttledWrite out buf).1 _ hcount
    refine ⟨lost, ⟨?_, hcount', hge⟩, hiff⟩
    rw [hsent', hsent]
  · rw [if_neg ht, if_neg ht]
    obtain ⟨hsent, hcount, hge, -⟩ := pushAll_count out buf (le_refl (buf.length : Int))
    obtain ⟨hcount', hsent'⟩ := hcounted (pushAll out buf buf.length).2 (pushAll out buf buf.length).1 _
      hcount
    rw [Int.toNat_natCast] at hsent
    refine ⟨(pushLoop out.sends buf.length).unreported, ⟨?_, hcount', hge⟩, pushLoop_unreported _ _⟩
    rw [hsent', hsent]

/-! ### Calls on a connection -/

/-- The bytes on the wire that are not in `num_bytes_sent`. -/
def Output.uncounted (out : Output) : Int := out.sent.length - out.numBytesSent

/-- The writes of a chunk, as far as it gets, are taken whole. -/
def ChunkWhole (out : Output) (chunk : List Byte) : Prop :=
  let lenbuf := hexText chunk.length ++ CRLF
  WriteWhole out lenbuf.length ∧ ((mgWrite out lenbuf).1 = lenbuf.length →
    let out := (mgWrite out lenbuf).2
    WriteWhole out chunk.length ∧ ((mgWrite out chunk).1 = toInt32 chunk.length →
      WriteWhole (mgWrite out chunk).2 CRLF.length))

/-- The writes of `copyLoop` are taken whole. -/
def CopyWhole (noBuffering : Bool) : Nat → OpenFile → Int → Output → Prop
  | 0, _, _, _ => True
  | turns + 1, file, len, out =>
    0 < len →
      let toRead : Nat := if noBuffering then 1 else MG_BUF_LEN
      let toRead := if len < toRead then len.toNat else toRead
      ∀ buf ∈ (file.read toRead).1, buf ≠ [] → WriteWhole out buf.length ∧
        ((mgWrite out buf).1 = buf.length →
          CopyWhole noBuffering turns (file.read toRead).2 (len - buf.length) (mgWrite out buf).2)

/-- `send_file_data` tries `sendfile` on this connection. -/
def SendConn.sendfile (conn : SendConn) : Bool :=
  !conn.ssl && conn.out.throttle == 0 && mgStrcasecmp conn.allowSendfileCall (ascii "yes") == 0

/-- Where `send_file_data` is behind its loop over `sendfile`, if it tries that. -/
def SendConn.fastEnd (conn : SendConn) (content : List Byte) (offset : Nat) (len : Int) (results : List Int) :
    SendfileEnd :=
  if conn.sendfile then sendfileLoop content results 0 offset len [] else ⟨false, offset, len, []⟩

/-- The first `sendfile` sends nothing, if it is tried, and the writes of the copy that then begins are taken
whole. -/
def FileWhole (conn : SendConn) (file : OpenFile) (offset len : Int) (noBuffering : Bool)
    (results : List Int) (fseeko : Bool) : Prop :=
  0 < len →
    let offset := sanityOffset file.size offset
    let fast := conn.fastEnd file.content offset len results
    (conn.sendfile = true → ∀ r ∈ results.head?, 0 < r → file.content.length ≤ offset) ∧
      (fast.returned = false → ¬ (0 < fast.sfOffs ∧ fseeko = false) →
        CopyWhole noBuffering (file.content.length + 1)
          (if 0 < fast.sfOffs then { file with pos := fast.sfOffs } else file) fast.len conn.out)

inductive SendCall where
  | write (buf : List Byte)
  | sendChunk (chunk : List Byte)
  | sendFileData (file : OpenFile) (offset len : Int) (noBuffering : Bool) (results : List Int)
      (fseeko : Bool)
  deriving DecidableEq, Repr

/-- A connection with the writes on it: what `mg_write` returned and how many bytes it put on the wire. -/
structure Sending where
  conn : SendConn
  writes : List (Int × Nat)
  deriving DecidableEq, Repr

def sendStep (s : Sending) : SendCall → Option Sending
  | .write buf =>
    let (ret, out) := mgWrite s.conn.out buf
    some ⟨{ s.conn with out := out }, s.writes ++ [(ret, out.sent.length - s.conn.out.sent.length)]⟩
  | .sendChunk chunk =>
    let (_, out) := mgSendChunk s.conn.out chunk
    some { s with conn := { s.conn with out := out } }
  | .sendFileData file offset len noBuffering results fseeko =>
    let (_, _, out) := sendFileData s.conn file offset len noBuffering results fseeko
    some { s with conn := { s.conn with out := out } }

/-- `mg_write` has returned the number of bytes it put on the wire, or -1 for none because of an error. -/
def Reported (w : Int × Nat) : Prop := w.1 = w.2 ∨ (w.1 = -1 ∧ w.2 = 0)

instance (w : Int × Nat) : Decidable (Reported w) := inferInstanceAs (Decidable (_ ∨ _))

/-- As many bytes are uncounted as at the start, and every write has been reported. -/
def BytesCounted (uncounted : Int) (s : Sending) : Prop :=
  s.conn.out.uncounted = uncounted ∧ ∀ w ∈ s.writes, Reported w

def CallWhole (s : Sending) : SendCall → Prop
  | .write buf => WriteWhole s.conn.out buf.length
  | .sendChunk chunk => ChunkWhole s.conn.out chunk
  | .sendFileData file offset len noBuffering results fseeko =>
    FileWhole s.conn file offset len noBuffering results fseeko

theorem mgWrite_loses (out : Output) (buf : List Byte) : ∃ lost : Nat,
    (mgWrite out buf).2.uncounted = out.uncounted + lost ∧ (lost = 0 ↔ WriteWhole out buf.length) := by
  obtain ⟨lost, hcount, hiff⟩ := mgWrite_count out buf
  refine ⟨lost, ?_, hiff⟩
  rw [Output.uncounted, Output.uncounted, hcount.sent, hcount.counted]
  omega

theorem mgSendChunk_loses (out : Output) (chunk : List Byte) : ∃ lost : Nat,
    (mgSendChunk out chunk).2.uncounted = out.uncounted + lost ∧ (lost = 0 ↔ ChunkWhole out chunk) := by
  rw [mgSendChunk, ChunkWhole]
  dsimp only
  obtain ⟨lost, h1, hiff1⟩ := mgWrite_loses out (hexText chunk.length ++ CRLF)
  by_cases hret1 : (mgWrite out (hexText chunk.length ++ CRLF)).1 = (hexText chunk.length ++ CRLF).length
  swap
  · rw [if_pos hret1]
    exact ⟨lost, h1, hiff1.trans ⟨fun h => ⟨h, fun h' => absurd h' hret1⟩, fun h => h.1⟩⟩
  rw [if_neg (not_not.mpr hret1)]
  obtain ⟨o1, ho1⟩ : ∃ o1, o1 = (mgWrite out (hexText chunk.length ++ CRLF)).2 := ⟨_, rfl⟩
  rw [← ho1] at h1 ⊢
  obtain ⟨lost2, h2, hiff2⟩ := mgWrite_loses o1 chunk
  by_cases hret2 : (mgWrite o1 chunk).1 = toInt32 chunk.length
  swap
  · rw [if_pos hret2]
    refine ⟨lost + lost2, by rw [h2, h1]; omega, ?_⟩
    rw [Nat.add_eq_zero_iff, hiff1, hiff2]
    exact and_congr_right fun _ => ⟨fun h _ => ⟨h, fun h' => absurd h' hret2⟩, fun h => (h hret1).1⟩
  rw [if_neg (not_not.mpr hret2)]
  obtain ⟨lost3, h3, hiff3⟩ := mgWrite_loses (mgWrite o1 chunk).2 CRLF
  refine ⟨lost + lost2 + lost3, ?_, ?_⟩
  · have hout (p : Prop) [Decidable p] (a b : Int) (o : Output) :
        (if p then (a, o) else (b, o)).2 = o := by split_ifs <;> rfl
    rw [hout, h3, h2, h1]
    omega
  · rw [Nat.add_eq_zero_iff, Nat.add_eq_zero_iff, hiff1, hiff2, hiff3, and_assoc]
    exact and_congr_right fun _ => ⟨fun h _ => ⟨h.1, fun _ => h.2⟩, fun h => ⟨(h hret1).1, (h hret1).2 hret2⟩⟩

theorem copyLoop_loses (noBuffering : Bool) (turns : Nat) (file : OpenFile) (len : Int) (out : Output) :
    ∃ lost : Nat, (copyLoop noBuffering turns file len out).2.uncounted = out.uncounted + lost ∧
      (lost = 0 ↔ CopyWhole noBuffering turns file len out) := by
  induction turns generalizing file len out with
  | zero => exact ⟨0, (add_zero _).symm, by simp [CopyWhole]⟩
  | succ turns ih =>
    rw [copyLoop, CopyWhole]
    by_cases hlen : 0 < len
    swap
    · rw [if_neg hlen]
      exact ⟨0, (add_zero _).symm, ⟨fun _ h => absurd h hlen, fun _ => rfl⟩⟩
    rw [if_pos hlen]
    dsimp only
    generalize (if len < ((if noBuffering then 1 else MG_BUF_LEN : Nat) : Int) then len.toNat
      else if noBuffering then 1 else MG_BUF_LEN) = toRead
    obtain ⟨next, file', hread⟩ : ∃ next file', file.read toRead = (next, file') := ⟨_, _, rfl⟩
    rw [hread]
    cases next with
    | none => exact ⟨0, (add_zero _).symm, by simp⟩
    | some buf =>
      dsimp only
      by_cases hnil : buf = []
      · rw [if_pos hnil]
        exact ⟨0, (add_zero _).symm, by simp [hnil]⟩
      rw [if_neg hnil]
      obtain ⟨lost, hwrite, hiff⟩ := mgWrite_loses out buf
      by_cases hret : (mgWrite out buf).1 = buf.length
      · obtain ⟨lost', hrest, hiff'⟩ := ih file' (len - buf.length) (mgWrite out buf).2
        rw [if_neg (not_not.mpr hret), hret]
        refine ⟨lost + lost', by rw [hrest, hwrite]; omega, ?_⟩
        rw [Nat.add_eq_zero_iff, hiff, hiff']
        simp only [Option.mem_def, Option.some.injEq, forall_eq', hlen, hnil, hret, ne_eq,
          not_false_eq_true, forall_const]
      · rw [if_pos hret]
        refine ⟨lost, hwrite, hiff.trans ?_⟩
        simp only [Option.mem_def, Option.some.injEq, forall_eq', hlen, hnil, hret, ne_eq,
          not_false_eq_true, forall_const, false_implies, and_true]

/-- The loop over `sendfile` sends nothing exactly if its first call does. -/
theorem sendfileLoop_sends (content : List Byte) (results : List Int) (loopCnt sfOffs : Nat) (len : Int)
    (sent : List Byte) : ∃ more : Nat,
      (sendfileLoop content results loopCnt sfOffs len sent).sent.length = sent.length + more ∧
      (more = 0 ↔ ∀ r ∈ results.head?, 0 < r → content.length ≤ sfOffs) := by
  induction results generalizing loopCnt sfOffs len sent with
  | nil => exact ⟨0, rfl, by simp⟩
  | cons r results ih =>
    rw [sendfileLoop]
    simp only [List.head?_cons, Option.mem_def, Option.some.injEq, forall_eq']
    by_cases hpos : 0 < r
    swap
    · rw [if_neg hpos]
      refine ⟨0, ?_, ⟨fun _ h => absurd h hpos, fun _ => rfl⟩⟩
      split_ifs <;> rfl
    rw [if_pos hpos]
    have hpiece : ((content.drop sfOffs).take r.toNat).length = 0 ↔ content.length ≤ sfOffs := by
      rw [List.length_take, List.length_drop]
      omega
    split_ifs
    · obtain ⟨more, hmore, hiff⟩ := ih (loopCnt + 1) (sfOffs + r.toNat) (len - r)
        (sent ++ (content.drop sfOffs).take r.toNat)
      refine ⟨((content.drop sfOffs).take r.toNat).length + more, ?_, ?_⟩
      · rw [hmore, List.length_append, Nat.add_assoc]
      · rw [Nat.add_eq_zero_iff, hpiece, hiff]
        exact ⟨fun h _ => h.1, fun h => ⟨h hpos, fun _ _ _ => (h hpos).trans (Nat.le_add_right _ _)⟩⟩
    · refine ⟨((content.drop sfOffs).take r.toNat).length, List.length_append, hpiece.trans ?_⟩
      exact ⟨fun h _ => h, fun h => h hpos⟩

theorem fastEnd_sends (conn : SendConn) (content : List Byte) (offset : Nat) (len : Int) (results : List Int) :
    (conn.fastEnd content offset len results).sent = [] ↔
      (conn.sendfile = true → ∀ r ∈ results.head?, 0 < r → content.length ≤ offset) := by
  unfold SendConn.fastEnd
  by_cases hsendfile : conn.sendfile = true
  · rw [if_pos hsendfile]
    simp only [hsendfile, forall_const]
    obtain ⟨more, hmore, hiff⟩ := sendfileLoop_sends content results 0 offset len []
    rw [← hiff, ← List.length_eq_zero_iff, hmore, List.length_nil, Nat.zero_add]
  · rw [if_neg hsendfile]
    exact iff_of_true rfl fun h => absurd h hsendfile

theorem sendFileData_loses (conn : SendConn) (file : OpenFile) (offset len : Int) (noBuffering : Bool)
    (results : List Int) (fseeko : Bool) : ∃ lost : Nat,
      (sendFileData conn file offset len noBuffering results fseeko).2.2.uncounted =
        conn.out.uncounted + lost ∧
      (lost = 0 ↔ FileWhole conn file offset len noBuffering results fseeko) := by
  rw [sendFileData, FileWhole]
  by_cases hlen : 0 < len
  swap
  · rw [if_neg hlen]
    exact ⟨0, (add_zero _).symm, ⟨fun _ h => absurd h hlen, fun _ => rfl⟩⟩
  rw [if_pos hlen]
  simp only [hlen, forall_const]
  generalize sanityOffset file.size offset = start
  have hsends := fastEnd_sends conn file.content start len results
  have hfast : (if (!conn.ssl && conn.out.throttle == 0 &&
      mgStrcasecmp conn.allowSendfileCall (ascii "yes") == 0) = true then
        sendfileLoop file.content results 0 start len [] else ⟨false, start, len, []⟩) =
      conn.fastEnd file.content start len results := rfl
  rw [hfast, ← hsends]
  generalize conn.fastEnd file.content start len results = fast
  have huncounted : Output.uncounted { conn.out with sent := conn.out.sent ++ fast.sent } =
      conn.out.uncounted + fast.sent.length := by
    rw [Output.uncounted, Output.uncounted, List.length_append]
    dsimp only
    omega
  by_cases hreturned : fast.returned = true
  · rw [if_pos hreturned]
    refine ⟨fast.sent.length, huncounted, List.length_eq_zero_iff.trans ?_⟩
    exact ⟨fun h => ⟨h, fun hnot => absurd (hnot.symm.trans hreturned) Bool.false_ne_true⟩, And.left⟩
  rw [if_neg hreturned]
  by_cases hseek : 0 < fast.sfOffs ∧ fseeko = false
  · rw [if_pos hseek]
    exact ⟨fast.sent.length, huncounted,
      List.length_eq_zero_iff.trans ⟨fun h => ⟨h, fun _ hnot => absurd hseek hnot⟩, And.left⟩⟩
  rw [if_neg hseek]
  obtain ⟨lost, hcopy, hwhole⟩ := copyLoop_loses noBuffering (file.content.length + 1)
    (if 0 < fast.sfOffs then { file with pos := fast.sfOffs } else file) fast.len
    { conn.out with sent := conn.out.sent ++ fast.sent }
  refine ⟨fast.sent.length + lost, by rw [hcopy, huncounted]; omega, ?_⟩
  rw [Nat.add_eq_zero_iff, List.length_eq_zero_iff, hwhole]
  refine and_congr_right fun hnone => ?_
  rw [hnone, List.append_nil]
  exact ⟨fun h _ _ => h, fun h => h (Bool.eq_false_iff.mpr hreturned) hseek⟩

theorem callWhole_iff {uncounted : Int} {s t : Sending} (hs : BytesCounted uncounted s) (call : SendCall)
    (hstep : sendStep s call = some t) : BytesCounted uncounted t ↔ CallWhole s call := by
  obtain ⟨huncounted, hwrites⟩ := hs
  cases call with
  | write buf =>
    rw [sendStep, Option.some.injEq] at hstep
    obtain ⟨lost, hcount, hiff⟩ := mgWrite_count s.conn.out buf
    have hsent := hcount.sent
    have hge := hcount.ge
    have hlost : (mgWrite s.conn.out buf).2.uncounted = s.conn.out.uncounted + lost := by
      rw [Output.uncounted, Output.uncounted, hsent, hcount.counted]
      omega
    rw [CallWhole, ← hiff, ← hstep, BytesCounted]
    dsimp only
    rw [hlost, huncounted]
    constructor
    · rintro ⟨h, -⟩
      omega
    · intro h
      refine ⟨by omega, ?_⟩
      intro w hw
      rcases List.mem_append.mp hw with hw | hw
      · exact hwrites w hw
      · rw [List.mem_singleton.mp hw, Reported]
        dsimp only
        omega
  | sendChunk chunk =>
    rw [sendStep, Option.some.injEq] at hstep
    obtain ⟨lost, hlost, hiff⟩ := mgSendChunk_loses s.conn.out chunk
    rw [CallWhole, ← hiff, ← hstep, BytesCounted]
    dsimp only
    rw [hlost, huncounted]
    exact ⟨fun h => by omega, fun h => ⟨by omega, hwrites⟩⟩
  | sendFileData file offset len noBuffering results fseeko =>
    rw [sendStep, Option.some.injEq] at hstep
    obtain ⟨lost, hlost, hiff⟩ := sendFileData_loses s.conn file offset len noBuffering results fseeko
    rw [CallWhole, ← hiff, ← hstep, BytesCounted]
    dsimp only
    rw [hlost, huncounted]
    exact ⟨fun h => by omega, fun h => ⟨by omega, hwrites⟩⟩

/-- On every connection `num_bytes_sent` grows by what is put on the wire, call by call, exactly if the
first `sendfile` of no file sends anything, nothing of a write is taken at the stop and no slice behind
the first one of a throttled write is cut off. -/
theorem bytesCounted_iff (conn : SendConn) (calls : List SendCall) :
    System.Always sendStep (BytesCounted conn.out.uncounted) ⟨conn, []⟩ calls ↔
      System.Along sendStep CallWhole ⟨conn, []⟩ calls := by
  refine System.always_iff_along sendStep (fun _ => True) _ _ (fun _ _ _ _ _ => trivial) ?_ _ calls
    trivial ⟨rfl, List.forall_mem_nil _⟩
  intro s call t _ hs hstep
  exact callWhole_iff hs call hstep

/-- A file of five bytes that one `sendfile` sends. -/
theorem bytesCounted_sendfile : ¬ System.Always sendStep
    (BytesCounted (Output.uncounted ⟨[], [], 0, 0, 0, 0, []⟩))
    ⟨⟨false, ascii "yes", ⟨[], [], 0, 0, 0, 0, []⟩⟩, []⟩
    [.sendFileData ⟨ascii "hello", 5, 0, []⟩ 0 5 false [5] true] := by
  intro h
  have hcounted := (h.2 _ rfl).1
  revert hcounted
  decide

/-- Five bytes that are on the wire when `push_inner` finds the stop flag set. -/
example : mgWrite ⟨[.acceptStop 5], [], 0, 0, 0, 0, []⟩ (ascii "hello") =
    (-1, ⟨[.stop], ascii "hello", 0, 0, 0, 0, []⟩) := by decide

end CivetWeb
