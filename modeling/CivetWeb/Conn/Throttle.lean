import CivetWeb.Conn.Write

namespace CivetWeb

/-- A `send` that does not fail. -/
def SendEvent.succeeds : SendEvent → Bool
  | .accept _ => true
  | .wait => true
  | _ => false

/-- A `send` that takes a byte at least. -/
def SendEvent.takes : SendEvent → Bool
  | .accept n => n != 0
  | _ => false

/-- Sends that do not fail, with `n` of them that take something. -/
def CanSend (sends : List SendEvent) (n : Nat) : Prop :=
  (∀ e ∈ sends, e.succeeds = true) ∧ n ≤ sends.countP SendEvent.takes

instance (sends : List SendEvent) (n : Nat) : Decidable (CanSend sends n) :=
  inferInstanceAs (Decidable (_ ∧ _))

theorem canSend_le {sends : List SendEvent} {m n : Nat} (h : CanSend sends n) (hmn : m ≤ n) :
    CanSend sends m := ⟨h.1, hmn.trans h.2⟩

theorem canSend_cons {e : SendEvent} {s : List SendEvent} {n : Nat} (h : CanSend (e :: s) n) :
    e.succeeds = true ∧ CanSend s (if e.takes then n - 1 else n) := by
  obtain ⟨hall, hcount⟩ := h
  obtain ⟨he, hs⟩ := List.forall_mem_cons.mp hall
  rw [List.countP_cons] at hcount
  refine ⟨he, hs, ?_⟩
  split_ifs at hcount ⊢ <;> omega

theorem canSend_stopSet {sends : List SendEvent} {n : Nat} (h : CanSend sends n) : stopSet sends = false := by
  rw [stopSet]
  cases hs : sends with
  | nil => rfl
  | cons e s =>
    have he : e.succeeds = true := h.1 e (by simp [hs])
    cases e with
    | stop => cases he
    | accept k => rfl
    | acceptStop k => rfl
    | wait => rfl
    | timeout => rfl
    | error => rfl

/-- `push_all` gets all bytes away where the sends succeed. -/
theorem pushLoop_canSend {sends : List SendEvent} {len n : Nat} (h : CanSend sends n) (hlen : len ≤ n) :
    ∃ sends', pushLoop sends len = ⟨len, 0, false, sends'⟩ ∧ CanSend sends' (n - len) := by
  induction sends generalizing len n with
  | nil =>
    have hn : n ≤ 0 := h.2
    obtain rfl : len = 0 := by omega
    exact ⟨[], rfl, h⟩
  | cons e s ih =>
    obtain ⟨he, hs⟩ := canSend_cons h
    cases len with
    | zero => exact ⟨e :: s, pushLoop_zero _, h⟩
    | succ len =>
      cases e with
      | accept k =>
        rw [pushLoop]
        by_cases hk : k = 0
        · rw [if_pos hk, canSend_stopSet hs, if_neg Bool.false_ne_true]
          rw [SendEvent.takes, hk] at hs
          exact ih hs hlen
        · have htakes : (SendEvent.accept k).takes = true := bne_iff_ne.mpr hk
          rw [if_pos htakes] at hs
          rw [if_neg hk]
          by_cases hle : len + 1 ≤ k
          · rw [if_pos hle]
            exact ⟨s, rfl, canSend_le hs (by omega)⟩
          · obtain ⟨sends', hpush, hrest⟩ := ih (canSend_le hs (by omega : n - k ≤ n - 1))
              (by omega : len + 1 - k ≤ n - k)
            rw [if_neg hle, hpush]
            refine ⟨sends', ?_, canSend_le hrest (by omega)⟩
            dsimp only
            rw [show k + (len + 1 - k) = len + 1 by omega]
      | wait =>
        rw [pushLoop, canSend_stopSet hs, if_neg Bool.false_ne_true]
        exact ih hs hlen
      | acceptStop k => cases he
      | timeout => cases he
      | error => cases he
      | stop => cases he

theorem pushAll_canSend (out : Output) (buf : List Byte) {len n : Nat} (h : CanSend out.sends n)
    (hlen : len ≤ n) :
    ∃ sends', pushAll out buf len =
      ((len : Int), { out with sends := sends', sent := out.sent ++ buf.take len }) ∧
        CanSend sends' (n - len) := by
  obtain ⟨sends', hpush, hrest⟩ := pushLoop_canSend h hlen
  refine ⟨sends', ?_, hrest⟩
  rw [pushAll, Int.toNat_natCast, hpush]
  rfl

theorem pushAll_nothing (out : Output) (buf : List Byte) {len : Int} (hlen : len ≤ 0) :
    pushAll out buf len = (0, out) := by
  rw [pushAll, Int.toNat_of_nonpos hlen, pushLoop_zero]
  simp

theorem canSend_stopFlag {out : Output} {n : Nat} (h : CanSend out.sends n) :
    out.stopFlag = false := canSend_stopSet h

theorem time_sends (out : Output) : out.time.2.sends = out.sends := by
  rw [Output.time]
  split <;> rfl

theorem time_throttle (out : Output) : out.time.2.throttle = out.throttle := by
  rw [Output.time]
  split <;> rfl

theorem time_lastThrottle (out : Output) : out.time.2.lastThrottleTime = out.lastThrottleTime ∧
    out.time.2.lastThrottleBytes = out.lastThrottleBytes := by
  rw [Output.time]
  split <;> exact ⟨rfl, rfl⟩

theorem throttleLoop_canSend (turns : Nat) (out : Output) (buf : List Byte) (total : Nat) {n : Nat}
    (h : CanSend out.sends n) (hthrottle : 0 < out.throttle) (hlen : buf.length ≤ n)
    (hturns : buf.length ≤ turns) :
    ∃ out', throttleLoop turns out buf total = (total + buf.length, out') ∧
      out'.sent = out.sent ++ buf ∧ CanSend out'.sends (n - buf.length) := by
  induction turns generalizing out buf total n with
  | zero =>
    obtain rfl : buf = [] := List.eq_nil_of_length_eq_zero (by omega)
    exact ⟨out, rfl, by simp, h⟩
  | succ turns ih =>
    rw [throttleLoop]
    by_cases hnil : buf = []
    · rw [if_pos (Or.inl hnil), hnil]
      exact ⟨out, rfl, by simp, h⟩
    have hpos := List.length_pos_of_ne_nil hnil
    have hgo : ¬ (buf = [] ∨ out.stopFlag = true) := by
      rw [canSend_stopFlag h]
      simpa using hnil
    obtain ⟨k, hk, hk1, hk2⟩ : ∃ k : Nat, allowedOf buf.length out.throttle = k ∧ 1 ≤ k ∧
        k ≤ buf.length := by
      refine ⟨(allowedOf buf.length out.throttle).toNat, ?_⟩
      rw [allowedOf]
      split_ifs <;> omega
    obtain ⟨sends', hpush, hrest⟩ := pushAll_canSend out buf h (hk2.trans hlen)
    rw [if_neg hgo]
    dsimp only
    rw [hk, hpush]
    dsimp only
    rw [if_neg (not_not.mpr rfl), Int.toNat_natCast]
    have hlen' : (buf.drop k).length = buf.length - k := List.length_drop
    obtain ⟨out', hloop, hsent, hcan⟩ := ih
      { (Output.time { out with sends := sends', sent := out.sent ++ buf.take k }).2 with
        lastThrottleBytes := k
        lastThrottleTime := (Output.time { out with sends := sends', sent := out.sent ++ buf.take k }).1 }
      (buf.drop k) (total + k) (n := n - k) (by simpa only [time_sends] using hrest)
      (by simpa only [time_throttle] using hthrottle) (by omega) (by omega)
    refine ⟨out', ?_, ?_, canSend_le hcan (by omega)⟩
    · rw [hloop, hlen', show total + k + (buf.length - k) = total + buf.length by omega]
    · rw [hsent]
      simp only [time_sent]
      rw [List.append_assoc, List.take_append_drop]

/-- `allowed` of `mg_write` is not negative, or there is nothing to write. -/
def ThrottleAllows (out : Output) (buf : List Byte) : Prop :=
  out.throttle ≤ 0 ∨ buf = [] ∨ out.lastThrottleBytes ≤ out.throttle ∨
    out.time.1 ≠ out.lastThrottleTime

instance (out : Output) (buf : List Byte) : Decidable (ThrottleAllows out buf) :=
  inferInstanceAs (Decidable (_ ∨ _))

/-- Where the sends succeed a throttled `mg_write` sends all of a buffer, or nothing at all where more
than the throttle has been sent in this second. -/
theorem throttledWrite_canSend (out : Output) (buf : List Byte) {n : Nat} (h : CanSend out.sends n)
    (hthrottle : 0 < out.throttle) (hlen : buf.length ≤ n) :
    (throttledWrite out buf).2.sent = (if ThrottleAllows out buf then out.sent ++ buf else out.sent) ∧
      CanSend (throttledWrite out buf).2.sends (n - buf.length) := by
  obtain ⟨o, ho⟩ : ∃ o, o = if out.time.1 ≠ out.time.2.lastThrottleTime then
      { out.time.2 with lastThrottleTime := out.time.1, lastThrottleBytes := 0 } else out.time.2 :=
    ⟨_, rfl⟩
  have hclock := time_lastThrottle out
  have hkeep : o.sent = out.sent ∧ o.sends = out.sends ∧ o.throttle = out.throttle := by
    rw [ho]
    split_ifs <;> exact ⟨time_sent out, time_sends out, time_throttle out⟩
  have hallows : ThrottleAllows out buf ↔ buf = [] ∨ 0 ≤ o.throttle - o.lastThrottleBytes := by
    rw [ThrottleAllows, ho, hclock.1]
    split_ifs with hnow
    · simp only [hnow, ne_eq, not_false_eq_true, or_true, true_iff, time_throttle]
      exact Or.inr (by omega)
    · rw [hclock.2, time_throttle]
      constructor
      · rintro (h | h | h | h)
        · omega
        · exact Or.inl h
        · exact Or.inr (by omega)
        · exact absurd h hnow
      · rintro (h | h)
        · exact Or.inr (Or.inl h)
        · exact Or.inr (Or.inr (Or.inl (by omega)))
  rw [throttledWrite]
  simp only [← ho]
  by_cases hneg : o.throttle - o.lastThrottleBytes < 0
  · -- `push_all` is asked for a negative number of bytes
    have hallowed : allowedOf buf.length (o.throttle - o.lastThrottleBytes) =
        o.throttle - o.lastThrottleBytes := if_neg (by omega)
    rw [hallowed, pushAll_nothing o buf hneg.le]
    dsimp only
    rw [if_neg (by omega)]
    dsimp only
    rw [hkeep.1, hkeep.2.1]
    refine ⟨?_, canSend_le h (by omega)⟩
    split_ifs with hall
    · rcases hallows.mp hall with hnil | hge
      · rw [hnil, List.append_nil]
      · omega
    · rfl
  · obtain ⟨k, hk, hk2⟩ : ∃ k : Nat, allowedOf buf.length (o.throttle - o.lastThrottleBytes) = k ∧
        k ≤ buf.length := by
      refine ⟨(allowedOf buf.length (o.throttle - o.lastThrottleBytes)).toNat, ?_⟩
      rw [allowedOf]
      split_ifs <;> omega
    obtain ⟨sends', hpush, hrest⟩ := pushAll_canSend o buf (by rw [hkeep.2.1]; exact h)
      (hk2.trans hlen)
    rw [hk, hpush]
    dsimp only
    rw [if_pos rfl, Int.toNat_natCast]
    obtain ⟨out', hloop, hsent, hcan⟩ := throttleLoop_canSend buf.length
      { o with sends := sends', sent := o.sent ++ buf.take k,
               lastThrottleBytes := o.lastThrottleBytes + k } (buf.drop k) k hrest
      (by rw [hkeep.2.2]; exact hthrottle) (by rw [List.length_drop]; omega)
      (by rw [List.length_drop]; omega)
    rw [hloop, if_pos (hallows.mpr (Or.inr (by omega)))]
    dsimp only
    rw [hsent, hkeep.1, List.append_assoc, List.take_append_drop]
    refine ⟨rfl, canSend_le hcan ?_⟩
    rw [List.length_drop]
    omega

theorem mgWrite_canSend (out : Output) (buf : List Byte) {n : Nat} (h : CanSend out.sends n)
    (hmax : buf.length ≤ INT_MAX) (hlen : buf.length ≤ n) :
    (mgWrite out buf).2.sent = (if ThrottleAllows out buf then out.sent ++ buf else out.sent) ∧
      CanSend (mgWrite out buf).2.sends (n - buf.length) := by
  have hcount (o : Output) (total : Int) :
      (if 0 < total then { o with numBytesSent := o.numBytesSent + total } else o).sent = o.sent ∧
        (if 0 < total then { o with numBytesSent := o.numBytesSent + total } else o).sends = o.sends := by
    split_ifs <;> exact ⟨rfl, rfl⟩
  rw [mgWrite, if_neg (by omega)]
  dsimp only
  rw [(hcount _ _).1, (hcount _ _).2]
  by_cases ht : 0 < out.throttle
  · rw [if_pos ht]
    exact throttledWrite_canSend out buf h ht hlen
  · obtain ⟨sends', hpush, hrest⟩ := pushAll_canSend out buf h hlen
    have hallows : ThrottleAllows out buf := Or.inl (by omega)
    rw [if_neg ht, if_pos hallows, hpush, List.take_length]
    exact ⟨rfl, hrest⟩

end CivetWeb
