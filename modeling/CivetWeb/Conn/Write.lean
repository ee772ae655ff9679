import CivetWeb.Conn.ChunkedComplete
import Mathlib.Data.Nat.Digits.Lemmas

namespace CivetWeb

/-- What a `send` on the client's socket comes to. `acceptStop` is one behind which the stop flag
is found set, `wait` a full send buffer, `timeout` one that stays full for longer than the request
timeout; `stop` is the stop flag, set from there on. -/
inductive SendEvent where
  | accept (n : Nat)
  | acceptStop (n : Nat)
  | wait
  | timeout
  | error
  | stop
  deriving DecidableEq, Repr

/-- The fields of a connection that writing uses: `sent` is what the client has got,
`clock` the values that `time` returns. -/
structure Output where
  sends : List SendEvent
  sent : List Byte
  throttle : Int
  lastThrottleTime : Nat
  lastThrottleBytes : Int
  numBytesSent : Int
  clock : List Nat
  deriving DecidableEq, Repr

def stopSet (sends : List SendEvent) : Bool := sends.head? == some .stop

/-- What `push_all` comes to: the bytes that it counts as written, those that the client gets beside
them, whether an error ended it. -/
structure Pushed where
  nwritten : Nat
  unreported : Nat
  failed : Bool
  sends : List SendEvent
  deriving DecidableEq, Repr

/-- The loop of `push_all` over `push_inner`. The loop ends at the stop flag; `push_inner` looks at it
behind each `send` and each wait, and takes it for an error, whatever was sent. -/
def pushLoop : List SendEvent → Nat → Pushed
  | sends, 0 => ⟨0, 0, false, sends⟩
  | [], _ + 1 => ⟨0, 0, true, []⟩
  | .stop :: s, _ + 1 => ⟨0, 0, false, .stop :: s⟩
  | .error :: s, _ + 1 => ⟨0, 0, true, s⟩
  | .timeout :: s, _ + 1 => ⟨0, 0, true, s⟩
  | .acceptStop n :: s, len + 1 => ⟨0, min n (len + 1), true, .stop :: s⟩
  | .wait :: s, len + 1 => if stopSet s then ⟨0, 0, true, s⟩ else pushLoop s (len + 1)
  | .accept n :: s, len + 1 =>
    if n = 0 then if stopSet s then ⟨0, 0, true, s⟩ else pushLoop s (len + 1)
    else if len + 1 ≤ n then ⟨len + 1, 0, false, s⟩
    else
      let rest := pushLoop s (len + 1 - n)
      { rest with nwritten := n + rest.nwritten }

/-- `push_all` of the first `len` bytes at `buf`; nothing is done where `len` is not positive. -/
def pushAll (out : Output) (buf : List Byte) (len : Int) : Int × Output :=
  let p := pushLoop out.sends len.toNat
  (if p.failed && p.nwritten == 0 then -1 else p.nwritten,
    { out with sends := p.sends, sent := out.sent ++ buf.take (p.nwritten + p.unreported) })

/-- `time(NULL)`. -/
def Output.time (out : Output) : Nat × Output :=
  match out.clock with
  | [] => (out.lastThrottleTime, out)
  | t :: ts => (t, { out with clock := ts })

def Output.stopFlag (out : Output) : Bool := stopSet out.sends

/-- No more than `most` bytes of those that are left. -/
def allowedOf (left : Nat) (most : Int) : Int := if (left : Int) < most then left else most

/-- The loop of `mg_write` on a throttled connection, `total` bytes being written. Each
turn writes a byte at least. -/
def throttleLoop : Nat → Output → List Byte → Nat → Nat × Output
  | 0, out, _, total => (total, out)
  | n + 1, out, buf, total =>
    if buf = [] ∨ out.stopFlag then (total, out)
    else
      let allowed := allowedOf buf.length out.throttle
      let (k, out) := pushAll out buf allowed
      if k ≠ allowed then (total, out)
      else
        let (now, out) := out.time
        throttleLoop n { out with lastThrottleBytes := allowed, lastThrottleTime := now }
          (buf.drop allowed.toNat) (total + allowed.toNat)

/-- The part of `mg_write` for a throttled connection. -/
def throttledWrite (out : Output) (buf : List Byte) : Int × Output :=
  let (now, out) := out.time
  let out :=
    if now ≠ out.lastThrottleTime then { out with lastThrottleTime := now, lastThrottleBytes := 0 }
    else out
  let allowed := allowedOf buf.length (out.throttle - out.lastThrottleBytes)
  let (total, out) := pushAll out buf allowed
  if total = allowed then
    let (total, out) := throttleLoop buf.length
      { out with lastThrottleBytes := out.lastThrottleBytes + total }
      (buf.drop allowed.toNat) allowed.toNat
    ((total : Int), out)
  else (total, out)

def mgWrite (out : Output) (buf : List Byte) : Int × Output :=
  if INT_MAX < buf.length then (-1, out)
  else
    let (total, out) :=
      if 0 < out.throttle then throttledWrite out buf else pushAll out buf buf.length
    (total, if 0 < total then { out with numBytesSent := out.numBytesSent + total } else out)

/-- A digit of `%x`. -/
def hexChar (d : Nat) : Byte := UInt8.ofNat (if d < 10 then 48 + d else 87 + d)

/-- `%x` of `sprintf`. -/
def hexText (n : Nat) : List Byte :=
  if n = 0 then [48] else (Nat.digits 16 n).reverse.map hexChar

def UINT_MAX : Nat := 2 ^ 32 - 1

def mgSendChunk (out : Output) (chunk : List Byte) : Int × Output :=
  let lenbuf := hexText chunk.length ++ CRLF
  let (ret, out) := mgWrite out lenbuf
  if ret ≠ lenbuf.length then (-1, out)
  else
    let t := ret
    let (ret, out) := mgWrite out chunk
    if ret ≠ toInt32 chunk.length then (-1, out)
    else
      let t := t + ret
      let (ret, out) := mgWrite out CRLF
      if ret ≠ 2 then (-1, out) else (t + ret, out)

/-- Chunks sent one after another; `none` as soon as one is refused. -/
def sendChunks (out : Output) : List (List Byte) → Option Output
  | [] => some out
  | chunk :: chunks =>
    let (t, out) := mgSendChunk out chunk
    if t < 0 then none else sendChunks out chunks

theorem pushLoop_le (sends : List SendEvent) (len : Nat) :
    (pushLoop sends len).nwritten + (pushLoop sends len).unreported ≤ len := by
  induction sends generalizing len with
  | nil => cases len <;> simp [pushLoop]
  | cons e s ih =>
    cases len with
    | zero => simp [pushLoop]
    | succ len =>
      cases e with
      | accept n =>
        rw [pushLoop]
        split_ifs with h1 h2 h3
        · exact Nat.zero_le _
        · exact ih (len + 1)
        · exact le_rfl
        · have := ih (len + 1 - n)
          dsimp only
          omega
      | wait =>
        rw [pushLoop]
        split_ifs
        · exact Nat.zero_le _
        · exact ih (len + 1)
      | acceptStop n =>
        rw [pushLoop]
        dsimp only
        omega
      | timeout => simp [pushLoop]
      | error => simp [pushLoop]
      | stop => simp [pushLoop]

theorem pushLoop_zero (sends : List SendEvent) : pushLoop sends 0 = ⟨0, 0, false, sends⟩ := by
  cases sends with
  | nil => rfl
  | cons e s => cases e <;> rfl

theorem allowedOf_le (left : Nat) (most : Int) : allowedOf left most ≤ left := by
  rw [allowedOf]
  split_ifs <;> omega

/-- Where as many bytes as were to be written are written, they have all been sent. -/
theorem pushAll_sent (out : Output) (buf : List Byte) (len : Int)
    (h : (pushAll out buf len).1 = len) :
    (pushAll out buf len).2.sent = out.sent ++ buf.take len.toNat ∧ 0 ≤ len := by
  have hle := pushLoop_le out.sends len.toNat
  rw [pushAll] at h ⊢
  dsimp only at h ⊢
  split_ifs at h with hf
  · have hz : len.toNat = 0 := by omega
    rw [hz, pushLoop_zero] at hf
    simp at hf
  · have hn : (pushLoop out.sends len.toNat).nwritten + (pushLoop out.sends len.toNat).unreported =
        len.toNat := by omega
    rw [hn]
    exact ⟨rfl, by omega⟩

theorem pushAll_le (out : Output) (buf : List Byte) (len : Int) :
    (pushAll out buf len).1 ≤ max len 0 := by
  have hle := pushLoop_le out.sends len.toNat
  rw [pushAll]
  dsimp only
  split_ifs <;> omega

theorem time_sent (out : Output) : out.time.2.sent = out.sent := by
  rw [Output.time]
  split <;> rfl

theorem throttleLoop_sent (n : Nat) (out : Output) (buf : List Byte) (total : Nat)
    (h : (throttleLoop n out buf total).1 = total + buf.length) :
    (throttleLoop n out buf total).2.sent = out.sent ++ buf := by
  induction n generalizing out buf total with
  | zero =>
    have hnil : buf = [] := by
      apply List.eq_nil_of_length_eq_zero
      rw [throttleLoop] at h
      dsimp only at h
      omega
    simp [throttleLoop, hnil]
  | succ n ih =>
    by_cases hnil : buf = []
    · simp [throttleLoop, hnil]
    have hpos := List.length_pos_of_ne_nil hnil
    have hle := allowedOf_le buf.length out.throttle
    rw [throttleLoop] at h ⊢
    generalize allowedOf buf.length out.throttle = allowed at h hle ⊢
    split_ifs at h ⊢ with h1
    · dsimp only at h
      omega
    · dsimp only at h ⊢
      split_ifs at h ⊢ with h2
      · dsimp only at h
        omega
      · obtain ⟨hsent, hge⟩ := pushAll_sent out buf allowed (not_not.mp h2)
        rw [ih]
        · dsimp only
          rw [time_sent, hsent, List.append_assoc, List.take_append_drop]
        · rw [h, List.length_drop]
          omega

theorem throttledWrite_sent (out : Output) (buf : List Byte)
    (h : (throttledWrite out buf).1 = buf.length) :
    (throttledWrite out buf).2.sent = out.sent ++ buf := by
  obtain ⟨o, ho⟩ : ∃ o, o = if out.time.1 ≠ out.time.2.lastThrottleTime then
      { out.time.2 with lastThrottleTime := out.time.1, lastThrottleBytes := 0 } else out.time.2 :=
    ⟨_, rfl⟩
  have hkeep : o.sent = out.sent := by
    rw [ho]
    split_ifs
    · exact time_sent out
    · exact time_sent out
  rw [throttledWrite] at h ⊢
  simp only [← ho] at h ⊢
  have hle := allowedOf_le buf.length (o.throttle - o.lastThrottleBytes)
  generalize allowedOf buf.length (o.throttle - o.lastThrottleBytes) = allowed at h hle ⊢
  split_ifs at h ⊢ with h1
  · obtain ⟨hsent, hge⟩ := pushAll_sent o buf allowed h1
    dsimp only at h ⊢
    rw [throttleLoop_sent]
    · dsimp only
      rw [hsent, hkeep, List.append_assoc, List.take_append_drop]
    · rw [List.length_drop]
      omega
  · -- nothing at all was allowed, and nothing was to be written
    have hall := pushAll_le o buf allowed
    dsimp only at h ⊢
    have hnil : buf = [] := List.eq_nil_of_length_eq_zero (by omega)
    rw [hnil] at h ⊢
    simp [pushAll, hkeep]

/-- What `mg_write` reports as written whole has been sent. -/
theorem mgWrite_sent (out : Output) (buf : List Byte) (h : (mgWrite out buf).1 = buf.length) :
    (mgWrite out buf).2.sent = out.sent ++ buf := by
  have hkeep (o : Output) (total : Int) :
      (if 0 < total then { o with numBytesSent := o.numBytesSent + total } else o).sent = o.sent := by
    split_ifs <;> rfl
  rw [mgWrite] at h ⊢
  by_cases hmax : INT_MAX < buf.length
  · simp only [hmax, if_true] at h
    omega
  by_cases ht : 0 < out.throttle
  · simp only [hmax, ht, if_true, if_false] at h ⊢
    rw [hkeep]
    exact throttledWrite_sent out buf h
  · simp only [hmax, ht, if_false] at h ⊢
    obtain ⟨hsent, -⟩ := pushAll_sent out buf buf.length h
    rw [hkeep, hsent]
    simp

theorem mgWrite_ge (out : Output) (buf : List Byte) : -1 ≤ (mgWrite out buf).1 := by
  have hpush (o : Output) (b : List Byte) (len : Int) : -1 ≤ (pushAll o b len).1 := by
    rw [pushAll]
    dsimp only
    split_ifs <;> omega
  have hthrottled : -1 ≤ (throttledWrite out buf).1 := by
    rw [throttledWrite]
    dsimp only
    split_ifs
    · omega
    · exact hpush _ _ _
    · omega
    · exact hpush _ _ _
  rw [mgWrite]
  by_cases hmax : INT_MAX < buf.length
  · simp [hmax]
  by_cases ht : 0 < out.throttle
  · simpa only [hmax, ht, if_true, if_false] using hthrottled
  · simpa only [hmax, ht, if_false] using hpush out buf buf.length

theorem hexChar_digit (d : Nat) (hd : d < 16) :
    isxdigit (hexChar d) = true ∧ digitValue (hexChar d) = d := by
  have h : ∀ d < 16, isxdigit (hexChar d) = true ∧ digitValue (hexChar d) = d := by decide
  exact h d hd

/-- `%x` writes a size line. -/
theorem hexText_sizeLine (n : Nat) (hn : n ≤ UINT_MAX) :
    SizeLine (fun digits extension => digits.length ≤ 15 ∧ ChunkExt extension) (hexText n) n := by
  have hfits : n < 2 ^ 63 := by
    rw [UINT_MAX] at hn
    omega
  refine ⟨hfits, hexText n, [], by simp, ?_, ?_, ?_, by simp, ?_, by simp, by simp, by simp⟩
  · rw [hexText]
    split_ifs with h
    · simp
    · simp [Nat.digits_ne_nil_iff_ne_zero, h]
  · intro a ha
    rw [hexText] at ha
    split_ifs at ha with h
    · rw [List.mem_singleton.mp ha]
      rfl
    · obtain ⟨d, hd, rfl⟩ := List.mem_map.mp ha
      exact (hexChar_digit d (Nat.digits_lt_base (by omega) (List.mem_reverse.mp hd))).1
  · rw [hexText, hexValue]
    split_ifs with h
    · rw [h]
      rfl
    · rw [Numeral.value_digits 16 digitValue hexChar n (by omega) (fun d hd => (hexChar_digit d hd).2)]
  · rw [hexText]
    split_ifs with h
    · simp
    · rw [List.length_map, List.length_reverse]
      apply (Nat.digits_length_le_iff (by omega) n).mpr
      rw [UINT_MAX] at hn
      omega

/-- A chunk that is reported as sent has been sent as a chunk. Its length is not the
largest `unsigned int`, whose `(int)` value is the error code of `mg_write`. -/
theorem mgSendChunk_sent (out : Output) (chunk : List Byte) (hlen : chunk.length < UINT_MAX)
    (h : 0 ≤ (mgSendChunk out chunk).1) :
    (mgSendChunk out chunk).2.sent = out.sent ++ (hexText chunk.length ++ CRLF ++ chunk ++ CRLF) := by
  rw [mgSendChunk] at h ⊢
  dsimp only at h ⊢
  split_ifs at h ⊢ with h1 h2 h3
  · dsimp only at h
    omega
  · dsimp only at h
    omega
  · dsimp only at h
    omega
  · have hret := not_not.mp h2
    obtain ⟨o1, ho1⟩ : ∃ o1, o1 = (mgWrite out (hexText chunk.length ++ CRLF)).2 := ⟨_, rfl⟩
    rw [← ho1] at h3 hret ⊢
    have hchunk : (mgWrite o1 chunk).1 = chunk.length := by
      have hge := mgWrite_ge o1 chunk
      rw [hret, toInt32] at hge ⊢
      rw [UINT_MAX] at hlen
      split_ifs at hge ⊢ <;> omega
    rw [mgWrite_sent _ CRLF (not_not.mp h3), mgWrite_sent o1 chunk hchunk, ho1,
      mgWrite_sent out _ (not_not.mp h1)]
    simp

/-- Chunks that are all reported as sent, and the empty one that ends them, make a body. -/
theorem sendChunks_body (out out' : Output) (chunks : List (List Byte))
    (hchunks : ∀ c ∈ chunks, c ≠ [] ∧ c.length < UINT_MAX)
    (h : sendChunks out (chunks ++ [[]]) = some out') :
    ∃ s, out'.sent = out.sent ++ s ∧ SentBody 0 s chunks.flatten := by
  induction chunks generalizing out with
  | nil =>
    rw [List.nil_append, sendChunks] at h
    dsimp only at h
    split_ifs at h with hneg
    rw [sendChunks, Option.some.injEq] at h
    have hsent := mgSendChunk_sent out [] (by decide) (by omega)
    rw [h] at hsent
    refine ⟨_, hsent, ?_⟩
    rw [List.append_nil]
    exact ChunkedBody.last (hexText 0) CRLF (hexText_sizeLine 0 (by decide)) Trailer.done
  | cons c chunks ih =>
    obtain ⟨hne, hlen⟩ := hchunks c (by simp)
    rw [List.cons_append, sendChunks] at h
    dsimp only at h
    split_ifs at h with hneg
    obtain ⟨s, hs, hbody⟩ := ih _ (fun d hd => hchunks d (by simp [hd])) h
    have hsent := mgSendChunk_sent out c hlen (by omega)
    refine ⟨hexText c.length ++ CRLF ++ (c ++ CRLF ++ s), ?_, ?_⟩
    · rw [hs, hsent]
      simp
    · rw [List.flatten_cons]
      apply ChunkedBody.size (hexText c.length) _ _ c.length (hexText_sizeLine c.length hlen.le)
        (List.length_pos_of_ne_nil hne)
      exact ChunkedBody.data c s chunks.flatten hne hbody

/-- A chunked body is decoded exactly, however it is buffered and cut, and whatever the
lengths of the reads are; what is sent chunk by chunk is such a body. -/
theorem mgReads_exact :
    (∀ (conn : Conn) (s d rest : List Byte) (lens : Nat → Nat), conn.BodyStart → SentBody 0 s d →
      conn.unread = s ++ rest → (∀ i, 0 < lens i) →
      ∃ n, ReadsAll conn ((List.range (n + 1)).map lens) d rest s.length ∧
        (mgReads conn ((List.range (n + 1)).map lens)).2.consumedContent = s.length) ∧
    ∀ (out out' : Output) (chunks : List (List Byte)), (∀ c ∈ chunks, c ≠ [] ∧ c.length < UINT_MAX) →
      sendChunks out (chunks ++ [[]]) = some out' →
      ∃ s, out'.sent = out.sent ++ s ∧ SentBody 0 s chunks.flatten := by
  refine ⟨?_, fun out out' chunks => sendChunks_body out out' chunks⟩
  intro conn s d rest lens h hs hu hlens
  obtain ⟨n, hn⟩ := mgReads_complete conn 0 h.atChunk h.steady s d rest hs hu lens hlens
  refine ⟨n, hn, ?_⟩
  rw [hn.consumed, h.consumed, Nat.zero_add]

/-- An unthrottled connection to a client that takes four bytes at a time. -/
def slowOutput : Output where
  sends := List.replicate 8 (.accept 4)
  sent := []
  throttle := 0
  lastThrottleTime := 0
  lastThrottleBytes := 0
  numBytesSent := 0
  clock := []

theorem mgReads_exact_hello :
    (∃ n, ReadsAll (bodyConn (ascii "5;a=b\r\nhello\r\n0\r\nT: u\r\n\r\nGET"))
        ((List.range (n + 1)).map fun _ => 3) (ascii "hello") (ascii "GET") 25 ∧
      (mgReads (bodyConn (ascii "5;a=b\r\nhello\r\n0\r\nT: u\r\n\r\nGET"))
        ((List.range (n + 1)).map fun _ => 3)).2.consumedContent = 25) ∧
    ∃ s, ascii "5\r\nhello\r\n0\r\n\r\n" = [] ++ s ∧ SentBody 0 s (ascii "hello") := by
  constructor
  · apply mgReads_exact.1 (bodyConn (ascii "5;a=b\r\nhello\r\n0\r\nT: u\r\n\r\nGET"))
      (ascii "5;a=b\r\nhello\r\n0\r\nT: u\r\n\r\n") (ascii "hello") (ascii "GET") (fun _ => 3)
      (bodyConn_start _) _ rfl (by simp)
    apply ChunkedBody.size (ascii "5;a=b") (ascii "hello\r\n0\r\nT: u\r\n\r\n") _ 5
      ⟨by decide, ascii "5", ascii ";a=b", by decide, by decide, by decide, by decide, by decide,
        by decide, by decide, by decide⟩ (by decide)
    apply ChunkedBody.data (ascii "hello") (ascii "0\r\nT: u\r\n\r\n") [] (by decide)
    apply ChunkedBody.last (ascii "0") (ascii "T: u\r\n\r\n")
      ⟨by decide, ascii "0", [], by decide, by decide, by decide, by decide, by decide,
        by decide, by decide, by decide⟩
    exact Trailer.line (ascii "T: u") CRLF ⟨by decide, by decide⟩ Trailer.done
  · exact mgReads_exact.2 slowOutput
      ⟨List.replicate 2 (.accept 4), ascii "5\r\nhello\r\n0\r\n\r\n", 0, 0, 0, 15, []⟩
      [ascii "hello"] (by decide) (by decide +kernel)

/-- The network and the memory for `n` writes of any length, with the clock read at any time. -/
def TakesWrites : Nat → Output → Prop
  | 0, _ => True
  | n + 1, out =>
    (∀ buf : List Byte, buf.length ≤ INT_MAX →
      (mgWrite out buf).1 = buf.length ∧ TakesWrites n (mgWrite out buf).2) ∧
    TakesWrites n out.time.2

theorem takesWrites_pred (n : Nat) (out : Output) (h : TakesWrites (n + 1) out) :
    TakesWrites n out := by
  induction n generalizing out with
  | zero => trivial
  | succ n ih =>
    obtain ⟨hw, ht⟩ := h
    refine ⟨?_, ih _ ht⟩
    intro buf hbuf
    obtain ⟨hall, hrest⟩ := hw buf hbuf
    exact ⟨hall, ih _ hrest⟩

theorem takesWrites_le (m n : Nat) (out : Output) (hmn : m ≤ n) (h : TakesWrites n out) :
    TakesWrites m out := by
  induction n with
  | zero =>
    have hm : m = 0 := by omega
    rw [hm]
    exact h
  | succ n ih =>
    by_cases hm : m = n + 1
    · rw [hm]
      exact h
    · exact ih (by omega) (takesWrites_pred n out h)

/-- A network that takes every write whole. -/
theorem takesWrites_accepting (k m : Nat) (out : Output) (hk : k ≤ m) (ht : out.throttle = 0)
    (hs : out.sends = List.replicate m (.accept INT_MAX)) : TakesWrites k out := by
  induction k generalizing m out with
  | zero => trivial
  | succ k ih =>
    have htime : out.time.2.throttle = 0 ∧
        out.time.2.sends = List.replicate m (.accept INT_MAX) := by
      rw [Output.time]
      split <;> exact ⟨ht, hs⟩
    refine ⟨?_, ih m _ (by omega) htime.1 htime.2⟩
    intro buf hbuf
    obtain ⟨j, rfl⟩ : ∃ j, m = j + 1 := ⟨m - 1, by omega⟩
    cases buf with
    | nil =>
      have hw : mgWrite out [] = (0, out) := by
        have hzero : ¬ 0 < out.throttle := by omega
        simp [mgWrite, hzero, pushAll, pushLoop]
      rw [hw]
      exact ⟨rfl, ih (j + 1) _ (by omega) ht hs⟩
    | cons b buf =>
      have hsend : pushLoop out.sends (buf.length + 1) =
          ⟨buf.length + 1, 0, false, List.replicate j (.accept INT_MAX)⟩ := by
        have hle : buf.length + 1 ≤ INT_MAX := by simpa using hbuf
        rw [hs, List.replicate_succ, pushLoop, if_neg (by decide), if_pos hle]
      have hpos : 0 < ((buf.length + 1 : Nat) : Int) := by omega
      have hw : (mgWrite out (b :: buf)).1 = (b :: buf).length ∧
          (mgWrite out (b :: buf)).2.throttle = 0 ∧
          (mgWrite out (b :: buf)).2.sends = List.replicate j (.accept INT_MAX) := by
        rw [mgWrite, if_neg (by omega), if_neg (by omega), pushAll]
        simp only [List.length_cons, Int.toNat_natCast, hsend]
        rw [Bool.false_and, if_neg (by decide), if_pos hpos]
        exact ⟨rfl, ht, rfl⟩
      exact ⟨hw.1, ih j _ (by omega) hw.2.1 hw.2.2⟩

end CivetWeb
