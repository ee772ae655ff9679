import CivetWeb.Conn.Process
import CivetWeb.Static.Range

namespace CivetWeb

def FitsInt64 (n : Int) : Prop := -2 ^ 63 ≤ n ∧ n ≤ INT64_MAX

/-- What is done with the 64-bit counters of a body: a state they are in; a sum or difference;
`content_len` growing by bytes between the chunks, or by a chunk; the test of the keep-alive
decision whether an unread body is in the buffer; the sum of the discard behind it. -/
inductive Tally where
  | counters (consumedContent contentLen : Int)
  | sum (a b : Int)
  | difference (a b : Int)
  | framing (contentLen : Int) (amount : Nat)
  | chunk (contentLen : Int) (chunkSize : Nat)
  | decision (requestLen contentLen : Int) (dataLen : Nat)
  | discard (requestLen contentLen : Int)
  deriving DecidableEq, Repr

/-- The counters are in order, no result is beyond `int64_t`, a chunk counts with its size, and
a body that is found in the buffer is there. -/
def Tally.Sound : Tally → Prop
  | .counters consumedContent contentLen =>
    0 ≤ consumedContent ∧ consumedContent ≤ contentLen ∧ contentLen ≤ INT64_MAX
  | .sum a b => FitsInt64 (a + b)
  | .difference a b => FitsInt64 (a - b)
  | .framing contentLen amount => FitsInt64 (contentLen + amount)
  | .chunk contentLen chunkSize =>
    toInt64 chunkSize = chunkSize ∧ FitsInt64 (contentLen + toInt64 chunkSize)
  | .decision requestLen contentLen dataLen =>
    FitsInt64 (requestLen + contentLen) ∧
      (int64 (requestLen + contentLen) ≤ dataLen → requestLen + contentLen ≤ dataLen)
  | .discard requestLen contentLen => FitsInt64 (requestLen + contentLen)

/-- The 64-bit numbers that the client names leave room for what they are added to. -/
def Tally.SizesFit : Tally → Prop
  | .chunk contentLen chunkSize => contentLen + chunkSize ≤ INT64_MAX
  | .decision requestLen contentLen _ => requestLen + contentLen ≤ INT64_MAX
  | _ => True

/-- The bytes that the client sent do not fill a counter. -/
def Tally.BytesFit : Tally → Prop
  | .framing contentLen amount => contentLen + amount ≤ INT64_MAX
  | .discard requestLen contentLen => requestLen + contentLen ≤ INT64_MAX
  | _ => True

/-- `mg_read_inner`; where the source skips a sum, it is one with 0. -/
def mgReadInnerTallies (conn : Conn) (len : Nat) : List Tally :=
  let len64 := min len INT_MAX
  let contentLen := if conn.contentLen < 0 then INT64_MAX else conn.contentLen
  let consumed : Int := conn.consumedContent
  if consumed < contentLen then
    let leftToRead := contentLen - consumed
    let len64 := if leftToRead < len64 then leftToRead.toNat else len64
    let bufferedLen : Int := conn.dataLen - conn.requestLen - consumed
    let buffered := min len64 bufferedLen.toNat
    let n := ((pullAll conn.sock (len64 - buffered)).1.getD []).length
    [.difference contentLen consumed,
      .difference conn.dataLen conn.requestLen, .difference (conn.dataLen - conn.requestLen) consumed,
      .difference len64 buffered, .sum consumed buffered, .counters (consumed + buffered) conn.contentLen,
      .sum (consumed + buffered) n, .sum buffered n,
      .counters (consumed + buffered + n) conn.contentLen]
  else []

def readOneTallies (conn : Conn) : List Tally :=
  [.framing conn.contentLen 1, .counters conn.consumedContent (conn.contentLen + 1)] ++
    mgReadInnerTallies { conn with contentLen := conn.contentLen + 1 } 1

def skipExtensionTallies : Nat → Conn → List Tally
  | 0, _ => []
  | n + 1, conn =>
    readOneTallies conn ++
      match readOne conn with
      | (none, _) => []
      | (some b, conn) => if b = CR then [] else skipExtensionTallies n conn

def readLenCharTallies (lenbuf : List Byte) (conn : Conn) : List Tally :=
  readOneTallies conn ++
    (let (r, conn) := readOne conn
    if lenbuf ≠ [] ∧ r.getD NUL = SEMICOLON then skipExtensionTallies (conn.unread.length + 1) conn
    else [])

def readSizeLineTallies : Nat → List Byte → Conn → List Tally
  | 0, _, _ => []
  | n + 1, lenbuf, conn =>
    readLenCharTallies lenbuf conn ++
      (let (x, conn) := readLenChar lenbuf conn
      if lenbuf ≠ [] ∧ x = CR ∧ lenbuf.getLast? ≠ some CR then readSizeLineTallies n (lenbuf ++ [x]) conn
      else if 1 < lenbuf.length ∧ x = LF ∧ lenbuf.getLast? = some CR then []
      else if !isxdigit x then []
      else readSizeLineTallies n (lenbuf ++ [x]) conn)

def skipTrailerTallies : Nat → Nat → Conn → List Tally
  | 0, _, _ => []
  | n + 1, crlfCount, conn =>
    if 4 ≤ crlfCount ∨ conn.isChunked ≠ 3 then []
    else
      readOneTallies conn ++
        match readOne conn with
        | (none, conn) => skipTrailerTallies n crlfCount { conn with isChunked := 2 }
        | (some b, conn) =>
          if crlfCount = 0 ∨ crlfCount = 2 then
            if b = CR then skipTrailerTallies n (crlfCount + 1) conn else skipTrailerTallies n 0 conn
          else if b = LF then skipTrailerTallies n (crlfCount + 1) conn
          else skipTrailerTallies n crlfCount { conn with isChunked := 2 }

def fetchChunkTallies (conn : Conn) : List Tally :=
  readSizeLineTallies (lenbufSize - 1) [] conn ++
    match readSizeLine (lenbufSize - 1) [] conn with
    | (none, _) => []
    | (some chunkSize, conn) =>
      if conn.isChunked = 3 then skipTrailerTallies (conn.unread.length + 1) 2 conn
      else
        [.chunk conn.contentLen chunkSize,
          .counters conn.consumedContent (conn.contentLen + toInt64 chunkSize)]

def copyTurnTallies (conn : Conn) (len : Nat) : List Tally :=
  mgReadInnerTallies conn len ++
    match mgReadInner conn len with
    | (none, _) => []
    | (some bs, conn) =>
      if bs = [] then []
      else if (conn.consumedContent : Int) = conn.contentLen then
        [.framing conn.contentLen 2, .counters conn.consumedContent (conn.contentLen + 2)] ++
          mgReadInnerTallies { conn with contentLen := conn.contentLen + 2 } 2
      else []

def mgReadTurnTallies (conn : Conn) (len : Nat) : List Tally :=
  if 3 ≤ conn.isChunked then []
  else if conn.isChunked ≠ 1 then []
  else if (conn.consumedContent : Int) ≠ conn.contentLen then copyTurnTallies conn len
  else fetchChunkTallies conn

def mgReadLoopTallies : Nat → Conn → Nat → List Byte → List Tally
  | 0, _, _, _ => []
  | n + 1, conn, len, allRead =>
    if len = 0 then []
    else
      mgReadTurnTallies conn len ++
        match mgReadTurn conn len allRead with
        | .stop _ _ => []
        | .again conn len allRead => mgReadLoopTallies n conn len allRead

def mgReadTallies (conn : Conn) (len : Nat) : List Tally :=
  let len := min len INT_MAX
  if conn.isChunked ≠ 0 then mgReadLoopTallies (conn.unread.length + 1) conn len [] else mgReadInnerTallies conn len

def Handler.tallies : Handler → Conn → List Tally
  | .done _, _ => []
  | .read len next, conn =>
    mgReadTallies conn len ++ (next (mgRead conn len).1).tallies (mgRead conn len).2

/-- The counters of a connection on a request whose head is in the buffer. -/
structure Conn.Accounted (conn : Conn) : Prop where
  head_nonneg : 0 ≤ conn.requestLen
  head_le : conn.requestLen ≤ conn.dataLen
  data_le : conn.dataLen ≤ INT_MAX
  consumed_le : conn.consumedContent ≤ conn.contentLen
  content_le : conn.contentLen ≤ INT64_MAX

theorem Conn.Accounted.counters (conn : Conn) (h : conn.Accounted) :
    (Tally.counters conn.consumedContent conn.contentLen).Sound :=
  ⟨by omega, h.consumed_le, h.content_le⟩

/-- Where all numbers fit, the steps `ts` from `conn` to `c` are sound and keep the account. -/
def Accounts (conn : Conn) (ts : List Tally) (c : Conn) : Prop :=
  conn.Accounted → (∀ t ∈ ts, t.SizesFit ∧ t.BytesFit) → (∀ t ∈ ts, t.Sound) ∧ c.Accounted

theorem Accounts.refl (conn : Conn) : Accounts conn [] conn := fun h _ => ⟨by simp, h⟩

theorem Accounts.trans (c1 c2 c3 : Conn) (ts us : List Tally) (h : Accounts c1 ts c2)
    (h' : Accounts c2 us c3) : Accounts c1 (ts ++ us) c3 := by
  intro hacc hfit
  obtain ⟨hts, hmid⟩ := h hacc (fun t ht => hfit t (List.mem_append_left us ht))
  obtain ⟨hus, hend⟩ := h' hmid (fun t ht => hfit t (List.mem_append_right ts ht))
  refine ⟨?_, hend⟩
  intro t ht
  rcases List.mem_append.mp ht with ht | ht
  · exact hts t ht
  · exact hus t ht

theorem Accounts.isChunked (conn c : Conn) (ts : List Tally) (n : Nat) (h : Accounts conn ts c) :
    Accounts conn ts { c with isChunked := n } := by
  intro hacc hfit
  obtain ⟨hts, hc⟩ := h hacc hfit
  exact ⟨hts, hc.1, hc.2, hc.3, hc.4, hc.5⟩

/-- The bytes that a read takes from the buffer, and those that it takes from the socket. -/
def bufferedPart (conn : Conn) (len : Nat) : Nat :=
  min (wanted conn len) ((conn.dataLen : Int) - conn.requestLen - conn.consumedContent).toNat

def socketPart (conn : Conn) (len : Nat) : List Byte :=
  (pullAll conn.sock (wanted conn len - bufferedPart conn len)).1.getD []

theorem wanted_clipped (conn : Conn) (len : Nat) (total : Int)
    (htotal : total = if conn.contentLen < 0 then INT64_MAX else conn.contentLen)
    (hmore : (conn.consumedContent : Int) < total) :
    (if total - conn.consumedContent < ((min len INT_MAX : Nat) : Int)
      then (total - conn.consumedContent).toNat else min len INT_MAX) = wanted conn len := by
  rw [wanted, ← htotal]
  split_ifs with hc <;> omega

/-- A read returns the two parts, and counts them as consumed. -/
theorem mgReadInner_counts (conn : Conn) (len : Nat) :
    (mgReadInner conn len).1.getD [] =
        (conn.buf.drop (conn.requestLen + conn.consumedContent).toNat).take (bufferedPart conn len) ++
          socketPart conn len ∧
      (mgReadInner conn len).2 = { conn with
        consumedContent := conn.consumedContent + bufferedPart conn len + (socketPart conn len).length
        sock := (pullAll conn.sock (wanted conn len - bufferedPart conn len)).2 } := by
  obtain ⟨total, htotal⟩ : ∃ t : Int, t = if conn.contentLen < 0 then INT64_MAX else conn.contentLen :=
    ⟨_, rfl⟩
  unfold mgReadInner
  simp only [← htotal]
  by_cases hmore : (conn.consumedContent : Int) < total
  · rw [if_pos hmore, wanted_clipped conn len total htotal hmore]
    rw [show min (wanted conn len) ((conn.dataLen : Int) - conn.requestLen - conn.consumedContent).toNat =
      bufferedPart conn len from rfl, socketPart]
    cases (pullAll conn.sock (wanted conn len - bufferedPart conn len)) with
    | mk n sock =>
      cases n with
      | some bs => exact ⟨rfl, rfl⟩
      | none =>
        refine ⟨?_, rfl⟩
        dsimp only
        split_ifs with hpart
        · simp
        · rw [Nat.eq_zero_of_not_pos hpart]
          simp
  · rw [if_neg hmore]
    have hnone : wanted conn len = 0 := by
      rw [wanted, ← htotal]
      omega
    have hzero : bufferedPart conn len = 0 := by rw [bufferedPart, hnone, Nat.zero_min]
    have hpull : pullAll conn.sock 0 = (some [], conn.sock) := by
      cases conn.sock <;> rfl
    rw [socketPart, hnone, hzero, hpull]
    exact ⟨by simp, rfl⟩

theorem wanted_le (conn : Conn) (len : Nat) (h : conn.Accounted) :
    (conn.consumedContent : Int) + wanted conn len ≤ conn.contentLen ∧ wanted conn len ≤ INT_MAX := by
  have hle := h.consumed_le
  rw [wanted, if_neg (by omega)]
  omega

theorem socketPart_le (conn : Conn) (len : Nat) :
    bufferedPart conn len + (socketPart conn len).length ≤ wanted conn len := by
  have hpart : bufferedPart conn len ≤ wanted conn len := min_le_left _ _
  have hpull := (pullLoop_split conn.sock (wanted conn len - bufferedPart conn len)).2
  have hsome : (socketPart conn len).length ≤
      (pullLoop conn.sock (wanted conn len - bufferedPart conn len)).bytes.length := by
    rw [socketPart, pullAll]
    dsimp only
    split_ifs
    · simp
    · simp
  omega

/-- A read moves the counters in its bounds. -/
theorem mgReadInner_accounts (conn : Conn) (len : Nat) :
    Accounts conn (mgReadInnerTallies conn len) (mgReadInner conn len).2 := by
  intro hacc hfit
  obtain ⟨hwanted, hint⟩ := wanted_le conn len hacc
  have hparts := socketPart_le conn len
  have hcounted := (mgReadInner_counts conn len).2
  have hle := hacc.consumed_le
  have hmax := hacc.content_le
  have hhead := hacc.head_nonneg
  have hdata := hacc.data_le
  have hheadle := hacc.head_le
  refine ⟨?_, ?_⟩
  · obtain ⟨total, htotal⟩ : ∃ t : Int, t = if conn.contentLen < 0 then INT64_MAX else conn.contentLen :=
      ⟨_, rfl⟩
    obtain rfl : total = conn.contentLen := by
      rw [htotal, if_neg (by omega)]
    unfold mgReadInnerTallies
    simp only [← htotal]
    by_cases hmore : (conn.consumedContent : Int) < conn.contentLen
    · rw [if_pos hmore, wanted_clipped conn len _ htotal hmore]
      rw [show min (wanted conn len) ((conn.dataLen : Int) - conn.requestLen - conn.consumedContent).toNat =
        bufferedPart conn len from rfl, ← socketPart]
      simp only [List.forall_mem_cons, Tally.Sound, FitsInt64]
      simp only [INT64_MAX, INT_MAX] at *
      refine ⟨?_, ?_, ?_, ?_, ?_, ?_, ?_, ?_, ?_, by simp⟩ <;> omega
    · rw [if_neg hmore]
      simp
  · rw [hcounted]
    refine ⟨hhead, hheadle, hdata, ?_, hmax⟩
    push_cast
    omega

/-- A growth of `content_len` that fits keeps the account. -/
theorem Conn.Accounted.grow (conn : Conn) (amount : Nat) (h : conn.Accounted)
    (hfit : conn.contentLen + amount ≤ INT64_MAX) :
    Conn.Accounted { conn with contentLen := conn.contentLen + amount } := by
  have hle := h.consumed_le
  refine ⟨h.head_nonneg, h.head_le, h.data_le, ?_, hfit⟩
  show (conn.consumedContent : Int) ≤ conn.contentLen + amount
  omega

theorem framing_accounts (conn : Conn) (amount : Nat) :
    Accounts conn [.framing conn.contentLen amount,
        .counters conn.consumedContent (conn.contentLen + amount)]
      { conn with contentLen := conn.contentLen + amount } := by
  intro hacc hfit
  have hroom : conn.contentLen + amount ≤ INT64_MAX := (hfit _ (List.mem_cons_self)).2
  have hgrown := hacc.grow conn amount hroom
  have hle := hacc.consumed_le
  refine ⟨?_, hgrown⟩
  simp only [List.forall_mem_cons]
  refine ⟨⟨?_, hroom⟩, hgrown.counters, by simp⟩
  omega

theorem chunk_accounts (conn : Conn) (chunkSize : Nat) :
    Accounts conn [.chunk conn.contentLen chunkSize,
        .counters conn.consumedContent (conn.contentLen + toInt64 chunkSize)]
      { conn with contentLen := conn.contentLen + toInt64 chunkSize } := by
  intro hacc hfit
  have hroom : conn.contentLen + chunkSize ≤ INT64_MAX := (hfit _ (List.mem_cons_self)).1
  have hle := hacc.consumed_le
  have hsize : toInt64 chunkSize = chunkSize := by
    rw [toInt64, if_pos]
    rw [INT64_MAX] at hroom
    omega
  have hgrown := hacc.grow conn chunkSize hroom
  rw [hsize]
  refine ⟨?_, hgrown⟩
  simp only [List.forall_mem_cons]
  refine ⟨⟨hsize, ?_, ?_⟩, hgrown.counters, by simp⟩
  · rw [hsize]
    omega
  · rw [hsize]
    exact hroom

theorem readOne_accounts (conn : Conn) : Accounts conn (readOneTallies conn) (readOne conn).2 :=
  (framing_accounts conn 1).trans _ _ _ _ _ (mgReadInner_accounts _ 1)

theorem skipExtension_accounts (n : Nat) (x : Byte) (conn : Conn) :
    Accounts conn (skipExtensionTallies n conn) (skipExtension n x conn).2 := by
  induction n generalizing x conn with
  | zero => exact Accounts.refl conn
  | succ n ih =>
    have hone := readOne_accounts conn
    unfold skipExtensionTallies skipExtension
    cases hr : readOne conn with
    | mk r c =>
      rw [hr] at hone
      cases r with
      | none => exact hone.trans _ _ _ _ _ (Accounts.refl c)
      | some b =>
        dsimp only
        split_ifs
        · exact hone.trans _ _ _ _ _ (Accounts.refl c)
        · exact hone.trans _ _ _ _ _ (ih b c)

theorem readLenChar_accounts (lenbuf : List Byte) (conn : Conn) :
    Accounts conn (readLenCharTallies lenbuf conn) (readLenChar lenbuf conn).2 := by
  have hone := readOne_accounts conn
  unfold readLenCharTallies readLenChar
  cases hr : readOne conn with
  | mk r c =>
    rw [hr] at hone
    dsimp only
    split_ifs
    · exact hone.trans _ _ _ _ _ (skipExtension_accounts _ _ c)
    · exact hone.trans _ _ _ _ _ (Accounts.refl c)

theorem readSizeLine_accounts (n : Nat) (lenbuf : List Byte) (conn : Conn) :
    Accounts conn (readSizeLineTallies n lenbuf conn) (readSizeLine n lenbuf conn).2 := by
  induction n generalizing lenbuf conn with
  | zero => exact (Accounts.refl conn).isChunked _ _ _ 2
  | succ n ih =>
    have hchar := readLenChar_accounts lenbuf conn
    unfold readSizeLineTallies readSizeLine
    cases hr : readLenChar lenbuf conn with
    | mk x c =>
      rw [hr] at hchar
      have hstay := Accounts.refl c
      dsimp only
      split_ifs
      · exact hchar.trans _ _ _ _ _ (ih _ c)
      · exact hchar.trans _ _ _ _ _ ((hstay.isChunked _ _ _ 3).isChunked _ _ _ 2)
      · exact hchar.trans _ _ _ _ _ (hstay.isChunked _ _ _ 2)
      · exact hchar.trans _ _ _ _ _ (hstay.isChunked _ _ _ 3)
      · exact hchar.trans _ _ _ _ _ hstay
      · exact hchar.trans _ _ _ _ _ (hstay.isChunked _ _ _ 2)
      · exact hchar.trans _ _ _ _ _ (ih _ c)

theorem skipTrailer_accounts (n k : Nat) (conn : Conn) :
    Accounts conn (skipTrailerTallies n k conn) (skipTrailer n k conn) := by
  induction n generalizing k conn with
  | zero => exact Accounts.refl conn
  | succ n ih =>
    have hone := readOne_accounts conn
    unfold skipTrailerTallies skipTrailer
    by_cases hstop : 4 ≤ k ∨ conn.isChunked ≠ 3
    · rw [if_pos hstop, if_pos hstop]
      exact Accounts.refl conn
    rw [if_neg hstop, if_neg hstop]
    cases hr : readOne conn with
    | mk r c =>
      rw [hr] at hone
      have hbad := hone.isChunked _ _ _ 2
      cases r with
      | none => exact hbad.trans _ _ _ _ _ (ih _ _)
      | some b =>
        dsimp only
        split_ifs
        · exact hone.trans _ _ _ _ _ (ih _ c)
        · exact hone.trans _ _ _ _ _ (ih _ c)
        · exact hone.trans _ _ _ _ _ (ih _ c)
        · exact hbad.trans _ _ _ _ _ (ih _ _)

theorem fetchChunk_accounts (conn : Conn) :
    Accounts conn (fetchChunkTallies conn) (fetchChunk conn).2 := by
  have hline := readSizeLine_accounts (lenbufSize - 1) [] conn
  unfold fetchChunkTallies fetchChunk
  cases hr : readSizeLine (lenbufSize - 1) [] conn with
  | mk r c =>
    rw [hr] at hline
    cases r with
    | none => exact hline.trans _ _ _ _ _ (Accounts.refl c)
    | some chunkSize =>
      have htrailer := skipTrailer_accounts (c.unread.length + 1) 2 c
      dsimp only
      split_ifs
      · exact hline.trans _ _ _ _ _ htrailer
      · exact hline.trans _ _ _ _ _ (htrailer.isChunked _ _ _ 4)
      · exact hline.trans _ _ _ _ _ (chunk_accounts c chunkSize)

theorem copyTurn_accounts (conn : Conn) (len : Nat) (allRead : List Byte) :
    Accounts conn (copyTurnTallies conn len) (copyTurn conn len allRead).conn := by
  have hread := mgReadInner_accounts conn len
  unfold copyTurnTallies copyTurn
  cases hr : mgReadInner conn len with
  | mk r c =>
    rw [hr] at hread
    have hstay := hread.trans _ _ _ _ _ (Accounts.refl c)
    cases r with
    | none => exact hstay.isChunked _ _ _ 2
    | some bs =>
      dsimp only
      by_cases hnil : bs = []
      · rw [if_pos hnil, if_pos hnil]
        exact hstay.isChunked _ _ _ 2
      rw [if_neg hnil, if_neg hnil]
      by_cases hfull : (c.consumedContent : Int) = c.contentLen
      · rw [if_pos hfull, if_pos hfull]
        have hlast : Accounts c ([Tally.framing c.contentLen 2,
              Tally.counters c.consumedContent (c.contentLen + 2)] ++
              mgReadInnerTallies { c with contentLen := c.contentLen + 2 } 2)
            (mgReadInner { c with contentLen := c.contentLen + 2 } 2).2 :=
          (framing_accounts c 2).trans _ _ _ _ _ (mgReadInner_accounts _ 2)
        cases hx : mgReadInner { c with contentLen := c.contentLen + 2 } 2 with
        | mk x c2 =>
          rw [hx] at hlast
          dsimp only
          split_ifs
          · exact hread.trans _ _ _ _ _ (hlast.isChunked _ _ _ 2)
          · exact hread.trans _ _ _ _ _ hlast
      · rw [if_neg hfull, if_neg hfull]
        exact hstay

theorem mgReadTurn_accounts (conn : Conn) (len : Nat) (allRead : List Byte) :
    Accounts conn (mgReadTurnTallies conn len) (mgReadTurn conn len allRead).conn := by
  unfold mgReadTurnTallies mgReadTurn
  split_ifs
  · exact Accounts.refl conn
  · exact Accounts.refl conn
  · exact copyTurn_accounts conn len allRead
  · have hfetch := fetchChunk_accounts conn
    cases hr : fetchChunk conn with
    | mk f c =>
      rw [hr] at hfetch
      cases f with
      | failed => exact hfetch
      | last => exact hfetch
      | chunk => exact hfetch

theorem mgReadLoop_accounts (n : Nat) (conn : Conn) (len : Nat) (allRead : List Byte) :
    Accounts conn (mgReadLoopTallies n conn len allRead) (mgReadLoop n conn len allRead).2 := by
  induction n generalizing conn len allRead with
  | zero => exact Accounts.refl conn
  | succ n ih =>
    have hturn := mgReadTurn_accounts conn len allRead
    unfold mgReadLoopTallies mgReadLoop
    split_ifs
    · exact Accounts.refl conn
    cases ht : mgReadTurn conn len allRead with
    | stop r c =>
      rw [ht] at hturn
      exact hturn.trans _ _ _ _ _ (Accounts.refl c)
    | again c len allRead =>
      rw [ht] at hturn
      exact hturn.trans _ _ _ _ _ (ih c len allRead)

theorem mgRead_accounts (conn : Conn) (len : Nat) :
    Accounts conn (mgReadTallies conn len) (mgRead conn len).2 := by
  unfold mgReadTallies mgRead
  dsimp only
  split_ifs
  · exact mgReadLoop_accounts _ conn _ _
  · exact mgReadInner_accounts conn _

/-- A whole handler keeps the account, whatever lengths it reads with. -/
theorem handler_accounts (handler : Handler) (conn : Conn) :
    Accounts conn (handler.tallies conn) (handler.run conn).2 := by
  induction handler generalizing conn with
  | done mustClose => exact fun h _ => ⟨by simp [Handler.tallies], h.1, h.2, h.3, h.4, h.5⟩
  | read len next ih => exact (mgRead_accounts conn len).trans _ _ _ _ _ (ih _ _)

end CivetWeb
