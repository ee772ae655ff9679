import CivetWeb.Conn.Tallies

namespace CivetWeb

/-- Of a request no more than `size` bytes are consumed or at hand. -/
structure Conn.Within (conn : Conn) (size : Nat) : Prop where
  head_nonneg : 0 ≤ conn.requestLen
  bytes : conn.requestLen + conn.consumedContent +
    ((conn.dataLen : Int) - conn.requestLen - conn.consumedContent).toNat +
    (sockBytes conn.sock).length ≤ size

/-- Between the chunks: `content_len` is ahead of what is consumed by the reads that failed. -/
structure Conn.Ahead (conn : Conn) (size slack : Nat) : Prop where
  within : conn.Within size
  ahead : conn.contentLen ≤ conn.consumedContent + slack
  open_body : conn.isChunked ≠ 4

/-- Behind the trailer nothing but failed reads lies between the counters. -/
structure Conn.Spent (conn : Conn) (size : Nat) : Prop where
  within : conn.Within size
  ended : conn.isChunked = 4 → conn.contentLen ≤ conn.consumedContent + lenbufSize

theorem Conn.Within.consumed_le (conn : Conn) (size : Nat) (h : conn.Within size) :
    conn.requestLen + conn.consumedContent ≤ size ∧ conn.consumedContent ≤ size := by
  have hhead := h.head_nonneg
  have hbytes := h.bytes
  omega

theorem Conn.Ahead.spent (conn : Conn) (size slack : Nat) (h : conn.Ahead size slack) :
    conn.Spent size := ⟨h.within, fun h4 => absurd h4 h.open_body⟩

theorem Conn.Ahead.mono (conn : Conn) (size k m : Nat) (h : conn.Ahead size k) (hkm : k ≤ m) :
    conn.Ahead size m := by
  have := h.ahead
  exact ⟨h.within, by omega, h.open_body⟩

theorem Conn.Ahead.isChunked (conn : Conn) (size k n : Nat) (h : conn.Ahead size k) (hn : n ≠ 4) :
    Conn.Ahead { conn with isChunked := n } size k :=
  ⟨⟨h.within.head_nonneg, h.within.bytes⟩, h.ahead, hn⟩

theorem mgReadInner_within (conn : Conn) (len size : Nat) (h : conn.Within size) :
    (mgReadInner conn len).2.Within size := by
  have hhead := h.head_nonneg
  have hbytes := h.bytes
  obtain ⟨k, hk⟩ : ∃ k, k = wanted conn len - bufferedPart conn len := ⟨_, rfl⟩
  have hpart : bufferedPart conn len ≤
      ((conn.dataLen : Int) - conn.requestLen - conn.consumedContent).toNat := min_le_right _ _
  have hsplit := congrArg List.length (pullLoop_split conn.sock k).1
  rw [List.length_append] at hsplit
  have hsocket : (socketPart conn len).length ≤ (pullLoop conn.sock k).bytes.length := by
    rw [socketPart, ← hk, pullAll]
    dsimp only
    split_ifs
    · simp
    · simp
  rw [(mgReadInner_counts conn len).2, ← hk]
  refine ⟨hhead, ?_⟩
  show conn.requestLen +
      ((conn.consumedContent + bufferedPart conn len + (socketPart conn len).length : Nat) : Int) +
      ((conn.dataLen : Int) - conn.requestLen -
        ((conn.consumedContent + bufferedPart conn len + (socketPart conn len).length : Nat) : Int)).toNat +
      (sockBytes (pullLoop conn.sock k).sock).length ≤ size
  omega

theorem mgReadInner_spent (conn : Conn) (len size : Nat) (h : conn.Spent size) :
    (mgReadInner conn len).2.Spent size := by
  refine ⟨mgReadInner_within conn len size h.within, ?_⟩
  rw [(mgReadInner_counts conn len).2]
  intro h4
  have hended := h.ended h4
  show conn.contentLen ≤
    ((conn.consumedContent + bufferedPart conn len + (socketPart conn len).length : Nat) : Int) + lenbufSize
  omega

theorem mgReadInner_bytesFit (conn : Conn) (len : Nat) :
    ∀ t ∈ mgReadInnerTallies conn len, t.BytesFit := by
  unfold mgReadInnerTallies
  dsimp only
  generalize (if conn.contentLen < 0 then INT64_MAX else conn.contentLen) = total
  by_cases hmore : (conn.consumedContent : Int) < total
  · rw [if_pos hmore]
    simp only [List.forall_mem_cons]
    exact ⟨trivial, trivial, trivial, trivial, trivial, trivial, trivial, trivial, trivial, by simp⟩
  · rw [if_neg hmore]
    simp

theorem readOne_ahead (conn : Conn) (size k : Nat) (h : conn.Ahead size k)
    (hroom : size + k + 1 ≤ INT64_MAX) :
    (∀ t ∈ readOneTallies conn, t.BytesFit) ∧ (readOne conn).2.Ahead size (k + 1) ∧
      ((readOne conn).1 ≠ none → (readOne conn).2.Ahead size k) := by
  have hconsumed := h.within.consumed_le
  have hahead := h.ahead
  obtain ⟨c, hc⟩ : ∃ c : Conn, c = { conn with contentLen := conn.contentLen + 1 } := ⟨_, rfl⟩
  have hwithin : (mgReadInner c 1).2.Within size := by
    apply mgReadInner_within
    rw [hc]
    exact ⟨h.within.head_nonneg, h.within.bytes⟩
  obtain ⟨hres, hcounted⟩ := mgReadInner_counts c 1
  obtain ⟨part, hpart⟩ : ∃ part, part = bufferedPart c 1 + (socketPart c 1).length := ⟨_, rfl⟩
  have hcount : (mgReadInner c 1).2.consumedContent = conn.consumedContent + part := by
    rw [hcounted, hpart, hc]
    exact Nat.add_assoc _ _ _
  have hlen : (mgReadInner c 1).2.contentLen = conn.contentLen + 1 := by rw [hcounted, hc]
  have hchunked : (mgReadInner c 1).2.isChunked ≠ 4 := by
    rw [hcounted, hc]
    exact h.open_body
  have hone : readOne conn = ((mgReadInner c 1).1.bind List.head?, (mgReadInner c 1).2) := by
    rw [hc]
    rfl
  rw [hone]
  refine ⟨?_, ⟨hwithin, ?_, hchunked⟩, ?_⟩
  · simp only [readOneTallies, List.mem_append, List.mem_cons, List.not_mem_nil, or_false]
    rintro t ((rfl | rfl) | ht)
    · show conn.contentLen + 1 ≤ INT64_MAX
      omega
    · trivial
    · exact mgReadInner_bytesFit _ 1 t ht
  · dsimp only
    rw [hlen, hcount]
    push_cast
    omega
  · intro hsome
    have hpos : 0 < part := by
      by_contra hzero
      apply hsome
      have hlength := congrArg List.length hres
      rw [List.length_append, List.length_take] at hlength
      cases hr : (mgReadInner c 1).1 with
      | none => rfl
      | some bs =>
        rw [hr, Option.getD_some] at hlength
        obtain rfl : bs = [] := List.eq_nil_of_length_eq_zero (by omega)
        rfl
    refine ⟨hwithin, ?_, hchunked⟩
    dsimp only
    rw [hlen, hcount]
    push_cast
    omega

theorem skipExtension_ahead (n : Nat) (x : Byte) (conn : Conn) (size k : Nat)
    (h : conn.Ahead size k) (hroom : size + k + 1 ≤ INT64_MAX) :
    (∀ t ∈ skipExtensionTallies n conn, t.BytesFit) ∧ (skipExtension n x conn).2.Ahead size (k + 1) := by
  induction n generalizing x conn with
  | zero => exact ⟨by simp [skipExtensionTallies], h.mono _ _ k (k + 1) (by omega)⟩
  | succ n ih =>
    obtain ⟨hfit, hnext, hsome⟩ := readOne_ahead conn size k h hroom
    unfold skipExtensionTallies skipExtension
    cases hr : readOne conn with
    | mk r c =>
      rw [hr] at hnext hsome
      cases r with
      | none => exact ⟨by simpa using hfit, hnext⟩
      | some b =>
        dsimp only
        split_ifs
        · exact ⟨by simpa using hfit, hnext⟩
        · obtain ⟨hrest, hend⟩ := ih b c (hsome (by simp))
          refine ⟨?_, hend⟩
          rw [List.forall_mem_append]
          exact ⟨hfit, hrest⟩

theorem readLenChar_ahead (lenbuf : List Byte) (conn : Conn) (size k : Nat) (h : conn.Ahead size k)
    (hroom : size + k + 1 ≤ INT64_MAX) :
    (∀ t ∈ readLenCharTallies lenbuf conn, t.BytesFit) ∧
      (readLenChar lenbuf conn).2.Ahead size (k + 1) := by
  obtain ⟨hfit, hnext, hsome⟩ := readOne_ahead conn size k h hroom
  unfold readLenCharTallies readLenChar
  cases hr : readOne conn with
  | mk r c =>
    rw [hr] at hnext hsome
    dsimp only
    by_cases hext : lenbuf ≠ [] ∧ r.getD NUL = SEMICOLON
    · rw [if_pos hext, if_pos hext]
      have hread : r ≠ none := by
        rintro rfl
        exact absurd hext.2 (by decide)
      obtain ⟨hrest, hend⟩ := skipExtension_ahead (c.unread.length + 1) (r.getD NUL) c size k
        (hsome hread) hroom
      refine ⟨?_, hend⟩
      rw [List.forall_mem_append]
      exact ⟨hfit, hrest⟩
    · rw [if_neg hext, if_neg hext]
      exact ⟨by simpa using hfit, hnext⟩

/-- Each of the `n` turns over the size line can fail to read once. -/
theorem readSizeLine_ahead (n : Nat) (lenbuf : List Byte) (conn : Conn) (size k : Nat)
    (h : conn.Ahead size k) (hroom : size + k + n ≤ INT64_MAX) :
    (∀ t ∈ readSizeLineTallies n lenbuf conn, t.BytesFit) ∧
      (readSizeLine n lenbuf conn).2.Ahead size (k + n) := by
  induction n generalizing lenbuf conn k with
  | zero => exact ⟨by simp [readSizeLineTallies], h.isChunked _ _ _ 2 (by decide)⟩
  | succ n ih =>
    push_cast at hroom
    obtain ⟨hfit, hnext⟩ := readLenChar_ahead lenbuf conn size k h (by omega)
    unfold readSizeLineTallies readSizeLine
    cases hr : readLenChar lenbuf conn with
    | mk x c =>
      rw [hr] at hnext
      have hstay : c.Ahead size (k + (n + 1)) := hnext.mono _ _ _ _ (by omega)
      have hstop : ∀ t ∈ readLenCharTallies lenbuf conn ++ [], t.BytesFit := by simpa using hfit
      obtain ⟨hrest, hend⟩ := ih (lenbuf ++ [x]) c (k + 1) hnext (by push_cast; omega)
      have hmore : ∀ t ∈ readLenCharTallies lenbuf conn ++ readSizeLineTallies n (lenbuf ++ [x]) c,
          t.BytesFit := by
        rw [List.forall_mem_append]
        exact ⟨hfit, hrest⟩
      rw [Nat.add_right_comm k 1 n, Nat.add_assoc] at hend
      dsimp only
      split_ifs
      · exact ⟨hmore, hend⟩
      · exact ⟨hstop, (hstay.isChunked _ _ _ 3 (by decide)).isChunked _ _ _ 2 (by decide)⟩
      · exact ⟨hstop, hstay.isChunked _ _ _ 2 (by decide)⟩
      · exact ⟨hstop, hstay.isChunked _ _ _ 3 (by decide)⟩
      · exact ⟨hstop, hstay⟩
      · exact ⟨hstop, hstay.isChunked _ _ _ 2 (by decide)⟩
      · exact ⟨hmore, hend⟩

theorem skipTrailerTallies_stop (n k : Nat) (conn : Conn) (h : 4 ≤ k ∨ conn.isChunked ≠ 3) :
    skipTrailerTallies n k conn = [] := by
  cases n with
  | zero => rfl
  | succ n => rw [skipTrailerTallies, if_pos h]

/-- The trailer ends with the first read that fails. -/
theorem skipTrailer_ahead (n crlfCount : Nat) (conn : Conn) (size k : Nat) (h : conn.Ahead size k)
    (hroom : size + k + 1 ≤ INT64_MAX) :
    (∀ t ∈ skipTrailerTallies n crlfCount conn, t.BytesFit) ∧
      (skipTrailer n crlfCount conn).Ahead size (k + 1) := by
  induction n generalizing crlfCount conn with
  | zero => exact ⟨by simp [skipTrailerTallies], h.mono _ _ k (k + 1) (by omega)⟩
  | succ n ih =>
    by_cases hstop : 4 ≤ crlfCount ∨ conn.isChunked ≠ 3
    · rw [skipTrailerTallies_stop _ _ _ hstop, skipTrailer_stop _ _ _ hstop]
      exact ⟨by simp, h.mono _ _ k (k + 1) (by omega)⟩
    obtain ⟨hfit, hnext, hsome⟩ := readOne_ahead conn size k h hroom
    unfold skipTrailerTallies skipTrailer
    rw [if_neg hstop, if_neg hstop]
    cases hr : readOne conn with
    | mk r c =>
      rw [hr] at hnext hsome
      cases r with
      | none =>
        have hbad : 4 ≤ crlfCount ∨ Conn.isChunked { c with isChunked := 2 } ≠ 3 := Or.inr (by simp)
        dsimp only
        rw [skipTrailerTallies_stop _ _ _ hbad, skipTrailer_stop _ _ _ hbad]
        exact ⟨by simpa using hfit, hnext.isChunked _ _ _ 2 (by decide)⟩
      | some b =>
        have hgo := hsome (by simp)
        have hmore (m : Nat) (c' : Conn) (hc : c'.Ahead size k) :
            (∀ t ∈ readOneTallies conn ++ skipTrailerTallies n m c', t.BytesFit) ∧
              (skipTrailer n m c').Ahead size (k + 1) := by
          obtain ⟨hrest, hend⟩ := ih m c' hc
          refine ⟨?_, hend⟩
          rw [List.forall_mem_append]
          exact ⟨hfit, hrest⟩
        dsimp only
        split_ifs
        · exact hmore _ c hgo
        · exact hmore _ c hgo
        · exact hmore _ c hgo
        · exact hmore _ _ (hgo.isChunked _ _ _ 2 (by decide))

/-- `lenbuf` bounds the failed reads of a size line, and the trailer adds one. -/
theorem fetchChunk_spent (conn : Conn) (size : Nat) (h : conn.Within size) (hch : conn.isChunked ≠ 4)
    (hline : (conn.consumedContent : Int) = conn.contentLen)
    (hroom : size + lenbufSize ≤ INT64_MAX) :
    (∀ t ∈ fetchChunkTallies conn, t.BytesFit) ∧ (fetchChunk conn).2.Spent size := by
  have hstart : conn.Ahead size 0 := ⟨h, by omega, hch⟩
  rw [lenbufSize] at hroom
  push_cast at hroom
  obtain ⟨hfit, hnext⟩ := readSizeLine_ahead (lenbufSize - 1) [] conn size 0 hstart
    (by rw [lenbufSize]; push_cast; omega)
  unfold fetchChunkTallies fetchChunk
  cases hr : readSizeLine (lenbufSize - 1) [] conn with
  | mk r c =>
    rw [hr] at hnext
    cases r with
    | none => exact ⟨by simpa using hfit, hnext.spent⟩
    | some chunkSize =>
      obtain ⟨hrest, hend⟩ := skipTrailer_ahead (c.unread.length + 1) 2 c size _ hnext
        (by rw [lenbufSize]; push_cast; omega)
      dsimp only
      split_ifs
      · refine ⟨?_, hend.spent⟩
        rw [List.forall_mem_append]
        exact ⟨hfit, hrest⟩
      · refine ⟨?_, ⟨hend.within.head_nonneg, hend.within.bytes⟩, fun _ => hend.ahead⟩
        rw [List.forall_mem_append]
        exact ⟨hfit, hrest⟩
      · refine ⟨?_, ⟨hnext.within.head_nonneg, hnext.within.bytes⟩, fun h4 => absurd h4 hnext.open_body⟩
        rw [List.forall_mem_append]
        refine ⟨hfit, ?_⟩
        simp only [List.forall_mem_cons]
        exact ⟨trivial, trivial, by simp⟩

theorem copyTurn_spent (conn : Conn) (len : Nat) (allRead : List Byte) (size : Nat)
    (h : conn.Within size) (hch : conn.isChunked = 1) (hroom : size + lenbufSize ≤ INT64_MAX) :
    (∀ t ∈ copyTurnTallies conn len, t.BytesFit) ∧ (copyTurn conn len allRead).conn.Spent size := by
  have hread := mgReadInner_within conn len size h
  have hopen : (mgReadInner conn len).2.isChunked = 1 := by
    rw [(mgReadInner_counts conn len).2]
    exact hch
  have hfit := mgReadInner_bytesFit conn len
  -- what is left by a read that goes wrong, or goes on in the chunk
  have hspent (c : Conn) (n : Nat) (hc : c.Within size) (hn : n ≠ 4) :
      Conn.Spent { c with isChunked := n } size :=
    ⟨⟨hc.head_nonneg, hc.bytes⟩, fun h4 => absurd h4 hn⟩
  unfold copyTurnTallies copyTurn
  cases hr : mgReadInner conn len with
  | mk r c =>
    rw [hr] at hread hopen
    dsimp only at hread hopen
    have hstay : c.Spent size := ⟨hread, fun h4 => by omega⟩
    cases r with
    | none => exact ⟨by simpa using hfit, hspent c 2 hread (by decide)⟩
    | some bs =>
      dsimp only
      by_cases hnil : bs = []
      · rw [if_pos hnil, if_pos hnil]
        exact ⟨by simpa using hfit, hspent c 2 hread (by decide)⟩
      rw [if_neg hnil, if_neg hnil]
      by_cases hfull : (c.consumedContent : Int) = c.contentLen
      · rw [if_pos hfull, if_pos hfull]
        have hconsumed := hread.consumed_le.2
        have hlast : (mgReadInner { c with contentLen := c.contentLen + 2 } 2).2.Within size :=
          mgReadInner_within _ 2 size ⟨hread.head_nonneg, hread.bytes⟩
        have hlastOpen : (mgReadInner { c with contentLen := c.contentLen + 2 } 2).2.isChunked = 1 := by
          rw [(mgReadInner_counts _ 2).2]
          exact hopen
        have hmore : ∀ t ∈ mgReadInnerTallies conn len ++ ([Tally.framing c.contentLen 2,
            Tally.counters c.consumedContent (c.contentLen + 2)] ++
            mgReadInnerTallies { c with contentLen := c.contentLen + 2 } 2), t.BytesFit := by
          rw [List.forall_mem_append, List.forall_mem_append]
          refine ⟨hfit, ?_, mgReadInner_bytesFit _ 2⟩
          simp only [List.forall_mem_cons]
          refine ⟨?_, trivial, by simp⟩
          show c.contentLen + 2 ≤ INT64_MAX
          rw [lenbufSize] at hroom
          omega
        cases hx : mgReadInner { c with contentLen := c.contentLen + 2 } 2 with
        | mk x c2 =>
          rw [hx] at hlast hlastOpen
          dsimp only at hlast hlastOpen ⊢
          have hgo : c2.Spent size := ⟨hlast, fun h4 => by omega⟩
          split_ifs
          · exact ⟨hmore, hspent c2 2 hlast (by decide)⟩
          · exact ⟨hmore, hgo⟩
      · rw [if_neg hfull, if_neg hfull]
        exact ⟨by simpa using hfit, hstay⟩

theorem mgReadTurn_spent (conn : Conn) (len : Nat) (allRead : List Byte) (size : Nat)
    (h : conn.Spent size) (hroom : size + lenbufSize ≤ INT64_MAX) :
    (∀ t ∈ mgReadTurnTallies conn len, t.BytesFit) ∧ (mgReadTurn conn len allRead).conn.Spent size := by
  unfold mgReadTurnTallies mgReadTurn
  split_ifs with hend hopen hcopy
  · exact ⟨by simp, h⟩
  · exact ⟨by simp, h⟩
  · exact copyTurn_spent conn len allRead size h.within (not_not.mp hopen) hroom
  · obtain ⟨hfit, hfetch⟩ := fetchChunk_spent conn size h.within (by omega) (not_not.mp hcopy) hroom
    cases hr : fetchChunk conn with
    | mk f c =>
      rw [hr] at hfetch
      cases f with
      | failed => exact ⟨hfit, hfetch⟩
      | last => exact ⟨hfit, hfetch⟩
      | chunk => exact ⟨hfit, hfetch⟩

theorem mgReadLoop_spent (n : Nat) (conn : Conn) (len : Nat) (allRead : List Byte) (size : Nat)
    (h : conn.Spent size) (hroom : size + lenbufSize ≤ INT64_MAX) :
    (∀ t ∈ mgReadLoopTallies n conn len allRead, t.BytesFit) ∧
      (mgReadLoop n conn len allRead).2.Spent size := by
  induction n generalizing conn len allRead with
  | zero => exact ⟨by simp [mgReadLoopTallies], h⟩
  | succ n ih =>
    obtain ⟨hfit, hturn⟩ := mgReadTurn_spent conn len allRead size h hroom
    unfold mgReadLoopTallies mgReadLoop
    split_ifs
    · exact ⟨by simp, h⟩
    cases ht : mgReadTurn conn len allRead with
    | stop r c =>
      rw [ht] at hturn
      exact ⟨by simpa using hfit, hturn⟩
    | again c len allRead =>
      rw [ht] at hturn
      obtain ⟨hrest, hend⟩ := ih c len allRead hturn
      refine ⟨?_, hend⟩
      rw [List.forall_mem_append]
      exact ⟨hfit, hrest⟩

theorem mgRead_spent (conn : Conn) (len size : Nat) (h : conn.Spent size)
    (hroom : size + lenbufSize ≤ INT64_MAX) :
    (∀ t ∈ mgReadTallies conn len, t.BytesFit) ∧ (mgRead conn len).2.Spent size := by
  unfold mgReadTallies mgRead
  dsimp only
  split_ifs
  · exact mgReadLoop_spent _ conn _ _ size h hroom
  · exact ⟨mgReadInner_bytesFit conn _, mgReadInner_spent conn _ size h⟩

/-- A handler never reads so much that the bytes fill a counter. -/
theorem handler_spent (handler : Handler) (conn : Conn) (size : Nat) (h : conn.Spent size)
    (hroom : size + lenbufSize ≤ INT64_MAX) :
    (∀ t ∈ handler.tallies conn, t.BytesFit) ∧ (handler.run conn).2.Spent size := by
  induction handler generalizing conn with
  | done mustClose =>
    exact ⟨by simp [Handler.tallies], ⟨h.within.head_nonneg, h.within.bytes⟩, h.ended⟩
  | read len next ih =>
    obtain ⟨hfit, hread⟩ := mgRead_spent conn len size h hroom
    obtain ⟨hrest, hend⟩ := ih (mgRead conn len).1 (mgRead conn len).2 hread
    refine ⟨?_, hend⟩
    rw [Handler.tallies, List.forall_mem_append]
    exact ⟨hfit, hrest⟩

end CivetWeb
