import CivetWeb.Conn.ChunkedReads

namespace CivetWeb

/-- Chunked bodies as a sender may write them: with up to 15 size digits, an optional extension behind these, and
trailer lines without a CR. -/
def SentBody : Nat → List Byte → List Byte → Prop :=
  ChunkedBody (SizeLine fun digits extension => digits.length ≤ 15 ∧ ChunkExt extension) ReadField

/-- The digits that `lenbuf` has room for, with the CRLF and a NUL behind them. -/
def maxSizeDigits : Nat := lenbufSize - 3

theorem readSizeLine_digits (n : Nat) (ds es u : List Byte) (conn : Conn) (h : conn.AtLine) (hs : Steady conn.sock)
    (hes : ∀ a ∈ es, isxdigit a = true) (hu : conn.unread = es ++ u) :
    ∃ c1, readSizeLine (n + es.length) ds conn = readSizeLine n (ds ++ es) c1 ∧
      LineStep conn c1 es ∧ c1.unread = u := by
  induction es generalizing ds conn with
  | nil => exact ⟨conn, by simp, LineStep.refl conn h.placed, hu⟩
  | cons e es ih =>
    have he := hes e (by simp)
    obtain ⟨hcr, hlf, hsemi⟩ := isxdigit_ne e he
    obtain ⟨c1, hone, hstep, hu1⟩ := readOne_cons conn h hs e (es ++ u) hu
    have hread := readLenChar_plain ds conn c1 e hone (Or.inl hsemi)
    obtain ⟨c2, hrec, hstep2, hu2⟩ := ih (ds ++ [e]) c1 (hstep.atLine conn c1 [e] h) (hstep.steady hs)
      (fun a ha => hes a (by simp [ha])) hu1
    refine ⟨c2, ?_, hstep.trans conn c1 c2 [e] es hstep2, hu2⟩
    rw [List.length_cons, ← Nat.add_assoc, readSizeLine_turn _ ds conn c1 e hread,
      if_neg (fun hc => hcr hc.2.1), if_neg (fun hc => hlf hc.2.1), he]
    simpa using hrec

/-- The CRLF behind a CR that is in `lenbuf` already closes the line. -/
theorem readSizeLine_lf (n : Nat) (ds u : List Byte) (conn : Conn) (h : conn.AtLine) (hs : Steady conn.sock)
    (hds : ∀ a ∈ ds, isxdigit a = true) (hne : ds ≠ []) (hu : conn.unread = LF :: u) :
    ∃ c1, readSizeLine (n + 1) (ds ++ [CR]) conn =
        (some (min ULONG_MAX (hexValue ds)), afterSize c1 (min ULONG_MAX (hexValue ds))) ∧
      LineStep conn c1 [LF] := by
  have hsemi : LF ≠ SEMICOLON := by decide
  have hcr : LF ≠ CR := by decide
  have hlen := List.length_pos_of_ne_nil hne
  obtain ⟨c1, hone, hstep, -⟩ := readOne_cons conn h hs LF u hu
  have hread := readLenChar_plain (ds ++ [CR]) conn c1 LF hone (Or.inl hsemi)
  have hnum := strtoul_lenbuf ds [LF] hne hds
  refine ⟨c1, ?_, hstep⟩
  have hend : 1 < (ds ++ [CR]).length ∧ LF = LF ∧ (ds ++ [CR]).getLast? = some CR := by
    refine ⟨?_, rfl, by simp⟩
    rw [List.length_append, List.length_singleton]
    omega
  rw [readSizeLine_turn _ _ conn c1 LF hread, if_neg (fun hc => hcr hc.2.1), if_pos hend,
    List.append_assoc, List.singleton_append, hnum]
  simp

/-- A size line that fits into `lenbuf`. -/
def FittingLine (line : List Byte) (v : Nat) : Prop :=
  SizeLine (fun digits extension => digits.length ≤ maxSizeDigits ∧ ChunkExt extension) line v

/-- A size line of a sender is read whole, with its CRLF. -/
theorem readSizeLine_complete (line rest : List Byte) (v : Nat) (conn : Conn) (h : conn.AtLine)
    (hs : Steady conn.sock) (hl : FittingLine line v)
    (hu : conn.unread = line ++ CRLF ++ rest) :
    ∃ c1, readSizeLine (lenbufSize - 1) [] conn = (some v, afterSize c1 v) ∧
      LineStep conn c1 (line ++ CRLF) := by
  obtain ⟨digits, tail, rfl, hne, hdigits, hv, -, hlen, hstart, hclean⟩ := hl.shape
  have hval : min ULONG_MAX (hexValue digits) = v := by
    have := hl.fits
    rw [ULONG_MAX]
    omega
  have hlast : digits.getLast? ≠ some CR := by
    intro hcr
    exact (xdigits_clean digits hdigits).1 (List.mem_of_getLast? hcr)
  obtain ⟨n, hn⟩ : ∃ n, lenbufSize - 1 = n + 1 + 1 + digits.length :=
    ⟨maxSizeDigits - digits.length, by
      rw [maxSizeDigits, lenbufSize] at *
      omega⟩
  obtain ⟨c1, hdig, hstep1, hu1⟩ := readSizeLine_digits (n + 1 + 1) [] digits (tail ++ CRLF ++ rest)
    conn h hs hdigits (by rw [hu]; simp)
  have hat1 := hstep1.atLine conn c1 _ h
  have hs1 := hstep1.steady hs
  rw [hn, hdig, List.nil_append]
  -- the CR of the line end, behind the extension if there is one
  obtain ⟨c2, hread, hstep2, hu2⟩ : ∃ c2, readLenChar digits c1 = (CR, c2) ∧
      LineStep c1 c2 (tail ++ [CR]) ∧ c2.unread = LF :: rest := by
    cases tail with
    | nil =>
      have hsemi : CR ≠ SEMICOLON := by decide
      obtain ⟨c2, hone, hstep2, hu2⟩ := readOne_cons c1 hat1 hs1 CR (LF :: rest) hu1
      exact ⟨c2, readLenChar_plain digits c1 c2 CR hone (Or.inl hsemi), hstep2, hu2⟩
    | cons b tail =>
      obtain rfl : b = SEMICOLON := hstart b rfl
      have hcr : CR ∉ tail := fun hm => hclean.1 (by simp [hm])
      have hu1' : c1.unread = SEMICOLON :: (tail ++ CR :: LF :: rest) := by
        rw [hu1]
        simp [CRLF]
      obtain ⟨c2, hone, hstep2, -⟩ := readOne_cons c1 hat1 hs1 SEMICOLON _ hu1'
      rcases readLenChar_extension digits c1 c2 hat1 hone hstep2 hne with
        ⟨skipped, c2, hread, hstep2, hskip⟩ | ⟨ext, c, c2, -, hstep2, hmiss, hcr'⟩
      · have hsame : skipped ++ CR :: c2.unread = tail ++ CR :: LF :: rest := by
          have hrest := hstep2.unread
          rw [hu1'] at hrest
          simpa using hrest.symm
        have hstop (w : List Byte) (hw : CR ∉ w) (t : List Byte) :
            (w ++ CR :: t).takeWhile (· != CR) = w := by
          apply Scan.takeWhile_stop
          · intro a ha
            simp only [bne_iff_ne]
            exact fun hcr => hw (hcr ▸ ha)
          · rfl
        have heq : skipped = tail := by
          rw [← hstop skipped hskip c2.unread, hsame, hstop tail hcr]
        subst heq
        refine ⟨c2, hread, hstep2, ?_⟩
        simpa using hsame
      · -- the CR is still there
        have hrest := hstep2.unread
        rw [(hmiss.steady (hstep2.steady hs1)).1, List.append_nil, hu1'] at hrest
        rw [List.cons.injEq] at hrest
        exact absurd (hrest.2 ▸ hcr') (by simp)
  have hat2 := hstep2.atLine c1 c2 _ hat1
  obtain ⟨c3, hend, hstep3⟩ := readSizeLine_lf n digits rest c2 hat2 (hstep2.steady hs1) hdigits hne hu2
  refine ⟨c3, ?_, ?_⟩
  · rw [readSizeLine_turn (n + 1) digits c1 c2 CR hread, if_pos ⟨hne, rfl, hlast⟩, hend, hval]
  · have htotal := (hstep1.trans conn c1 c2 _ _ hstep2).trans conn c2 c3 _ _ hstep3
    simpa [CRLF] using htotal

theorem fetchChunk_last (line trailer rest : List Byte) (conn : Conn) (h : conn.AtLine)
    (hs : Steady conn.sock) (hl : FittingLine line 0)
    (ht : Trailer ReadField trailer) (hu : conn.unread = line ++ CRLF ++ trailer ++ rest) :
    ∃ c, fetchChunk conn = (.last, c) ∧ c.Ready ∧ c.isChunked = 4 ∧ c.unread = rest ∧
      c.contentLen = c.consumedContent ∧
      c.consumedContent = conn.consumedContent + (line ++ CRLF ++ trailer).length := by
  obtain ⟨c1, hread, hstep⟩ := readSizeLine_complete line (trailer ++ rest) 0 conn h hs hl
    (by rw [hu, List.append_assoc])
  obtain ⟨c3, hc3⟩ : ∃ c3, c3 = { c1 with isChunked := 3 } := ⟨_, rfl⟩
  have hat := hstep.atLine conn c1 _ h
  have hat3 : c3.AtLine := by
    rw [hc3]
    exact ⟨c1.placed_isChunked 3 hat.placed, hat.boundary⟩
  have hu1 : c1.unread = trailer ++ rest := by
    have hrest := hstep.unread
    rw [hu, List.append_assoc _ trailer] at hrest
    exact (List.append_cancel_left hrest).symm
  have hu3 : c3.unread = trailer ++ rest := by rw [hc3, ← hu1]; rfl
  have hch3 : c3.isChunked = 3 := by rw [hc3]
  have hs3 : Steady c3.sock := by
    rw [hc3]
    exact hstep.steady hs
  have hskip := skipTrailer_complete (c3.unread.length + 1) 2 c3 hat3 hs3 hch3 (by omega) trailer rest ht
    hu3 (Nat.lt_succ_self _)
  unfold fetchChunk
  rw [hread]
  simp only [afterSize, if_true, ← hc3, hch3]
  generalize skipTrailer (c3.unread.length + 1) 2 c3 = c4 at hskip
  rw [if_neg (by rw [hskip.isChunked, hch3]; omega)]
  refine ⟨_, rfl, ⟨c4.placed_isChunked 4 hskip.placed, hskip.steady hs3⟩, rfl, ?_, ?_, ?_⟩
  · have hrest := hskip.unread
    rw [hu3] at hrest
    exact (List.append_cancel_left hrest).symm
  · exact (hskip.atLine c3 c4 _ hat3).boundary
  · have hcc3 : c3.consumedContent = c1.consumedContent := by rw [hc3]
    dsimp only
    rw [hskip.consumedContent, hcc3, hstep.consumedContent]
    simp only [List.length_append]
    ring

theorem fetchChunk_size (line s : List Byte) (v : Nat) (conn : Conn) (h : conn.AtLine) (hs : Steady conn.sock)
    (hch : conn.isChunked = 1) (hv : 0 < v)
    (hl : FittingLine line v)
    (hu : conn.unread = line ++ CRLF ++ s) :
    ∃ c, fetchChunk conn = (.chunk, c) ∧ c.AtChunk v ∧ Steady c.sock ∧ c.unread = s ∧
      c.consumedContent = conn.consumedContent + (line ++ CRLF).length := by
  obtain ⟨c1, hread, hstep⟩ := readSizeLine_complete line s v conn h hs hl hu
  have hat := hstep.atLine conn c1 _ h
  have hc1 : c1.isChunked = 1 := by rw [hstep.isChunked, hch]
  have hz : ¬ v = 0 := by omega
  have h3 : ¬ c1.isChunked = 3 := by omega
  unfold fetchChunk
  rw [hread]
  simp only [afterSize, hz, if_false, h3]
  refine ⟨_, rfl, ⟨c1.placed_contentLen _ hat.placed, hc1, ?_⟩, hstep.steady hs, ?_, hstep.consumedContent⟩
  · simp only [toInt64, hl.fits, if_true, hat.boundary]
  · have hrest := hstep.unread
    rw [hu] at hrest
    exact (List.append_cancel_left hrest).symm

/-- How the loop of `mg_read` ends on a body `s` with the data `d`, where `len` bytes are
wanted and `acc` are read. -/
inductive SentOutcome (conn : Conn) (len : Nat) (acc s d rest : List Byte) :
    Option (List Byte) × Conn → Prop where
  | more (e s' : List Byte) (c : Conn) (r : Nat) : len ≤ d.length → c.AtChunk r → Steady c.sock → s = e ++ s' →
      c.unread = s' ++ rest → c.consumedContent = conn.consumedContent + e.length →
      SentBody r s' (d.drop len) →
      SentOutcome conn len acc s d rest (some (acc ++ d.take len), c)
  | done (c : Conn) : d.length < len → c.Ready → c.isChunked = 4 → c.unread = rest →
      c.contentLen = c.consumedContent →
      c.consumedContent = conn.consumedContent + s.length →
      SentOutcome conn len acc s d rest (some (acc ++ d.take len), c)

theorem SentOutcome.step (conn c1 : Conn) (len : Nat)
    (acc e s bs d rest : List Byte) (res : Option (List Byte) × Conn)
    (hc : c1.consumedContent = conn.consumedContent + e.length) (hlen : bs.length ≤ len)
    (h : SentOutcome c1 (len - bs.length) (acc ++ bs) s d rest res) :
    SentOutcome conn len acc (e ++ s) (bs ++ d) rest res := by
  have htake : acc ++ bs ++ d.take (len - bs.length) = acc ++ (bs ++ d).take len := by
    rw [List.take_append, List.take_of_length_le hlen, List.append_assoc]
  have hdrop : (bs ++ d).drop len = d.drop (len - bs.length) := by
    rw [List.drop_append, List.drop_eq_nil_of_le hlen, List.nil_append]
  cases h with
  | more f s' c r hle hat hsteady hs hu hcc hbody =>
    rw [htake]
    refine SentOutcome.more (e ++ f) s' c r ?_ hat hsteady ?_ hu ?_ ?_
    · rw [List.length_append]
      omega
    · rw [hs, List.append_assoc]
    · rw [hcc, hc, List.length_append]
      ring
    · rw [hdrop]
      exact hbody
  | done c hlt hready h4 hu hend hcc =>
    rw [htake]
    refine SentOutcome.done c ?_ hready h4 hu hend ?_
    · rw [List.length_append]
      omega
    · rw [hcc, hc, List.length_append]
      ring

theorem SentOutcome.stay (conn : Conn) (r : Nat) (acc s d rest : List Byte)
    (h : conn.AtChunk r) (hsteady : Steady conn.sock) (hs : SentBody r s d) (hu : conn.unread = s ++ rest) :
    SentOutcome conn 0 acc s d rest (some acc, conn) := by
  have hstay := @SentOutcome.more conn 0 acc s d rest [] s conn r (Nat.zero_le _) h hsteady rfl hu rfl hs
  rwa [List.take_zero, List.append_nil] at hstay

/-- The loop of `mg_read` returns the data of a body in the stream, as much as is wanted
and there, and stands behind it. -/
theorem mgReadLoop_complete (n : Nat) (conn : Conn) (r len : Nat)
    (acc s d rest : List Byte) (h : conn.AtChunk r) (hsteady : Steady conn.sock) (hn : conn.unread.length < n)
    (hlen : len ≤ INT_MAX) (hs : SentBody r s d) (hu : conn.unread = s ++ rest) :
    SentOutcome conn len acc s d rest (mgReadLoop n conn len acc) := by
  induction n generalizing conn r len acc s d with
  | zero => omega
  | succ n ih =>
    by_cases hz : len = 0
    · subst hz
      rw [mgReadLoop, if_pos rfl]
      exact SentOutcome.stay conn r acc s d rest h hsteady hs hu
    rw [mgReadLoop_turn n conn len acc (by omega)]
    have heq0 : r = 0 → (conn.consumedContent : Int) = conn.contentLen := by
      intro hr
      rw [h.left, hr]
      simp
    have hfit (line : List Byte) (v : Nat)
        (hl : SizeLine (fun digits extension => digits.length ≤ 15 ∧ ChunkExt extension) line v) :
        FittingLine line v := by
      obtain ⟨digits, ext, hline, hne, hdigits, hv, hstart, hshort, hext⟩ := hl.shape
      have hroom : digits.length ≤ maxSizeDigits := hshort.trans (by decide)
      exact ⟨hl.fits, digits, ext, hline, hne, hdigits, hv, hstart, hroom, hext⟩
    cases hs with
    | last line trailer hl ht =>
      rw [mgReadTurn_fetch conn len acc h.chunked (heq0 rfl)]
      obtain ⟨c, hfetch, hready, h4, hcu, hend, hcc⟩ := fetchChunk_last line trailer rest conn
        ⟨h.placed, (heq0 rfl).symm⟩ hsteady (hfit line 0 hl) ht hu
      have hdone := @SentOutcome.done conn len acc (line ++ CRLF ++ trailer) [] rest c
        (by rw [List.length_nil]; omega) hready h4 hcu hend hcc
      rw [List.take_nil, List.append_nil] at hdone
      rw [hfetch]
      exact hdone
    | size line s d v hl hv hs =>
      rw [mgReadTurn_fetch conn len acc h.chunked (heq0 rfl)]
      obtain ⟨c, hfetch, hat, hsteady2, hcu, hcc⟩ := fetchChunk_size line (s ++ rest) v conn
        ⟨h.placed, (heq0 rfl).symm⟩ hsteady h.chunked hv (hfit line v hl) (by rw [hu, List.append_assoc])
      have hless : c.unread.length < n := by
        rw [hu, List.append_assoc, List.length_append, List.length_append, CRLF, List.length_cons] at hn
        rw [hcu]
        omega
      rw [hfetch]
      apply SentOutcome.step conn c len acc (line ++ CRLF) s [] d rest _ hcc (Nat.zero_le _)
      rw [List.append_nil]
      exact ih c v len acc s d hat hsteady2 hless hlen hs hcu
    | data bs s d hne hs =>
      have hpos := List.length_pos_of_ne_nil hne
      have hnot : (conn.consumedContent : Int) ≠ conn.contentLen := by
        rw [h.left]
        omega
      obtain ⟨k, hk⟩ : ∃ k, k = min len bs.length := ⟨_, rfl⟩
      obtain ⟨piece, hpiece⟩ : ∃ piece, piece = bs.take k := ⟨_, rfl⟩
      obtain ⟨more, hmore⟩ : ∃ more, more = bs.drop k := ⟨_, rfl⟩
      have hbs : bs = piece ++ more := by rw [hpiece, hmore, List.take_append_drop]
      have hklen : piece.length = k := by
        rw [hpiece, List.length_take]
        omega
      have hwanted : wanted conn len = k := by
        rw [wanted, h.left, if_neg (by omega)]
        omega
      have hpiece' : piece = conn.unread.take (wanted conn len) := by
        rw [hwanted, hu, hbs, ← hklen]
        simp
      have hrest (c1 : Conn) (hstep : ReadStep conn c1 piece) :
          c1.unread = more ++ CRLF ++ s ++ rest := by
        have hsplit := hstep.unread
        rw [hu, hbs] at hsplit
        simp only [List.append_assoc, List.append_cancel_left_eq] at hsplit ⊢
        exact hsplit.symm
      have hfullk (c1 : Conn) (hstep : ReadStep conn c1 piece) :
          (c1.consumedContent : Int) = c1.contentLen ↔ more = [] := by
        rw [hstep.consumedContent, hstep.contentLen, h.left, hbs, ← List.length_eq_zero_iff,
          List.length_append]
        omega
      rw [mgReadTurn_copy conn len acc h.chunked hnot]
      obtain ⟨got, hread, hcopy⟩ := copyTurn_cases conn len acc h.placed
      obtain ⟨hstep, -, -, hall⟩ := hread
      obtain rfl : got = piece := by rw [hall hsteady, hpiece']
      generalize (mgReadInner conn len).2 = c1 at hstep hcopy
      generalize copyTurn conn len acc = turn at hcopy
      have hsteady1 := hstep.steady hsteady
      have hless := congrArg List.length hstep.unread
      rw [List.length_append, hklen] at hless
      cases hcopy with
      | failed c _ hfailed =>
        rcases hfailed with hnil | ⟨hfull, hcrlf⟩
        · have hzero := congrArg List.length hnil
          rw [hklen, List.length_nil] at hzero
          omega
        · rw [hfullk c1 hstep] at hfull
          rw [hrest c1 hstep, hfull, List.nil_append, List.append_assoc] at hcrlf
          exact absurd (List.prefix_append _ _) (hcrlf hsteady)
      | within _ hleft =>
        -- data of the chunk is left
        rw [Ne, hfullk c1 hstep] at hleft
        have hat : c1.AtChunk more.length := by
          refine ⟨hstep.placed, by rw [hstep.isChunked, h.chunked], ?_⟩
          rw [hstep.contentLen, hstep.consumedContent, h.left, hbs, List.length_append]
          push_cast
          ring
        have hrec := ih c1 more.length (len - got.length) (acc ++ got) _ _ hat hsteady1 (by omega) (by omega)
          (ChunkedBody.data more s d hleft hs) (hrest c1 hstep)
        have hshape : bs ++ CRLF ++ s = got ++ (more ++ CRLF ++ s) ∧
            bs ++ d = got ++ (more ++ d) := by
          rw [hbs]
          simp
        rw [hshape.1, hshape.2]
        exact SentOutcome.step conn c1 len acc got _ got _ rest _ hstep.consumedContent
          (by omega) hrec
      | whole c2 _ hfull hstep2 =>
        -- the chunk is read whole
        rw [hfullk c1 hstep] at hfull
        rw [hfull, List.append_nil] at hbs
        have hat : c2.AtChunk 0 := by
          refine ⟨hstep2.placed, by rw [hstep2.isChunked, hstep.isChunked, h.chunked], ?_⟩
          rw [hstep2.contentLen, hstep2.consumedContent, hstep.contentLen, hstep.consumedContent,
            h.left, hbs]
          push_cast
          omega
        have hu2 : c2.unread = s ++ rest := by
          have hsplit := hstep2.unread
          rw [hrest c1 hstep, hfull, List.nil_append, List.append_assoc] at hsplit
          exact (List.append_cancel_left hsplit).symm
        have hless2 := congrArg List.length hstep2.unread
        rw [List.length_append] at hless2
        have hrec := ih c2 0 (len - got.length) (acc ++ got) s d hat (hstep2.steady hsteady1) (by omega) (by omega)
          hs hu2
        have hcc : c2.consumedContent = conn.consumedContent + (bs ++ CRLF).length := by
          rw [hstep2.consumedContent, hstep.consumedContent, hbs, List.length_append]
          ring
        rw [← hbs] at hrec ⊢
        exact SentOutcome.step conn c2 len acc (bs ++ CRLF) s bs d rest _ hcc
          (by rw [hbs]; omega) hrec

/-- A run of reads that ends with the first one to return 0. -/
structure ReadsAll (conn : Conn) (lens : List Nat) (d rest : List Byte) (size : Nat) : Prop where
  last_zero : ∃ rs, (mgReads conn lens).1 = rs ++ [some []] ∧
    ∀ r ∈ rs, ∃ bs, r = some bs ∧ bs ≠ []
  data : delivered (mgReads conn lens).1 = d
  state : (mgReads conn lens).2.isChunked = 4
  consumed : (mgReads conn lens).2.consumedContent = conn.consumedContent + size
  unread : (mgReads conn lens).2.unread = rest

/-- Reads of any positive lengths return the data of a body in the stream until one returns 0. -/
theorem mgReads_complete (conn : Conn) (r : Nat) (h : conn.AtChunk r) (hsteady : Steady conn.sock)
    (s d rest : List Byte) (hs : SentBody r s d) (hu : conn.unread = s ++ rest) (lens : Nat → Nat)
    (hlens : ∀ i, 0 < lens i) :
    ∃ n, ReadsAll conn ((List.range (n + 1)).map lens) d rest s.length := by
  induction hk : d.length using Nat.strong_induction_on generalizing conn r s d lens with
  | _ k ih =>
    obtain ⟨len, hlen⟩ : ∃ len, len = min (lens 0) INT_MAX := ⟨_, rfl⟩
    have hpos : 0 < len := by
      have := hlens 0
      rw [hlen, INT_MAX]
      omega
    have hch := h.chunked
    have hread := mgRead_chunked conn (lens 0) (by omega)
    rw [← hlen] at hread
    have hout := mgReadLoop_complete (conn.unread.length + 1) conn r len [] s d rest h hsteady (Nat.lt_succ_self _) (by rw [hlen]; exact min_le_right _ _) hs hu
    generalize mgReadLoop (conn.unread.length + 1) conn len [] = res at hout hread
    have hlist (n : Nat) : (List.range (n + 1)).map lens =
        lens 0 :: (List.range n).map (fun i => lens (i + 1)) := by
      rw [List.range_succ_eq_map, List.map_cons, List.map_map]
      rfl
    have htaken (bs : List Byte) (rs : List (Option (List Byte))) :
        delivered (some bs :: rs) = bs ++ delivered rs := rfl
    cases hout with
    | more e s' c r' hle hat hsteady' hss hu' hcc hs' =>
      rw [List.nil_append] at hread
      have hless : (d.drop len).length < k := by
        rw [List.length_drop]
        omega
      obtain ⟨n, hn⟩ := ih _ hless c r' hat hsteady' s' (d.drop len) hs' hu' (fun i => lens (i + 1))
        (fun i => hlens (i + 1)) rfl
      refine ⟨n + 1, ?_⟩
      rw [hlist (n + 1)]
      obtain ⟨⟨rs, hrs, hall⟩, hdata, hstate, hcons, hunread⟩ := hn
      have hmore : mgReads conn (lens 0 :: (List.range (n + 1)).map (fun i => lens (i + 1))) =
          (some (d.take len) :: (mgReads c ((List.range (n + 1)).map (fun i => lens (i + 1)))).1,
            (mgReads c ((List.range (n + 1)).map (fun i => lens (i + 1)))).2) := by
        rw [mgReads_cons, hread]
      refine ⟨⟨some (d.take len) :: rs, by rw [hmore, hrs, List.cons_append], ?_⟩, ?_, ?_, ?_, ?_⟩
      · intro x hx
        rcases List.mem_cons.mp hx with rfl | hx
        · refine ⟨_, rfl, ?_⟩
          rw [Ne, List.take_eq_nil_iff]
          intro hnil
          rcases hnil with hnil | hnil
          · omega
          · rw [hnil, List.length_nil] at hle
            omega
        · exact hall x hx
      · rw [hmore, htaken, hdata, List.take_append_drop]
      · rw [hmore, hstate]
      · rw [hmore, hcons, hcc, hss, List.length_append]
        ring
      · rw [hmore, hunread]
    | done c hlt hready h4 hu' _ hcc =>
      have hall : d.take len = d := List.take_of_length_le hlt.le
      rw [List.nil_append, hall] at hread
      by_cases hnil : d = []
      · subst hnil
        refine ⟨0, ?_⟩
        rw [hlist 0]
        have hone : mgReads conn (lens 0 :: (List.range 0).map (fun i => lens (i + 1))) =
            ([some []], c) := by
          rw [mgReads_cons, hread]
          rfl
        refine ⟨⟨[], by rw [hone]; rfl, by simp⟩, by rw [hone]; rfl, ?_, ?_, ?_⟩
        · rw [hone, h4]
        · rw [hone, hcc]
        · rw [hone, hu']
      · -- the next read finds the body at its end
        obtain ⟨hstay, hzero, -⟩ := mgRead_over c (lens 1) (Or.inr (by omega))
        refine ⟨1, ?_⟩
        rw [hlist 1]
        have hsecond : (List.range 1).map (fun i => lens (i + 1)) = [lens 1] := rfl
        have htwo : mgReads conn (lens 0 :: [lens 1]) = ([some d, some []], c) := by
          rw [mgReads_cons, hread]
          dsimp only
          rw [mgReads_cons, hstay, hzero (by omega)]
          rfl
        rw [hsecond]
        refine ⟨⟨[some d], by rw [htwo]; rfl, ?_⟩, by rw [htwo]; simp [delivered], ?_, ?_, ?_⟩
        · intro x hx
          exact ⟨d, List.mem_singleton.mp hx, hnil⟩
        · rw [htwo, h4]
        · rw [htwo, hcc]
        · rw [htwo, hu']

end CivetWeb
