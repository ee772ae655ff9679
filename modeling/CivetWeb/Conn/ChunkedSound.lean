import CivetWeb.Conn.ChunkedSpec

namespace CivetWeb

/-- A connection in a chunked body, `r` bytes of the current chunk being left. -/
structure Conn.AtChunk (conn : Conn) (r : Nat) : Prop where
  placed : conn.Placed
  chunked : conn.isChunked = 1
  left : conn.contentLen = conn.consumedContent + r

/-- A connection that has lost count of its chunk: the size was beyond `int64_t`. -/
structure Conn.Lost (conn : Conn) : Prop where
  placed : conn.Placed
  chunked : conn.isChunked = 1
  beyond : conn.contentLen < 0 ∨ conn.contentLen < conn.consumedContent

/-- A part of a body as the server reads it, with the data in it: `r` bytes of a chunk are left in front of it, and
`r'` bytes behind it. -/
inductive ReadPart : Nat → List Byte → List Byte → Nat → Prop where
  | nil (r : Nat) : ReadPart r [] [] r
  | size (line e d : List Byte) (n r' : Nat) : SizeLine (fun _ ext => ReadExt ext) line n → 0 < n →
      ReadPart n e d r' → ReadPart 0 (line ++ CRLF ++ e) d r'
  | some (bs e d : List Byte) (r r' : Nat) : 0 < r → ReadPart r e d r' →
      ReadPart (bs.length + r) (bs ++ e) (bs ++ d) r'
  | data (bs e d : List Byte) (r' : Nat) : bs ≠ [] → ReadPart 0 e d r' →
      ReadPart bs.length (bs ++ CRLF ++ e) (bs ++ d) r'

/-- The size line that comes next names a size beyond `int64_t`. -/
def OversizedNext (unread : List Byte) : Prop :=
  ∃ text v rest, unread = text ++ CRLF ++ rest ∧ ReadLine text v ∧ 2 ^ 63 ≤ v

/-- How the loop of `mg_read` ends where `r` bytes of the current chunk are left, `len`
are wanted and `acc` are read. -/
inductive ReadOutcome (conn : Conn) (r len : Nat) (acc : List Byte) :
    Option (List Byte) × Conn → Prop where
  | failed (c : Conn) : c.isChunked = 2 → ReadOutcome conn r len acc (none, c)
  | more (out e : List Byte) (c : Conn) (r' : Nat) : c.AtChunk r' →
      conn.unread = e ++ c.unread → c.consumedContent = conn.consumedContent + e.length →
      out.length = len → out.length ≤ e.length → ReadPart r e out r' →
      ReadOutcome conn r len acc (some (acc ++ out), c)
  | done (out e : List Byte) (c : Conn) : c.Placed → c.isChunked = 4 → c.contentLen = c.consumedContent →
      conn.unread = e ++ c.unread → c.consumedContent = conn.consumedContent + e.length →
      ReadBody r e out → ReadOutcome conn r len acc (some (acc ++ out), c)
  | lost (out e d u : List Byte) (c : Conn) : c.Lost → conn.unread = e ++ u → ReadPart r e d 0 →
      OversizedNext u → ReadOutcome conn r len acc (some (acc ++ out), c)

/-- A part of the data of the current chunk in front of what is left of it. -/
theorem readBody_part (bs s d : List Byte) (m : Nat) (hm : 0 < m) (h : ReadBody m s d) :
    ReadBody (bs.length + m) (bs ++ s) (bs ++ d) := by
  cases h with
  | last => omega
  | size => omega
  | data cs s d hcs hs =>
    rw [← List.length_append, ← List.append_assoc, ← List.append_assoc, ← List.append_assoc]
    exact ChunkedBody.data (bs ++ cs) s d (by simp [hcs]) hs

/-- What is left of the body comes behind a part of it. -/
theorem ReadPart.body (r r' : Nat) (e out s d : List Byte) (h : ReadPart r e out r') (hs : ReadBody r' s d) :
    ReadBody r (e ++ s) (out ++ d) := by
  induction h with
  | nil r => exact hs
  | size line e d' n r' hl hn _ ih =>
    rw [List.append_assoc]
    exact ChunkedBody.size line _ _ n hl hn (ih hs)
  | some bs e d' r r' hr _ ih =>
    rw [List.append_assoc, List.append_assoc]
    exact readBody_part bs _ _ r hr (ih hs)
  | data bs e d' r' hne _ ih =>
    rw [List.append_assoc, List.append_assoc bs d']
    exact ChunkedBody.data bs _ _ hne (ih hs)

theorem ReadPart.trans (r r1 r' : Nat) (e out f more : List Byte) (h : ReadPart r e out r1)
    (h' : ReadPart r1 f more r') : ReadPart r (e ++ f) (out ++ more) r' := by
  induction h with
  | nil r => exact h'
  | size line e d n r1 hl hn _ ih =>
    rw [List.append_assoc]
    exact ReadPart.size line _ _ n r' hl hn (ih h')
  | some bs e d r r1 hr _ ih =>
    rw [List.append_assoc, List.append_assoc]
    exact ReadPart.some bs _ _ r r' hr (ih h')
  | data bs e d r1 hne _ ih =>
    rw [List.append_assoc, List.append_assoc bs d]
    exact ReadPart.data bs _ _ r' hne (ih h')

/-- What was read in front is put in front of the outcome. -/
theorem ReadOutcome.step (conn c1 : Conn) (r r1 len : Nat) (acc e bs : List Byte)
    (res : Option (List Byte) × Conn) (hu : conn.unread = e ++ c1.unread)
    (hc : c1.consumedContent = conn.consumedContent + e.length) (hlen : bs.length ≤ len)
    (hbs : bs.length ≤ e.length) (hpart : ReadPart r e bs r1)
    (h : ReadOutcome c1 r1 (len - bs.length) (acc ++ bs) res) : ReadOutcome conn r len acc res := by
  have hul : conn.unread.length = e.length + c1.unread.length := by rw [hu, List.length_append]
  cases h with
  | failed c hch => exact ReadOutcome.failed c hch
  | more out f c r' hat hcu hcc hout hle hrec =>
    rw [List.append_assoc]
    refine ReadOutcome.more (bs ++ out) (e ++ f) c r' hat ?_ ?_ ?_ ?_ (hpart.trans _ _ _ _ _ _ _ hrec)
    · rw [hu, hcu, List.append_assoc]
    · rw [hcc, hc, List.length_append]
      ring
    · rw [List.length_append]
      omega
    · rw [List.length_append, List.length_append]
      omega
  | done out f c hplaced hch hend hcu hcc hrec =>
    rw [List.append_assoc]
    refine ReadOutcome.done (bs ++ out) (e ++ f) c hplaced hch hend ?_ ?_ (hpart.body _ _ _ _ _ _ hrec)
    · rw [hu, hcu, List.append_assoc]
    · rw [hcc, hc, List.length_append]
      ring
  | lost out f d u c hlost hcu hrec hnext =>
    rw [List.append_assoc]
    refine ReadOutcome.lost (bs ++ out) (e ++ f) (bs ++ d) u c hlost ?_ (hpart.trans _ _ _ _ _ _ _ hrec) hnext
    rw [hu, hcu, List.append_assoc]

/-- How a turn ends that copies `bs` and leaves the connection at `c1`: it fails where nothing was copied or the chunk
is not closed by CRLF, else it goes on behind what it has read. -/
inductive CopyOutcome (conn : Conn) (len : Nat) (acc bs : List Byte) (c1 : Conn) : ReadTurn → Prop where
  | failed (c : Conn) : c.isChunked = 2 →
      (bs = [] ∨ (c1.consumedContent : Int) = c1.contentLen ∧ (Steady conn.sock → ¬ CRLF <+: c1.unread)) →
      CopyOutcome conn len acc bs c1 (.stop none c)
  | within : bs ≠ [] → (c1.consumedContent : Int) ≠ c1.contentLen →
      CopyOutcome conn len acc bs c1 (.again c1 (len - bs.length) (acc ++ bs))
  | whole (c2 : Conn) : bs ≠ [] → (c1.consumedContent : Int) = c1.contentLen → LineStep c1 c2 CRLF →
      CopyOutcome conn len acc bs c1 (.again c2 (len - bs.length) (acc ++ bs))

theorem copyTurn_cases (conn : Conn) (len : Nat) (acc : List Byte) (h : conn.Placed) :
    ∃ bs, ReadInner conn len bs (mgReadInner conn len) ∧
      CopyOutcome conn len acc bs (mgReadInner conn len).2 (copyTurn conn len acc) := by
  obtain ⟨bs, hread⟩ := mgReadInner_spec conn len h
  refine ⟨bs, hread, ?_⟩
  obtain ⟨hstep, hres, -, -⟩ := hread
  obtain ⟨c1, hc1⟩ : ∃ c1, c1 = (mgReadInner conn len).2 := ⟨_, rfl⟩
  have heta : mgReadInner conn len = ((mgReadInner conn len).1, c1) := by rw [hc1]
  rw [← hc1] at hstep ⊢
  rcases hres with hres | ⟨hres, hnil⟩
  swap
  · rw [copyTurn, heta, hres]
    exact .failed _ rfl (.inl hnil)
  by_cases hnil : bs = []
  · rw [copyTurn, heta, hres]
    dsimp only
    rw [if_pos hnil]
    exact .failed _ rfl (.inl hnil)
  by_cases heq : (c1.consumedContent : Int) = c1.contentLen
  swap
  · rw [copyTurn, heta, hres]
    dsimp only
    rw [if_neg hnil, if_neg heq]
    exact .within hnil heq
  -- the chunk ends here
  obtain ⟨bumped, hb⟩ : ∃ c, c = { c1 with contentLen := c1.contentLen + 2 } := ⟨_, rfl⟩
  have hsame : bumped.wire = c1.wire ∧ bumped.unread = c1.unread ∧ bumped.sock = c1.sock := by
    rw [hb]
    exact ⟨rfl, rfl, rfl⟩
  have hwanted : wanted bumped 2 = 2 := by
    rw [wanted, hb]
    simp only [← heq, INT_MAX]
    rw [if_neg (by omega)]
    omega
  obtain ⟨crlf, hstep2, hres2, htaken2, hall2⟩ := mgReadInner_spec bumped 2 (hb ▸ c1.placed_contentLen _ hstep.placed)
  obtain ⟨c2, hc2⟩ : ∃ c2, c2 = (mgReadInner bumped 2).2 := ⟨_, rfl⟩
  rw [← hc2] at hstep2 htaken2
  rw [hwanted, hsame.1] at htaken2
  have hturn : copyTurn conn len acc =
      if (mgReadInner bumped 2).1 ≠ some [CR, LF] then .stop none { c2 with isChunked := 2 }
      else .again c2 (len - bs.length) (acc ++ bs) := by
    rw [copyTurn, heta, hres]
    dsimp only
    rw [if_neg hnil, if_pos heq, ← hb, hc2]
  rw [hturn]
  by_cases hclosed : (mgReadInner bumped 2).1 = some [CR, LF]
  · have hcrlf : crlf = CRLF := by
      rcases hres2 with hres2 | ⟨hres2, -⟩
      · rw [hclosed] at hres2
        exact (Option.some.inj hres2).symm
      · rw [hclosed] at hres2
        cases hres2
    rw [if_neg (not_not.mpr hclosed)]
    refine .whole c2 hnil heq (LineStep.of_read c1 c2 CRLF ?_ ?_)
    · rw [hcrlf, hb] at hstep2
      exact hstep2
    · rw [hcrlf] at htaken2
      cases htaken2 with
      | full hw _ => exact hw
      | short _ _ hlt _ _ => exact absurd hlt (by decide)
  · rw [if_pos hclosed]
    refine .failed _ rfl (.inr ⟨heq, fun hs hcrlf => hclosed ?_⟩)
    have htake : crlf = CRLF := by
      rw [hall2 (by rw [hsame.2.2]; exact hstep.steady hs), hwanted, hsame.2.1]
      exact (List.prefix_iff_eq_take.mp hcrlf).symm
    rcases hres2 with hres2 | ⟨-, hnone⟩
    · rw [hres2, htake]
      rfl
    · rw [htake] at hnone
      cases hnone

theorem mgReadLoop_turn (n : Nat) (conn : Conn) (len : Nat) (acc : List Byte) (hlen : 0 < len) :
    mgReadLoop (n + 1) conn len acc =
      match mgReadTurn conn len acc with
      | .stop r c => (r, c)
      | .again c len acc => mgReadLoop n c len acc := by
  have hmore : len ≠ 0 := by omega
  exact if_neg hmore

theorem mgReadTurn_copy (conn : Conn) (len : Nat) (acc : List Byte) (hch : conn.isChunked = 1)
    (hne : (conn.consumedContent : Int) ≠ conn.contentLen) :
    mgReadTurn conn len acc = copyTurn conn len acc := by
  rw [mgReadTurn, if_neg (by omega), if_neg (by omega), if_pos hne]

theorem mgReadTurn_fetch (conn : Conn) (len : Nat) (acc : List Byte) (hch : conn.isChunked = 1)
    (heq : (conn.consumedContent : Int) = conn.contentLen) :
    mgReadTurn conn len acc =
      match fetchChunk conn with
      | (.failed, c1) => .stop none c1
      | (.last, c1) => .stop (some acc) c1
      | (.chunk, c1) => .again c1 len acc := by
  unfold mgReadTurn
  rw [if_neg (by omega), if_neg (by omega)]
  exact if_neg (not_not.mpr heq)

theorem fetchChunk_starved (conn : Conn) (h : conn.Starved) :
    ∃ c1, fetchChunk conn = (.failed, c1) ∧ c1.isChunked = 2 := by
  obtain ⟨c1, hread, hch⟩ := readSizeLine_starved (lenbufSize - 1) [] conn h
  refine ⟨c1, ?_, hch⟩
  unfold fetchChunk
  rw [hread]

/-- Nothing more is read where the next look finds nothing. -/
theorem mgReadLoop_ended (n : Nat) (conn : Conn) (len : Nat) (acc : List Byte) (hlen : 0 < len)
    (hch : conn.isChunked = 1) (hplaced : conn.Placed) (hnone : conn.wire.head?.join = none) :
    ∃ c1, mgReadLoop (n + 1) conn len acc = (none, c1) ∧ c1.isChunked = 2 := by
  rw [mgReadLoop_turn n conn len acc hlen]
  by_cases heq : (conn.consumedContent : Int) = conn.contentLen
  · obtain ⟨c1, hfetch, hc1⟩ := fetchChunk_starved conn ⟨hplaced, hnone, heq.le⟩
    refine ⟨c1, ?_, hc1⟩
    rw [mgReadTurn_fetch conn len acc hch heq, hfetch]
  · rw [mgReadTurn_copy conn len acc hch heq]
    obtain ⟨bs, hread, hcopy⟩ := copyTurn_cases conn len acc hplaced
    have hnil := hread.taken.nil hnone
    generalize copyTurn conn len acc = turn at hcopy
    cases hcopy with
    | failed c hbad _ => exact ⟨c, rfl, hbad⟩
    | within hne _ => exact absurd hnil hne
    | whole _ hne _ _ => exact absurd hnil hne

/-- A lost connection passes on what comes, until a read fails. -/
theorem mgReadLoop_lost (n : Nat) (conn : Conn) (len : Nat) (acc : List Byte) (h : conn.Lost)
    (hn : conn.unread.length < n) :
    (∃ c, mgReadLoop n conn len acc = (none, c) ∧ c.isChunked = 2) ∨
    ∃ out c, mgReadLoop n conn len acc = (some (acc ++ out), c) ∧ c.Lost := by
  induction n generalizing conn len acc with
  | zero => omega
  | succ n ih =>
    by_cases hz : len = 0
    · rw [hz]
      exact Or.inr ⟨[], conn, by simp [mgReadLoop], h⟩
    have hbeyond := h.beyond
    have hne : (conn.consumedContent : Int) ≠ conn.contentLen := by omega
    rw [mgReadLoop_turn n conn len acc (by omega), mgReadTurn_copy conn len acc h.chunked hne]
    obtain ⟨bs, hread, hcopy⟩ := copyTurn_cases conn len acc h.placed
    obtain ⟨hstep, -, htaken, -⟩ := hread
    generalize (mgReadInner conn len).2 = c1 at hstep htaken hcopy
    generalize copyTurn conn len acc = turn at hcopy
    have hlen : bs.length ≤ len := by
      have hle := htaken.le
      rw [wanted] at hle
      omega
    have hul := congrArg List.length hstep.unread
    rw [List.length_append] at hul
    cases hcopy with
    | failed c hbad _ => exact Or.inl ⟨c, rfl, hbad⟩
    | within hnil _ =>
      have hpos := List.length_pos_of_ne_nil hnil
      have hlost : c1.Lost := by
        refine ⟨hstep.placed, by rw [hstep.isChunked, h.chunked], ?_⟩
        rw [hstep.contentLen, hstep.consumedContent]
        omega
      rcases ih c1 (len - bs.length) (acc ++ bs) hlost (by omega) with
        hbad | ⟨out, c, hc, hcl⟩
      · exact Or.inl hbad
      · exact Or.inr ⟨bs ++ out, c, by simpa using hc, hcl⟩
    | whole c2 _ heq _ =>
      rw [hstep.contentLen, hstep.consumedContent] at heq
      omega

/-- Fetching a chunk fails, or ends the body behind its trailer, or leaves the connection
in front of the data of the chunk, unless the size is beyond `int64_t` or the next read
finds nothing. -/
inductive FetchOutcome (conn : Conn) : Fetched × Conn → Prop where
  | failed (c : Conn) : c.isChunked = 2 → FetchOutcome conn (.failed, c)
  | last (c : Conn) (e : List Byte) : c.Placed → c.isChunked = 4 → c.contentLen = c.consumedContent →
      conn.unread = e ++ c.unread → c.consumedContent = conn.consumedContent + e.length → ReadBody 0 e [] →
      FetchOutcome conn (.last, c)
  | chunk (c : Conn) (r : Nat) (e : List Byte) : c.AtChunk r → 0 < r → conn.unread = e ++ c.unread → e ≠ [] →
      c.consumedContent = conn.consumedContent + e.length → ReadPart 0 e [] r → FetchOutcome conn (.chunk, c)
  | lost (c : Conn) : c.Lost → c.unread.length < conn.unread.length → OversizedNext conn.unread →
      FetchOutcome conn (.chunk, c)
  | ended (c : Conn) : c.Placed → c.isChunked = 1 → c.wire.head?.join = none →
      c.unread.length < conn.unread.length → FetchOutcome conn (.chunk, c)

theorem fetchChunk_sound (conn : Conn) (h : conn.AtLine) (hch : conn.isChunked = 1)
    (hplain : ¬ PausedExtension conn.wire) : FetchOutcome conn (fetchChunk conn) := by
  have hread := readSizeLine_sound (lenbufSize - 1) [] [] conn conn.wire rfl hplain h (SizeText.digits [] (by simp))
  have hmoved := readSizeLine_moved (lenbufSize - 1) [] conn h.placed h.boundary.ge
  unfold fetchChunk
  generalize readSizeLine (lenbufSize - 1) [] conn = res at hread hmoved
  cases hread with
  | failed c hc => exact FetchOutcome.failed c hc
  | starved v c hc hcc =>
    by_cases hv : v = 0
    · have hst : Conn.Starved { c with isChunked := 3 } :=
        ⟨c.placed_isChunked 3 hc.placed, hc.ended, hc.wanting⟩
      obtain ⟨c2, hmiss, -⟩ := readOne_starved _ hst
      have hbad := skipTrailer_missed (Conn.unread { c with isChunked := 3 }).length 2 _ c2
        (by omega) rfl hmiss
      simp only [afterSize, hv, if_true, hbad]
      exact FetchOutcome.failed _ hbad
    · have h3 : ¬ c.isChunked = 3 := by omega
      simp only [afterSize, hv, if_false, h3]
      rcases hmoved with ⟨_, hbad, -⟩ | ⟨w, c', heq, -, hless⟩
      · cases hbad
      · rw [Prod.mk.injEq, Option.some.injEq] at heq
        rw [← heq.1, afterSize, afterSize, if_neg hv, if_neg hv] at heq
        rw [← heq.2] at hless
        exact FetchOutcome.ended _ (c.placed_contentLen _ hc.placed) (by rw [← hch, ← hcc]) hc.ended (hless rfl)
  | read v text e c hstep htext hline =>
    rw [List.nil_append] at htext
    subst htext
    have hat := hstep.atLine conn c _ h
    have hc1 : c.isChunked = 1 := by rw [hstep.isChunked, hch]
    by_cases hv : v = 0
    · obtain ⟨c3, hc3⟩ : ∃ c3, c3 = { c with isChunked := 3 } := ⟨_, rfl⟩
      have hat3 : c3.AtLine := by
        rw [hc3]
        exact ⟨c.placed_isChunked 3 hat.placed, hat.boundary⟩
      have hch3 : c3.isChunked = 3 := by rw [hc3]
      have hu3 : c3.unread = c.unread := by rw [hc3]; rfl
      have hcc3 : c3.consumedContent = c.consumedContent := by rw [hc3]
      simp only [afterSize, hv, if_true, ← hc3, hch3]
      have htrailer := skipTrailer_sound (c3.unread.length + 1) 2 c3 hat3 hch3 (by omega)
        (Nat.lt_succ_self _)
      generalize skipTrailer (c3.unread.length + 1) 2 c3 = c4 at htrailer
      rcases htrailer with hbad | ⟨e2, hstep2, he2⟩
      · rw [if_pos hbad]
        exact FetchOutcome.failed _ hbad
      · rw [if_neg (by rw [hstep2.isChunked, hch3]; omega)]
        have hu4 : conn.unread = text ++ CRLF ++ e2 ++ c4.unread := by
          rw [hstep.unread, ← hu3, hstep2.unread, List.append_assoc _ e2]
        have hcc4 : c4.consumedContent = conn.consumedContent + (text ++ CRLF ++ e2).length := by
          rw [hstep2.consumedContent, hcc3, hstep.consumedContent]
          simp only [List.length_append]
          ring
        subst hv
        exact FetchOutcome.last _ (text ++ CRLF ++ e2) (c4.placed_isChunked 4 hstep2.placed) rfl
          (hstep2.atLine c3 c4 _ hat3).boundary hu4
          hcc4 (ChunkedBody.last text e2 (hline.sizeLine text 0 (by omega)) he2)
    · have h3 : ¬ c.isChunked = 3 := by omega
      simp only [afterSize, hv, if_false, h3]
      by_cases hfits : v < 2 ^ 63
      · refine FetchOutcome.chunk _ v (text ++ CRLF) ?_ (by omega) hstep.unread (by simp [CRLF])
          hstep.consumedContent ?_
        · refine ⟨c.placed_contentLen _ hat.placed, hc1, ?_⟩
          simp only [toInt64, hfits, if_true, hat.boundary]
        · rw [← List.append_nil (text ++ CRLF)]
          exact ReadPart.size text [] [] v v (hline.sizeLine text v hfits) (by omega) (ReadPart.nil v)
      · have hmax : v ≤ ULONG_MAX := by
          obtain ⟨digits, ext, -, -, -, rfl, -⟩ := hline.shape
          exact min_le_left _ _
        have hsame : Conn.unread { c with contentLen := c.contentLen + toInt64 v } = c.unread := rfl
        refine FetchOutcome.lost _ ⟨c.placed_contentLen _ hat.placed, hc1, Or.inr ?_⟩ ?_
          ⟨text, v, c.unread, hstep.unread, hline, by omega⟩
        · simp only [toInt64, hfits, if_false, hat.boundary]
          rw [ULONG_MAX] at hmax
          push_cast
          omega
        · rw [hsame, hstep.unread, List.length_append, List.length_append, CRLF, List.length_cons]
          omega

theorem mgReadLoopFetches_turn (n : Nat) (conn : Conn) (len : Nat) (acc : List Byte) (hlen : 0 < len) :
    mgReadLoopFetches (n + 1) conn len acc = mgReadTurnFetches conn ++
      match mgReadTurn conn len acc with
      | .stop _ _ => []
      | .again c len acc => mgReadLoopFetches n c len acc := by
  have hmore : len ≠ 0 := by omega
  exact if_neg hmore

theorem mgReadLoop_sound (n : Nat) (conn : Conn) (r len : Nat) (acc : List Byte)
    (h : conn.AtChunk r) (hn : conn.unread.length < n)
    (hplain : ∀ c ∈ mgReadLoopFetches n conn len acc, ¬ PausedExtension c.wire) :
    ReadOutcome conn r len acc (mgReadLoop n conn len acc) := by
  have hend (c : Conn) (q : Nat) (a : List Byte) (hc : c.AtChunk q) :
      ReadOutcome c q 0 a (some a, c) := by
    have hstay := @ReadOutcome.more c q 0 a [] [] c q hc rfl rfl rfl le_rfl (ReadPart.nil q)
    rwa [List.append_nil] at hstay
  induction n generalizing conn r len acc with
  | zero => omega
  | succ n ih =>
    by_cases hz : len = 0
    · rw [hz, mgReadLoop, if_pos rfl]
      exact hend conn r acc h
    have hpos : 0 < len := by omega
    rw [mgReadLoopFetches_turn n conn len acc hpos] at hplain
    rw [mgReadLoop_turn n conn len acc hpos]
    by_cases hr : r = 0
    · -- at a size line
      subst hr
      have heq : (conn.consumedContent : Int) = conn.contentLen := by
        rw [h.left]
        simp
      have hat : conn.AtLine := ⟨h.placed, heq.symm⟩
      have hturn := mgReadTurn_fetch conn len acc h.chunked heq
      have hfetch := fetchChunk_sound conn hat h.chunked
        (hplain conn (List.mem_append_left _ (by simp [mgReadTurnFetches, h.chunked, heq])))
      generalize mgReadTurn conn len acc = turn at hturn hplain ⊢
      generalize fetchChunk conn = res at hfetch hturn
      cases hfetch with
      | failed c hc =>
        rw [hturn]
        exact ReadOutcome.failed c hc
      | last c e hplaced hc hlast hu hcc hbody =>
        have hdone := @ReadOutcome.done conn 0 len acc [] e c hplaced hc hlast hu hcc hbody
        rw [List.append_nil] at hdone
        rwa [hturn]
      | chunk c q e hc hq hu hne hcc hpart =>
        have hpos' := List.length_pos_of_ne_nil hne
        have hul := congrArg List.length hu
        rw [List.length_append] at hul
        rw [hturn] at hplain ⊢
        have hrec := ih c q len acc hc (by omega) fun c' hc' => hplain c' (List.mem_append_right _ hc')
        apply ReadOutcome.step conn c 0 q len acc e [] _ hu hcc (by simp) (by simp) hpart
        simpa using hrec
      | lost c hlost hle hnext =>
        rw [hturn]
        rcases mgReadLoop_lost n c len acc hlost (by omega) with
          ⟨c2, hc2, hbad⟩ | ⟨out, c2, hc2, hl2⟩
        · dsimp only
          rw [hc2]
          exact ReadOutcome.failed c2 hbad
        · dsimp only
          rw [hc2]
          exact ReadOutcome.lost out [] [] conn.unread c2 hl2 rfl (ReadPart.nil 0) hnext
      | ended c hplaced hc hnone hless =>
        rw [hturn]
        obtain ⟨m, rfl⟩ : ∃ m, n = m + 1 := ⟨n - 1, by omega⟩
        obtain ⟨c2, hc2, hbad⟩ := mgReadLoop_ended m c len acc hpos hc hplaced hnone
        dsimp only
        rw [hc2]
        exact ReadOutcome.failed c2 hbad
    · -- inside a chunk
      have hne : (conn.consumedContent : Int) ≠ conn.contentLen := by
        rw [h.left]
        omega
      have hturn := mgReadTurn_copy conn len acc h.chunked hne
      obtain ⟨bs, hread, hcopy⟩ := copyTurn_cases conn len acc h.placed
      obtain ⟨hstep, -, htaken, -⟩ := hread
      rw [← hturn] at hcopy
      generalize (mgReadInner conn len).2 = c1 at hstep htaken hcopy
      generalize mgReadTurn conn len acc = turn at hplain hcopy ⊢
      have hwanted : wanted conn len = min (min len INT_MAX) r := by
        rw [wanted, h.left]
        rw [if_neg (by omega)]
        omega
      have hlen : bs.length ≤ len ∧ bs.length ≤ r := by
        have hle := htaken.le
        rw [hwanted] at hle
        omega
      have hul := congrArg List.length hstep.unread
      rw [List.length_append] at hul
      cases hcopy with
      | failed c hbad _ => exact ReadOutcome.failed c hbad
      | within hnil hmore =>
        -- data of the chunk is left
        have hpos := List.length_pos_of_ne_nil hnil
        rw [hstep.contentLen, hstep.consumedContent, h.left] at hmore
        have hat : c1.AtChunk (r - bs.length) := by
          refine ⟨hstep.placed, by rw [hstep.isChunked, h.chunked], ?_⟩
          rw [hstep.contentLen, hstep.consumedContent, h.left]
          omega
        apply ReadOutcome.step conn c1 r (r - bs.length) len acc bs bs _ hstep.unread
          hstep.consumedContent hlen.1 le_rfl
        · have hpart := ReadPart.some bs [] [] (r - bs.length) (r - bs.length) (by omega) (ReadPart.nil _)
          rwa [show bs.length + (r - bs.length) = r by omega, List.append_nil] at hpart
        · exact ih c1 _ _ _ hat (by omega) fun c' hc' => hplain c' (List.mem_append_right _ hc')
      | whole c2 hnil hfull hstep2 =>
        -- the chunk is read whole
        have hpos := List.length_pos_of_ne_nil hnil
        rw [hstep.contentLen, hstep.consumedContent, h.left] at hfull
        have hrlen : bs.length = r := by omega
        have hat : c2.AtChunk 0 := by
          refine ⟨hstep2.placed, by rw [hstep2.isChunked, hstep.isChunked, h.chunked], ?_⟩
          rw [hstep2.contentLen, hstep2.consumedContent, hstep.contentLen, hstep.consumedContent,
            h.left]
          push_cast
          omega
        have hul2 := congrArg List.length hstep2.unread
        rw [List.length_append] at hul2
        have hu : conn.unread = bs ++ CRLF ++ c2.unread := by
          rw [hstep.unread, hstep2.unread, List.append_assoc]
        have hcc : c2.consumedContent = conn.consumedContent + (bs ++ CRLF).length := by
          rw [hstep2.consumedContent, hstep.consumedContent, List.length_append]
          ring
        apply ReadOutcome.step conn c2 r 0 len acc (bs ++ CRLF) bs _ hu hcc hlen.1 (by simp)
        · have hpart := ReadPart.data bs [] [] 0 hnil (ReadPart.nil 0)
          rwa [List.append_nil, List.append_nil, hrlen] at hpart
        · exact ih c2 _ _ _ hat (by omega) fun c' hc' => hplain c' (List.mem_append_right _ hc')

end CivetWeb
