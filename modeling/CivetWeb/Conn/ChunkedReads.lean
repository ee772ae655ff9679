import CivetWeb.Conn.ChunkedSound

namespace CivetWeb

/-- The data that successive reads have returned. -/
def delivered (rs : List (Option (List Byte))) : List Byte := rs.flatMap (fun r => r.getD [])

theorem mgReads_cons (conn : Conn) (len : Nat) (lens : List Nat) :
    mgReads conn (len :: lens) =
      ((mgRead conn len).1 :: (mgReads (mgRead conn len).2 lens).1,
        (mgReads (mgRead conn len).2 lens).2) := rfl

theorem mgRead_chunked (conn : Conn) (len : Nat) (h : conn.isChunked ≠ 0) :
    mgRead conn len = mgReadLoop (conn.unread.length + 1) conn (min len INT_MAX) [] := by
  rw [mgRead]
  simp only [h, ne_eq, not_false_eq_true, if_true]

/-- A connection that has failed or read its whole body stays as it is. -/
theorem mgRead_over (conn : Conn) (len : Nat) (h : conn.isChunked = 2 ∨ 3 ≤ conn.isChunked) :
    (mgRead conn len).2 = conn ∧ (3 ≤ conn.isChunked → (mgRead conn len).1 = some []) ∧
      (conn.isChunked = 2 → 0 < len → (mgRead conn len).1 = none) := by
  rw [mgRead_chunked conn len (by omega)]
  cases hm : min len INT_MAX with
  | zero =>
    refine ⟨rfl, fun _ => rfl, ?_⟩
    intro _ hlen
    rw [INT_MAX] at hm
    omega
  | succ m =>
    rw [mgReadLoop_turn _ conn (m + 1) [] (by omega), mgReadTurn]
    rcases h with h | h
    · simp [h]
    · simp only [h, if_true, true_and, forall_const]
      omega

theorem mgReads_over (conn : Conn) (lens : List Nat) (h : conn.isChunked = 2 ∨ 3 ≤ conn.isChunked) :
    (mgReads conn lens).2 = conn ∧ (3 ≤ conn.isChunked → delivered (mgReads conn lens).1 = []) := by
  induction lens with
  | nil => exact ⟨rfl, fun _ => rfl⟩
  | cons len lens ih =>
    obtain ⟨h1, h2, -⟩ := mgRead_over conn len h
    rw [mgReads_cons, h1]
    refine ⟨ih.1, fun h3 => ?_⟩
    have hrest := ih.2 h3
    rw [delivered] at hrest ⊢
    rw [List.flatMap_cons, h2 h3, hrest]
    rfl

/-- Where a run of reads stands that began with `r` bytes of a chunk left. -/
inductive ReadsOutcome (conn : Conn) (r : Nat) : List (Option (List Byte)) × Conn → Prop where
  | failed (rs : List (Option (List Byte))) (c : Conn) : c.isChunked = 2 → ReadsOutcome conn r (rs, c)
  | more (rs : List (Option (List Byte))) (c : Conn) : c.isChunked = 1 → ReadsOutcome conn r (rs, c)
  | done (rs : List (Option (List Byte))) (e : List Byte) (c : Conn) : c.isChunked = 4 →
      conn.unread = e ++ c.unread → c.consumedContent = conn.consumedContent + e.length →
      ReadBody r e (delivered rs) → ReadsOutcome conn r (rs, c)

theorem mgReads_lost (conn : Conn) (lens : List Nat) (h : conn.Lost) :
    (mgReads conn lens).2.isChunked = 2 ∨ (mgReads conn lens).2.isChunked = 1 := by
  induction lens generalizing conn with
  | nil => exact .inr h.chunked
  | cons len lens ih =>
    have hch := h.chunked
    rw [mgReads_cons, mgRead_chunked conn len (by omega)]
    rcases mgReadLoop_lost (conn.unread.length + 1) conn (min len INT_MAX) [] h (Nat.lt_succ_self _) with
      ⟨c, hc, hbad⟩ | ⟨out, c, hc, hlost⟩
    · rw [hc]
      left
      rw [(mgReads_over c lens (Or.inl hbad)).1]
      exact hbad
    · rw [hc]
      exact ih c hlost

theorem mgRead_sound (conn : Conn) (r len : Nat) (h : conn.AtChunk r)
    (hplain : ∀ c ∈ mgReadFetches conn len, ¬ PausedExtension c.wire) :
    ReadOutcome conn r (min len INT_MAX) [] (mgRead conn len) := by
  have hch := h.chunked
  rw [mgReadFetches, if_pos (by omega)] at hplain
  rw [mgRead_chunked conn len (by omega)]
  exact mgReadLoop_sound _ conn r _ [] h (Nat.lt_succ_self _) hplain

theorem mgReads_sound (conn : Conn) (r : Nat) (h : conn.AtChunk r) (lens : List Nat)
    (hplain : ∀ c ∈ mgReadsFetches conn lens, ¬ PausedExtension c.wire) :
    ReadsOutcome conn r (mgReads conn lens) := by
  induction lens generalizing conn r with
  | nil => exact ReadsOutcome.more [] conn h.chunked
  | cons len lens ih =>
    rw [mgReadsFetches] at hplain
    rw [mgReads_cons]
    have hread := mgRead_sound conn r len h fun c hc => hplain c (List.mem_append_left _ hc)
    generalize mgRead conn len = res at hread hplain
    cases hread with
    | failed c hbad =>
      apply ReadsOutcome.failed
      rw [(mgReads_over c lens (Or.inl hbad)).1]
      exact hbad
    | lost out e d u c hlost _ _ _ =>
      rcases mgReads_lost c lens hlost with hbad | hstill
      · exact ReadsOutcome.failed _ _ hbad
      · exact ReadsOutcome.more _ _ hstill
    | done out e c _ h4 _ hu hcc hbody =>
      obtain ⟨hsame, hnone⟩ := mgReads_over c lens (Or.inr (by omega))
      rw [hsame]
      refine ReadsOutcome.done _ e c h4 hu hcc ?_
      have hrest := hnone (by omega)
      rw [delivered] at hrest ⊢
      rw [List.flatMap_cons, hrest, List.append_nil]
      exact hbody
    | more out e c r' hat hu hcc _ _ hpart =>
      have hsum (rs : List (Option (List Byte))) :
          delivered (some ([] ++ out) :: rs) = out ++ delivered rs := rfl
      have hrec := ih c r' hat fun c' hc' => hplain c' (List.mem_append_right _ hc')
      generalize mgReads c lens = rest at hrec
      cases hrec with
      | failed rs c2 hbad => exact ReadsOutcome.failed _ _ hbad
      | more rs c2 hstill => exact ReadsOutcome.more _ _ hstill
      | done rs f c2 h4 hu2 hcc2 hbody2 =>
        refine ReadsOutcome.done _ (e ++ f) c2 h4 ?_ ?_ ?_
        · rw [hu, hu2, List.append_assoc]
        · rw [hcc2, hcc, List.length_append]
          ring
        · rw [hsum]
          exact hpart.body _ _ _ _ _ _ hbody2

/-- A turn of the loop of `mg_read` ends in an error or behind the trailer, or it has taken bytes off the stream. -/
inductive TurnMoved (conn : Conn) : ReadTurn → Prop where
  | failed (c : Conn) : c.isChunked = 2 → TurnMoved conn (.stop none c)
  | last (acc : List Byte) (c : Conn) : c.isChunked = 4 → TurnMoved conn (.stop (some acc) c)
  | again (c : Conn) (len : Nat) (acc : List Byte) : c.Placed → c.isChunked = 1 →
      c.unread.length < conn.unread.length → (Steady conn.sock → Steady c.sock) → TurnMoved conn (.again c len acc)

theorem fetchChunk_moved (conn : Conn) (h : conn.Placed) (heq : (conn.consumedContent : Int) = conn.contentLen) :
    ∃ f c, fetchChunk conn = (f, c) ∧
      (f = .failed ∧ c.isChunked = 2 ∨ f = .last ∧ c.isChunked = 4 ∨
        f = .chunk ∧ c.Placed ∧ c.isChunked = conn.isChunked ∧ c.unread.length < conn.unread.length ∧
          (Steady conn.sock → Steady c.sock)) := by
  have hmoved := readSizeLine_moved (lenbufSize - 1) [] conn h heq.le
  unfold fetchChunk
  generalize readSizeLine (lenbufSize - 1) [] conn = res at hmoved
  rcases hmoved with ⟨c, rfl, hbad⟩ | ⟨v, c, rfl, hmoved, hless⟩
  · exact ⟨_, c, rfl, .inl ⟨rfl, hbad⟩⟩
  obtain ⟨c1, hc1⟩ : ∃ c1, c1 = afterSize c v := ⟨_, rfl⟩
  rw [← hc1]
  by_cases h3 : c1.isChunked = 3
  · simp only [h3, if_true]
    by_cases h2 : (skipTrailer (c1.unread.length + 1) 2 c1).isChunked = 2
    · exact ⟨_, _, if_pos h2, .inl ⟨rfl, h2⟩⟩
    · exact ⟨_, _, if_neg h2, .inr (.inl ⟨rfl, rfl⟩)⟩
  · simp only [h3, if_false]
    have hv : v ≠ 0 := fun hv => h3 (by rw [hc1, afterSize, if_pos hv])
    rw [afterSize, if_neg hv] at hc1
    rw [hc1]
    exact ⟨_, _, rfl, .inr (.inr ⟨rfl, c.placed_contentLen _ hmoved.placed, hmoved.isChunked, hless rfl,
      hmoved.steady⟩)⟩

theorem mgReadTurn_moved (conn : Conn) (len : Nat) (acc : List Byte) (h : conn.Placed) (hch : conn.isChunked = 1) :
    TurnMoved conn (mgReadTurn conn len acc) := by
  by_cases heq : (conn.consumedContent : Int) = conn.contentLen
  · rw [mgReadTurn_fetch conn len acc hch heq]
    obtain ⟨f, c, hc, ⟨rfl, hbad⟩ | ⟨rfl, h4⟩ | ⟨rfl, hplaced, hsame, hless, hsteady⟩⟩ :=
      fetchChunk_moved conn h heq
    · rw [hc]
      exact .failed c hbad
    · rw [hc]
      exact .last acc c h4
    · rw [hc]
      exact .again c len acc hplaced (hsame.trans hch) hless hsteady
  · rw [mgReadTurn_copy conn len acc hch heq]
    obtain ⟨bs, hread, hcopy⟩ := copyTurn_cases conn len acc h
    obtain ⟨hstep, -, -, -⟩ := hread
    generalize (mgReadInner conn len).2 = c1 at hstep hcopy
    generalize copyTurn conn len acc = turn at hcopy
    have hul := congrArg List.length hstep.unread
    rw [List.length_append] at hul
    have hch1 : c1.isChunked = 1 := by rw [hstep.isChunked, hch]
    cases hcopy with
    | failed c hbad _ => exact .failed c hbad
    | within hne _ =>
      have hpos := List.length_pos_of_ne_nil hne
      exact .again c1 _ _ hstep.placed hch1 (by omega) hstep.steady
    | whole c2 hne _ hstep2 =>
      have hpos := List.length_pos_of_ne_nil hne
      have hul2 := congrArg List.length hstep2.unread
      rw [List.length_append] at hul2
      exact .again c2 _ _ hstep2.placed (by rw [hstep2.isChunked, hch1]) (by omega)
        fun hs => hstep2.steady (hstep.steady hs)

/-- A read ends in an error or behind the trailer, or it has taken bytes off the stream where it was to read any. -/
inductive LoopMoved (conn : Conn) (len : Nat) : Option (List Byte) × Conn → Prop where
  | failed (c : Conn) : c.isChunked = 2 → LoopMoved conn len (none, c)
  | last (acc : List Byte) (c : Conn) : c.isChunked = 4 → LoopMoved conn len (some acc, c)
  | more (acc : List Byte) (c : Conn) : c.Placed → c.isChunked = 1 →
      c.unread.length + min len 1 ≤ conn.unread.length → (Steady conn.sock → Steady c.sock) →
      LoopMoved conn len (some acc, c)

theorem mgReadLoop_moved (n : Nat) (conn : Conn) (len : Nat) (acc : List Byte) (h : conn.Placed)
    (hch : conn.isChunked = 1) (hn : conn.unread.length < n) : LoopMoved conn len (mgReadLoop n conn len acc) := by
  induction n generalizing conn len acc with
  | zero => omega
  | succ n ih =>
    by_cases hz : len = 0
    · rw [hz, mgReadLoop, if_pos rfl]
      exact .more acc conn h hch (by omega) fun hs => hs
    have hturn := mgReadTurn_moved conn len acc h hch
    rw [mgReadLoop_turn n conn len acc (by omega)]
    generalize mgReadTurn conn len acc = turn at hturn
    cases hturn with
    | failed c hbad => exact .failed c hbad
    | last acc c h4 => exact .last acc c h4
    | again c len' acc hplaced hch1 hless hsteady =>
      have hrec := ih c len' acc hplaced hch1 (by omega)
      dsimp only
      generalize mgReadLoop n c len' acc = res at hrec
      cases hrec with
      | failed c2 hbad => exact .failed c2 hbad
      | last acc c2 h4 => exact .last acc c2 h4
      | more acc c2 hplaced2 hch2 hle hsteady2 =>
        exact .more acc c2 hplaced2 hch2 (by omega) fun hs => hsteady2 (hsteady hs)

/-- Only in front of a size line a chunk is fetched. -/
theorem mgReadLoopFetches_over (n : Nat) (conn : Conn) (len : Nat) (acc : List Byte) (hch : conn.isChunked ≠ 1) :
    mgReadLoopFetches n conn len acc = [] := by
  cases n with
  | zero => rfl
  | succ n =>
    have hnone : mgReadTurnFetches conn = [] := if_neg fun h => hch h.1
    rw [mgReadLoopFetches, hnone, mgReadTurn]
    split_ifs <;> rfl

theorem mgReadLoopFetches_steady (n : Nat) (conn : Conn) (len : Nat) (acc : List Byte) (h : conn.Placed)
    (hs : Steady conn.sock) : ∀ c ∈ mgReadLoopFetches n conn len acc, Steady c.sock := by
  induction n generalizing conn len acc with
  | zero => exact fun c hc => absurd hc List.not_mem_nil
  | succ n ih =>
    by_cases hch : conn.isChunked = 1
    swap
    · rw [mgReadLoopFetches_over _ conn len acc hch]
      exact fun c hc => absurd hc List.not_mem_nil
    by_cases hz : len = 0
    · rw [mgReadLoopFetches, if_pos hz]
      exact fun c hc => absurd hc List.not_mem_nil
    have hturn := mgReadTurn_moved conn len acc h hch
    intro c hc
    rw [mgReadLoopFetches_turn n conn len acc (by omega), List.mem_append] at hc
    rcases hc with hc | hc
    · rw [mgReadTurnFetches] at hc
      split_ifs at hc
      · rwa [List.mem_singleton.mp hc]
      · exact absurd hc List.not_mem_nil
    generalize mgReadTurn conn len acc = turn at hturn hc
    cases hturn with
    | failed _ _ => exact absurd hc List.not_mem_nil
    | last _ _ _ => exact absurd hc List.not_mem_nil
    | again c1 len' acc hplaced _ _ hsteady => exact ih c1 len' acc hplaced (hsteady hs) c hc

/-- A steady socket pauses in no extension. -/
theorem mgReadFetches_unpaused (conn : Conn) (len : Nat) (h : conn.Placed) (hs : Steady conn.sock) :
    ∀ c ∈ mgReadFetches conn len, ¬ PausedExtension c.wire := by
  intro c hc
  rw [mgReadFetches] at hc
  split_ifs at hc
  · exact unpaused_unbroken _ (c.unbroken (mgReadLoopFetches_steady _ conn _ [] h hs c hc))
  · exact absurd hc List.not_mem_nil

theorem mgReadsFetches_over (conn : Conn) (lens : List Nat) (h : conn.isChunked = 2 ∨ 3 ≤ conn.isChunked) :
    mgReadsFetches conn lens = [] := by
  induction lens with
  | nil => rfl
  | cons len lens ih =>
    rw [mgReadsFetches, (mgRead_over conn len h).1, ih, mgReadFetches, mgReadLoopFetches_over _ conn _ _ (by omega),
      ite_self, List.nil_append]

theorem mgReadsFetches_unpaused (conn : Conn) (lens : List Nat) (h : conn.Placed) (hch : conn.isChunked = 1)
    (hs : Steady conn.sock) : ∀ c ∈ mgReadsFetches conn lens, ¬ PausedExtension c.wire := by
  induction lens generalizing conn with
  | nil => exact fun c hc => absurd hc List.not_mem_nil
  | cons len lens ih =>
    intro c hc
    rw [mgReadsFetches, List.mem_append] at hc
    rcases hc with hc | hc
    · exact mgReadFetches_unpaused conn len h hs c hc
    have hmoved := mgReadLoop_moved (conn.unread.length + 1) conn (min len INT_MAX) [] h hch (Nat.lt_succ_self _)
    rw [← mgRead_chunked conn len (by omega)] at hmoved
    generalize mgRead conn len = res at hmoved hc
    cases hmoved with
    | failed c1 hbad =>
      rw [mgReadsFetches_over c1 lens (.inl hbad)] at hc
      exact absurd hc List.not_mem_nil
    | last acc c1 h4 =>
      rw [mgReadsFetches_over c1 lens (.inr (by omega))] at hc
      exact absurd hc List.not_mem_nil
    | more acc c1 hplaced hch1 _ hsteady => exact ih c1 hplaced hch1 (hsteady hs) c hc

/-- Reads of positive length come to the end of the body, or to an error. -/
theorem mgReads_ends (conn : Conn) (h : conn.Placed) (hch : conn.isChunked = 1) (lens : Nat → Nat)
    (hlens : ∀ i, 0 < lens i) :
    ∃ n, (mgReads conn ((List.range n).map lens)).2.isChunked = 4 ∨
      ((mgReads conn ((List.range n).map lens)).2.isChunked = 2 ∧
        (mgReads conn ((List.range n).map lens)).1.getLast? = some none) := by
  induction hk : conn.unread.length using Nat.strong_induction_on generalizing conn lens with
  | _ k ih =>
    have hpos : 0 < min (lens 0) INT_MAX := by
      have := hlens 0
      rw [INT_MAX]
      omega
    have hfirst : (List.range 1).map lens = [lens 0] := rfl
    have hmoved := mgReadLoop_moved (conn.unread.length + 1) conn (min (lens 0) INT_MAX) [] h hch (Nat.lt_succ_self _)
    rw [← mgRead_chunked conn (lens 0) (by omega)] at hmoved
    generalize hres : mgRead conn (lens 0) = res at hmoved
    cases hmoved with
    | failed c hbad =>
      refine ⟨1, .inr ?_⟩
      rw [hfirst, mgReads_cons, hres]
      exact ⟨hbad, rfl⟩
    | last acc c h4 =>
      refine ⟨1, .inl ?_⟩
      rw [hfirst, mgReads_cons, hres]
      exact h4
    | more acc c hplaced hch1 hle _ =>
      -- the later reads find less to read
      obtain ⟨n, hn⟩ := ih c.unread.length (by omega) c hplaced hch1 (fun i => lens (i + 1))
        (fun i => hlens (i + 1)) rfl
      have hlist : (List.range (n + 1)).map lens =
          lens 0 :: (List.range n).map (fun i => lens (i + 1)) := by
        rw [List.range_succ_eq_map, List.map_cons, List.map_map]
        rfl
      refine ⟨n + 1, ?_⟩
      rw [hlist, mgReads_cons, hres]
      refine hn.imp_right fun hend => ⟨hend.1, ?_⟩
      dsimp only
      rw [List.getLast?_cons, hend.2]
      rfl

/-- A connection behind the head of a request with a chunked body. -/
structure Conn.AtBody (conn : Conn) : Prop where
  placed : conn.Placed
  chunked : conn.isChunked = 1
  content : conn.contentLen = 0
  consumed : conn.consumedContent = 0

/-- A connection behind the head of a request with a chunked body, on a socket that delivers its stream. -/
structure Conn.BodyStart (conn : Conn) : Prop extends conn.AtBody where
  steady : Steady conn.sock

theorem Conn.AtBody.atChunk (conn : Conn) (h : conn.AtBody) : conn.AtChunk 0 :=
  ⟨h.placed, h.chunked, by rw [h.content, h.consumed]; rfl⟩

/-- Reads that come to the end of the body: where they have taken over a body of the grammar, and returned its data,
no line of it has a CR or LF inside; and where none has, they have taken over a body of the grammar, unless a chunk
extension was paused. All reading comes to the end of the body or to an error. -/
theorem mgReads_grammar (conn : Conn) (h : conn.AtBody) :
    (∀ lens, (mgReads conn lens).2.isChunked = 4 →
      (∀ c ∈ mgReadsFetches conn lens, ¬ PausedExtension c.wire) →
      (GrammarBody 0 (conn.unread.take (mgReads conn lens).2.consumedContent)
          (delivered (mgReads conn lens).1) ↔
        ∀ line ∈ bodyLines conn.unread, CleanLine line)) ∧
    ∀ lens : Nat → Nat, (∀ i, 0 < lens i) →
      ∃ n, (mgReads conn ((List.range n).map lens)).2.isChunked = 4 ∨
        ((mgReads conn ((List.range n).map lens)).2.isChunked = 2 ∧
          (mgReads conn ((List.range n).map lens)).1.getLast? = some none) := by
  refine ⟨?_, fun lens hlens => mgReads_ends conn h.placed h.chunked lens hlens⟩
  intro lens h4 hplain
  have hout := mgReads_sound conn 0 h.atChunk lens hplain
  generalize mgReads conn lens = res at hout h4
  cases hout with
  | failed rs c hbad =>
    dsimp only at h4
    omega
  | more rs c hstill =>
    dsimp only at h4
    omega
  | done rs e c _ hu hcc hbody =>
    have hlen : c.consumedContent = e.length := by
      rw [hcc, h.consumed]
      ring
    dsimp only
    rw [hlen, hu, List.take_left, bodyLines]
    constructor
    · intro hg
      have hlines := lines_of_grammar 0 e _ hg (e ++ c.unread).length c.unread
      rwa [linesAfter, if_pos rfl] at hlines
    · intro hlines
      apply grammar_of_lines 0 e _ hbody (e ++ c.unread).length (by simp) c.unread
      rwa [linesAfter, if_pos rfl]

/-- A connection whose body is still in the socket, all of it. -/
def bodyConn (stream : List Byte) : Conn where
  ssl := false
  domains := []
  domCtx := 0
  lsaPort := 80
  sock := [.data stream]
  buf := []
  dataLen := 0
  requestLen := 0
  contentLen := 0
  consumedContent := 0
  isChunked := 1
  mustClose := false
  handledRequests := 0
  protocolType := 0
  requestInfo := ⟨[], [], [], []⟩
  infoContentLength := -1
  localUri := none

theorem bodyConn_start (stream : List Byte) : (bodyConn stream).BodyStart := by
  refine ⟨⟨⟨le_rfl, le_rfl, le_rfl⟩, rfl, rfl, rfl⟩, ?_⟩
  by_cases h : stream = [] <;> simp [bodyConn, Steady, sockBytes, h]

theorem mgReads_grammar_hello :
    GrammarBody 0 (ascii "5;a=b\r\nhello\r\n0\r\nT: u\r\n\r\n") (ascii "hello") :=
  ((mgReads_grammar (bodyConn (ascii "5;a=b\r\nhello\r\n0\r\nT: u\r\n\r\nGET")) (bodyConn_start _).toAtBody).1
    [3, 7] (by decide +kernel)
    (mgReadsFetches_unpaused _ _ (bodyConn_start _).placed rfl (bodyConn_start _).steady)).mpr (by decide +kernel)

/-- A digit behind a CR inside the size line is passed over. -/
theorem mgReads_grammar_digit_behind_cr :
    ¬ ∀ (conn : Conn), conn.AtBody → ∀ lens, (mgReads conn lens).2.isChunked = 4 →
      GrammarBody 0 (conn.unread.take (mgReads conn lens).2.consumedContent)
        (delivered (mgReads conn lens).1) := by
  intro h
  have hg := h (bodyConn (ascii "5\r6\r\nhello\r\n0\r\n\r\n")) (bodyConn_start _).toAtBody [10] (by decide +kernel)
  have hlines := lines_of_grammar 0 _ _ hg 1 []
  exact absurd hlines (by decide +kernel)

end CivetWeb
