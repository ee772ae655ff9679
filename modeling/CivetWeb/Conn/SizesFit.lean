import CivetWeb.Conn.SizeAhead
import CivetWeb.Conn.Tallies

namespace CivetWeb

/-! The sums with a number of the client among those of a read: there is one for each chunk that is fetched. -/

theorem mgReadInner_sizesFit (conn : Conn) (len : Nat) : ∀ t ∈ mgReadInnerTallies conn len, t.SizesFit := by
  unfold mgReadInnerTallies
  dsimp only
  generalize (if conn.contentLen < 0 then INT64_MAX else conn.contentLen) = total
  by_cases hmore : (conn.consumedContent : Int) < total
  · rw [if_pos hmore]
    simp only [List.forall_mem_cons]
    exact ⟨trivial, trivial, trivial, trivial, trivial, trivial, trivial, trivial, trivial, by simp⟩
  · rw [if_neg hmore]
    simp

theorem readOne_sizesFit (conn : Conn) : ∀ t ∈ readOneTallies conn, t.SizesFit := by
  rw [readOneTallies, List.forall_mem_append]
  refine ⟨?_, mgReadInner_sizesFit _ 1⟩
  simp only [List.forall_mem_cons]
  exact ⟨trivial, trivial, by simp⟩

theorem skipExtension_sizesFit (n : Nat) (conn : Conn) : ∀ t ∈ skipExtensionTallies n conn, t.SizesFit := by
  induction n generalizing conn with
  | zero => simp [skipExtensionTallies]
  | succ n ih =>
    rw [skipExtensionTallies, List.forall_mem_append]
    refine ⟨readOne_sizesFit conn, ?_⟩
    generalize readOne conn = res
    obtain ⟨r, c⟩ := res
    cases r with
    | none => simp
    | some b =>
      dsimp only
      split_ifs
      · simp
      · exact ih c

theorem readLenChar_sizesFit (lenbuf : List Byte) (conn : Conn) :
    ∀ t ∈ readLenCharTallies lenbuf conn, t.SizesFit := by
  rw [readLenCharTallies, List.forall_mem_append]
  refine ⟨readOne_sizesFit conn, ?_⟩
  dsimp only
  split_ifs
  · exact skipExtension_sizesFit _ _
  · simp

theorem readSizeLine_sizesFit (n : Nat) (lenbuf : List Byte) (conn : Conn) :
    ∀ t ∈ readSizeLineTallies n lenbuf conn, t.SizesFit := by
  induction n generalizing lenbuf conn with
  | zero => simp [readSizeLineTallies]
  | succ n ih =>
    rw [readSizeLineTallies, List.forall_mem_append]
    refine ⟨readLenChar_sizesFit lenbuf conn, ?_⟩
    dsimp only
    split_ifs
    · exact ih _ _
    · simp
    · simp
    · exact ih _ _

theorem skipTrailer_sizesFit (n crlfCount : Nat) (conn : Conn) :
    ∀ t ∈ skipTrailerTallies n crlfCount conn, t.SizesFit := by
  induction n generalizing crlfCount conn with
  | zero => simp [skipTrailerTallies]
  | succ n ih =>
    rw [skipTrailerTallies]
    by_cases hstop : 4 ≤ crlfCount ∨ conn.isChunked ≠ 3
    · rw [if_pos hstop]
      simp
    rw [if_neg hstop, List.forall_mem_append]
    refine ⟨readOne_sizesFit conn, ?_⟩
    generalize readOne conn = res
    obtain ⟨r, c⟩ := res
    cases r with
    | none => exact ih _ _
    | some b =>
      dsimp only
      split_ifs
      · exact ih _ _
      · exact ih _ _
      · exact ih _ _
      · exact ih _ _

theorem copyTurn_sizesFit (conn : Conn) (len : Nat) : ∀ t ∈ copyTurnTallies conn len, t.SizesFit := by
  rw [copyTurnTallies, List.forall_mem_append]
  refine ⟨mgReadInner_sizesFit conn len, ?_⟩
  generalize mgReadInner conn len = res
  obtain ⟨r, c⟩ := res
  cases r with
  | none => simp
  | some bs =>
    dsimp only
    split_ifs
    · simp
    · rw [List.forall_mem_append]
      refine ⟨?_, mgReadInner_sizesFit _ 2⟩
      simp only [List.forall_mem_cons]
      exact ⟨trivial, trivial, by simp⟩
    · simp

/-- The size of a chunk is added to what is consumed of the body and the reads of its size line. -/
theorem fetchChunk_sizesFit (conn : Conn) (h : conn.Placed) (hch : conn.isChunked = 1)
    (hline : (conn.consumedContent : Int) = conn.contentLen) :
    (∀ t ∈ fetchChunkTallies conn, t.SizesFit) ↔ conn.NextSizeFits := by
  have hread := readSizeLine_looked (lenbufSize - 1) [] conn h hline.le (.digits [] (by simp))
  rw [fetchChunkTallies, List.forall_mem_append, and_iff_right (readSizeLine_sizesFit _ _ conn), Conn.NextSizeFits]
  generalize sizeTextAhead (lenbufSize - 1) [] conn.wire = ahead at hread
  generalize readSizeLine (lenbufSize - 1) [] conn = res at hread
  cases hread with
  | failed c => simp
  | read text reads v rest c hlook hv =>
    have hsize : v = 0 ↔ lineSize text = 0 := by
      rw [hv, ULONG_MAX]
      omega
    have hmax : c.contentLen + v ≤ INT64_MAX ↔
        ((conn.consumedContent + reads + lineSize text : Nat) : Int) ≤ INT64_MAX := by
      rw [hlook.contentLen, ← hline, hv, INT64_MAX, ULONG_MAX]
      push_cast
      omega
    have hopen : c.isChunked = 1 := hlook.moved.isChunked.trans hch
    simp only [Option.mem_some_iff, forall_eq']
    by_cases hz : v = 0
    · have hlast : (afterSize c v).isChunked = 3 := by rw [afterSize, if_pos hz]
      have hnone : ¬ 0 < lineSize text := by
        rw [← hsize.mp hz]
        exact lt_irrefl _
      rw [if_pos hlast]
      exact iff_of_true (skipTrailer_sizesFit _ 2 _) (fun hpos => absurd hpos hnone)
    · have hafter : afterSize c v = c := by rw [afterSize, if_neg hz]
      have hpos : 0 < lineSize text := Nat.pos_of_ne_zero (fun h0 => hz (hsize.mpr h0))
      rw [hafter, if_neg (by omega)]
      simp only [List.forall_mem_cons]
      constructor
      · rintro ⟨hfit, -⟩ -
        exact hmax.mp hfit
      · intro hfit
        exact ⟨hmax.mpr (hfit hpos), trivial, by simp⟩

theorem mgReadTurn_sizesFit (conn : Conn) (len : Nat) (h : conn.Placed) :
    (∀ t ∈ mgReadTurnTallies conn len, t.SizesFit) ↔ ∀ c ∈ mgReadTurnFetches conn, c.NextSizeFits := by
  unfold mgReadTurnTallies mgReadTurnFetches
  by_cases hch : conn.isChunked = 1
  swap
  · have hno : ¬ (conn.isChunked = 1 ∧ (conn.consumedContent : Int) = conn.contentLen) := fun hf => hch hf.1
    rw [if_neg hno]
    split_ifs
    · simp
    · simp
  rw [if_neg (by omega), if_neg (not_not.mpr hch)]
  by_cases hline : (conn.consumedContent : Int) = conn.contentLen
  · rw [if_neg (not_not.mpr hline), if_pos ⟨hch, hline⟩, List.forall_mem_singleton]
    exact fetchChunk_sizesFit conn h hch hline
  · rw [if_pos hline, if_neg (fun hf => hline hf.2)]
    exact iff_of_true (copyTurn_sizesFit conn len) (by simp)

theorem mgReadLoop_sizesFit (n : Nat) (conn : Conn) (len : Nat) (allRead : List Byte) (h : conn.Placed) :
    (∀ t ∈ mgReadLoopTallies n conn len allRead, t.SizesFit) ↔
      ∀ c ∈ mgReadLoopFetches n conn len allRead, c.NextSizeFits := by
  induction n generalizing conn len allRead with
  | zero => simp [mgReadLoopTallies, mgReadLoopFetches]
  | succ n ih =>
    have hturn := (mgReadTurn_frame conn len allRead).placed conn _ h
    unfold mgReadLoopTallies mgReadLoopFetches
    split_ifs
    · simp
    rw [List.forall_mem_append, List.forall_mem_append, mgReadTurn_sizesFit conn len h]
    generalize mgReadTurn conn len allRead = turn at hturn
    cases turn with
    | stop r c => simp
    | again c len allRead => exact and_congr_right fun _ => ih c len allRead hturn

theorem mgRead_sizesFit (conn : Conn) (len : Nat) (h : conn.Placed) :
    (∀ t ∈ mgReadTallies conn len, t.SizesFit) ↔ ∀ c ∈ mgReadFetches conn len, c.NextSizeFits := by
  unfold mgReadTallies mgReadFetches
  dsimp only
  split_ifs
  · exact mgReadLoop_sizesFit _ conn _ _ h
  · exact iff_of_true (mgReadInner_sizesFit conn _) (by simp)

/-- Of a whole handler the chunks that it comes to are what counts. -/
theorem handler_sizesFit (handler : Handler) (conn : Conn) (h : conn.Placed) :
    (∀ t ∈ handler.tallies conn, t.SizesFit) ↔ ∀ c ∈ handler.fetches conn, c.NextSizeFits := by
  induction handler generalizing conn with
  | done mustClose => simp [Handler.tallies, Handler.fetches]
  | read len next ih =>
    rw [Handler.tallies, Handler.fetches, List.forall_mem_append, List.forall_mem_append, mgRead_sizesFit conn len h,
      ih _ _ ((mgRead_frame conn len).placed conn _ h)]

end CivetWeb
