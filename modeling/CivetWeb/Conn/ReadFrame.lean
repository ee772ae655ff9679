import CivetWeb.Conn.ChunkedRead

namespace CivetWeb

/-- Reading a body changes nothing but the counters and the socket, which only shrinks; a chunked body stays one. -/
structure BodyFrame (conn c : Conn) : Prop where
  frame : c = { conn with
    consumedContent := c.consumedContent, contentLen := c.contentLen, isChunked := c.isChunked,
    sock := c.sock }
  sock_le : (sockBytes c.sock).length ≤ (sockBytes conn.sock).length
  steady : Steady conn.sock → Steady c.sock
  chunked : conn.isChunked ≠ 0 → c.isChunked ≠ 0

theorem BodyFrame.refl (conn : Conn) : BodyFrame conn conn := ⟨rfl, le_rfl, fun hs => hs, fun hc => hc⟩

theorem BodyFrame.trans (c1 c2 c3 : Conn) (h : BodyFrame c1 c2) (h' : BodyFrame c2 c3) :
    BodyFrame c1 c3 := by
  refine ⟨?_, h'.sock_le.trans h.sock_le, fun hs => h'.steady (h.steady hs), fun hc => h'.chunked (h.chunked hc)⟩
  conv_lhs => rw [h'.frame, h.frame]

theorem BodyFrame.contentLen (conn : Conn) (n : Int) :
    BodyFrame conn { conn with contentLen := n } := ⟨rfl, le_rfl, fun hs => hs, fun hc => hc⟩

theorem BodyFrame.isChunked (conn : Conn) (n : Nat) (hn : n ≠ 0) :
    BodyFrame conn { conn with isChunked := n } := ⟨rfl, le_rfl, fun hs => hs, fun _ => hn⟩

theorem BodyFrame.placed (conn c : Conn) (h : BodyFrame conn c) (hp : conn.Placed) : c.Placed := by
  rw [h.frame]
  exact ⟨hp.head_nonneg, hp.head_le, hp.data_le⟩

theorem mgReadInner_frame (conn : Conn) (len : Nat) : BodyFrame conn (mgReadInner conn len).2 := by
  have hpull (k : Nat) : (sockBytes (pullAll conn.sock k).2).length ≤ (sockBytes conn.sock).length := by
    have hsplit := congrArg List.length (pullLoop_split conn.sock k).1
    rw [List.length_append] at hsplit
    show (sockBytes (pullLoop conn.sock k).sock).length ≤ _
    omega
  have hsteady (k : Nat) (hs : Steady conn.sock) : Steady (pullAll conn.sock k).2 :=
    (pullLoop_steady conn.sock k hs).2.2
  unfold mgReadInner
  dsimp only
  generalize (if conn.contentLen < 0 then INT64_MAX else conn.contentLen) = total
  by_cases hmore : (conn.consumedContent : Int) < total
  · rw [if_pos hmore]
    split
    · exact ⟨rfl, hpull _, hsteady _, fun hc => hc⟩
    · exact ⟨rfl, hpull _, hsteady _, fun hc => hc⟩
  · rw [if_neg hmore]
    exact BodyFrame.refl conn

theorem readOne_frame (conn : Conn) : BodyFrame conn (readOne conn).2 :=
  (BodyFrame.contentLen conn _).trans _ _ _ (mgReadInner_frame _ 1)

theorem skipExtension_frame (n : Nat) (x : Byte) (conn : Conn) :
    BodyFrame conn (skipExtension n x conn).2 := by
  induction n generalizing x conn with
  | zero => exact BodyFrame.refl conn
  | succ n ih =>
    have hone := readOne_frame conn
    unfold skipExtension
    cases hr : readOne conn with
    | mk r c =>
      rw [hr] at hone
      cases r with
      | none => exact hone
      | some b =>
        dsimp only
        split_ifs
        · exact hone
        · exact hone.trans _ _ _ (ih b c)

theorem readLenChar_frame (lenbuf : List Byte) (conn : Conn) :
    BodyFrame conn (readLenChar lenbuf conn).2 := by
  have hone := readOne_frame conn
  unfold readLenChar
  cases hr : readOne conn with
  | mk r c =>
    rw [hr] at hone
    dsimp only
    split_ifs
    · exact hone.trans _ _ _ (skipExtension_frame _ _ c)
    · exact hone

theorem readSizeLine_frame (n : Nat) (lenbuf : List Byte) (conn : Conn) :
    BodyFrame conn (readSizeLine n lenbuf conn).2 := by
  induction n generalizing lenbuf conn with
  | zero => exact BodyFrame.isChunked conn 2 (by decide)
  | succ n ih =>
    have hchar := readLenChar_frame lenbuf conn
    unfold readSizeLine
    cases hr : readLenChar lenbuf conn with
    | mk x c =>
      rw [hr] at hchar
      dsimp only
      split_ifs
      · exact hchar.trans _ _ _ (ih _ c)
      · exact hchar.trans _ _ _
          ((BodyFrame.isChunked c 3 (by decide)).trans _ _ _ (BodyFrame.isChunked _ 2 (by decide)))
      · exact hchar.trans _ _ _ (BodyFrame.isChunked c 2 (by decide))
      · exact hchar.trans _ _ _ (BodyFrame.isChunked c 3 (by decide))
      · exact hchar
      · exact hchar.trans _ _ _ (BodyFrame.isChunked c 2 (by decide))
      · exact hchar.trans _ _ _ (ih _ c)

theorem skipTrailer_frame (n k : Nat) (conn : Conn) : BodyFrame conn (skipTrailer n k conn) := by
  induction n generalizing k conn with
  | zero => exact BodyFrame.refl conn
  | succ n ih =>
    have hone := readOne_frame conn
    unfold skipTrailer
    by_cases hstop : 4 ≤ k ∨ conn.isChunked ≠ 3
    · rw [if_pos hstop]
      exact BodyFrame.refl conn
    rw [if_neg hstop]
    cases hr : readOne conn with
    | mk r c =>
      rw [hr] at hone
      have hbad := hone.trans _ _ _ (BodyFrame.isChunked c 2 (by decide))
      cases r with
      | none => exact hbad.trans _ _ _ (ih _ _)
      | some b =>
        dsimp only
        split_ifs
        · exact hone.trans _ _ _ (ih _ c)
        · exact hone.trans _ _ _ (ih _ c)
        · exact hone.trans _ _ _ (ih _ c)
        · exact hbad.trans _ _ _ (ih _ _)

theorem fetchChunk_frame (conn : Conn) : BodyFrame conn (fetchChunk conn).2 := by
  have hline := readSizeLine_frame (lenbufSize - 1) [] conn
  unfold fetchChunk
  generalize readSizeLine (lenbufSize - 1) [] conn = res at hline
  obtain ⟨r, c⟩ := res
  cases r with
  | none => exact hline
  | some chunkSize =>
    dsimp only
    split_ifs
    · exact hline.trans _ _ _ (skipTrailer_frame _ _ c)
    · exact hline.trans _ _ _ ((skipTrailer_frame _ _ c).trans _ _ _ (BodyFrame.isChunked _ 4 (by decide)))
    · exact hline.trans _ _ _ (BodyFrame.contentLen c _)

/-- The connection a turn leaves. -/
def ReadTurn.conn : ReadTurn → Conn
  | .stop _ conn => conn
  | .again conn _ _ => conn

theorem copyTurn_frame (conn : Conn) (len : Nat) (allRead : List Byte) :
    BodyFrame conn (copyTurn conn len allRead).conn := by
  have hread := mgReadInner_frame conn len
  unfold copyTurn
  generalize mgReadInner conn len = res at hread
  obtain ⟨r, c⟩ := res
  cases r with
  | none => exact hread.trans _ _ _ (BodyFrame.isChunked c 2 (by decide))
  | some bs =>
    dsimp only
    by_cases hnil : bs = []
    · rw [if_pos hnil]
      exact hread.trans _ _ _ (BodyFrame.isChunked c 2 (by decide))
    rw [if_neg hnil]
    by_cases hfull : (c.consumedContent : Int) = c.contentLen
    · rw [if_pos hfull]
      have hlast := (BodyFrame.contentLen c (c.contentLen + 2)).trans _ _ _
        (mgReadInner_frame { c with contentLen := c.contentLen + 2 } 2)
      generalize mgReadInner { c with contentLen := c.contentLen + 2 } 2 = res at hlast
      obtain ⟨x, c2⟩ := res
      dsimp only
      split_ifs
      · exact hread.trans _ _ _ (hlast.trans _ _ _ (BodyFrame.isChunked c2 2 (by decide)))
      · exact hread.trans _ _ _ hlast
    · rw [if_neg hfull]
      exact hread

theorem mgReadTurn_frame (conn : Conn) (len : Nat) (allRead : List Byte) :
    BodyFrame conn (mgReadTurn conn len allRead).conn := by
  unfold mgReadTurn
  split_ifs
  · exact BodyFrame.refl conn
  · exact BodyFrame.refl conn
  · exact copyTurn_frame conn len allRead
  · have hfetch := fetchChunk_frame conn
    generalize fetchChunk conn = res at hfetch
    obtain ⟨f, c⟩ := res
    cases f with
    | failed => exact hfetch
    | last => exact hfetch
    | chunk => exact hfetch

theorem mgReadLoop_frame (n : Nat) (conn : Conn) (len : Nat) (allRead : List Byte) :
    BodyFrame conn (mgReadLoop n conn len allRead).2 := by
  induction n generalizing conn len allRead with
  | zero => exact BodyFrame.refl conn
  | succ n ih =>
    have hturn := mgReadTurn_frame conn len allRead
    unfold mgReadLoop
    split_ifs
    · exact BodyFrame.refl conn
    generalize mgReadTurn conn len allRead = t at hturn
    cases t with
    | stop r c => exact hturn
    | again c len allRead => exact hturn.trans _ _ _ (ih c len allRead)

theorem mgRead_frame (conn : Conn) (len : Nat) : BodyFrame conn (mgRead conn len).2 := by
  unfold mgRead
  dsimp only
  split_ifs
  · exact mgReadLoop_frame _ conn _ _
  · exact mgReadInner_frame conn _

end CivetWeb
