import CivetWeb.Conn.ChunkedReads
import CivetWeb.Conn.ReadFrame

namespace CivetWeb

/-- A part of a body at the front of a stream is followed by the rest of the body. -/
theorem ReadPart.rest {r r' : Nat} {e out : List Byte} (h : ReadPart r e out r') {s d u rest : List Byte}
    (hs : ReadBody r s d) (heq : e ++ u = s ++ rest) :
    ∃ s' d', u = s' ++ rest ∧ d = out ++ d' ∧ ReadBody r' s' d' := by
  induction h generalizing s d with
  | nil r => exact ⟨s, d, heq, rfl, hs⟩
  | size line e out n r' hl hn _ ih =>
    obtain ⟨line', t, m, rfl, hl', hmore⟩ := readBody_line s d hs
    rw [List.append_assoc _ e, List.append_assoc _ t] at heq
    obtain ⟨rfl, hrest⟩ := line_unique line line' _ _ hl.noCrlf hl'.noCrlf heq
    obtain rfl : n = m := hl.lineSize.symm.trans hl'.lineSize
    rcases hmore with ⟨hz, -⟩ | ⟨-, ht⟩
    · omega
    · exact ih ht hrest
  | some bs e out r r' hr _ ih =>
    obtain ⟨cs, t, d', rfl, rfl, hlen, ht⟩ := readBody_data _ s d (by omega) hs
    obtain ⟨more, rfl⟩ : bs <+: cs := by
      refine List.prefix_of_prefix_length_le ⟨e ++ u, rfl⟩ ⟨CRLF ++ t ++ rest, ?_⟩ (by omega)
      simp only [List.append_assoc] at heq ⊢
      exact heq.symm
    rw [List.length_append] at hlen
    have hmore : more.length = r := by omega
    have hne : more ≠ [] := List.length_pos_iff.mp (by omega)
    have hbody : ReadBody r (more ++ CRLF ++ t) (more ++ d') := hmore ▸ ChunkedBody.data more t d' hne ht
    simp only [List.append_assoc, List.append_cancel_left_eq] at heq
    obtain ⟨s', d2, hu, hd, hs'⟩ := ih hbody (by simpa only [List.append_assoc] using heq)
    refine ⟨s', d2, hu, ?_, hs'⟩
    rw [List.append_assoc, hd, List.append_assoc]
  | data bs e out r' hne _ ih =>
    obtain ⟨cs, t, d', rfl, rfl, hlen, ht⟩ := readBody_data _ s d (List.length_pos_of_ne_nil hne) hs
    simp only [List.append_assoc] at heq
    obtain ⟨rfl, hrest⟩ := List.append_inj heq hlen.symm
    obtain ⟨s', d2, hu, hd, hs'⟩ := ih ht (List.append_cancel_left hrest)
    exact ⟨s', d2, hu, by rw [hd, List.append_assoc], hs'⟩

/-- No body starts with a size beyond `int64_t`. -/
theorem OversizedNext.absurd {s d u rest : List Byte} (h : OversizedNext u) (hs : ReadBody 0 s d)
    (heq : u = s ++ rest) : False := by
  obtain ⟨text, v, more, rfl, hline, hv⟩ := h
  obtain ⟨line, t, n, rfl, hl, -⟩ := readBody_line s d hs
  obtain ⟨digits, ext, rfl, -, hdigits, rfl, hext⟩ := hline.shape
  rw [List.append_assoc _ t] at heq
  obtain ⟨rfl, -⟩ := line_unique _ line _ _ (readLine_noCrlf digits ext hdigits hext) hl.noCrlf heq
  have hsame := hl.lineSize
  rw [lineSize_eq digits ext hdigits] at hsame
  · have hfits := hl.fits
    omega
  · intro a ha
    rcases hext.1 a ha with rfl | rfl <;> decide

/-- Where a connection stands in the body `body` of its request, when `got` has been read
of its data `payload` and `rest` follows in the stream. -/
inductive BodyAt (body payload : List Byte) (rest got : List Byte) (conn : Conn) : Prop where
  | plain (left : List Byte) : conn.Placed → conn.isChunked = 0 → conn.contentLen = body.length →
      payload = body → conn.unread = left ++ rest → body = got ++ left →
      conn.consumedContent = got.length → BodyAt body payload rest got conn
  | chunks (r : Nat) (s d : List Byte) : conn.AtChunk r → ReadBody r s d →
      conn.unread = s ++ rest → payload = got ++ d → BodyAt body payload rest got conn
  | ended : conn.Placed → conn.isChunked = 4 → conn.contentLen = conn.consumedContent →
      conn.unread = rest → payload = got → BodyAt body payload rest got conn
  | failed : conn.isChunked = 2 → got <+: payload → BodyAt body payload rest got conn

/-- A connection in the body of its request, on a socket that delivers its stream. -/
structure BodyState (body payload : List Byte) (rest got : List Byte) (conn : Conn) : Prop where
  place : BodyAt body payload rest got conn
  steady : conn.isChunked ≠ 2 → Steady conn.sock

theorem BodyAt.got_prefix (body payload rest got : List Byte) (conn : Conn)
    (h : BodyAt body payload rest got conn) : got <+: payload := by
  cases h with
  | plain left _ _ _ hp _ hb _ =>
    rw [hp, hb]
    exact List.prefix_append got left
  | chunks r s d _ _ _ hp =>
    rw [hp]
    exact List.prefix_append got d
  | ended _ _ _ _ hp => exact hp ▸ List.prefix_rfl
  | failed _ hp => exact hp

theorem mgRead_plain (body rest got left : List Byte) (conn : Conn) (len : Nat) (hplaced : conn.Placed)
    (hplain : conn.isChunked = 0) (htotal : conn.contentLen = body.length)
    (hu : conn.unread = left ++ rest) (hbody : body = got ++ left)
    (hc : conn.consumedContent = got.length) :
    BodyAt body body rest (got ++ (mgRead conn len).1.getD []) (mgRead conn len).2 := by
  have hinner : mgRead conn len = mgReadInner conn (min len INT_MAX) := by
    rw [mgRead]
    simp [hplain]
  obtain ⟨bs, hstep, hres, htaken, -⟩ := mgReadInner_spec conn (min len INT_MAX) hplaced
  rw [hinner]
  generalize mgReadInner conn (min len INT_MAX) = res at hstep hres htaken
  obtain ⟨got', c⟩ := res
  dsimp only at hstep hres htaken ⊢
  have hget : got'.getD [] = bs := by
    rcases hres with hres | ⟨hres, hnil⟩
    · rw [hres, Option.getD_some]
    · rw [hres, hnil, Option.getD_none]
  have hle : bs.length ≤ left.length := by
    have hmost := htaken.le
    rw [wanted, htotal, if_neg (by omega), hc, hbody, List.length_append] at hmost
    push_cast at hmost
    omega
  obtain ⟨more, rfl⟩ : bs <+: left := by
    refine List.prefix_of_prefix_length_le ⟨c.unread, ?_⟩ ⟨rest, rfl⟩ hle
    rw [← hstep.unread, hu]
  rw [hget]
  refine BodyAt.plain more hstep.placed ?_ ?_ rfl ?_ ?_ ?_
  · rw [hstep.isChunked, hplain]
  · rw [hstep.contentLen, htotal]
  · have hsplit := hstep.unread
    rw [hu, List.append_assoc] at hsplit
    exact (List.append_cancel_left hsplit).symm
  · rw [hbody, List.append_assoc]
  · rw [hstep.consumedContent, hc, List.length_append]

/-- A read of any length goes on in the body, and never beyond it, unless it is paused in an extension. -/
theorem mgRead_at (body payload rest got : List Byte) (conn : Conn) (len : Nat)
    (h : BodyAt body payload rest got conn) (hplain : ∀ c ∈ mgReadFetches conn len, ¬ PausedExtension c.wire) :
    BodyAt body payload rest (got ++ (mgRead conn len).1.getD []) (mgRead conn len).2 := by
  cases h with
  | plain left hplaced h0 htotal hp hu hb hc =>
    rw [hp]
    exact mgRead_plain body rest got left conn len hplaced h0 htotal hu hb hc
  | chunks r s d hat hs hu hp =>
    have hout := mgRead_sound conn r len hat hplain
    generalize mgRead conn len = res at hout
    cases hout with
    | failed c hbad =>
      refine BodyAt.failed hbad ?_
      rw [hp, Option.getD_none, List.append_nil]
      exact List.prefix_append got d
    | more out e c r' hat' hcu _ _ _ hpart =>
      obtain ⟨s', d', hu', rfl, hs'⟩ := hpart.rest hs (hcu.symm.trans hu)
      refine BodyAt.chunks r' s' d' hat' hs' hu' ?_
      rw [hp, Option.getD_some, List.nil_append, List.append_assoc]
    | done out e c hplaced h4 hend hcu _ hbody =>
      obtain ⟨rfl, rfl⟩ := readBody_unique r e s out d _ rest hbody hs (hcu.symm.trans hu)
      refine BodyAt.ended hplaced h4 hend ?_ ?_
      · rw [hcu] at hu
        exact List.append_cancel_left hu
      · rw [hp, Option.getD_some, List.nil_append]
    | lost out e d' u c _ hcu hpart hnext =>
      obtain ⟨s', _, hu', -, hs'⟩ := hpart.rest hs (hcu.symm.trans hu)
      exact (hnext.absurd hs' hu').elim
  | ended hplaced h4 hend hu hp =>
    obtain ⟨hstay, hnone, -⟩ := mgRead_over conn len (Or.inr (by omega))
    rw [hstay, hnone (by omega)]
    refine BodyAt.ended hplaced h4 hend hu ?_
    rw [hp, Option.getD_some, List.append_nil]
  | failed hbad hp =>
    obtain ⟨hstay, -, hnone⟩ := mgRead_over conn len (Or.inl hbad)
    have hzero : (mgRead conn len).1.getD [] = [] := by
      by_cases hlen : 0 < len
      · rw [hnone hbad hlen]
        rfl
      · obtain rfl : len = 0 := by omega
        rw [mgRead_chunked conn 0 (by omega)]
        rfl
    rw [hstay, hzero, List.append_nil]
    exact BodyAt.failed hbad hp

/-- A steady socket pauses in no extension. -/
theorem BodyState.unpaused (body payload rest got : List Byte) (conn : Conn) (len : Nat)
    (h : BodyState body payload rest got conn) : ∀ c ∈ mgReadFetches conn len, ¬ PausedExtension c.wire := by
  by_cases hch : conn.isChunked = 1
  · refine mgReadFetches_unpaused conn len ?_ (h.steady (by omega))
    cases h.place with
    | plain left hplaced _ _ _ _ _ _ => exact hplaced
    | chunks r s d hat _ _ _ => exact hat.placed
    | ended hplaced _ _ _ _ => exact hplaced
    | failed hbad _ => omega
  · intro c hc
    rw [mgReadFetches, mgReadLoopFetches_over _ conn _ _ hch, ite_self] at hc
    exact absurd hc List.not_mem_nil

theorem mgRead_body (body payload rest got : List Byte) (conn : Conn) (len : Nat)
    (h : BodyState body payload rest got conn) :
    BodyState body payload rest (got ++ (mgRead conn len).1.getD []) (mgRead conn len).2 := by
  refine ⟨mgRead_at body payload rest got conn len h.place (h.unpaused _ _ _ _ _ len), fun hgood => ?_⟩
  by_cases hbad : conn.isChunked = 2
  · rw [(mgRead_over conn len (.inl hbad)).1] at hgood
    exact absurd hbad hgood
  · exact (mgRead_frame conn len).steady (h.steady hbad)

/-- A read that finds nothing more has come to the end of the body. -/
theorem mgRead_end (body payload rest got : List Byte) (conn : Conn) (len : Nat) (hlen : 0 < len)
    (h : BodyState body payload rest got conn) (hread : (mgRead conn len).1 = some []) :
    payload = got := by
  have hpos : 0 < min len INT_MAX := by
    rw [INT_MAX]
    omega
  have hunpaused := h.unpaused _ _ _ _ _ len
  obtain ⟨hplace, hsteady⟩ := h
  cases hplace with
  | plain left hplaced hplain htotal hp hu hb hc =>
    have hinner : mgRead conn len = mgReadInner conn (min len INT_MAX) := by
      rw [mgRead]
      simp [hplain]
    obtain ⟨bs, -, hres, -, hall⟩ := mgReadInner_spec conn (min len INT_MAX) hplaced
    have hnil : conn.unread.take (wanted conn (min len INT_MAX)) = [] := by
      rw [← hall (hsteady (by omega))]
      rcases hres with hres | ⟨-, hnil⟩
      · rw [hinner, hres] at hread
        exact Option.some.inj hread
      · exact hnil
    have hleft : left = [] := by
      have hw : wanted conn (min len INT_MAX) = min (min len INT_MAX) left.length := by
        rw [wanted, htotal, if_neg (by omega), hc, hb, List.length_append]
        push_cast
        omega
      rw [hu, hw] at hnil
      cases left with
      | nil => rfl
      | cons b left =>
        have hlength := congrArg List.length hnil
        simp only [List.length_take, List.length_append, List.length_cons, List.length_nil] at hlength
        omega
    rw [hp, hb, hleft, List.append_nil]
  | chunks r s d hat hs hu hp =>
    have hout := mgRead_sound conn r len hat hunpaused
    generalize mgRead conn len = res at hout hread
    cases hout with
    | failed c hbad => cases hread
    | more out e c r' _ _ _ hlength _ _ =>
      have hnil := congrArg List.length (Option.some.inj hread)
      rw [List.nil_append, hlength, List.length_nil] at hnil
      omega
    | done out e c _ _ _ hcu _ hbody =>
      obtain ⟨rfl, rfl⟩ := readBody_unique r e s out d _ rest hbody hs (hcu.symm.trans hu)
      have hnil : [] ++ out = [] := Option.some.inj hread
      rw [List.nil_append] at hnil
      rw [hp, hnil, List.append_nil]
    | lost out e d' u c _ hcu hpart hnext =>
      obtain ⟨s', _, hu', -, hs'⟩ := hpart.rest hs (hcu.symm.trans hu)
      exact (hnext.absurd hs' hu').elim
  | ended hplaced h4 hend hu hp => exact hp
  | failed hbad hp =>
    obtain ⟨-, -, hnone⟩ := mgRead_over conn len (Or.inl hbad)
    rw [hnone hbad hlen] at hread
    cases hread

/-- What a request handler does with the body of its request: it reads with any lengths,
each chosen from what the reads before returned, and it may ask to close the connection. -/
inductive Handler where
  | done (mustClose : Bool)
  | read (len : Nat) (next : Option (List Byte) → Handler)

/-- A run of a handler: the bytes that it got, and the connection behind it. -/
def Handler.run : Handler → Conn → List Byte × Conn
  | .done mustClose, conn => ([], { conn with mustClose := conn.mustClose || mustClose })
  | .read len next, conn =>
    let (r, conn) := mgRead conn len
    let (bs, conn) := (next r).run conn
    (r.getD [] ++ bs, conn)

/-- The connections on which a handler comes to fetch a chunk. -/
def Handler.fetches : Handler → Conn → List Conn
  | .done _, _ => []
  | .read len next, conn => mgReadFetches conn len ++ (next (mgRead conn len).1).fetches (mgRead conn len).2

/-- The fields of a connection that a body does not depend on. -/
theorem BodyAt.fields (body payload rest got : List Byte) (conn : Conn) (mustClose : Bool)
    (protocolType : Int) (localUri : Option (List Byte))
    (h : BodyAt body payload rest got conn) :
    BodyAt body payload rest got { conn with
      mustClose := mustClose, protocolType := protocolType, localUri := localUri } := by
  have hsame (hplaced : conn.Placed) : Conn.Placed { conn with
      mustClose := mustClose, protocolType := protocolType, localUri := localUri } :=
    ⟨hplaced.head_nonneg, hplaced.head_le, hplaced.data_le⟩
  cases h with
  | plain left hplaced hplain htotal hp hu hb hc =>
    exact BodyAt.plain left (hsame hplaced) hplain htotal hp hu hb hc
  | chunks r s d hat hs hu hp =>
    exact BodyAt.chunks r s d ⟨hsame hat.placed, hat.chunked, hat.left⟩ hs hu hp
  | ended hplaced h4 hend hu hp => exact BodyAt.ended (hsame hplaced) h4 hend hu hp
  | failed hbad hp => exact BodyAt.failed hbad hp

/-- A whole handler keeps to the body of its request. -/
theorem handler_at (handler : Handler) (body payload rest got : List Byte) (conn : Conn)
    (h : BodyAt body payload rest got conn) (hplain : ∀ c ∈ handler.fetches conn, ¬ PausedExtension c.wire) :
    BodyAt body payload rest (got ++ (handler.run conn).1) (handler.run conn).2 := by
  induction handler generalizing got conn with
  | done mustClose =>
    rw [Handler.run, List.append_nil]
    exact h.fields body payload rest got conn _ conn.protocolType conn.localUri
  | read len next ih =>
    have hread := mgRead_at body payload rest got conn len h fun c hc => hplain c (List.mem_append_left _ hc)
    have hnext := ih (mgRead conn len).1 _ _ hread fun c hc => hplain c (List.mem_append_right _ hc)
    rw [List.append_assoc] at hnext
    exact hnext

/-- Handlers leave the request and the buffer alone. -/
theorem handler_frame (handler : Handler) (conn : Conn) :
    ∃ c, BodyFrame conn c ∧ (handler.run conn).2 = { c with
      mustClose := (handler.run conn).2.mustClose } := by
  induction handler generalizing conn with
  | done mustClose => exact ⟨conn, BodyFrame.refl conn, rfl⟩
  | read len next ih =>
    obtain ⟨c, hframe, hc⟩ := ih (mgRead conn len).1 (mgRead conn len).2
    exact ⟨c, (mgRead_frame conn len).trans _ _ _ hframe, hc⟩

end CivetWeb
